import Espl.Sched.Table

/-!
# Who owns a slot

Every slot of the process table is free, being filled by one `fork`, in use by its own process, or a
zombie that its parent will free. This file states that as an invariant of the table and of where every
process is in its code.
-/

namespace Espl.Sched

open Function (update update_self update_of_ne update_eq_self)

inductive Phase where
  | off | up | down
  deriving DecidableEq

structure Embryo where
  slot : Nat
  context : Bool
  parent : Bool
  deriving DecidableEq

/-- Where a process is: its phase, does it hold `ptable.lock`, the slot it is filling, how many slots it
has found without a child of its own, has it found itself killed, is it known not to be the first
process, how many files has it closed, and is its channel null. -/
structure TLocal where
  phase : Phase := .off
  pt : Bool := false
  own : Option Embryo := none
  childless : Nat := 0
  doomed : Bool := false
  other : Bool := false
  closed : Nat := 0
  null : Bool := true

namespace TLocal

def unlock (t : TLocal) : TLocal := { t with pt := false, childless := 0 }

def coreAllowed (t : TLocal) : Step Books → Prop
  | .release l => t.phase = .up ∧ (l = .ptable → t.null = true)
  | .setChan _ => t.phase = .up ∧ t.pt = true
  | .setState state => t.phase = .up ∧ t.pt = true ∧ (state = .sleeping ∨ state = .runnable)
  | .sched => t.phase ≠ .up ∧ t.pt = true
  | .resume => t.phase ≠ .up ∧ t.pt = false
  | .wake _ _ => t.phase = .up ∧ t.pt = true
  | .rouse _ => t.phase = .up ∧ t.pt = true
  | .kill _ => t.phase = .up ∧ t.pt = true
  | .get => False
  | .upd _ => False
  | _ => t.phase = .up

def coreMoves (t : TLocal) : (e : Step Books) → Answer e → TLocal → Prop
  | .acquire l, _, t' => t' = if l = .ptable then { t with pt := true } else t
  | .release l, _, t' => t' = if l = .ptable then t.unlock else t
  | .setChan chan, _, t' => t' = { t with null := chan == .null }
  | .setState _, _, t' => t' = { t with phase := .down }
  | .sched, _, t' => t' = t.unlock
  | .resume, _, t' => t' = { t with phase := .up, pt := true }
  | .killed, r, t' => t' = { t with doomed := r }
  | _, _, t' => t' = t

def allowed (t : TLocal) : TStep → Prop
  | .core e => t.coreAllowed e
  | .tryTake q => t.phase = .up ∧ t.pt = true ∧ t.own = none ∧ q < NPROC
  | .giveBack q => t.phase = .up ∧ ∃ e, t.own = some e ∧ e.slot = q ∧ e.parent = false
  | .setContext q => t.phase = .up ∧ ∃ e, t.own = some e ∧ e.slot = q ∧ e.parent = false
  | .setParent q => t.phase = .up ∧ t.own = some ⟨q, true, false⟩ ∧ t.childless = 0
  | .dupFile q _ => t.phase = .up ∧ t.own = some ⟨q, true, true⟩
  | .setRunnable q => t.phase = .up ∧ t.own = some ⟨q, true, true⟩
  | .adopt _ => t.phase = .up ∧ t.pt = true ∧ t.own = none
  | .setZombie =>
    t.phase = .up ∧ t.pt = true ∧ t.own = none ∧ t.childless = NPROC ∧ t.other = true ∧ NOFILE ≤ t.closed ∧
      t.null = true
  | .reap q => t.phase = .up ∧ t.pt = true ∧ q < NPROC
  | .waitFails => t.phase = .up ∧ t.pt = true ∧ (t.childless = NPROC ∨ t.doomed = true)
  | .start => t.phase = .off ∧ t.pt = false
  | _ => t.phase = .up

def moves (t : TLocal) : (e : TStep) → TStep.Answer e → TLocal → Prop
  | .core e, r, t' => t.coreMoves e r t'
  | .checkInit, _, t' => t' = { t with other := true }
  | .tryTake q, r, t' => t' = if r then { t with own := some ⟨q, false, false⟩ } else t
  | .giveBack _, _, t' => t' = { t with own := none }
  | .setContext q, _, t' => t' = { t with own := some ⟨q, true, false⟩ }
  | .setParent q, _, t' => t' = { t with own := some ⟨q, true, true⟩ }
  | .setRunnable _, _, t' => t' = { t with own := none }
  | .closeFile fd, _, t' => t' = { t with closed := if fd = t.closed then fd + 1 else t.closed }
  | .setFile _ _, _, t' => t' = { t with closed := 0 }
  | .adopt q, _, t' => t' = { t with childless := if q = t.childless ∧ t.other = true then q + 1 else t.childless }
  | .setZombie, _, t' => t' = { pt := true }
  | .reap q, .other, t' => t' = { t with childless := if q = t.childless then q + 1 else t.childless }
  | .start, _, t' => t' = { phase := .up, pt := true }
  | _, _, t' => t' = t

def rules : Rules tsignature TLocal := ⟨allowed, moves⟩

end TLocal

def ProcState.Alive (s : ProcState) : Prop := s = .sleeping ∨ s = .runnable ∨ s = .running

def Phase.Fits : Phase → Proc → Prop
  | .up, x => x.state = .running ∧ x.fresh = false
  | .down, x => (x.state = .sleeping ∨ x.state = .runnable) ∧ x.fresh = false
  | .off, x => x.state = .unused ∨ x.state = .embryo ∨ x.state = .zombie ∨ (x.state = .runnable ∧ x.fresh = true)

/-- What holds of slot `q` with contents `x`; with `aimed`, `kill` only finds processes that have been
started. -/
structure SlotOk (aimed : Prop) (alive : Nat → Prop) (q : Nat) (x : Proc) : Prop where
  parent : ∀ y, x.parent = some y → x.state ≠ .unused ∧ alive y
  orphan : q ≠ initproc → x.parent = none → x.state = .unused ∨ x.state = .embryo
  init : q = initproc → x.state.Alive
  big : NPROC ≤ q → x.state = .unused
  files : x.state = .unused ∨ x.state = .zombie ∨ (x.state = .embryo ∧ x.parent = none) →
    ∀ fd < NOFILE, x.ofile fd = none
  chan : x.state = .unused ∨ x.state = .embryo ∨ x.state = .zombie → x.chan = .null
  killed : aimed → x.state = .unused ∨ x.state = .embryo → x.killed = false

structure SelfOk (x : Proc) (t : TLocal) : Prop where
  phase : t.phase.Fits x
  off : t.phase = .off → t.doomed = false ∧ t.closed = 0 ∧ t.own = none ∧ t.null = true ∧
    (t.pt = true → x.state = .zombie)
  fresh : x.fresh = true → t.pt = false
  doomed : t.doomed = true → x.killed = true
  closed : ∀ fd < t.closed, x.ofile fd = none
  null : t.null = true → x.chan = .null
  lone : t.phase = .up → t.pt = false → t.null = true

structure ThreadOk (s : Table) (p : Nat) (t : TLocal) : Prop where
  pt : t.pt = true → s.lock .ptable = some p
  own : ∀ e, t.own = some e → t.phase ≠ .off ∧ (s.procs e.slot).state = .embryo ∧
    (e.context = true → (s.procs e.slot).fresh = true) ∧
    (s.procs e.slot).parent = (if e.parent then some p else none)
  scan : 0 < t.childless → t.pt = true
  childless : ∀ q < t.childless, (s.procs q).parent ≠ some p
  other : t.other = true → p ≠ initproc

def Table.Alive (s : Table) (q : Nat) : Prop := (s.procs q).state.Alive

structure TInv (aimed : Prop) (s : Table) (t : Nat → TLocal) : Prop where
  slot : ∀ q, SlotOk aimed (Table.Alive s) q (s.procs q)
  self : ∀ p, SelfOk (s.procs p) (t p)
  thread : ∀ p, ThreadOk s p (t p)
  unique : ∀ p q e e', (t p).own = some e → (t q).own = some e' → e.slot = e'.slot → p = q

variable {aimed : Prop} {s s' : Table} {p q : Nat} {t : Nat → TLocal} {u : TLocal} {x : Proc}

theorem SlotOk.mono {alive alive' : Nat → Prop} (h : SlotOk aimed alive q x)
    (imp : ∀ y, x.parent = some y → alive y → alive' y) : SlotOk aimed alive' q x :=
  { h with parent := fun y is => ⟨(h.parent y is).1, imp y is (h.parent y is).2⟩ }

/-- What the others rely on when a step of `p` turns slot `q` into `x`. -/
structure Spares (s : Table) (t : Nat → TLocal) (p q : Nat) (x : Proc) : Prop where
  self : q ≠ p → SelfOk x (t q)
  embryo : ∀ r e, r ≠ p → (t r).own = some e → e.slot = q →
    x.state = .embryo ∧ (e.context = true → x.fresh = true) ∧ x.parent = (s.procs q).parent
  parent : ∀ r, r ≠ p → x.parent = some r → (s.procs q).parent = some r ∨ (t r).childless = 0

theorem TInv.setProc {f : Proc → Proc} (inv : TInv aimed s t) (spares : Spares s t p q (f (s.procs q)))
    (slot : SlotOk aimed (Table.Alive (s.setProc q f)) q (f (s.procs q)))
    (alive : Table.Alive s q → (f (s.procs q)).state.Alive ∨ ∀ r, r ≠ q → (s.procs r).parent ≠ some q)
    (self : SelfOk ((s.setProc q f).procs p) u) (thread : ThreadOk (s.setProc q f) p u)
    (unique : ∀ r e e', r ≠ p → u.own = some e → (t r).own = some e' → e.slot ≠ e'.slot) :
    TInv aimed (s.setProc q f) (update t p u) where
  slot := by
    refine setProc_forall (SlotOk aimed (Table.Alive (s.setProc q f))) slot fun r ne => (inv.slot r).mono ?_
    exact setProc_forall (fun y x => (s.procs r).parent = some y → Table.Alive s y → x.state.Alive)
      (fun is before => (alive before).resolve_right fun none => none r ne is) fun _ _ _ => id
  self := by
    refine (Function.forall_update_iff t fun r => SelfOk ((s.setProc q f).procs r)).mpr ⟨self, ?_⟩
    exact setProc_forall (fun r x => r ≠ p → SelfOk x (t r)) spares.self fun r _ _ => inv.self r
  thread := by
    refine (Function.forall_update_iff t (ThreadOk (s.setProc q f))).mpr ⟨thread, fun r eq => ?_⟩
    have before := inv.thread r
    refine ⟨before.pt, fun e owns => ?_, before.scan, fun y lt => ?_, before.other⟩
    · obtain ⟨up, embryo, context, parent⟩ := before.own e owns
      by_cases same : e.slot = q
      · obtain ⟨embryo', context', parent'⟩ := spares.embryo r e eq owns same
        rw [same] at parent ⊢
        rw [setProc_same]
        exact ⟨up, embryo', context', parent'.trans parent⟩
      · rw [setProc_ne _ _ same]
        exact ⟨up, embryo, context, parent⟩
    · refine setProc_forall (fun y x => y < (t r).childless → x.parent ≠ some r) (fun lt is => ?_)
        (fun y _ lt => before.childless y lt) y lt
      rcases spares.parent r eq is with old | zero
      · exact before.childless q lt old
      · omega
  unique r r' e e' owns owns' same := by
    by_cases eq : r = p
    · by_cases eq' : r' = p
      · rw [eq, eq']
      · subst eq
        rw [update_self] at owns
        rw [update_of_ne eq'] at owns'
        exact absurd same (unique r' e e' eq' owns owns')
    · by_cases eq' : r' = p
      · subst eq'
        rw [update_self] at owns'
        rw [update_of_ne eq] at owns
        exact absurd same.symm (unique r e' e eq owns' owns)
      · rw [update_of_ne eq] at owns
        rw [update_of_ne eq'] at owns'
        exact inv.unique r r' e e' owns owns' same

theorem TInv.congr (inv : TInv aimed s t) (procs : s'.procs = s.procs) (lock : s'.lock .ptable = s.lock .ptable) :
    TInv aimed s' t where
  slot q := by
    have before := inv.slot q
    rw [procs]
    refine before.mono fun y _ alive => ?_
    unfold Table.Alive
    rw [procs]
    exact alive
  self p := by rw [procs]; exact inv.self p
  thread p := by
    have before := inv.thread p
    exact ⟨by rw [lock]; exact before.pt, by rw [procs]; exact before.own, before.scan,
      by rw [procs]; exact before.childless, before.other⟩
  unique := inv.unique

/-! ### Steps on other slots -/

theorem Phase.Fits.of_eq {phase : Phase} {y : Proc} (h : phase.Fits x) (state : y.state = x.state)
    (fresh : y.fresh = x.fresh) : phase.Fits y := by
  cases phase <;> simpa only [Phase.Fits, state, fresh] using h

theorem alive_setProc {f : Proc → Proc} {y : Nat} (h : Table.Alive s y)
    (keep : (s.procs q).state.Alive → (f (s.procs q)).state.Alive) : Table.Alive (s.setProc q f) y := by
  exact setProc_forall (fun y x => Table.Alive s y → x.state.Alive) keep (fun _ _ => id) y h

theorem SelfOk.off_of (h : SelfOk x u) (state : x.state = .unused ∨ x.state = .embryo ∨ x.state = .zombie) :
    u.phase = .off := by
  have fits := h.phase
  cases phase : u.phase with
  | off => rfl
  | up =>
    rw [phase] at fits
    simp [Phase.Fits] at fits
    simp [fits] at state
  | down =>
    rw [phase] at fits
    simp [Phase.Fits] at fits
    rcases fits.1 with now | now <;> simp [now] at state

theorem SelfOk.alive (h : SelfOk x u) (on : u.phase ≠ .off) : x.state.Alive := by
  have fits := h.phase
  cases phase : u.phase with
  | off => exact absurd phase on
  | up =>
    rw [phase] at fits
    exact Or.inr (Or.inr fits.1)
  | down =>
    rw [phase] at fits
    exact fits.1.imp_right Or.inl

theorem TInv.setProc_keep {f : Proc → Proc} (inv : TInv aimed s t) (self : SelfOk (f (s.procs q)) (t q))
    (embryo : ∀ r e, (t r).own = some e → e.slot = q →
      (f (s.procs q)).state = .embryo ∧ (e.context = true → (f (s.procs q)).fresh = true))
    (parent : (f (s.procs q)).parent = (s.procs q).parent)
    (slot : SlotOk aimed (Table.Alive (s.setProc q f)) q (f (s.procs q)))
    (alive : Table.Alive s q → (f (s.procs q)).state.Alive) : TInv aimed (s.setProc q f) t := by
  have before := inv.thread q
  have kept := inv.setProc (p := q) (q := q) (u := t q)
    ⟨fun ne => absurd rfl ne, fun r e _ owns same => ⟨(embryo r e owns same).1, (embryo r e owns same).2, parent⟩,
      fun r _ is => Or.inl (parent ▸ is)⟩ slot (fun now => Or.inl (alive now)) ?_ ⟨before.pt,
        fun e owns => ?_, before.scan,
      fun r lt is => ?_, before.other⟩ fun r e e' ne owns owns' same => ne (inv.unique q r e e' owns owns' same).symm
  · rwa [update_eq_self] at kept
  · rw [setProc_same]
    exact self
  · obtain ⟨up, state, context, is⟩ := before.own e owns
    by_cases same : e.slot = q
    · rw [same] at is ⊢
      rw [setProc_same, parent]
      exact ⟨up, (embryo q e owns same).1, (embryo q e owns same).2, is⟩
    · rw [setProc_ne _ _ same]
      exact ⟨up, state, context, is⟩
  · exact before.childless r lt ((setProc_apply Proc.parent parent r).symm.trans is)

theorem tinv_kill (inv : TInv aimed s t)
    (hit : aimed → (s.procs q).state ≠ .unused ∧ (s.procs q).state ≠ .embryo) :
    TInv aimed (s.setProc q fun x => { x with killed := true }) t := by
  have slot := inv.slot q
  have self := inv.self q
  refine inv.setProc_keep ⟨self.phase.of_eq rfl rfl, self.off, self.fresh, fun _ => rfl, self.closed,
    self.null, self.lone⟩
    (fun r e owns same => ?_) rfl
    ⟨fun y is => ⟨(slot.parent y is).1, alive_setProc (slot.parent y is).2 id⟩, slot.orphan, slot.init, slot.big,
      slot.files, slot.chan, fun aim now => absurd now (not_or.mpr (hit aim))⟩ id
  have own := (inv.thread r).own e owns
  rw [same] at own
  exact ⟨own.2.1, own.2.2.1⟩

theorem tinv_awaken (inv : TInv aimed s t) (sleeping : (s.procs q).state = .sleeping) :
    TInv aimed (s.setProc q fun x => { x with state := .runnable }) t := by
  have slot := inv.slot q
  have self := inv.self q
  have down : (t q).phase = .down := by
    have fits := self.phase
    cases phase : (t q).phase with
    | down => rfl
    | up | off => simp [phase, Phase.Fits, sleeping] at fits
  refine inv.setProc_keep ⟨?_, fun off => ?_, self.fresh, self.doomed, self.closed, self.null, self.lone⟩
    (fun r e owns same => ?_) rfl
    ⟨fun y is => ⟨by simp, alive_setProc (slot.parent y is).2 fun _ => Or.inr (Or.inl rfl)⟩, fun ne none => ?_,
      fun _ => Or.inr (Or.inl rfl), fun big => ?_, fun now => ?_, fun now => ?_, fun _ now => ?_⟩
    fun _ => Or.inr (Or.inl rfl)
  · have fits := self.phase
    rw [down] at fits ⊢
    exact ⟨Or.inr rfl, fits.2⟩
  · rw [down] at off
    cases off
  · have own := ((inv.thread r).own e owns).2.1
    rw [same, sleeping] at own
    cases own
  · have := slot.orphan ne none
    simp [sleeping] at this
  · have := slot.big big
    simp [sleeping] at this
  · simp at now
  · simp at now
  · simp at now

/-! ### Steps on the own slot -/

theorem ProcState.Alive.ne {state : ProcState} (alive : state.Alive) :
    state ≠ .unused ∧ state ≠ .embryo ∧ state ≠ .zombie := by
  rcases alive with rfl | rfl | rfl <;> simp

theorem TInv.not_owned (inv : TInv aimed s t) (alive : Table.Alive s q) {r : Nat} {e : Embryo}
    (owns : (t r).own = some e) : e.slot ≠ q := by
  rintro rfl
  exact alive.ne.2.1 ((inv.thread r).own e owns).2.1

theorem SlotOk.live {alive alive' : Nat → Prop} {y : Proc} (h : SlotOk aimed alive q x) (before : x.state.Alive)
    (now : y.state.Alive) (parent : y.parent = x.parent) (imp : ∀ z, alive z → alive' z) : SlotOk aimed alive' q y where
  parent z is := ⟨now.ne.1, imp z (h.parent z (parent ▸ is)).2⟩
  orphan ne none := by
    rcases h.orphan ne (parent ▸ none) with state | state
    · exact absurd state before.ne.1
    · exact absurd state before.ne.2.1
  init _ := now
  big le := absurd (h.big le) before.ne.1
  files state := by
    rcases state with state | state | state
    · exact absurd state now.ne.1
    · exact absurd state now.ne.2.2
    · exact absurd state.1 now.ne.2.1
  chan state := by
    rcases state with state | state | state
    · exact absurd state now.ne.1
    · exact absurd state now.ne.2.1
    · exact absurd state now.ne.2.2
  killed _ state := by
    rcases state with state | state
    · exact absurd state now.ne.1
    · exact absurd state now.ne.2.1

variable (inv : TInv aimed s t)

include inv

theorem TInv.setSelf {f : Proc → Proc} (before : Table.Alive s p)
    (now : (f (s.procs p)).state.Alive) (parent : (f (s.procs p)).parent = (s.procs p).parent)
    (self : SelfOk (f (s.procs p)) u) (thread : ThreadOk s p u) (own : ∀ e, u.own = some e → (t p).own = some e) :
    TInv aimed (s.setProc p f) (update t p u) := by
  refine inv.setProc
    ⟨fun ne => absurd rfl ne, fun r e _ owns same => absurd same (inv.not_owned before owns),
      fun r _ is => Or.inl (parent ▸ is)⟩ ?_ (fun _ => Or.inl now) ?_ ⟨thread.pt, fun e owns => ?_, thread.scan,
      fun r lt is => ?_, thread.other⟩ fun r e e' ne owns owns' same =>
        ne (inv.unique p r e e' (own e owns) owns' same).symm
  · exact (inv.slot p).live before now parent fun z alive => alive_setProc alive fun _ => now
  · rw [setProc_same]
    exact self
  · rw [setProc_ne _ _ (inv.not_owned before (own e owns))]
    exact thread.own e owns
  · exact thread.childless r lt ((setProc_apply Proc.parent parent r).symm.trans is)

theorem TInv.setValues {holder : Option Nat} (self : SelfOk (s.procs p) u)
    (thread : ThreadOk (s.setLock .ptable holder) p u)
    (others : ∀ r, r ≠ p → (t r).pt = true → holder = some r)
    (own : ∀ e, u.own = some e → (t p).own = some e) :
    TInv aimed (s.setLock .ptable holder) (update t p u) where
  slot := inv.slot
  self := (Function.forall_update_iff t fun r => SelfOk (s.procs r)).mpr ⟨self, fun r _ => inv.self r⟩
  thread := (Function.forall_update_iff t (ThreadOk _)).mpr
    ⟨thread, fun r ne => { inv.thread r with pt := fun pt => (setLock_same ..).trans (others r ne pt) }⟩
  unique r r' e e' owns owns' same := by
    have before := (Function.forall_update_iff t fun r x => ∀ e, x.own = some e → (t r).own = some e).mpr
      ⟨own, fun _ _ _ => id⟩
    exact inv.unique r r' e e' (before r e owns) (before r' e' owns') same

theorem TInv.setLocal (self : SelfOk (s.procs p) u) (thread : ThreadOk s p u)
    (own : ∀ e, u.own = some e → (t p).own = some e) : TInv aimed s (update t p u) := by
  have same : s.setLock .ptable (s.lock .ptable) = s := by simp [State.setLock]
  rw [← same] at thread ⊢
  exact inv.setValues self thread (fun r _ => (inv.thread r).pt) own

theorem TInv.up_alive (up : (t p).phase = .up) :
    (s.procs p).state = .running ∧ (s.procs p).fresh = false := by
  have fits := (inv.self p).phase
  rwa [up] at fits

theorem tinv_setChan {chan : Chan} (up : (t p).phase = .up) (held : (t p).pt = true) :
    TInv aimed (s.setProc p fun x => { x with chan := chan }) (update t p { t p with null := chan == .null }) := by
  have running := (inv.up_alive up).1
  have self := inv.self p
  have thread := inv.thread p
  refine inv.setSelf (Or.inr (Or.inr running)) (Or.inr (Or.inr running)) rfl
    ⟨self.phase.of_eq rfl rfl, fun off => ?_, self.fresh, self.doomed, self.closed, fun null => by simpa using null,
      fun _ pt => absurd (held.symm.trans pt) (by decide)⟩
    ⟨thread.pt, thread.own, thread.scan, thread.childless, thread.other⟩ fun _ => id
  rw [up] at off
  cases off

theorem tinv_setState {state : ProcState} (up : (t p).phase = .up)
    (waits : state = .sleeping ∨ state = .runnable) :
    TInv aimed (s.setProc p fun x => { x with state := state }) (update t p { t p with phase := .down }) := by
  obtain ⟨running, ran⟩ := inv.up_alive up
  have self := inv.self p
  have thread := inv.thread p
  refine inv.setSelf (Or.inr (Or.inr running)) (waits.imp_right Or.inl) rfl
    ⟨⟨waits, ran⟩, fun off => (by cases off), self.fresh, self.doomed, self.closed, self.null, fun up => (by cases up)⟩
    ⟨thread.pt, fun e owns => ⟨by simp, (thread.own e owns).2⟩, thread.scan, thread.childless, thread.other⟩ fun _ => id

theorem tinv_file {fd : Nat} {f : Option Nat} {closed : Nat} (up : (t p).phase = .up)
    (kept : ∀ fd' < closed, update (s.procs p).ofile fd f fd' = none) :
    TInv aimed (s.setProc p fun x => { x with ofile := update x.ofile fd f })
      (update t p { t p with closed := closed }) := by
  have running := (inv.up_alive up).1
  have self := inv.self p
  have thread := inv.thread p
  refine inv.setSelf (Or.inr (Or.inr running)) (Or.inr (Or.inr running)) rfl
    ⟨self.phase.of_eq rfl rfl, fun off => ?_, self.fresh, self.doomed, kept, self.null, self.lone⟩
    ⟨thread.pt, thread.own, thread.scan, thread.childless, thread.other⟩ fun _ => id
  rw [up] at off
  cases off

theorem tinv_closeFile {fd : Nat} (up : (t p).phase = .up) :
    TInv aimed (s.setProc p fun x => { x with ofile := update x.ofile fd none })
      (update t p { t p with closed := if fd = (t p).closed then fd + 1 else (t p).closed }) := by
  refine tinv_file inv up fun fd' lt => ?_
  by_cases eq : fd' = fd
  · rw [eq, update_self]
  · rw [update_of_ne eq]
    refine (inv.self p).closed fd' ?_
    split at lt <;> omega

/-! ### Steps on the lock -/

theorem TInv.setLock {holder : Option Nat}
    (before : s.lock .ptable = none ∨ s.lock .ptable = some p) (self : SelfOk (s.procs p) u)
    (thread : ThreadOk (s.setLock .ptable holder) p u) (own : ∀ e, u.own = some e → (t p).own = some e) :
    TInv aimed (s.setLock .ptable holder) (update t p u) := by
  refine inv.setValues self thread (fun r ne pt => ?_) own
  have held := (inv.thread r).pt pt
  rcases before with none | some
  · exact absurd (none.symm.trans held) nofun
  · exact absurd (Option.some.inj (held.symm.trans some)) ne

theorem tinv_acquire (up : (t p).phase = .up) (free : s.lock .ptable = none) :
    TInv aimed (s.setLock .ptable (some p)) (update t p { t p with pt := true }) := by
  have self := inv.self p
  have thread := inv.thread p
  refine inv.setLock (Or.inl free) ⟨self.phase, fun off => ?_, fun fresh => ?_, self.doomed, self.closed, self.null,
      fun _ pt => (by cases pt)⟩
    ⟨fun _ => by simp, thread.own, fun _ => rfl, thread.childless, thread.other⟩ fun _ => id
  · rw [up] at off
    cases off
  · rw [(inv.up_alive up).2] at fresh
    cases fresh

theorem tinv_release (held : s.lock .ptable = some p)
    (null : (t p).phase = .up → (t p).null = true) :
    TInv aimed (s.setLock .ptable none) (update t p (t p).unlock) := by
  have self := inv.self p
  have thread := inv.thread p
  refine inv.setLock (Or.inr held) ⟨self.phase, fun off => ?_, fun _ => rfl, self.doomed, self.closed,
      self.null, fun up _ => null up⟩ ⟨fun pt => (by cases pt), thread.own, fun pos => (by cases pos), fun q lt =>
        (by cases lt), thread.other⟩
    fun _ => id
  have old := self.off off
  exact ⟨old.1, old.2.1, old.2.2.1, old.2.2.2.1, fun pt => (by cases pt)⟩

theorem tinv_run (free : s.lock .ptable = none) (runnable : (s.procs p).state = .runnable)
    (up : u.phase = .up) (holds : u.pt = true) (own : ∀ e, u.own = some e → (t p).own = some e)
    (childless : u.childless = 0)
    (doomed : u.doomed = true → (s.procs p).killed = true) (closed : ∀ fd < u.closed, (s.procs p).ofile fd = none)
    (null : u.null = true → (s.procs p).chan = .null) (other : u.other = true → p ≠ initproc) :
    TInv aimed ((s.setLock .ptable (some p)).setProc p fun x => { x with state := .running, fresh := false })
      (update t p u) := by
  have thread := inv.thread p
  have locked : TInv aimed (s.setLock .ptable (some p)) _ := inv.setLock (p := p) (u := t p) (Or.inl free) (inv.self p)
    ⟨fun _ => by simp, thread.own, thread.scan, thread.childless, thread.other⟩ fun _ => id
  rw [update_eq_self] at locked
  refine locked.setSelf (Or.inr (Or.inl runnable)) (Or.inr (Or.inr rfl)) rfl
    ⟨?_, fun off => ?_, fun fresh => (by cases fresh), doomed, closed, null, fun _ pt => ?_⟩
    ⟨fun _ => by simp, fun e owns => ⟨by simp [up], (thread.own e (own e owns)).2⟩, fun _ => holds,
      fun q lt => by simp [childless] at lt, other⟩ own
  · rw [up]
    exact ⟨rfl, rfl⟩
  · rw [up] at off
    cases off
  · rw [holds] at pt
    cases pt

end Espl.Sched
