import Espl.Sched.Basic

/-!
# Sleepers and the condition they wait for

A lock, a condition on the data it protects and a channel to wait on until the condition holds. Every
process that sleeps on the channel has found the condition false while it held the lock, and a process
that makes the condition true holds the lock and calls `wakeup` on the channel later on. Every step keeps
what follows from these rules.
-/

namespace Espl.Sched

open Function (update update_self update_of_ne update_eq_self update_idem)

variable {X : Type}

/-- The lock, condition and channel. With `prompt` the wakeup comes before the lock is released. With
`marked` it can also be left out at a mark, if nobody waits for it there. -/
structure Watch (X : Type) where
  lk : Lock
  cond : X → Bool
  chan : Chan
  prompt : Prop := False
  marked : Prop := False

/-- What a process knows about the condition: nothing, that it is false, or that it was false when the
process released the lock on its way to sleep. -/
inductive Sight where
  | unknown | no | gone
  deriving DecidableEq

/-- Where a process is: does it hold the lock and `ptable.lock`, what does it know, is the channel the
one it sleeps on, has it given up the CPU, how many processes has it gone through in `wakeup1`, and does
it have to call `wakeup`. -/
structure Local where
  lk : Bool
  pt : Bool
  sight : Sight
  on : Bool
  down : Bool
  scan : Nat
  due : Bool

namespace Watch

variable (W : Watch X)

def Quiet (f : X → X) : Prop := ∀ x, W.cond (f x) = true → W.cond x = true

def take (l : Lock) (t : Local) : Local :=
  { t with lk := t.lk || l == W.lk, pt := t.pt || l == .ptable }

def drop (l : Lock) (t : Local) : Local :=
  { t with
    lk := t.lk && l != W.lk
    pt := t.pt && l != .ptable
    scan := if l = .ptable then 0 else t.scan
    sight :=
      if l = .ptable then (if t.sight = .gone ∨ l = W.lk then .unknown else t.sight)
      else if l = W.lk ∧ t.sight = .no then (if t.pt = true then .gone else .unknown)
      else t.sight }

def woke (q : Nat) (chan : Chan) (t : Local) : Local :=
  if chan = W.chan ∧ q ≤ t.scan then
    { t with
      sight := if t.sight = .gone then .unknown else t.sight
      scan := max t.scan (q + 1)
      due := t.due && q + 1 != NPROC }
  else t

def allowed (p : Nat) (t : Local) : Step X → Prop
  | .setChan chan => t.down = false ∧ (W.prompt → t.sight = .gone → chan = W.chan)
  | .setState state =>
    t.down = false ∧ p < NPROC ∧ (state = .sleeping → t.pt = true ∧ (t.on = true → t.sight ≠ .unknown)) ∧
      (W.prompt → t.sight = .gone → state = .sleeping ∧ t.on = true)
  | .sched => W.prompt → t.sight ≠ .gone
  | .resume => W.prompt → t.sight ≠ .gone
  | .release l => t.down = false ∧ (W.prompt → t.sight ≠ .gone) ∧ (W.prompt → l = W.lk → t.due = false)
  | .wake _ _ => t.down = false ∧ (W.prompt → t.sight ≠ .gone) ∧ t.pt = true
  | .upd f => t.down = false ∧ (W.prompt → t.sight ≠ .gone) ∧ (t.lk = true ∨ W.Quiet f)
  | .mark => t.down = false ∧ t.sight ≠ .gone
  | _ => t.down = false ∧ (W.prompt → t.sight ≠ .gone)

def moves (t : Local) : (e : Step X) → Answer e → Local → Prop
  | .acquire l, _, t' => t' = W.take l t
  | .release l, _, t' => t' = W.drop l t
  | .setChan chan, _, t' => t' = { t with on := chan == W.chan }
  | .setState _, _, t' => t' = { t with down := true, sight := .unknown, scan := 0 }
  | .sched, _, t' => t' = { W.drop .ptable t with sight := .unknown }
  | .resume, _, t' => t' = { W.take .ptable t with down := false }
  | .wake q chan, _, t' => t' = W.woke q chan t
  | .get, x, t' => t' = { t with sight := if t.lk = true ∧ W.cond x = false then .no else .unknown }
  | .upd f, _, t' =>
    t' = { t with sight := .unknown } ∨ ¬ W.Quiet f ∧ t' = { t with sight := .unknown, due := true }
  | .mark, _, t' => W.marked ∧ t' = { t with due := false } ∨ ¬ W.marked ∧ t' = t
  | _, _, t' => t' = t

def rules (p : Nat) : Rules (signature X) Local := ⟨W.allowed p, W.moves⟩

/-! ### The invariant -/

structure Own (s : State X) (p : Nat) (t : Local) : Prop where
  lk : t.lk = true → s.lock W.lk = some p
  pt : t.pt = true → s.lock .ptable = some p
  no : t.sight = .no → t.lk = true ∧ W.cond s.data = false
  gone : t.sight = .gone → t.pt = true
  on : t.on = true ↔ (s.procs p).chan = W.chan
  down : (s.procs p).state = .sleeping → t.down = true ∧ p < NPROC
  scan : 0 < t.scan → t.pt = true
  scanned : ∀ q < t.scan, ¬ s.Asleep W.chan q
  prompt : W.prompt → t.due = true → t.lk = true

def Dozes (s : State X) (t : Nat → Local) (p : Nat) : Prop := s.Asleep W.chan p ∨ (t p).sight = .gone

structure Inv (s : State X) (t : Nat → Local) : Prop where
  own : ∀ p, W.Own s p (t p)
  pending : ∀ p, W.Dozes s t p → W.cond s.data = true → ∃ q, (t q).due = true

structure Leaves (p : Nat) (s s' : State X) : Prop where
  lock : ∀ l q, q ≠ p → s.lock l = some q → s'.lock l = some q
  cond : W.cond s.data = false → W.cond s'.data = true → s.lock W.lk = some p
  chan : ∀ q, q ≠ p → (s'.procs q).chan = (s.procs q).chan
  state : ∀ q, q ≠ p → (s'.procs q).state = .sleeping → (s.procs q).state = .sleeping
  self : s'.Asleep W.chan p → s.Asleep W.chan p ∨ s.lock .ptable = some p

variable {W} {s s' : State X} {p q : Nat} {t : Nat → Local} {u u' : Local}

theorem Leaves.asleep (h : W.Leaves p s s') (ne : q ≠ p) (asleep : s'.Asleep W.chan q) : s.Asleep W.chan q :=
  ⟨h.state q ne asleep.1, (h.chan q ne).symm.trans asleep.2⟩

theorem Own.other (own : W.Own s q u) (h : W.Leaves p s s') (ne : q ≠ p) : W.Own s' q u where
  lk now := h.lock _ q ne (own.lk now)
  pt now := h.lock _ q ne (own.pt now)
  no now := by
    obtain ⟨held, no⟩ := own.no now
    refine ⟨held, ?_⟩
    by_contra made
    have mine := h.cond no (by simpa using made)
    rw [own.lk held] at mine
    exact ne (Option.some.inj mine)
  gone := own.gone
  on := by rw [h.chan q ne]; exact own.on
  down now := own.down (h.state q ne now)
  scan := own.scan
  scanned r lt asleep := by
    -- nobody falls asleep while `q` holds `ptable.lock`
    by_cases eq : r = p
    · subst eq
      rcases h.self asleep with before | mine
      · exact own.scanned r lt before
      · rw [own.pt (own.scan (by omega))] at mine
        exact ne (Option.some.inj mine)
    · exact own.scanned r lt (h.asleep eq asleep)
  prompt := own.prompt

theorem Inv.update (inv : W.Inv s t) (h : W.Leaves p s s') (own : W.Own s' p u)
    (due : (t p).due = true → u.due = true)
    (made : W.cond s'.data = true → W.cond s.data = true ∨ u.due = true)
    (dozes : s'.Asleep W.chan p ∨ u.sight = .gone → W.cond s.data = true → W.Dozes s t p) :
    W.Inv s' (Function.update t p u) where
  own q := by
    by_cases eq : q = p
    · subst eq
      simpa only [update_self] using own
    · simpa only [update_of_ne eq] using (inv.own q).other h eq
  pending q now cond := by
    rcases made cond with before | owes
    · have old : W.Dozes s t q := by
        by_cases eq : q = p
        · subst eq
          simp only [Dozes, update_self] at now
          exact dozes now before
        · simp only [Dozes, update_of_ne eq] at now
          exact now.imp_left (h.asleep eq)
      obtain ⟨r, owes⟩ := inv.pending q old before
      refine ⟨r, ?_⟩
      by_cases eq : r = p
      · subst eq
        simpa only [update_self] using due owes
      · simpa only [update_of_ne eq] using owes
    · exact ⟨p, by simpa only [update_self] using owes⟩

theorem Inv.settle (inv : W.Inv s t) (h : W.Leaves p s s') (own : W.Own s' p u)
    (asleep : ∀ q, ¬ s'.Asleep W.chan q) (gone : ∀ q, q ≠ p → (t q).sight ≠ .gone) (self : u.sight ≠ .gone) :
    W.Inv s' (Function.update t p u) where
  own q := by
    by_cases eq : q = p
    · subst eq
      simpa only [update_self] using own
    · simpa only [update_of_ne eq] using (inv.own q).other h eq
  pending q now _ := by
    rcases now with now | now
    · exact absurd now (asleep q)
    · by_cases eq : q = p
      · subst eq
        rw [update_self] at now
        exact absurd now self
      · rw [update_of_ne eq] at now
        exact absurd now (gone q eq)

/-! ### Every step keeps it -/

theorem Leaves.of_same (lock : s'.lock = s.lock) (data : s'.data = s.data)
    (chan : ∀ q, (s'.procs q).chan = (s.procs q).chan)
    (state : ∀ q, (s'.procs q).state = .sleeping → (s.procs q).state = .sleeping) : W.Leaves p s s' where
  lock l q _ held := by rw [lock]; exact held
  cond no yes := by rw [data, no] at yes; cases yes
  chan q _ := chan q
  state q _ := state q
  self now := Or.inl ⟨state p now.1, (chan p).symm.trans now.2⟩

theorem Own.of_same (own : W.Own s p u) (lock : s'.lock = s.lock) (data : s'.data = s.data)
    (chan : ∀ q, (s'.procs q).chan = (s.procs q).chan)
    (state : ∀ q, (s'.procs q).state = .sleeping → (s.procs q).state = .sleeping) : W.Own s' p u where
  lk now := by rw [lock]; exact own.lk now
  pt now := by rw [lock]; exact own.pt now
  no now := by rw [data]; exact own.no now
  gone := own.gone
  on := by rw [chan p]; exact own.on
  down now := own.down (state p now)
  scan := own.scan
  scanned q lt now := own.scanned q lt ⟨state q now.1, (chan q).symm.trans now.2⟩
  prompt := own.prompt

theorem Inv.of_same (inv : W.Inv s t) (lock : s'.lock = s.lock) (data : s'.data = s.data)
    (chan : ∀ q, (s'.procs q).chan = (s.procs q).chan)
    (state : ∀ q, (s'.procs q).state = .sleeping → (s.procs q).state = .sleeping) : W.Inv s' t where
  own p := (inv.own p).of_same lock data chan state
  pending p now cond := inv.pending p (now.imp_left fun asleep => ⟨state p asleep.1, (chan p).symm.trans asleep.2⟩)
    (by rw [← data]; exact cond)

theorem inv_acquire {l : Lock} (inv : W.Inv s t) (free : s.lock l = none) :
    W.Inv ((s.setLock l (some p)).setNcli p (s.ncli p + 1)) (update t p (W.take l (t p))) := by
  have own := inv.own p
  have keeps : ∀ m q, s.lock m = some q → (s.setLock l (some p)).lock m = some q := by
    intro m q held
    rw [setLock_ne _ _ (by rintro rfl; rw [free] at held; cases held)]
    exact held
  refine inv.update ⟨fun m q _ => keeps m q, fun no yes => ?_, fun _ _ => rfl, fun _ _ => id, Or.inl⟩
    ⟨fun now => ?_, fun now => ?_, fun now => ?_, fun now => ?_, own.on, own.down, fun now => ?_,
      own.scanned, fun prompt due => ?_⟩ id Or.inl fun now _ => now
  · rw [setNcli_data, setLock_data, no] at yes
    cases yes
  · simp only [take, Bool.or_eq_true, beq_iff_eq] at now
    rcases now with now | rfl
    · exact keeps _ _ (own.lk now)
    · simp
  · simp only [take, Bool.or_eq_true, beq_iff_eq] at now
    rcases now with now | rfl
    · exact keeps _ _ (own.pt now)
    · simp
  · obtain ⟨held, no⟩ := own.no now
    exact ⟨by simp [take, held], no⟩
  · simp [take, own.gone now]
  · simp [take, own.scan now]
  · simp [take, own.prompt prompt due]

theorem drop_no {l : Lock} : (W.drop l u).sight = .no ↔ l ≠ W.lk ∧ u.sight = .no := by
  simp only [drop]
  (repeat' split) <;> grind

theorem drop_gone {l : Lock} (own : W.Own s p u) (h : (W.drop l u).sight = .gone) :
    l ≠ .ptable ∧ u.pt = true ∧ (u.sight = .no ∨ u.sight = .gone) := by
  have gone := own.gone
  simp only [drop] at h
  (repeat' split at h) <;> simp_all

theorem inv_release {l : Lock} {n : Nat} (inv : W.Inv s t)
    (prompt : W.prompt → l = W.lk → (t p).due = false) (held : s.lock l = some p) :
    W.Inv ((s.setLock l none).setNcli p n) (update t p (W.drop l (t p))) := by
  have own := inv.own p
  have keeps : ∀ m q, m ≠ l → s.lock m = some q → (s.setLock l none).lock m = some q := by
    intro m q ne held
    rw [setLock_ne _ _ ne]
    exact held
  refine inv.update ⟨fun m q ne other => keeps m q ?_ other, fun no yes => ?_, fun _ _ => rfl, fun _ _ => id, Or.inl⟩
    ⟨fun now => ?_, fun now => ?_, fun now => ?_, fun now => ?_, own.on, own.down, fun now => ?_, fun q lt => ?_,
      fun strict due => ?_⟩ id Or.inl fun now cond => ?_
  · rintro rfl
    rw [held] at other
    exact ne (Option.some.inj other).symm
  · rw [setNcli_data, setLock_data, no] at yes
    cases yes
  · simp only [drop, Bool.and_eq_true, bne_iff_ne] at now
    exact keeps _ _ now.2.symm (own.lk now.1)
  · simp only [drop, Bool.and_eq_true, bne_iff_ne] at now
    exact keeps _ _ now.2.symm (own.pt now.1)
  · obtain ⟨ne, no⟩ := drop_no.mp now
    obtain ⟨had, no⟩ := own.no no
    exact ⟨by simp [drop, had, ne], no⟩
  · obtain ⟨ne, had, _⟩ := drop_gone own now
    simp [drop, had, ne]
  · simp only [drop] at now ⊢
    split at now
    · cases now
    · rename_i ne
      simp [own.scan now, ne]
  · simp only [drop] at lt
    split at lt
    · cases lt
    · exact own.scanned q lt
  · have ne : l ≠ W.lk := by
      intro eq
      have paid := prompt strict eq
      rw [show (W.drop l (t p)).due = (t p).due from rfl, paid] at due
      cases due
    simp [drop, ne, own.prompt strict due]
  · rcases now with now | now
    · exact Or.inl now
    · rcases (drop_gone own now).2.2 with no | gone
      · -- the lock is released on the way to sleep
        rw [(own.no no).2] at cond
        cases cond
      · exact Or.inr gone

theorem inv_setChan {chan : Chan} (inv : W.Inv s t) (up : (t p).down = false) :
    W.Inv (s.setProc p fun x => { x with chan := chan }) (update t p { t p with on := chan == W.chan }) := by
  have own := inv.own p
  have awake : (s.procs p).state ≠ .sleeping := fun now => by simp [(own.down now).1] at up
  have not_self : ¬ (s.setProc p fun x => { x with chan := chan }).Asleep W.chan p := by
    intro now
    have sleeping := now.1
    rw [setProc_same] at sleeping
    exact awake sleeping
  have other : ∀ q, (s.setProc p fun x => { x with chan := chan }).Asleep W.chan q → s.Asleep W.chan q := by
    intro q now
    have ne : q ≠ p := by rintro rfl; exact not_self now
    rwa [State.Asleep, setProc_ne _ _ ne] at now
  refine inv.update ⟨fun _ _ _ => id, fun no yes => ?_, fun q ne => ?_, fun q ne => ?_, fun now => absurd now not_self⟩
    ⟨own.lk, own.pt, own.no, own.gone, ?_, fun now => ?_, own.scan, fun q lt now => ?_, own.prompt⟩
    id Or.inl fun now _ => now.imp_left (other p)
  · rw [setProc_data, no] at yes
    cases yes
  · rw [setProc_ne _ _ ne]
  · rw [setProc_ne _ _ ne]
    exact id
  · rw [setProc_same]
    exact beq_iff_eq
  · rw [setProc_same] at now
    exact absurd now awake
  · exact own.scanned q lt (other q now)

theorem inv_setState {state : ProcState} (inv : W.Inv s t) (lt : p < NPROC)
    (falls : state = .sleeping → (t p).pt = true ∧ ((t p).on = true → (t p).sight ≠ .unknown)) :
    W.Inv (s.setProc p fun x => { x with state := state })
      (update t p { t p with down := true, sight := .unknown, scan := 0 }) := by
  have own := inv.own p
  refine inv.update ⟨fun _ _ _ => id, fun no yes => ?_, fun q ne => ?_, fun q ne => ?_, fun now => ?_⟩
    ⟨own.lk, own.pt, fun now => (by cases now), fun now => (by cases now), ?_, fun _ => ⟨rfl, lt⟩,
      fun now => (by cases now), fun q lt => (by cases lt), own.prompt⟩ id Or.inl fun now cond => ?_
  · rw [setProc_data, no] at yes
    cases yes
  · rw [setProc_ne _ _ ne]
  · rw [setProc_ne _ _ ne]
    exact id
  · have sleeping := now.1
    rw [setProc_same] at sleeping
    exact Or.inr (own.pt (falls sleeping).1)
  · rw [setProc_same]
    exact own.on
  · rcases now with now | now
    · rw [State.Asleep, setProc_same] at now
      have sees := (falls now.1).2 (own.on.mpr now.2)
      cases sight : (t p).sight with
      | unknown => exact absurd sight sees
      | no =>
        rw [(own.no sight).2] at cond
        cases cond
      | gone => exact Or.inr sight
    · cases now

theorem Inv.forget (inv : W.Inv s t) : W.Inv s (Function.update t p { t p with sight := .unknown }) := by
  have own := inv.own p
  exact inv.update (.of_same rfl rfl (fun _ => rfl) fun _ => id)
    ⟨own.lk, own.pt, fun now => (by cases now), fun now => (by cases now), own.on, own.down, own.scan, own.scanned,
      own.prompt⟩ id Or.inl fun now _ => now.imp_right fun gone => by cases gone

theorem inv_sched (inv : W.Inv s t) (apart : W.prompt → W.lk ≠ .ptable) (held : s.lock .ptable = some p) :
    W.Inv (s.setLock .ptable none) (update t p { W.drop .ptable (t p) with sight := .unknown }) := by
  have released := inv_release (n := s.ncli p) inv (fun strict eq => absurd eq.symm (apart strict)) held
  have forgotten := released.forget (p := p)
  rw [update_idem, update_self] at forgotten
  exact forgotten.of_same rfl rfl (fun _ => rfl) fun _ => id

theorem inv_resume (inv : W.Inv s t) (free : s.lock .ptable = none) :
    W.Inv ((s.setLock .ptable (some p)).setProc p fun x => { x with state := .running })
      (update t p { W.take .ptable (t p) with down := false }) := by
  have own := inv.own p
  have keeps : ∀ m q, s.lock m = some q → (s.setLock .ptable (some p)).lock m = some q := by
    intro m q held
    rw [setLock_ne _ _ (by rintro rfl; rw [free] at held; cases held)]
    exact held
  have not_self : ¬ ((s.setLock .ptable (some p)).setProc p fun x => { x with state := .running }).Asleep W.chan p := by
    intro now
    have sleeping := now.1
    rw [setProc_same] at sleeping
    cases sleeping
  have other : ∀ q, ((s.setLock .ptable (some p)).setProc p fun x => { x with state := .running }).Asleep W.chan q →
      s.Asleep W.chan q := by
    intro q now
    have ne : q ≠ p := by rintro rfl; exact not_self now
    rwa [State.Asleep, setProc_ne _ _ ne] at now
  refine inv.update ⟨fun m q _ => keeps m q, fun no yes => ?_, fun q ne => ?_, fun q ne => ?_,
      fun now => absurd now not_self⟩
    ⟨fun now => ?_, fun _ => by simp, fun now => ?_, fun _ => by simp [take], ?_,
      fun now => ?_, fun now => ?_, fun q lt now => own.scanned q lt (other q now), fun prompt due => ?_⟩
    id Or.inl fun now _ => now.imp_left (other p)
  · rw [setProc_data, setLock_data, no] at yes
    cases yes
  · rw [setProc_ne _ _ ne]
    rfl
  · rw [setProc_ne _ _ ne]
    exact id
  · simp only [take, Bool.or_eq_true, beq_iff_eq] at now
    rcases now with now | eq
    · exact keeps _ _ (own.lk now)
    · rw [← eq]
      simp
  · obtain ⟨held, no⟩ := own.no now
    exact ⟨by simp [take, held], no⟩
  · rw [setProc_same]
    exact own.on
  · rw [setProc_same] at now
    cases now
  · simp [take]
  · simp [take, own.prompt prompt due]

theorem wake_same (s : State X) (chan : Chan) (q : Nat) :
    (s.wake q chan).lock = s.lock ∧ (s.wake q chan).data = s.data ∧
      (∀ r, ((s.wake q chan).procs r).chan = (s.procs r).chan) ∧
      (∀ r, ((s.wake q chan).procs r).state = .sleeping → (s.procs r).state = .sleeping) ∧
      ¬ (s.wake q chan).Asleep chan q := by
  unfold State.wake
  split
  · rename_i asleep
    refine ⟨rfl, rfl, fun r => ?_, fun r now => ?_, fun now => ?_⟩
    · by_cases eq : r = q
      · rw [eq, setProc_same]
      · rw [setProc_ne _ _ eq]
    · by_cases eq : r = q
      · rw [eq]
        exact asleep.1
      · rwa [setProc_ne _ _ eq] at now
    · rw [State.Asleep, setProc_same] at now
      cases now.1
  · rename_i awake
    exact ⟨rfl, rfl, fun _ => rfl, fun _ => id, awake⟩

theorem rouse_eq (s : State X) (q : Nat) : s.rouse q = s.wake q (s.procs q).chan := by
  simp [State.rouse, State.wake, State.Asleep]

theorem inv_wake {chan : Chan} (inv : W.Inv s t) (held : (t p).pt = true) :
    W.Inv (s.wake q chan) (update t p (W.woke q chan (t p))) := by
  obtain ⟨lock, data, chans, states, woken⟩ := wake_same s chan q
  have own := (inv.own p).of_same lock data chans states
  have leaves : W.Leaves p s (s.wake q chan) := .of_same lock data chans states
  unfold woke
  split
  · rename_i scans
    obtain ⟨rfl, le⟩ := scans
    have scanned : ∀ r < max (t p).scan (q + 1), ¬ (s.wake q W.chan).Asleep W.chan r := by
      intro r lt
      by_cases old : r < (t p).scan
      · exact own.scanned r old
      · obtain rfl : r = q := by omega
        exact woken
    have not_gone : (if (t p).sight = .gone then Sight.unknown else (t p).sight) ≠ .gone := by
      split
      · decide
      · assumption
    have own' : W.Own (s.wake q W.chan) p
        { t p with
          sight := if (t p).sight = .gone then .unknown else (t p).sight
          scan := max (t p).scan (q + 1)
          due := (t p).due && q + 1 != NPROC } := by
      refine ⟨own.lk, own.pt, fun now => own.no ?_, fun now => absurd now not_gone, own.on, own.down, fun _ => held,
        scanned, fun prompt due => own.prompt prompt (Bool.and_eq_true _ _ ▸ due).1⟩
      simp only at now
      split at now
      · cases now
      · exact now
    by_cases last : q + 1 = NPROC
    · -- the scan is complete: nobody is asleep, and nobody else can be on the way while `p` holds the lock
      refine inv.settle leaves own' (fun r now => ?_) (fun r ne gone => ?_) not_gone
      · exact scanned r (by have := ((inv.own r).down (states r now.1)).2; omega) now
      · have mine := (inv.own p).pt held
        rw [(inv.own r).pt ((inv.own r).gone gone)] at mine
        exact ne (Option.some.inj mine)
    · refine inv.update leaves own' (fun due => ?_) (fun cond => ?_) fun now _ => ?_
      · simp [due, last]
      · rw [data] at cond
        exact Or.inl cond
      · rcases now with now | now
        · exact Or.inl ⟨states p now.1, (chans p).symm.trans now.2⟩
        · exact absurd now not_gone
  · rw [update_eq_self]
    exact inv.of_same lock data chans states

theorem inv_get (inv : W.Inv s t) :
    W.Inv s (update t p
      { t p with sight := if (t p).lk = true ∧ W.cond s.data = false then .no else .unknown }) := by
  have own := inv.own p
  refine inv.update (.of_same rfl rfl (fun _ => rfl) fun _ => id)
    ⟨own.lk, own.pt, fun now => ?_, fun now => ?_, own.on, own.down, own.scan, own.scanned, own.prompt⟩
    id Or.inl fun now _ => now.imp_right fun gone => ?_
  · simp only at now
    split at now
    · assumption
    · cases now
  · simp only at now
    split at now <;> cases now
  · simp only at gone
    split at gone <;> cases gone

theorem inv_upd {f : X → X} (inv : W.Inv s t) (may : (t p).lk = true ∨ W.Quiet f) :
    ∃ u, W.moves (t p) (.upd f) () u ∧ W.Inv { s with data := f s.data } (update t p u) := by
  have own := inv.own p
  have leaves : W.Leaves p s { s with data := f s.data } := by
    refine ⟨fun _ _ _ => id, fun no yes => ?_, fun _ _ => rfl, fun _ _ => id, Or.inl⟩
    rcases may with held | quiet
    · exact own.lk held
    · rw [quiet s.data yes] at no
      cases no
  have own' : ∀ due, (W.prompt → due = true → (t p).lk = true) →
      W.Own { s with data := f s.data } p { t p with sight := .unknown, due := due } := fun due prompt =>
    ⟨own.lk, own.pt, fun now => (by cases now), fun now => (by cases now), own.on, own.down, own.scan, own.scanned,
      prompt⟩
  by_cases made : W.cond s.data = false ∧ W.cond (f s.data) = true
  · have loud : ¬ W.Quiet f := by
      intro quiet
      rw [quiet s.data made.2] at made
      cases made.1
    refine ⟨_, Or.inr ⟨loud, rfl⟩, inv.update leaves (own' true fun _ _ => may.resolve_right loud) (fun _ => rfl)
      (fun _ => Or.inr rfl) fun now _ => now.imp_right fun gone => ?_⟩
    cases gone
  · refine ⟨_, Or.inl rfl, inv.update leaves (own' (t p).due own.prompt) id (fun yes => Or.inl ?_)
      fun now _ => now.imp_right fun gone => ?_⟩
    · by_contra no
      exact made ⟨by simpa using no, yes⟩
    · cases gone

/-- A step that the rules allow keeps the invariant; a mark only if nobody dozes. -/
theorem inv_step {e : Step X} {r : Answer e} (inv : W.Inv s t) (apart : W.prompt → W.lk ≠ .ptable)
    (may : W.allowed p (t p) e) (calm : W.marked → e = .mark → ∀ q, ¬ W.Dozes s t q)
    (returned : act p e s = .returned r s') : ∃ u, W.moves (t p) e r u ∧ W.Inv s' (update t p u) := by
  have keep : W.Inv s (update t p (t p)) := by
    rw [update_eq_self]
    exact inv
  cases e with
  | acquire l =>
    obtain ⟨free, rfl⟩ := act_acquire returned
    exact ⟨_, rfl, inv_acquire inv free⟩
  | release l =>
    obtain ⟨held, rfl⟩ := act_release returned
    exact ⟨_, rfl, inv_release inv may.2.2 held⟩
  | setChan chan =>
    cases returned
    exact ⟨_, rfl, inv_setChan inv may.1⟩
  | setState state =>
    cases returned
    exact ⟨_, rfl, inv_setState inv may.2.1 may.2.2.1⟩
  | sched =>
    obtain ⟨held, rfl⟩ := act_sched returned
    exact ⟨_, rfl, inv_sched inv apart held⟩
  | resume =>
    obtain ⟨-, free, rfl⟩ := act_resume returned
    exact ⟨_, rfl, inv_resume inv free⟩
  | wake q chan =>
    cases returned
    exact ⟨_, rfl, inv_wake inv may.2.2⟩
  | killed | pid _ =>
    cases returned
    exact ⟨_, rfl, keep⟩
  | kill q =>
    cases returned
    refine ⟨_, rfl, keep.of_same rfl rfl (fun r => ?_) fun r => ?_⟩
    · by_cases eq : r = q
      · rw [eq, setProc_same]
      · rw [setProc_ne _ _ eq]
    · by_cases eq : r = q
      · rw [eq, setProc_same]
        exact id
      · rw [setProc_ne _ _ eq]
        exact id
  | rouse q =>
    cases returned
    obtain ⟨lock, data, chans, states, _⟩ := wake_same s (s.procs q).chan q
    refine ⟨_, rfl, ?_⟩
    rw [rouse_eq]
    exact keep.of_same lock data chans states
  | get =>
    cases returned
    exact ⟨_, rfl, inv_get inv⟩
  | upd f =>
    cases returned
    exact inv_upd inv may.2.2
  | mark =>
    cases returned
    by_cases marked : W.marked
    · have nobody := calm marked rfl
      have own := inv.own p
      exact ⟨_, Or.inl ⟨marked, rfl⟩, inv.settle (.of_same rfl rfl (fun _ => rfl) fun _ => id)
        ⟨own.lk, own.pt, own.no, own.gone, own.on, own.down, own.scan, own.scanned, fun _ due => (by cases due)⟩
        (fun q now => nobody q (Or.inl now)) (fun q _ now => nobody q (Or.inr now)) may.2⟩
    · exact ⟨_, Or.inr ⟨marked, rfl⟩, keep⟩
  | stop => exact r.elim

end Watch

end Espl.Sched
