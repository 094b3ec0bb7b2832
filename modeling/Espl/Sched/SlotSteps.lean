import Espl.Sched.Slots

/-!
# Every step keeps the slots

`fork` fills a slot that no one else fills, `exit` makes a zombie of its own slot only, and `wait` frees
the slots of dead children. So every step of every process keeps the invariant of the table.
-/

namespace Espl.Sched

open Function (update update_self update_of_ne update_eq_self)

variable {aimed : Prop} {s s' : Table} {p q : Nat} {t : Nat → TLocal} {u : TLocal} {x : Proc} (inv : TInv aimed s t)

include inv

/-! ### Steps of `fork` -/

theorem TInv.owned {e : Embryo} (owns : (t p).own = some e) :
    e.slot ≠ p ∧ (s.procs e.slot).state = .embryo ∧ (t e.slot).phase = .off ∧ (t e.slot).pt = false := by
  obtain ⟨on, embryo, _⟩ := (inv.thread p).own e owns
  have off := (inv.self e.slot).off_of (Or.inr (Or.inl embryo))
  refine ⟨fun same => ?_, embryo, off, ?_⟩
  · rw [same] at off
    exact on off
  · cases pt : (t e.slot).pt with
    | false => rfl
    | true =>
      have zombie := ((inv.self e.slot).off off).2.2.2.2 pt
      rw [embryo] at zombie
      cases zombie

theorem TInv.setEmbryo {f : Proc → Proc} {e : Embryo} (owns : (t p).own = some e)
    (fits : Phase.Fits .off (f (s.procs e.slot)))
    (chan : (f (s.procs e.slot)).chan = (s.procs e.slot).chan)
    (parent : (f (s.procs e.slot)).parent = (s.procs e.slot).parent ∨ (f (s.procs e.slot)).parent = some p)
    (slot : SlotOk aimed (Table.Alive (s.setProc e.slot f)) e.slot (f (s.procs e.slot)))
    (own : ∀ e', u.own = some e' → e'.slot = e.slot ∧ u.phase ≠ .off ∧ (f (s.procs e.slot)).state = .embryo ∧
      (e'.context = true → (f (s.procs e.slot)).fresh = true) ∧
      (f (s.procs e.slot)).parent = (if e'.parent then some p else none))
    (rest : u = { t p with own := u.own })
    (childless : u.childless = 0 ∨ (f (s.procs e.slot)).parent = (s.procs e.slot).parent) :
    TInv aimed (s.setProc e.slot f) (update t p u) := by
  obtain ⟨ne, embryo, off, free⟩ := inv.owned owns
  have self := inv.self e.slot
  obtain ⟨alert, open_, idle, null, _⟩ := self.off off
  have mine := inv.self p
  have thread := inv.thread p
  have on := ((inv.thread p).own e owns).1
  refine inv.setProc ⟨fun _ => ⟨by rw [off]; exact fits, fun _ => ⟨alert, open_, idle, null, fun pt => ?_⟩,
    fun _ => free, fun doomed => ?_, fun fd lt => ?_, fun _ => chan.trans (self.null null), fun _ _ => null⟩,
      fun r e' other owns' same => ?_,
      fun r other is => ?_⟩ slot (fun alive => ?_) ?_ ⟨?_, fun e' owns' => ?_, ?_, fun q lt is => ?_, ?_⟩
    fun r e' e'' other owns' owns'' same => ?_
  · rw [free] at pt
    cases pt
  · rw [alert] at doomed
    cases doomed
  · rw [open_] at lt
    cases lt
  · exact absurd (inv.unique p r e e' owns owns' same.symm).symm other
  · rcases parent with old | new
    · exact Or.inl (old ▸ is)
    · rw [new] at is
      exact absurd (Option.some.inj is).symm other
  · exact absurd embryo alive.ne.2.1
  · rw [setProc_ne _ _ ne.symm, rest]
    exact ⟨mine.phase, fun now => absurd now on, mine.fresh, mine.doomed, mine.closed, mine.null, mine.lone⟩
  · rw [rest]
    exact thread.pt
  · obtain ⟨same, up', state, context, is⟩ := own e' owns'
    rw [same, setProc_same]
    exact ⟨up', state, context, is⟩
  · rw [rest]
    exact thread.scan
  · by_cases same : q = e.slot
    · subst same
      rw [setProc_same] at is
      rcases childless with zero | old
      · omega
      · rw [old] at is
        rw [rest] at lt
        exact thread.childless _ lt is
    · rw [setProc_ne _ _ same] at is
      rw [rest] at lt
      exact thread.childless q lt is
  · rw [rest]
    exact thread.other
  · rw [(own e' owns').1] at same
    exact other (inv.unique p r e e'' owns owns'' same).symm

theorem tinv_giveBack {e : Embryo} (owns : (t p).own = some e) (early : e.parent = false) :
    TInv aimed (s.setProc e.slot fun x => { x with state := .unused }) (update t p { t p with own := none }) := by
  obtain ⟨_, embryo, _, is⟩ := (inv.thread p).own e owns
  have slot := inv.slot e.slot
  rw [early] at is
  refine inv.setEmbryo owns (Or.inl rfl) rfl (Or.inl rfl)
    ⟨fun y now => ?_, fun _ _ => Or.inl rfl, fun eq => ?_, fun _ => rfl, fun _ => ?_, fun _ => ?_, fun aim _ => ?_⟩
    (fun _ owns => (by cases owns)) rfl (Or.inr rfl)
  · rw [show (s.procs e.slot).parent = none from is] at now
    cases now
  · exact absurd embryo (slot.init eq).ne.2.1
  · exact slot.files (Or.inr (Or.inr ⟨embryo, is⟩))
  · exact slot.chan (Or.inr (Or.inl embryo))
  · exact slot.killed aim (Or.inr embryo)

theorem tinv_setContext {e : Embryo} (owns : (t p).own = some e) (early : e.parent = false) :
    TInv aimed (s.setProc e.slot fun x => { x with fresh := true })
      (update t p { t p with own := some ⟨e.slot, true, false⟩ }) := by
  obtain ⟨up, embryo, _, is⟩ := (inv.thread p).own e owns
  have slot := inv.slot e.slot
  rw [early] at is
  refine inv.setEmbryo owns (Or.inr (Or.inl embryo)) rfl (Or.inl rfl)
    ⟨fun y now => ⟨(slot.parent y now).1, alive_setProc (slot.parent y now).2 id⟩, slot.orphan, slot.init, slot.big,
      slot.files, slot.chan, slot.killed⟩ (fun e' owns' => ?_) rfl (Or.inr rfl)
  obtain rfl := Option.some.inj owns'
  exact ⟨rfl, up, embryo, fun _ => rfl, is⟩

theorem tinv_setParent (owns : (t p).own = some ⟨q, true, false⟩)
    (childless : (t p).childless = 0) :
    TInv aimed (s.setProc q fun x => { x with parent := some p })
      (update t p { t p with own := some ⟨q, true, true⟩ }) := by
  obtain ⟨up, embryo, context, _⟩ := (inv.thread p).own _ owns
  have ne := (inv.owned owns).1
  have slot := inv.slot q
  refine inv.setEmbryo owns (Or.inr (Or.inl embryo)) rfl (Or.inr rfl)
    ⟨fun y now => ⟨?_, ?_⟩, fun _ now => (by cases now), slot.init, slot.big, fun now => ?_, slot.chan, slot.killed⟩
    (fun e' owns' => ?_) rfl (Or.inl childless)
  · rw [show (s.procs q).state = .embryo from embryo]
    decide
  · obtain rfl := Option.some.inj now
    unfold Table.Alive
    rw [setProc_ne _ _ ne.symm]
    exact (inv.self p).alive up
  · rw [show (s.procs q).state = .embryo from embryo] at now
    simp at now
  · obtain rfl := Option.some.inj owns'
    exact ⟨rfl, up, embryo, context, rfl⟩

theorem tinv_dupFile {fd : Nat} (owns : (t p).own = some ⟨q, true, true⟩) :
    TInv aimed (Table.dupFile s p q fd) t := by
  obtain ⟨up, embryo, context, is⟩ := (inv.thread p).own _ owns
  have slot := inv.slot q
  unfold Table.dupFile
  split
  · have kept := inv.setEmbryo (u := t p) owns
      (f := fun x => { x with ofile := update x.ofile fd ((s.procs p).ofile fd) })
      (Or.inr (Or.inl embryo)) rfl (Or.inl rfl)
      ⟨fun y now => ⟨(slot.parent y now).1, alive_setProc (slot.parent y now).2 id⟩, slot.orphan, slot.init, slot.big,
        fun now => ?_, slot.chan, slot.killed⟩ (fun e' owns' => ?_) rfl (Or.inr rfl)
    · rename_i found
      rw [update_eq_self, found] at kept
      exact kept
    · rw [show (s.procs q).state = .embryo from embryo, show (s.procs q).parent = some p from is] at now
      simp at now
    · rw [owns] at owns'
      obtain rfl := Option.some.inj owns'
      exact ⟨rfl, up, embryo, context, is⟩
  · exact inv

theorem tinv_setRunnable (owns : (t p).own = some ⟨q, true, true⟩) :
    TInv aimed (s.setProc q fun x => { x with state := .runnable }) (update t p { t p with own := none }) := by
  obtain ⟨up, embryo, context, is⟩ := (inv.thread p).own _ owns
  have ne := (inv.owned owns).1
  have slot := inv.slot q
  refine inv.setEmbryo owns (Or.inr (Or.inr (Or.inr ⟨rfl, context rfl⟩))) rfl (Or.inl rfl)
    ⟨fun y now => ⟨by simp, alive_setProc (slot.parent y now).2 fun _ => Or.inr (Or.inl rfl)⟩, fun _ now => ?_,
      fun _ => Or.inr (Or.inl rfl), fun big => ?_, fun now => ?_, fun now => ?_, fun _ now => ?_⟩
    (fun _ owns => (by cases owns)) rfl (Or.inr rfl)
  · rw [show (s.procs q).parent = some p from is] at now
    cases now
  · have := slot.big big
    rw [show (s.procs q).state = .embryo from embryo] at this
    cases this
  · simp at now
  · simp at now
  · simp at now

theorem tinv_take {pid : Int} (up : (t p).phase = .up) (own : (t p).own = none)
    (lt : q < NPROC) (unused : (s.procs q).state = .unused) :
    TInv aimed (s.setProc q fun x => { x with state := .embryo, pid := pid })
      (update t p { t p with own := some ⟨q, false, false⟩ }) := by
  have slot := inv.slot q
  have self := inv.self q
  have off := self.off_of (Or.inl unused)
  have orphan : (s.procs q).parent = none := by
    cases parent : (s.procs q).parent with
    | none => rfl
    | some y => exact absurd unused (slot.parent y parent).1
  have ne : q ≠ p := by
    rintro rfl
    rw [up] at off
    cases off
  have nobody : ∀ r e, (t r).own = some e → e.slot ≠ q := by
    rintro r e owns rfl
    have embryo := ((inv.thread r).own e owns).2.1
    rw [unused] at embryo
    cases embryo
  obtain ⟨alert, open_, idle, null, dying⟩ := self.off off
  have thread := inv.thread p
  have mine := inv.self p
  refine inv.setProc ⟨fun _ =>
    ⟨by rw [off]; exact Or.inr (Or.inl rfl), fun _ => ⟨alert, open_, idle, null, fun pt => ?_⟩,
      self.fresh, self.doomed, self.closed, self.null, self.lone⟩, fun r e _ owns same => absurd same (nobody r e owns),
      fun r _ is => Or.inl is⟩
    ⟨fun y is => ?_, fun _ _ => Or.inr rfl, fun eq => ?_, fun big => ?_, fun _ => ?_, fun _ => ?_, fun aim _ => ?_⟩
    (fun alive => ?_) ?_ ⟨thread.pt, fun e owns => ?_, thread.scan, fun r lt is => ?_, thread.other⟩
    fun r e e' other owns owns' same => ?_
  · have zombie := dying pt
    rw [unused] at zombie
    cases zombie
  · rw [show (s.procs q).parent = some y from is] at orphan
    cases orphan
  · exact absurd unused (slot.init eq).ne.1
  · omega
  · exact slot.files (Or.inl unused)
  · exact slot.chan (Or.inl unused)
  · exact slot.killed aim (Or.inl unused)
  · exact absurd unused alive.ne.1
  · rw [setProc_ne _ _ ne.symm]
    exact ⟨mine.phase, fun now => absurd (up.symm.trans now) (by decide), mine.fresh, mine.doomed,
      mine.closed, mine.null, mine.lone⟩
  · obtain rfl := Option.some.inj owns
    rw [setProc_same]
    exact ⟨by simp [up], rfl, fun now => (by cases now), orphan⟩
  · exact thread.childless r lt ((setProc_apply Proc.parent rfl r).symm.trans is)
  · obtain rfl := Option.some.inj owns
    exact nobody r e' owns' same.symm

/-! ### Steps of `exit` and `wait` -/

theorem TInv.alone (held : (t p).pt = true) {r : Nat} (ne : r ≠ p) :
    (t r).pt = false ∧ (t r).childless = 0 := by
  have free : (t r).pt = false := by
    cases pt : (t r).pt with
    | false => rfl
    | true =>
      have mine := (inv.thread p).pt held
      rw [(inv.thread r).pt pt] at mine
      exact absurd (Option.some.inj mine) ne
  refine ⟨free, ?_⟩
  by_contra pos
  rw [(inv.thread r).scan (by omega)] at free
  cases free

theorem tinv_scan {k : Nat} (held : (t p).pt = true)
    (scanned : ∀ q < k, (s.procs q).parent ≠ some p) : TInv aimed s (update t p { t p with childless := k }) := by
  have self := inv.self p
  have thread := inv.thread p
  exact inv.setLocal ⟨self.phase, self.off, self.fresh, self.doomed, self.closed, self.null, self.lone⟩
    ⟨thread.pt, thread.own, fun _ => held, scanned, thread.other⟩ fun _ => id

theorem tinv_adopt (up : (t p).phase = .up) (held : (t p).pt = true) (own : (t p).own = none)
    (child : (s.procs q).parent = some p) :
    TInv aimed (s.setProc q fun x => { x with parent := some initproc })
      (update t p { t p with childless := if q = (t p).childless ∧
        (t p).other = true then q + 1 else (t p).childless }) := by
  have slot := inv.slot q
  have thread := inv.thread p
  have used := (slot.parent p child).1
  have same_self : ∀ r v, SelfOk (s.procs r) v →
      SelfOk ((s.setProc q fun x => { x with parent := some initproc }).procs r) v :=
    setProc_forall (fun r x => ∀ v, SelfOk (s.procs r) v → SelfOk x v)
      (fun _ self => { self with phase := self.phase.of_eq rfl rfl }) fun _ _ _ => id
  have mine := inv.self p
  refine inv.setProc ⟨fun ne => ?_, fun r e ne owns same => ?_, fun r ne is => ?_⟩
    ⟨fun y is => ⟨used, ?_⟩, fun _ now => (by cases now), slot.init, slot.big, fun now => ?_, slot.chan, slot.killed⟩
    (fun alive => Or.inl alive)
    (same_self p _ ⟨mine.phase, fun off => absurd (up.symm.trans off) (by decide), mine.fresh, mine.doomed, mine.closed,
      mine.null, mine.lone⟩)
    ⟨thread.pt, fun e owns => ?_, fun _ => held, fun r lt is => ?_, thread.other⟩ fun r e e' _ owns => ?_
  · have other := same_self q _ (inv.self q)
    rwa [setProc_same] at other
  · -- a slot being filled by another process is not a child of `p`
    obtain ⟨_, _, _, is⟩ := (inv.thread r).own e owns
    rw [same, child] at is
    split at is
    · exact absurd (Option.some.inj is).symm ne
    · cases is
  · exact Or.inr (inv.alone held ne).2
  · obtain rfl := Option.some.inj is
    exact alive_setProc ((inv.slot initproc).init rfl) id
  · refine slot.files ?_
    rcases now with now | now | now
    · exact Or.inl now
    · exact Or.inr (Or.inl now)
    · cases now.2
  · rw [show (t p).own = some e from owns] at own
    cases own
  · by_cases same : r = q
    · subst same
      rw [setProc_same] at is
      simp only at lt
      split at lt
      · rename_i now
        exact thread.other now.2 (Option.some.inj is).symm
      · exact thread.childless r lt child
    · rw [setProc_ne _ _ same] at is
      simp only at lt
      split at lt
      · exact thread.childless r (by omega) is
      · exact thread.childless r lt is
  · rw [show (t p).own = some e from owns] at own
    cases own

theorem tinv_setZombie (up : (t p).phase = .up) (held : (t p).pt = true)
    (childless : (t p).childless = NPROC) (other : (t p).other = true) (closed : NOFILE ≤ (t p).closed)
    (null : (t p).null = true) :
    TInv aimed (s.setProc p fun x => { x with state := .zombie }) (update t p { pt := true }) := by
  obtain ⟨running, ran⟩ := inv.up_alive up
  have slot := inv.slot p
  have self := inv.self p
  have thread := inv.thread p
  have alive : Table.Alive s p := Or.inr (Or.inr running)
  have nobody : ∀ r, (s.procs r).parent ≠ some p := by
    intro r is
    by_cases lt : r < NPROC
    · exact thread.childless r (by omega) is
    · exact ((inv.slot r).parent p is).1 ((inv.slot r).big (by omega))
  refine inv.setProc ⟨fun ne => absurd rfl ne, fun r e _ owns same => absurd same (inv.not_owned alive owns),
      fun r _ is => Or.inl is⟩
    ⟨fun y is => ⟨by simp, ?_⟩, fun ne now => ?_, fun eq => absurd eq (thread.other other), fun big => ?_,
      fun _ fd lt => ?_, fun _ => self.null null, fun _ now => ?_⟩ (fun _ => Or.inr fun r _ => nobody r) ?_
    ⟨fun _ => thread.pt held, fun e owns => (by cases owns), fun pos => (by cases pos), fun r lt => (by cases lt),
      fun now => (by cases now)⟩ fun r e e' _ owns => (by cases owns)
  · have ne : y ≠ p := by
      rintro rfl
      exact nobody y is
    have before := (slot.parent y is).2
    unfold Table.Alive at before ⊢
    rwa [setProc_ne _ _ ne]
  · have := slot.orphan ne now
    simp [running] at this
  · have := slot.big big
    simp [running] at this
  · exact self.closed fd (by omega)
  · simp at now
  · rw [setProc_same]
    exact ⟨Or.inr (Or.inr (Or.inl rfl)), fun _ => ⟨rfl, rfl, rfl, rfl, fun _ => rfl⟩,
      fun fresh => absurd (ran.symm.trans fresh) (by decide), fun now => (by cases now), fun fd lt => (by cases lt),
      fun _ => self.null null, fun _ _ => rfl⟩

theorem tinv_free (held : (t p).pt = true) (up : (t p).phase = .up)
    (zombie : (s.procs q).state = .zombie) :
    TInv aimed (s.setProc q fun x => { x with state := .unused, pid := 0, parent := none, killed := false }) t := by
  have slot := inv.slot q
  have self := inv.self q
  have thread := inv.thread p
  have off := self.off_of (Or.inr (Or.inr zombie))
  have ne : q ≠ p := by
    rintro rfl
    rw [up] at off
    cases off
  obtain ⟨alert, open_, idle, null, _⟩ := self.off off
  have nobody : ∀ r e, (t r).own = some e → e.slot ≠ q := by
    rintro r e owns rfl
    have embryo := ((inv.thread r).own e owns).2.1
    rw [zombie] at embryo
    cases embryo
  have freed := inv.setProc (p := p) (q := q) (u := t p)
    (f := fun x => { x with state := .unused, pid := 0, parent := none, killed := false })
    ⟨fun _ => ⟨by rw [off]; exact Or.inl rfl, fun _ => ⟨alert, open_, idle, null, fun pt => ?_⟩,
      fun _ => (inv.alone held ne).1, fun doomed => ?_, fun fd lt => ?_, self.null, self.lone⟩,
      fun r e _ owns same => absurd same (nobody r e owns), fun r _ is => (by cases is)⟩
    ⟨fun y is => (by cases is), fun _ _ => Or.inl rfl, fun eq => ?_, fun _ => rfl,
      fun _ => slot.files (Or.inr (Or.inl zombie)), fun _ => slot.chan (Or.inr (Or.inr zombie)), fun _ _ => rfl⟩
    (fun alive => absurd zombie alive.ne.2.2) ?_ ⟨thread.pt, fun e owns => ?_, thread.scan,
      fun r lt is => ?_, thread.other⟩
    fun r e e' other owns owns' same => other (inv.unique p r e e' owns owns' same).symm
  · rwa [update_eq_self] at freed
  · rw [(inv.alone held ne).1] at pt
    cases pt
  · rw [alert] at doomed
    cases doomed
  · rw [open_] at lt
    cases lt
  · exact absurd zombie (slot.init eq).ne.2.2
  · rw [setProc_ne _ _ ne.symm]
    exact inv.self p
  · rw [setProc_ne _ _ (nobody p e owns)]
    exact thread.own e owns
  · exact setProc_forall (fun r x => r < (t p).childless → x.parent ≠ some p) (fun _ is => (by cases is))
      (fun r _ => thread.childless r) r lt is

/-! ### Every step -/

theorem TInv.keep : TInv aimed s (update t p (t p)) := by
  rw [update_eq_self]
  exact inv

theorem tinv_core {e : Step Books} {r : Answer e} (may : (t p).coreAllowed e)
    (hit : ∀ q, e = .kill q → aimed → (s.procs q).state ≠ .unused ∧ (s.procs q).state ≠ .embryo)
    (resumes : e = .resume → (s.procs p).fresh = false) (returned : act p e s = .returned r s') :
    ∃ u, (t p).coreMoves e r u ∧ TInv aimed s' (update t p u) := by
  cases e with
  | acquire l =>
    obtain ⟨free, rfl⟩ := act_acquire returned
    refine ⟨_, rfl, ?_⟩
    by_cases same : l = .ptable
    · subst same
      rw [if_pos rfl]
      exact (tinv_acquire inv may free).congr rfl rfl
    · rw [if_neg same]
      exact inv.keep.congr rfl (setLock_ne _ _ (Ne.symm same))
  | release l =>
    obtain ⟨held, rfl⟩ := act_release returned
    refine ⟨_, rfl, ?_⟩
    by_cases same : l = .ptable
    · subst same
      rw [if_pos rfl]
      exact (tinv_release inv held fun _ => may.2 rfl).congr rfl rfl
    · rw [if_neg same]
      exact inv.keep.congr rfl (setLock_ne _ _ (Ne.symm same))
  | setChan chan =>
    cases returned
    exact ⟨_, rfl, tinv_setChan inv may.1 may.2⟩
  | setState state =>
    cases returned
    exact ⟨_, rfl, tinv_setState inv may.1 may.2.2⟩
  | sched =>
    obtain ⟨held, rfl⟩ := act_sched returned
    exact ⟨_, rfl, tinv_release inv held fun up => absurd up may.1⟩
  | resume =>
    obtain ⟨runs, unlocked, rfl⟩ := act_resume returned
    have ran := resumes rfl
    have free : (t p).childless = 0 := by
      by_contra pos
      have held := (inv.thread p).pt ((inv.thread p).scan (by omega))
      rw [unlocked] at held
      cases held
    have self := inv.self p
    refine ⟨_, rfl, (tinv_run (u := { t p with phase := .up, pt := true }) inv unlocked runs rfl rfl (fun _ => id) free
      self.doomed self.closed self.null (inv.thread p).other).congr ?_ rfl⟩
    simp [State.setProc, ran]
  | wake q chan =>
    cases returned
    refine ⟨_, rfl, ?_⟩
    unfold State.wake
    split
    · rename_i asleep
      exact tinv_awaken inv.keep asleep.1
    · exact inv.keep
  | killed =>
    cases returned
    have self := inv.self p
    have thread := inv.thread p
    refine ⟨_, rfl, inv.setLocal { self with off := fun off => ?_, doomed := id } { thread with } fun _ => id⟩
    rw [show (t p).phase = .up from may] at off
    cases off
  | pid _ | mark =>
    cases returned
    exact ⟨_, rfl, inv.keep⟩
  | kill q =>
    cases returned
    exact ⟨_, rfl, tinv_kill inv.keep (hit q rfl)⟩
  | rouse q =>
    cases returned
    refine ⟨_, rfl, ?_⟩
    unfold State.rouse
    split
    · rename_i asleep
      exact tinv_awaken inv.keep asleep
    · exact inv.keep
  | get | upd _ => exact may.elim
  | stop => exact r.elim

omit inv in
theorem tact_core {e : Step Books} {r : Answer e} (returned : tact p (.core e) s = .returned r s') :
    act p e s = .returned r s' ∧ (e = .resume → (s.procs p).fresh = false) := by
  cases e with
  | resume =>
    simp only [tact] at returned
    split at returned
    · cases returned
    · rename_i ran
      refine ⟨?_, fun _ => by simpa using ran⟩
      split at returned
      · rename_i same
        cases returned
        exact same
      · cases returned
      · cases returned
  | _ =>
    simp only [tact] at returned
    split at returned
    · rename_i same
      cases returned
      exact ⟨same, nofun⟩
    · cases returned
    · cases returned

theorem tinv_step {e : TStep} {r : TStep.Answer e} (may : (t p).allowed e)
    (hit : ∀ q, e = .core (.kill q) → aimed → (s.procs q).state ≠ .unused ∧ (s.procs q).state ≠ .embryo)
    (returned : tact p e s = .returned r s') : ∃ u, (t p).moves e r u ∧ TInv aimed s' (update t p u) := by
  cases e with
  | core e =>
    obtain ⟨returned, resumes⟩ := tact_core returned
    exact tinv_core inv may (fun q eq => hit q (by rw [eq])) resumes returned
  | self | parent =>
    cases returned
    exact ⟨_, rfl, inv.keep⟩
  | checkInit =>
    simp only [tact] at returned
    split at returned
    · cases returned
    · rename_i other
      cases returned
      have self := inv.self p
      have thread := inv.thread p
      exact ⟨_, rfl, inv.setLocal { self with } { thread with other := fun _ => other } fun _ => id⟩
  | tryTake q =>
    simp only [tact] at returned
    split at returned <;> cases returned
    · rename_i unused
      exact ⟨_, rfl, (tinv_take inv may.1 may.2.2.1 may.2.2.2 unused).congr rfl rfl⟩
    · exact ⟨_, rfl, inv.keep⟩
  | giveBack q =>
    cases returned
    obtain ⟨-, e, owns, rfl, early⟩ := may
    exact ⟨_, rfl, tinv_giveBack inv owns early⟩
  | setContext q =>
    cases returned
    obtain ⟨-, e, owns, rfl, early⟩ := may
    exact ⟨_, rfl, tinv_setContext inv owns early⟩
  | setParent q =>
    cases returned
    exact ⟨_, rfl, tinv_setParent inv may.2.1 may.2.2⟩
  | dupFile q fd =>
    cases returned
    refine ⟨_, rfl, ?_⟩
    rw [update_eq_self]
    exact tinv_dupFile inv may.2
  | setRunnable q =>
    cases returned
    exact ⟨_, rfl, tinv_setRunnable inv may.2⟩
  | closeFile fd =>
    cases returned
    exact ⟨_, rfl, tinv_closeFile inv may⟩
  | setFile fd f =>
    cases returned
    exact ⟨_, rfl, tinv_file inv may fun fd' lt => (by cases lt)⟩
  | adopt q =>
    simp only [tact] at returned
    split at returned <;> cases returned
    · rename_i child
      exact ⟨_, rfl, tinv_adopt inv may.1 may.2.1 may.2.2 child⟩
    · rename_i other
      refine ⟨_, rfl, tinv_scan inv may.2.1 fun r lt is => ?_⟩
      split at lt
      · rename_i next
        by_cases same : r = q
        · exact other (same ▸ is)
        · exact (inv.thread p).childless r (by omega) is
      · exact (inv.thread p).childless r lt is
  | setZombie =>
    cases returned
    obtain ⟨up, held, _, childless, other, closed, null⟩ := may
    exact ⟨_, rfl, (tinv_setZombie inv up held childless other closed null).congr rfl rfl⟩
  | reap q =>
    simp only [tact] at returned
    split at returned
    · split at returned <;> cases returned
      · rename_i zombie
        refine ⟨_, rfl, ?_⟩
        rw [update_eq_self]
        exact (tinv_free inv may.2.1 may.1 zombie).congr rfl rfl
      · exact ⟨_, rfl, inv.keep⟩
    · rename_i other
      cases returned
      refine ⟨_, rfl, tinv_scan inv may.2.1 fun r lt is => ?_⟩
      split at lt
      · by_cases same : r = q
        · exact other (same ▸ is)
        · exact (inv.thread p).childless r (by omega) is
      · exact (inv.thread p).childless r lt is
  | waitFails =>
    cases returned
    exact ⟨_, rfl, inv.keep.congr rfl rfl⟩
  | start =>
    simp only [tact] at returned
    split at returned <;> cases returned
    rename_i runs
    have off := (inv.self p).off may.1
    refine ⟨_, rfl, (tinv_run (u := { phase := .up, pt := true }) inv runs.2.2 runs.2.1 rfl rfl nofun rfl
      (fun now => ?_) (fun fd lt => ?_) (fun _ => (inv.self p).null off.2.2.2.1) fun now => ?_).congr rfl rfl⟩
    · cases now
    · cases lt
    · cases now
  | panic m => exact r.elim

end Espl.Sched
