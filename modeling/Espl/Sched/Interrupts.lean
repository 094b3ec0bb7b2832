import Espl.Sched.Cli

/-!
# Interrupts and pushcli nesting

`ncli` and `intena` belong to a CPU, but the nesting they describe belongs to the thread. On any number of
CPUs the switches between threads keep them in step.
-/

namespace Espl.Sched.Cli

open Function (update update_self update_of_ne)

structure Parked (T : Thread) : Prop where
  pc : T.level.pc = .parked
  held : T.level.held = [.ptable]
  frames : T.frames = []
  found : T.level.found = true

structure Waits (T : Thread) : Prop where
  held : T.level.held = [.ptable]
  frames : ∀ f ∈ T.frames, f.1 = true ∧ f.2.Stoppable
  pc : T.level.pc = .newborn ∨ ∃ intena, T.level.pc = .switched intena ∧ Opened False intena T.level.found T.level.lent

structure Inv (s : State) : Prop where
  runs : ∀ c, Runs c (s.view c)
  alone : ∀ {c d}, (s.cpu c).thread = (s.cpu d).thread → c = d
  home : ∀ {c d}, (s.cpu c).thread = .scheduler d → d = c
  parked : ∀ {c}, (s.cpu c).thread ≠ .scheduler c → Parked (s.thread (.scheduler c))
  waits : ∀ {p}, (∀ c, (s.cpu c).thread ≠ .process p) → Waits (s.thread (.process p))

section

variable {c d p : Nat} {s s' : State} {e : Event} {m : Panic} {v : View} {T : Thread} {intena : Bool}

theorem Runs.relock (h : Runs c v) {L : Lock → Option Nat} (same : ∀ l, L l = some c ↔ v.lock l = some c) :
    Runs c { v with lock := L } :=
  ⟨h.frames, h.ncli, h.fits, fun l member => (same l).mpr (h.holds l member), h.nodup⟩

theorem view_put_self (s : State) (same : v.cpu.thread = (s.cpu c).thread) : (s.put c v).view c = v := by
  obtain ⟨cpu, thread, lock⟩ := v
  simp only [State.view, State.put, update_self]
  rw [same, update_self]

theorem view_put_other (s : State) (other : d ≠ c) (apart : (s.cpu d).thread ≠ (s.cpu c).thread) :
    (s.put c v).view d = { s.view d with lock := v.lock } := by
  simp only [State.view, State.put, update_of_ne other, update_of_ne apart]

theorem Inv.act (h : Inv s) {a : Action} (returned : Cli.act c a (s.view c) = .returned () v) : Inv (s.put c v) := by
  have change := act_change returned
  have threads : ∀ d, ((s.put c v).cpu d).thread = (s.cpu d).thread := by
    intro d
    by_cases same : d = c
    · subst same
      simp only [State.put, update_self]
      exact change.thread
    · simp only [State.put, update_of_ne same]
  constructor
  · intro d
    by_cases same : d = c
    · subst same
      rw [view_put_self s change.thread]
      exact act_runs (h.runs d) returned
    · rw [view_put_other s same fun together => same (h.alone together)]
      exact (h.runs d).relock fun l => change.others l d same
  · intro d d' together
    rw [threads, threads] at together
    exact h.alone together
  · intro d d' scheduler
    rw [threads] at scheduler
    exact h.home scheduler
  · intro d away
    rw [threads] at away
    have other : Tid.scheduler d ≠ (s.cpu c).thread := by
      intro here
      obtain rfl := h.home here.symm
      exact away here.symm
    simp only [State.put, update_of_ne other]
    exact h.parked away
  · intro p away
    simp only [threads] at away
    simp only [State.put, update_of_ne (away c).symm]
    exact h.waits away

theorem swtch_thread_self (s : State) (old next : Thread) (t : Tid) (intena : Bool) :
    ((s.swtch c old next t intena).cpu c).thread = t := by
  simp only [State.swtch, update_self]

theorem swtch_thread_other (s : State) (old next : Thread) (t : Tid) (intena : Bool) (other : d ≠ c) :
    ((s.swtch c old next t intena).cpu d).thread = (s.cpu d).thread := by
  simp only [State.swtch, update_of_ne other]

theorem Inv.swtch (h : Inv s) {old next : Thread} {t : Tid} (away : ∀ d, (s.cpu d).thread ≠ t)
    (runs : Runs c ⟨{ s.cpu c with thread := t, intena := intena }, next, s.lock⟩)
    (home : ∀ d, t = .scheduler d → d = c)
    (parks : ∀ d, (s.cpu c).thread = .scheduler d → Parked old)
    (waits : ∀ p, (s.cpu c).thread = .process p → Waits old) : Inv (s.swtch c old next t intena) := by
  constructor
  · intro d
    by_cases same : d = c
    · subst same
      simpa only [State.view, State.swtch, update_self] using runs
    · have apart : (s.cpu d).thread ≠ (s.cpu c).thread := fun together => same (h.alone together)
      have view : (s.swtch c old next t intena).view d = s.view d := by
        simp only [State.view, State.swtch, update_of_ne same, update_of_ne (away d), update_of_ne apart]
      rw [view]
      exact h.runs d
  · intro d d' together
    by_cases same : d = c
    · by_cases same' : d' = c
      · rw [same, same']
      · rw [same, swtch_thread_self, swtch_thread_other _ _ _ _ _ same'] at together
        exact absurd together.symm (away d')
    · by_cases same' : d' = c
      · rw [same', swtch_thread_self, swtch_thread_other _ _ _ _ _ same] at together
        exact absurd together (away d)
      · rw [swtch_thread_other _ _ _ _ _ same, swtch_thread_other _ _ _ _ _ same'] at together
        exact h.alone together
  · intro d d' scheduler
    by_cases same : d = c
    · rw [same, swtch_thread_self] at scheduler
      rw [same, home d' scheduler]
    · rw [swtch_thread_other _ _ _ _ _ same] at scheduler
      exact h.home scheduler
  · intro d gone
    have other : Tid.scheduler d ≠ t := by
      intro here
      obtain rfl := home d here.symm
      exact gone ((swtch_thread_self ..).trans here.symm)
    simp only [State.swtch, update_of_ne other]
    by_cases left : Tid.scheduler d = (s.cpu c).thread
    · rw [left, update_self]
      exact parks d left.symm
    · rw [update_of_ne left]
      refine h.parked fun there => ?_
      by_cases same : d = c
      · exact left (same ▸ there.symm)
      · exact gone ((swtch_thread_other _ _ _ _ _ same).trans there)
  · intro p gone
    have other : Tid.process p ≠ t := fun here => gone c ((swtch_thread_self ..).trans here.symm)
    simp only [State.swtch, update_of_ne other]
    by_cases left : Tid.process p = (s.cpu c).thread
    · rw [left, update_self]
      exact waits p left.symm
    · rw [update_of_ne left]
      refine h.waits fun d there => ?_
      by_cases same : d = c
      · exact left (same ▸ there.symm)
      · exact gone d ((swtch_thread_other _ _ _ _ _ same).trans there)

theorem Inv.alone_held (h : Inv s) (pc : (s.view c).thread.level.pc = .body)
    (held : (s.view c).thread.level.held = [.ptable]) :
    s.lock .ptable = some c ∧ (s.cpu c).ncli = 1 ∧ (s.cpu c).ifl = false ∧
      Opened ((s.cpu c).thread = .scheduler c ∧ (s.view c).thread.frames = []) (s.cpu c).intena
        (s.view c).thread.level.found (s.view c).thread.level.lent := by
  have runs := h.runs c
  have fits := runs.fits
  rw [Fits, pc] at fits
  obtain ⟨off, opened⟩ := fits (by rw [held]; exact List.cons_ne_nil _ _)
  refine ⟨runs.holds .ptable (by rw [held]; exact List.mem_singleton_self _), ?_, off, opened⟩
  refine runs.ncli.trans ?_
  rw [Level.depth, pc, held]
  rfl

theorem runs_switched {cpu : Cpu} {L : Lock → Option Nat} (held : T.level.held = [.ptable])
    (frames : ∀ f ∈ T.frames, f.1 = true ∧ f.2.Stoppable) (lock : L .ptable = some c) (ncli : cpu.ncli = 1)
    (off : cpu.ifl = false)
    (opened : Opened (cpu.thread = .scheduler c ∧ T.frames = []) cpu.intena T.level.found T.level.lent)
    (pc : T.level.pc = .body) : Runs c ⟨cpu, T, L⟩ := by
  refine ⟨frames, ?_, ?_, ?_, ?_⟩
  · dsimp only
    rw [ncli, Level.depth, pc, held]
    rfl
  · dsimp only
    rw [Fits, pc]
    exact fun _ => ⟨off, opened⟩
  · intro l member
    dsimp only at member ⊢
    rw [held] at member
    rw [List.mem_singleton.mp member, lock]
  · dsimp only
    rw [held]
    simp

theorem step_inv (h : Inv s) (returned : step c e s = .returned () s') : Inv s' := by
  cases e with
  | act a =>
    simp only [step] at returned
    split at returned <;> cases returned
    rename_i done
    exact h.act done
  | sched =>
    simp only [step] at returned
    split at returned
    · rename_i p process
      split at returned
      · rename_i here
        obtain ⟨lock, ncli, off, opened⟩ := h.alone_held here.1 here.2
        rw [if_neg (not_not.mpr lock), if_neg (not_not.mpr ncli), if_neg (by rw [off]; decide)] at returned
        cases returned
        have gone : (s.cpu c).thread ≠ .scheduler c := by
          rw [process]
          exact fun same => by cases same
        have parked := h.parked gone
        refine h.swtch (fun d there => ?_) ?_ (fun d same => ?_) (fun d scheduler => ?_) (fun p _ => ?_)
        · obtain rfl := h.home there
          exact gone there
        · refine runs_switched parked.held ?_ lock ncli off ⟨fun _ => parked.found, fun own => ?_, fun _ =>
            parked.found⟩ rfl
          · simp only [Thread.lend, Thread.goto, parked.frames]
            exact fun f member => absurd member List.not_mem_nil
          · cases own
        · exact (Tid.scheduler.inj same).symm
        · rw [process] at scheduler
          cases scheduler
        · exact ⟨here.2, (h.runs c).frames, Or.inr ⟨_, rfl, opened.enables, opened.own, False.elim⟩⟩
      · cases returned
    · cases returned
  | switch p =>
    simp only [step] at returned
    split at returned
    · rename_i here
      obtain ⟨scheduler, frames, pc, held⟩ := here
      obtain ⟨lock, ncli, off, opened⟩ := h.alone_held pc held
      have found := opened.loop ⟨scheduler, frames⟩
      -- A process in `swtch` has no CPU.
      have away : (∃ intena, (s.thread (.process p)).level.pc = .switched intena) ∨
        (s.thread (.process p)).level.pc = .newborn →
          ∀ d, (s.cpu d).thread ≠ .process p := by
        intro waiting d there
        have fits := (h.runs d).fits
        simp only [State.view, there] at fits
        rcases waiting with ⟨intena, switched⟩ | newborn
        · rw [Fits, switched] at fits
          exact fits
        · rw [Fits, newborn] at fits
          exact fits
      have parks : Parked (((s.view c).thread).goto .parked) := ⟨rfl, held, frames, found⟩
      split at returned
      · rename_i intena switched
        cases returned
        have gone := away (Or.inl ⟨intena, switched⟩)
        have waits := h.waits gone
        refine h.swtch gone ?_ (fun d same => ?_) (fun _ _ => parks) (fun p process => ?_)
        · rcases waits.pc with newborn | ⟨intena', switched', opened'⟩
          · rw [switched] at newborn
            cases newborn
          · obtain rfl : intena = intena' := Pc.switched.inj (switched.symm.trans switched')
            refine runs_switched waits.held waits.frames lock ncli off ⟨opened'.enables, opened'.own, fun top => ?_⟩ rfl
            exact absurd top.1 (fun same => by cases same)
        · cases same
        · rw [scheduler] at process
          cases process
      · rename_i newborn
        cases returned
        have gone := away (Or.inr newborn)
        have waits := h.waits gone
        refine h.swtch gone ?_ (fun d same => ?_) (fun _ _ => parks) (fun p process => ?_)
        · refine runs_switched waits.held waits.frames lock ncli off ⟨fun _ => found, fun own => ?_, fun _ => found⟩ rfl
          cases own
        · cases same
        · rw [scheduler] at process
          cases process
      · cases returned
    · cases returned

theorem step_panicked (h : Inv s) (panicked : step c e s = .panicked m) : m = .acquire := by
  cases e with
  | act a =>
    simp only [step] at panicked
    split at panicked <;> cases panicked
    rename_i done
    exact act_panicked (h.runs c) done
  | sched =>
    simp only [step] at panicked
    split at panicked
    · split at panicked
      · rename_i here
        obtain ⟨lock, ncli, off, -⟩ := h.alone_held here.1 here.2
        rw [if_neg (not_not.mpr lock), if_neg (not_not.mpr ncli), if_neg (by rw [off]; decide)] at panicked
        cases panicked
      · cases panicked
    · cases panicked
  | switch p =>
    simp only [step] at panicked
    repeat' split at panicked
    all_goals cases panicked

theorem boot_inv : Inv boot where
  runs _ := ⟨fun _ member => absurd member List.not_mem_nil, rfl, fun some => absurd rfl some,
    fun _ member => absurd member List.not_mem_nil, List.nodup_nil⟩
  alone := Tid.scheduler.inj
  home := fun same => (Tid.scheduler.inj same).symm
  parked := fun gone => absurd rfl gone
  waits := fun _ => ⟨rfl, List.forall_mem_singleton.mpr ⟨rfl, .body false false⟩, Or.inl rfl⟩

theorem unmatched_single (c d : Nat) (e : Event) :
    unmatched d [(c, e)] = if d = c then
      (if e = .act .count then 1 else 0) - (if e = .act .drop then 1 else 0) else 0 := by
  by_cases same : d = c
  · simp only [unmatched, List.count_singleton, same, if_true, beq_iff_eq, Prod.mk.injEq, true_and]
    split <;> split <;> rfl
  · simp [unmatched, same, Ne.symm same]

theorem swtch_cpu (s : State) (old next : Thread) (t : Tid) (intena : Bool) (d : Nat) :
    ((s.swtch c old next t intena).cpu d).ncli = (s.cpu d).ncli ∧
    ((s.swtch c old next t intena).cpu d).ifl = (s.cpu d).ifl := by
  by_cases same : d = c
  · subst same
    simp only [State.swtch, update_self, and_self]
  · simp only [State.swtch, update_of_ne same, and_self]

theorem step_swtch (returned : step c e s = .returned () s') (other : ∀ a, e ≠ .act a) :
    ∃ old next t intena, s' = s.swtch c old next t intena := by
  cases e with
  | act a => exact absurd rfl (other a)
  | sched =>
    simp only [step] at returned
    repeat' split at returned
    all_goals cases returned
    exact ⟨_, _, _, _, rfl⟩
  | switch p =>
    simp only [step] at returned
    repeat' split at returned
    all_goals cases returned
    all_goals exact ⟨_, _, _, _, rfl⟩

theorem step_change (h : Inv s) (returned : step c e s = .returned () s') (d : Nat) :
    (s'.cpu d).ncli = (s.cpu d).ncli + unmatched d [(c, e)] ∧
      ((s.cpu d).ifl = false → (s'.cpu d).ifl = true →
        d = c ∧ ((e = .act .restore ∧ (s.view c).thread.level.found = true) ∨ e = .act .sti ∨ e = .act .iret)) := by
  rw [unmatched_single]
  cases e with
  | act a =>
    simp only [step] at returned
    split at returned <;> cases returned
    rename_i v done
    have change := act_change done
    by_cases same : d = c
    · subst same
      simp only [State.put, update_self, if_true, Event.act.injEq, true_and]
      refine ⟨by rw [change.ncli]; exact Int.add_sub_assoc .., fun off on => ?_⟩
      rcases change.enables off on with ⟨popcli, dropped, -, intena⟩ | others
      · have fits := (h.runs d).fits
        rw [Fits, dropped] at fits
        exact Or.inl ⟨popcli, fits.2.enables intena⟩
      · exact Or.inr others
    · simp only [State.put, update_of_ne same, if_neg same, Int.add_zero, true_and]
      intro off on
      rw [off] at on
      cases on
  | sched | switch _ =>
    obtain ⟨old, next, t, intena, rfl⟩ := step_swtch returned (fun _ same => by cases same)
    obtain ⟨ncli, ifl⟩ := swtch_cpu s old next t intena (c := c) d
    refine ⟨by simp [ncli], fun off on => ?_⟩
    rw [ifl, off] at on
    cases on

theorem steps_inv {run : List (Nat × Event)} (h : Inv s) (reached : steps run s = some s') :
    Inv s' ∧ ∀ c, (s'.cpu c).ncli = (s.cpu c).ncli + unmatched c run := by
  induction run generalizing s with
  | nil =>
    cases reached
    exact ⟨h, fun c => by simp [unmatched]⟩
  | cons e run ih =>
    obtain ⟨c, e⟩ := e
    simp only [steps] at reached
    split at reached
    · rename_i t returned
      obtain ⟨inv, counts⟩ := ih (step_inv h returned) reached
      refine ⟨inv, fun d => ?_⟩
      rw [counts, (step_change h returned d).1]
      simp only [unmatched, List.count_cons, List.count_nil]
      omega
    · cases reached

end

/-- In every run `ncli` counts the `pushcli` calls that are not matched, interrupts are disabled while it is not zero,
and `popcli` enables them only at the end of a nest whose outermost `pushcli` has found them enabled. -/
theorem interrupts_nest {run : List (Nat × Event)} {s : State} (reached : steps run boot = some s) :
    (∀ c, 0 < (s.cpu c).ncli → (s.cpu c).ifl = false) ∧
    (∀ c, (s.cpu c).ncli = unmatched c run ∧ (s.cpu c).ncli = (s.view c).thread.level.depth) ∧
    (∀ c e m, step c e s = .panicked m → m = .acquire) ∧
    (∀ c l eflags, (s.view c).thread.level.pc = .read l eflags → eflags = (s.cpu c).ifl) ∧
    (∀ c e s' d, step c e s = .returned () s' → (s.cpu d).ifl = false → (s'.cpu d).ifl = true →
      d = c ∧ (s'.cpu c).ncli = 0 ∧
        ((e = .act .restore ∧ (s.view c).thread.level.found = true) ∨ e = .act .sti ∨ e = .act .iret)) ∧
    (∀ c s', step c (.act .restore) s = .returned () s' → (s.cpu c).ncli = 0 → (s.view c).thread.level.lent = false →
      (s'.cpu c).ifl = (s.view c).thread.level.found) := by
  obtain ⟨inv, counts⟩ := steps_inv boot_inv reached
  refine ⟨?_, ?_, ?_, ?_, ?_, ?_⟩
  · intro c positive
    refine (inv.runs c).fits.off ?_
    have counted : (s.cpu c).ncli = (s.view c).thread.level.depth := (inv.runs c).ncli
    omega
  · intro c
    refine ⟨(counts c).trans ?_, (inv.runs c).ncli⟩
    exact Int.zero_add _
  · intro c e m
    exact step_panicked inv
  · intro c l eflags read
    have fits := (inv.runs c).fits
    rw [Fits, read] at fits
    exact fits.1
  · intro c e s' d returned off on
    obtain ⟨rfl, how⟩ := (step_change inv returned d).2 off on
    refine ⟨rfl, ?_, how⟩
    have runs := (step_inv inv returned).runs d
    exact runs.ncli.trans (congrArg Nat.cast (runs.fits.stoppable on).held.2)
  · intro c s' returned zero own
    have fits := (inv.runs c).fits
    simp only [step, act] at returned
    split at returned <;> cases returned
    rename_i done
    split at done <;> cases done
    rename_i dropped
    rw [Fits, dropped] at fits
    obtain ⟨off, opened⟩ := fits
    have same : (s.cpu c).intena = (s.view c).thread.level.found := opened.own own
    simp only [State.put, update_self, View.goto, View.setLevel, View.setCpu]
    change (if (s.cpu c).ncli = 0 ∧ (s.cpu c).intena = true then true else (s.cpu c).ifl) = _
    rw [same, show (s.cpu c).ifl = false from off]
    simp only [zero, true_and]
    cases (s.view c).thread.level.found <;> rfl

/-- The scheduler of CPU 0 takes `ptable.lock` and switches to a new process, which releases it. -/
def firstRun : List (Nat × Event) :=
  [(0, .act .sti), (0, .act (.acquire .ptable)), (0, .act .cli), (0, .act .count), (0, .act .take), (0, .switch 0),
    (0, .act (.release .ptable)), (0, .act .drop), (0, .act .restore)]

theorem interrupts_nest_first : ∃ s, steps firstRun boot = some s ∧ (s.cpu 0).ifl = true ∧
    (∀ c, 0 < (s.cpu c).ncli → (s.cpu c).ifl = false) ∧
    (∀ c, (s.cpu c).ncli = unmatched c firstRun ∧ (s.cpu c).ncli = (s.view c).thread.level.depth) ∧
    (∀ c e m, step c e s = .panicked m → m = .acquire) ∧
    (∀ c l eflags, (s.view c).thread.level.pc = .read l eflags → eflags = (s.cpu c).ifl) ∧
    (∀ c e s' d, step c e s = .returned () s' → (s.cpu d).ifl = false → (s'.cpu d).ifl = true →
      d = c ∧ (s'.cpu c).ncli = 0 ∧
        ((e = .act .restore ∧ (s.view c).thread.level.found = true) ∨ e = .act .sti ∨ e = .act .iret)) ∧
    (∀ c s', step c (.act .restore) s = .returned () s' → (s.cpu c).ncli = 0 → (s.view c).thread.level.lent = false →
      (s'.cpu c).ifl = (s.view c).thread.level.found) :=
  ⟨_, rfl, rfl, interrupts_nest rfl⟩

end Espl.Sched.Cli
