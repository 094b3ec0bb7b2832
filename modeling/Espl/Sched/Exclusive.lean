import Espl.Sched.Turns

/-!
# One process, one CPU

A process is the current one of at most one CPU, it is RUNNING exactly while a CPU executes it or is about
to, its context is loaded only after it has been saved, and `wait` frees a stack and a page directory that
no CPU uses.
-/

namespace Espl.Sched

variable {S : Sys} {o : Option Nat} {t : Nat → TLocal} {c p : Nat} {u : TLocal}

/-- The code is about to switch to the scheduler: it has changed `proc->state` and calls `sched`. -/
def departing : TCode Unit → Bool
  | .step (.core .sched) _ => true
  | _ => false

namespace Sys

/-- CPU `c` executes `p` and is not in a hand-over between `p` and its scheduler. -/
def Executes (S : Sys) (c p : Nat) : Prop :=
  ∃ code, (S.cpu c).control = .process p code ∧ returning code = false ∧ departing code = false

/-- CPU `c` hands over to `p`: from `p->state = RUNNING` to the return from `swtch`. -/
def Arrives (S : Sys) (c p : Nat) : Prop :=
  (S.cpu c).control = .scheduler (.marked p) ∨ ((S.cpu c).control = .entering ∧ (S.cpu c).proc = some p) ∨
    ∃ code, (S.cpu c).control = .process p code ∧ returning code = true

/-- CPU `c` uses something of `p`: its slot, its kernel stack or its page directory. -/
def Uses (S : Sys) (c p : Nat) : Prop :=
  (S.cpu c).proc = some p ∨ (S.cpu c).pgdir = some p ∨ (∃ code, (S.cpu c).control = .process p code) ∨
    (S.cpu c).control = .leaving p

end Sys

theorem CInv.uses (inv : CInv S o t) (uses : S.Uses c p) : (S.cpu c).proc = some p := by
  have ok := inv.cpu c
  unfold Sys.Uses at uses
  generalize S.cpu c = x at ok uses
  rcases uses with is | is | ⟨code, is⟩ | is
  · exact is
  all_goals cases ok <;> cases is <;> rfl

theorem up_of_keeps {code : TCode Unit} (on : u.phase = .up ∨ u.pt = true)
    (keeps : u.Keeps code) : u.phase = .up ∨ departing code = true := by
  refine or_iff_not_imp_left.mpr fun down => ?_
  have pt := on.resolve_left down
  cases code with
  | done a => exact absurd keeps.up down
  | step e next =>
    have may := keeps.1
    cases plain : e.plain with
    | true => exact absurd (plain_up plain may) down
    | false =>
      obtain ⟨l, rfl⟩ | ⟨l, rfl⟩ | rfl | rfl | rfl := not_plain plain
      · exact absurd may down
      · exact absurd may.1 down
      · rfl
      · exact absurd (pt.symm.trans may.2) (by decide)
      · exact absurd (pt.symm.trans may.2) (by decide)

theorem CInv.running_iff (inv : CInv S o t) : (S.table.procs p).state = .running ↔ (t p).phase = .up := by
  have fits := (inv.table.self p).phase
  constructor
  · intro running
    change (S.table.procs p).state = .running at running
    cases phase : (t p).phase with
    | up => rfl
    | off =>
      rw [phase] at fits
      rcases fits with is | is | is | is
      · exact absurd (is.symm.trans running) (by decide)
      · exact absurd (is.symm.trans running) (by decide)
      · exact absurd (is.symm.trans running) (by decide)
      · exact absurd (is.1.symm.trans running) (by decide)
    | down =>
      rw [phase] at fits
      rcases fits.1 with is | is <;> exact absurd (is.symm.trans running) (by decide)
  · intro up
    rw [up] at fits
    exact fits.1

theorem CInv.running (inv : CInv S o t) :
    (S.table.procs p).state = .running ↔ ∃ c, S.Executes c p ∨ S.Arrives c p := by
  rw [inv.running_iff]
  constructor
  · intro up
    obtain ⟨c, ⟨code, is⟩ | is | is⟩ := inv.up p up
    · refine ⟨c, ?_⟩
      cases back : returning code with
      | true => exact Or.inr (Or.inr (Or.inr ⟨code, is, back⟩))
      | false =>
        obtain ⟨-, -, -, keeps⟩ := inv.executing is back
        refine Or.inl ⟨code, is, back, ?_⟩
        cases out : departing code with
        | false => rfl
        | true =>
          unfold departing at out
          split at out
          · exact absurd up keeps.1.1
          · cases out
    · exact ⟨c, Or.inr (Or.inl is)⟩
    · exact ⟨c, Or.inr (Or.inr (Or.inl is))⟩
  · rintro ⟨c, ⟨code, is, back, out⟩ | is | is | ⟨code, is, back⟩⟩
    · obtain ⟨-, -, on, keeps⟩ := inv.executing is back
      exact (up_of_keeps on keeps).resolve_right (by simp [out])
    · have ok := inv.cpu c
      generalize S.cpu c = x at ok is
      cases ok <;> cases is
      rename_i pending
      exact pending.up
    · have ok := inv.cpu c
      generalize S.cpu c = x at ok is
      cases ok <;> cases is.1
      rename_i pending
      exact Option.some.inj is.2 ▸ pending.up
    · obtain ⟨-, ⟨pending, -⟩ | ⟨-, on, keeps⟩⟩ := inv.inside is
      · exact pending.up
      · refine (up_of_keeps on keeps).resolve_right fun out => ?_
        unfold departing at out
        split at out
        · cases back
        · cases out

/-- In every interleaving of any number of CPUs: a process is the `proc` of at most one CPU; it is RUNNING
exactly while a CPU executes it outside a hand-over, or is handing over to it; a CPU that loads the context
of a process finds it saved; and when `wait` frees a zombie, no CPU uses its stack or its page directory. -/
theorem scheduling_exclusive (run : Sys.Reachable Sys.boot S) :
    (∀ c c' p, (S.cpu c).proc = some p → (S.cpu c').proc = some p → c = c') ∧
    (∀ p, (S.table.procs p).state = .running ↔ ∃ c, S.Executes c p ∨ S.Arrives c p) ∧
    (∀ c q, (S.cpu c).control = .entering → (S.cpu c).proc = some q → S.context q ≠ none) ∧
    ∀ c p q next, (S.cpu c).control = .process p (.step (.reap q) next) → (S.table.procs q).state = .zombie →
      ∀ c', ¬S.Uses c' q := by
  obtain ⟨o, t, inv⟩ := reachable_cinv run
  refine ⟨inv.unique, fun p => inv.running, fun c q here is unsaved => ?_, fun c p q next here zombie c' uses => ?_⟩
  · have ok := inv.cpu c
    generalize S.cpu c = x at ok here is
    cases ok <;> cases here
    rename_i saved _
    rw [← Option.some.inj is, saved] at unsaved
    cases unsaved
  · obtain ⟨cpu, -, -, may, -⟩ := inv.executing here rfl
    have mine : (S.cpu c).proc = some p := by rw [cpu]
    have held := inv.holds mine may.2.1
    -- a zombie that a CPU still uses has `ptable.lock` there, but the caller of `wait` has it
    rcases inv.current (inv.uses uses) with lock | running
    · obtain rfl : c = c' := Option.some.inj (held.lock.symm.trans lock)
      obtain rfl : p = q := Option.some.inj (mine.symm.trans (inv.uses uses))
      exact absurd ((inv.running_iff.mpr may.1).symm.trans zombie) (by decide)
    · exact absurd (running.symm.trans zombie) (by decide)

/-- CPU 3 starts the first process. -/
theorem scheduling_exclusive_first :
    ∃ S, Sys.Reachable Sys.boot S ∧ S.Executes 3 0 ∧ (S.table.procs 0).state = .running ∧
      ∀ c, (S.cpu c).proc = some 0 → c = 3 := by
  have step : ∀ {S S' : Sys} {pc : SPc}, Sys.Reachable Sys.boot S → (S.cpu 3).control = .scheduler pc →
      S.schedule 3 pc = some S' → Sys.Reachable Sys.boot S' := fun run here step => run.tail (.schedule here step)
  have acquired := step .refl rfl rfl
  have chosen := step acquired rfl rfl
  have placed := step chosen rfl rfl
  have mapped := step placed rfl rfl
  have marked := step mapped rfl rfl
  have saved := step marked rfl rfl
  have loaded := saved.tail (.enter (c := 3) rfl rfl rfl)
  have run := loaded.tail (.op (c := 3) rfl nofun rfl rfl)
  exact ⟨_, run, ⟨_, rfl, rfl, rfl⟩, ((scheduling_exclusive run).2.1 0).mpr ⟨3, Or.inl ⟨_, rfl, rfl, rfl⟩⟩,
    fun c is => (scheduling_exclusive run).1 c 3 0 is rfl⟩

end Espl.Sched
