import Espl.Sched.Basic

/-!
# Interrupts on one CPU

`pushcli` and `popcli` of `spinlock.c`, instruction by instruction where an interrupt can come in between,
called by `acquire` and `release` on any number of CPUs. An interrupt stacks a handler on the code of a
thread; `sched` and `scheduler` switch threads between CPUs while `ptable.lock` is held. Here is the model,
and what the steps of one CPU keep.
-/

namespace Espl.Sched.Cli

open Function (update update_self update_of_ne)

inductive Tid where
  | scheduler (c : Nat)
  | process (p : Nat)
  deriving DecidableEq, Repr

inductive Pc where
  /-- Outside the functions below; for a scheduler without a lock, at the top of its loop. -/
  | body
  /-- `scheduler` after `sti();`, before `acquire(&ptable.lock);`. -/
  | ready
  /-- In `pushcli` for `acquire(l)`, after `eflags = readeflags();`. -/
  | read (l : Lock) (eflags : Bool)
  /-- After `cli();`. -/
  | masked (l : Lock) (eflags : Bool)
  /-- In `acquire(l)`, after `pushcli();`. -/
  | spin (l : Lock)
  /-- In `release`, before `popcli();`. -/
  | freed
  /-- In `popcli`, after `--cpu->ncli`. -/
  | dropped
  /-- In `swtch`, called by `sched` with this `intena`. -/
  | switched (intena : Bool)
  /-- In `swtch`, called by `scheduler`. -/
  | parked
  /-- A process that has never run. -/
  | newborn
  deriving DecidableEq, Repr

/-- The code of a thread between two interrupts, with the locks it has taken. What its outermost `pushcli`
has found is kept in `found`; in a nest that another thread has opened or used, `lent` is set. -/
structure Level where
  pc : Pc
  held : List Lock := []
  found : Bool := false
  lent : Bool := false
  deriving DecidableEq, Repr

/-- A thread, and the code that its interrupts have stopped, each with the `FL_IF` that `iret` restores. -/
structure Thread where
  level : Level
  frames : List (Bool × Level) := []
  deriving DecidableEq, Repr

/-- `FL_IF`, the fields `ncli` and `intena` of `struct cpu`, and the thread that runs. -/
structure Cpu where
  ifl : Bool
  ncli : Int
  intena : Bool
  thread : Tid
  deriving DecidableEq, Repr

inductive Panic where
  | acquire | release | interruptible | popcli | schedLock | schedLocks | schedInterruptible
  deriving DecidableEq, Repr

/-- What one CPU works on: itself, its thread and the locks with the CPUs that hold them. -/
structure View where
  cpu : Cpu
  thread : Thread
  lock : Lock → Option Nat

inductive Action where
  /-- `eflags = readeflags();` in `acquire(l)`. -/
  | acquire (l : Lock)
  /-- `cli();` in `pushcli`. -/
  | cli
  /-- `if(cpu->ncli++ == 0) cpu->intena = eflags & FL_IF;` -/
  | count
  /-- The rest of `acquire`. -/
  | take
  /-- `release(l)` up to `popcli();`. -/
  | release (l : Lock)
  /-- `popcli` with its checks up to `--cpu->ncli`. -/
  | drop
  /-- `if(cpu->ncli == 0 && cpu->intena) sti();` -/
  | restore
  /-- `sti();` in `scheduler`. -/
  | sti
  | interrupt
  | iret
  deriving DecidableEq, Repr

namespace View

def setLevel (v : View) (f : Level → Level) : View := { v with thread := { v.thread with level := f v.thread.level } }

def goto (v : View) (pc : Pc) : View := v.setLevel fun x => { x with pc := pc }

def setCpu (v : View) (f : Cpu → Cpu) : View := { v with cpu := f v.cpu }

def idle (c : Nat) (v : View) : Prop := v.cpu.thread = .scheduler c ∧ v.thread.frames = [] ∧ v.thread.level.held = []

instance (c : Nat) (v : View) : Decidable (v.idle c) := inferInstanceAs (Decidable (_ ∧ _))

end View

def act (c : Nat) : Action → View → Outcome View Panic Unit
  | .acquire l, v =>
    match v.thread.level.pc with
    | .body => if v.idle c then .waiting else .returned () (v.goto (.read l v.cpu.ifl))
    | .ready => if l = .ptable then .returned () (v.goto (.read l v.cpu.ifl)) else .waiting
    | _ => .waiting
  | .cli, v =>
    match v.thread.level.pc with
    | .read l eflags => .returned () ((v.setCpu fun x => { x with ifl := false }).goto (.masked l eflags))
    | _ => .waiting
  | .count, v =>
    match v.thread.level.pc with
    | .masked l eflags =>
      let v' := v.setCpu fun x => { x with ncli := x.ncli + 1, intena := if x.ncli = 0 then eflags else x.intena }
      .returned () ((v'.setLevel fun x =>
        if x.held = [] then { x with found := eflags, lent := false } else x).goto (.spin l))
    | _ => .waiting
  | .take, v =>
    match v.thread.level.pc with
    | .spin l =>
      if v.lock l = some c then .panicked .acquire
      else if v.lock l = none then
        .returned () (({ v with lock := update v.lock l (some c) }.setLevel fun x =>
          { x with held := l :: x.held }).goto .body)
      else .waiting
    | _ => .waiting
  | .release l, v =>
    if v.thread.level.pc = .body ∧ l ∈ v.thread.level.held then
      if v.lock l ≠ some c then .panicked .release
      else .returned () (({ v with lock := update v.lock l none }.setLevel fun x =>
        { x with held := x.held.erase l }).goto .freed)
    else .waiting
  | .drop, v =>
    if v.thread.level.pc = .freed then
      if v.cpu.ifl = true then .panicked .interruptible
      else if v.cpu.ncli - 1 < 0 then .panicked .popcli
      else .returned () ((v.setCpu fun x => { x with ncli := x.ncli - 1 }).goto .dropped)
    else .waiting
  | .restore, v =>
    if v.thread.level.pc = .dropped then
      .returned () ((v.setCpu fun x => { x with ifl := if x.ncli = 0 ∧ x.intena then true else x.ifl }).goto .body)
    else .waiting
  | .sti, v =>
    if v.thread.level.pc = .body ∧
      v.idle c then .returned () ((v.setCpu fun x => { x with ifl := true }).goto .ready) else .waiting
  | .interrupt, v =>
    if v.cpu.ifl = true then
      .returned () { v with cpu := { v.cpu with ifl := false },
                            thread := ⟨{ pc := .body }, (v.cpu.ifl, v.thread.level) :: v.thread.frames⟩ }
    else .waiting
  | .iret, v =>
    match v.thread.frames with
    | (eflags, below) :: frames =>
      if v.thread.level.pc = .body ∧ v.thread.level.held = [] then
        .returned () { v with cpu := { v.cpu with ifl := eflags }, thread := ⟨below, frames⟩ }
      else .waiting
    | [] => .waiting

structure State where
  cpu : Nat → Cpu
  thread : Tid → Thread
  lock : Lock → Option Nat

/-- A step of a thread, `sched` of a process, or `scheduler` switching to one. -/
inductive Event where
  | act (a : Action)
  | sched
  | switch (p : Nat)
  deriving DecidableEq, Repr

namespace State

def view (s : State) (c : Nat) : View := ⟨s.cpu c, s.thread (s.cpu c).thread, s.lock⟩

def put (s : State) (c : Nat) (v : View) : State where
  cpu := update s.cpu c v.cpu
  thread := update s.thread (s.cpu c).thread v.thread
  lock := v.lock

/-- CPU `c` goes on with thread `t`; the old one stays at `old` and `t` goes on as `next`. -/
def swtch (s : State) (c : Nat) (old next : Thread) (t : Tid) (intena : Bool) : State where
  cpu := update s.cpu c { s.cpu c with thread := t, intena := intena }
  thread := update (update s.thread (s.cpu c).thread old) t next
  lock := s.lock

end State

namespace Thread

def goto (T : Thread) (pc : Pc) : Thread := { T with level := { T.level with pc := pc } }

def lend (T : Thread) (found : Bool) : Thread := { T with level := { T.level with found := found, lent := true } }

end Thread

def step (c : Nat) : Event → State → Outcome State Panic Unit
  | .act a, s =>
    match act c a (s.view c) with
    | .returned _ v => .returned () (s.put c v)
    | .panicked m => .panicked m
    | .waiting => .waiting
  | .sched, s =>
    let T := (s.view c).thread
    match (s.cpu c).thread with
    | .process _ =>
      if T.level.pc = .body ∧ T.level.held = [.ptable] then
        if s.lock .ptable ≠ some c then .panicked .schedLock
        else if (s.cpu c).ncli ≠ 1 then .panicked .schedLocks
        else if (s.cpu c).ifl = true then .panicked .schedInterruptible
        else
          let scheduler := s.thread (.scheduler c)
          .returned () (s.swtch c (T.goto (.switched (s.cpu c).intena))
            ((scheduler.goto .body).lend scheduler.level.found)
            (.scheduler c) (s.cpu c).intena)
      else .waiting
    | .scheduler _ => .waiting
  | .switch p, s =>
    let T := (s.view c).thread
    if (s.cpu c).thread = .scheduler c ∧ T.frames = [] ∧ T.level.pc = .body ∧ T.level.held = [.ptable] then
      match (s.thread (.process p)).level.pc with
      -- `cpu->intena = intena;` after the return from `swtch`
      | .switched intena =>
          .returned () (s.swtch c (T.goto .parked) ((s.thread (.process p)).goto .body) (.process p) intena)
      -- `forkret` is still in the nest of the scheduler
      | .newborn => .returned () (s.swtch c (T.goto .parked) (((s.thread (.process p)).goto .body).lend T.level.found)
          (.process p) (s.cpu c).intena)
      | _ => .waiting
    else .waiting

/-- All CPUs before their first turn of the scheduler's loop; the trap frame of a new process has `FL_IF` set. -/
def boot : State where
  cpu c := ⟨false, 0, false, .scheduler c⟩
  thread
    | .scheduler _ => ⟨{ pc := .body }, []⟩
    | .process _ => ⟨{ pc := .newborn, held := [.ptable] }, [(true, { pc := .body })]⟩
  lock _ := none

def steps : List (Nat × Event) → State → Option State
  | [], s => some s
  | (c, e) :: run, s =>
    match step c e s with
    | .returned _ s' => steps run s'
    | _ => none

/-- The `pushcli` calls of CPU `c` in a run, less its `popcli` calls. -/
def unmatched (c : Nat) (run : List (Nat × Event)) : Int :=
  run.count (c, .act .count) - run.count (c, .act .drop)

/-! ### One CPU -/

namespace Level

def depth (x : Level) : Nat :=
  x.held.length + match x.pc with
    | .spin _ => 1
    | .freed => 1
    | _ => 0

inductive Stoppable : Level → Prop
  | body (found lent : Bool) : Stoppable ⟨.body, [], found, lent⟩
  | ready (found lent : Bool) : Stoppable ⟨.ready, [], found, lent⟩
  | read (l : Lock) (found lent : Bool) : Stoppable ⟨.read l true, [], found, lent⟩

end Level

/-- In an open nest `intena` is what its outermost `pushcli` has found, or no more than that. The nest of a
scheduler is opened after `sti`. -/
structure Opened (top : Prop) (intena found lent : Bool) : Prop where
  enables : intena = true → found = true
  own : lent = false → intena = found
  loop : top → found = true

/-- What holds at each place of the code, where `top` says that it is the loop of a scheduler. -/
def Fits (top : Prop) (cpu : Cpu) (x : Level) : Prop :=
  match x.pc with
  | .body => x.held ≠ [] → cpu.ifl = false ∧ Opened top cpu.intena x.found x.lent
  | .ready => x.held = [] ∧ cpu.ifl = true
  | .read _ eflags =>
    eflags = cpu.ifl ∧ (x.held = [] → top → eflags = true) ∧
      (x.held ≠ [] → cpu.ifl = false ∧ Opened top cpu.intena x.found x.lent)
  | .masked _ eflags =>
    cpu.ifl = false ∧ (x.held = [] → top → eflags = true) ∧ (x.held ≠ [] → Opened top cpu.intena x.found x.lent)
  | .spin _ => cpu.ifl = false ∧ Opened top cpu.intena x.found x.lent
  | .freed => cpu.ifl = false ∧ Opened top cpu.intena x.found x.lent
  | .dropped => cpu.ifl = false ∧ Opened top cpu.intena x.found x.lent
  | .switched _ => False
  | .parked => False
  | .newborn => False

structure Runs (c : Nat) (v : View) : Prop where
  frames : ∀ f ∈ v.thread.frames, f.1 = true ∧ f.2.Stoppable
  ncli : v.cpu.ncli = v.thread.level.depth
  fits : Fits (v.cpu.thread = .scheduler c ∧ v.thread.frames = []) v.cpu v.thread.level
  holds : ∀ l ∈ v.thread.level.held, v.lock l = some c
  nodup : v.thread.level.held.Nodup

section

variable {c : Nat} {v v' : View} {a : Action} {m : Panic} {l : Lock} {top : Prop} {cpu : Cpu} {x : Level}

theorem Fits.off (h : Fits top cpu x) (deep : 0 < x.depth) : cpu.ifl = false := by
  obtain ⟨pc, held, found, lent⟩ := x
  cases pc with
  | body => exact (h (List.length_pos_iff.mp deep)).1
  | ready =>
    obtain rfl : held = [] := h.1
    cases deep
  | read l eflags => exact (h.2.2 (List.length_pos_iff.mp deep)).1
  | masked _ _ | spin _ | freed | dropped => exact h.1
  | switched _ | parked | newborn => exact h.elim

theorem Fits.stoppable (h : Fits top cpu x) (enabled : cpu.ifl = true) : x.Stoppable := by
  have shallow : ¬ 0 < x.depth := fun deep => absurd (h.off deep) (by rw [enabled]; decide)
  obtain ⟨pc, held, found, lent⟩ := x
  obtain rfl : held = [] := by
    by_contra some
    exact shallow (Nat.lt_of_lt_of_le (List.length_pos_iff.mpr some) (Nat.le_add_right _ _))
  cases pc with
  | body => exact .body found lent
  | ready => exact .ready found lent
  | read l eflags =>
    obtain rfl : eflags = true := h.1.trans enabled
    exact .read l found lent
  | masked _ _ | spin _ | freed | dropped => exact absurd (enabled.symm.trans h.1) (by decide)
  | switched _ | parked | newborn => exact h.elim

theorem Level.Stoppable.fits (h : x.Stoppable) (enabled : cpu.ifl = true) : Fits top cpu x := by
  cases h with
  | body found lent => exact fun some => absurd rfl some
  | ready found lent => exact ⟨rfl, enabled⟩
  | read l found lent => exact ⟨enabled.symm, fun _ _ => rfl, fun some => absurd rfl some⟩

theorem Level.Stoppable.held (h : x.Stoppable) : x.held = [] ∧ x.depth = 0 := by
  cases h <;> exact ⟨rfl, rfl⟩

theorem act_runs (h : Runs c v) (returned : act c a v = .returned () v') : Runs c v' := by
  obtain ⟨⟨ifl, ncli, intena, t⟩, ⟨⟨pc, held, found, lent⟩, frames⟩, lock⟩ := v
  obtain ⟨quiet, count, fits, holds, nodup⟩ := h
  dsimp only at quiet count fits holds nodup
  cases a with
  | acquire l =>
    cases pc with
    | body =>
      simp only [act] at returned
      split at returned
      · cases returned
      · rename_i busy
        cases returned
        refine ⟨quiet, count, ⟨rfl, ?_, fits⟩, holds, nodup⟩
        rintro none ⟨scheduler, base⟩
        exact absurd ⟨scheduler, base, none⟩ busy
    | ready =>
      simp only [act] at returned
      split at returned
      · cases returned
        exact ⟨quiet, count, ⟨rfl, fun _ _ => fits.2, fun some => absurd fits.1 some⟩, holds, nodup⟩
      · cases returned
    | _ => cases returned
  | cli =>
    cases pc with
    | read l eflags =>
      cases returned
      exact ⟨quiet, count, ⟨rfl, fits.2.1, fun some => (fits.2.2 some).2⟩, holds, nodup⟩
    | _ => cases returned
  | count =>
    cases pc with
    | masked l eflags =>
      have zero : ncli = 0 ↔ held = [] := by
        rw [show ncli = held.length from count]
        exact Int.natCast_eq_zero.trans List.length_eq_zero_iff
      have more : ncli + 1 = (held.length + 1 : Nat) := congrArg (· + 1) count
      simp only [act, View.setCpu, View.setLevel, View.goto, zero] at returned
      by_cases none : held = []
      · simp only [none, if_true] at returned
        cases returned
        subst none
        exact ⟨quiet, more, ⟨fits.1, fun on => on, fun _ => rfl, fits.2.1 rfl⟩, holds, nodup⟩
      · simp only [none, if_false] at returned
        cases returned
        exact ⟨quiet, more, ⟨fits.1, fits.2.2 none⟩, holds, nodup⟩
    | _ => cases returned
  | take =>
    cases pc with
    | spin l =>
      simp only [act] at returned
      split at returned
      · cases returned
      · split at returned
        · rename_i free
          cases returned
          have new : l ∉ held := by
            intro member
            rw [holds l member] at free
            cases free
          refine ⟨quiet, count, fun _ => fits, ?_, List.nodup_cons.mpr ⟨new, nodup⟩⟩
          intro l' member
          by_cases same : l' = l
          · rw [same]
            exact update_self ..
          · rcases List.mem_cons.mp member with rfl | member
            · exact absurd rfl same
            · exact (update_of_ne same ..).trans (holds l' member)
        · cases returned
    | _ => cases returned
  | release l =>
    simp only [act] at returned
    split at returned
    · rename_i here
      obtain ⟨rfl, member⟩ := here
      split at returned
      · cases returned
      · cases returned
        refine ⟨quiet, ?_, fits (List.ne_nil_of_mem member), ?_, nodup.erase l⟩
        · have shorter := List.length_erase_of_mem member
          have positive := List.length_pos_of_mem member
          refine count.trans (congrArg Nat.cast ?_)
          change held.length = (held.erase l).length + 1
          omega
        · intro l' left
          obtain ⟨other, member'⟩ := nodup.mem_erase_iff.mp left
          exact (update_of_ne other ..).trans (holds l' member')
    · cases returned
  | drop =>
    simp only [act] at returned
    split at returned
    · rename_i here
      obtain rfl := here
      split at returned
      · cases returned
      · split at returned
        · cases returned
        · cases returned
          have less : ncli - 1 = held.length := by
            rw [show ncli = (held.length + 1 : Nat) from count]
            omega
          exact ⟨quiet, less, fits, holds, nodup⟩
    · cases returned
  | restore =>
    simp only [act] at returned
    split at returned
    · rename_i here
      obtain rfl := here
      cases returned
      refine ⟨quiet, count, fun some => ⟨?_, fits.2⟩, holds, nodup⟩
      -- The nest goes on as long as a lock is held.
      have nonzero : ncli ≠ 0 := by
        rw [show ncli = held.length from count]
        exact Int.natCast_ne_zero.mpr (mt List.length_eq_zero_iff.mp some)
      simp only [View.goto, View.setLevel, View.setCpu, nonzero, false_and, if_false]
      exact fits.1
    · cases returned
  | sti =>
    simp only [act] at returned
    split at returned
    · rename_i here
      obtain ⟨rfl, -, -, none⟩ := here
      cases returned
      exact ⟨quiet, count, ⟨none, rfl⟩, holds, nodup⟩
    · cases returned
  | interrupt =>
    simp only [act] at returned
    split at returned
    · rename_i enabled
      cases returned
      have stoppable := Fits.stoppable fits enabled
      refine ⟨List.forall_mem_cons.mpr ⟨⟨enabled, stoppable⟩, quiet⟩, ?_, fun some => absurd rfl some,
        fun l member => absurd member List.not_mem_nil, List.nodup_nil⟩
      exact count.trans (congrArg Nat.cast stoppable.held.2)
    · cases returned
  | iret =>
    cases frames with
    | nil => cases returned
    | cons f frames =>
      obtain ⟨eflags, below⟩ := f
      simp only [act] at returned
      split at returned
      · rename_i here
        obtain ⟨rfl, rfl⟩ := here
        cases returned
        obtain ⟨⟨enabled, stoppable⟩, quiet⟩ := List.forall_mem_cons.mp quiet
        obtain ⟨none, flat⟩ := stoppable.held
        refine ⟨quiet, ?_, stoppable.fits enabled, ?_, ?_⟩
        · exact count.trans (congrArg Nat.cast flat.symm)
        · dsimp only
          rw [none]
          exact fun l member => by cases member
        · dsimp only
          rw [none]
          exact List.nodup_nil
      · cases returned

structure Change (c : Nat) (a : Action) (v v' : View) : Prop where
  thread : v'.cpu.thread = v.cpu.thread
  others : ∀ l d, d ≠ c → (v'.lock l = some d ↔ v.lock l = some d)
  ncli : v'.cpu.ncli = v.cpu.ncli + (if a = .count then 1 else 0) - (if a = .drop then 1 else 0)
  enables : v.cpu.ifl = false → v'.cpu.ifl = true →
    (a = .restore ∧ v.thread.level.pc = .dropped ∧ v'.cpu.ncli = 0 ∧ v.cpu.intena = true) ∨ a = .sti ∨ a = .iret

theorem change_update {L : Lock → Option Nat} {new : Option Nat} (before : L l = none ∨ L l = some c)
    (after : new = none ∨ new = some c)
    (l' : Lock) (d : Nat) (other : d ≠ c) : update L l new l' = some d ↔ L l' = some d := by
  by_cases same : l' = l
  · subst same
    rw [update_self]
    constructor
    · rintro rfl
      rcases after with none | some
      · cases none
      · exact absurd (Option.some.inj some) other
    · intro holder
      rw [holder] at before
      rcases before with none | some
      · cases none
      · exact absurd (Option.some.inj some) other
  · rw [update_of_ne same]

theorem act_change (returned : act c a v = .returned () v') : Change c a v v' := by
  have kept : v.cpu.ifl = false → v.cpu.ifl = true → False := fun off on => by
    rw [off] at on
    cases on
  cases a with
  | acquire _ | count | drop =>
    simp only [act] at returned
    repeat' split at returned
    all_goals cases returned
    all_goals
      exact ⟨rfl, fun _ _ _ => Iff.rfl, by simp [View.goto, View.setLevel, View.setCpu], fun off on =>
        (kept off on).elim⟩
  | cli | interrupt =>
    simp only [act] at returned
    split at returned <;> cases returned
    exact ⟨rfl, fun _ _ _ => Iff.rfl, by simp [View.goto, View.setLevel, View.setCpu], fun _ on => by cases on⟩
  | take =>
    simp only [act] at returned
    repeat' split at returned
    all_goals cases returned
    rename_i free
    exact ⟨rfl, change_update (Or.inl free) (Or.inr rfl), by simp [View.goto, View.setLevel], fun off on =>
      (kept off on).elim⟩
  | release l =>
    simp only [act] at returned
    repeat' split at returned
    all_goals cases returned
    rename_i held
    exact ⟨rfl, change_update (Or.inr (not_not.mp held)) (Or.inl rfl), by simp [View.goto, View.setLevel],
      fun off on => (kept off on).elim⟩
  | restore =>
    simp only [act] at returned
    split at returned <;> cases returned
    rename_i dropped
    refine ⟨rfl, fun _ _ _ => Iff.rfl, by simp [View.goto, View.setLevel, View.setCpu], fun off on =>
      Or.inl ⟨rfl, dropped, ?_⟩⟩
    simp only [View.goto, View.setLevel, View.setCpu] at on ⊢
    split at on
    · assumption
    · exact (kept off on).elim
  | sti =>
    simp only [act] at returned
    split at returned <;> cases returned
    exact ⟨rfl, fun _ _ _ => Iff.rfl, by simp [View.goto, View.setLevel, View.setCpu], fun _ _ => Or.inr (Or.inl rfl)⟩
  | iret =>
    simp only [act] at returned
    repeat' split at returned
    all_goals cases returned
    exact ⟨rfl, fun _ _ _ => Iff.rfl, by simp, fun _ _ => Or.inr (Or.inr rfl)⟩

theorem act_panicked (h : Runs c v) (panicked : act c a v = .panicked m) : m = .acquire := by
  cases a with
  | take =>
    simp only [act] at panicked
    repeat' split at panicked
    all_goals cases panicked
    rfl
  | release l =>
    simp only [act] at panicked
    repeat' split at panicked
    all_goals cases panicked
    rename_i here free
    exact absurd (h.holds l here.2) free
  | drop =>
    simp only [act] at panicked
    split at panicked
    · rename_i freed
      have deep : 0 < v.thread.level.depth := by
        rw [Level.depth, freed]
        exact Nat.succ_pos _
      rw [if_neg (by rw [h.fits.off deep]; decide), if_neg (by rw [h.ncli]; omega)] at panicked
      cases panicked
    · cases panicked
  | _ =>
    simp only [act] at panicked
    repeat' split at panicked
    all_goals cases panicked

end

end Espl.Sched.Cli
