import Espl.Program.Rules

/-!
# Spin locks, sleep and wakeup

`spinlock.c` and the part of `proc.c` by which processes wait for each other: `sched`, `yield`, `sleep`,
`wakeup` and `kill`. The code runs on behalf of a current process, `proc` in the source. What the locks
protect is a parameter.
-/

namespace Espl.Sched

abbrev NPROC : Nat := 64

inductive ProcState where
  | unused | embryo | sleeping | runnable | running | zombie
  deriving DecidableEq, Repr

/-- What a process can sleep on: the address of a process, or of a variable; `null` is the null pointer. -/
inductive Chan where
  | null
  | proc (p : Nat)
  | data (a : Nat)
  deriving DecidableEq, Repr

inductive Lock where
  | ptable
  | other (n : Nat)
  deriving DecidableEq, Repr

structure Proc where
  state : ProcState
  chan : Chan
  killed : Bool
  pid : Int
  parent : Option Nat := none
  ofile : Nat → Option Nat := fun _ => none
  /-- The context is the one that `allocproc` sets up: the process will start in `forkret`. -/
  fresh : Bool := false

inductive Panic where
  | acquire | release | popcli | schedLock | schedLocks | schedRunning
  deriving DecidableEq, Repr

/-- The locks with their holders, the depth of `pushcli` nesting of each process, the process table and
the data that the locks protect. -/
structure State (X : Type) where
  lock : Lock → Option Nat
  ncli : Nat → Nat
  procs : Nat → Proc
  data : X

inductive Step (X : Type) where
  | acquire (l : Lock)
  | release (l : Lock)
  | setChan (chan : Chan)
  | setState (state : ProcState)
  | sched
  | resume
  | wake (q : Nat) (chan : Chan)
  | killed
  | pid (q : Nat)
  | kill (q : Nat)
  | rouse (q : Nat)
  | get
  | upd (f : X → X)
  /-- No effect: a point in the code to refer to. -/
  | mark
  /-- A loop has been cut off here; nothing follows. -/
  | stop

@[reducible] def Answer {X : Type} : Step X → Type
  | .killed => Bool
  | .pid _ => Int
  | .get => X
  | .stop => Empty
  | _ => Unit

abbrev signature (X : Type) : Signature := ⟨Step X, Answer⟩

abbrev Code (X : Type) : Type → Type := Program (signature X)

variable {X : Type}

namespace State

def setProc (s : State X) (p : Nat) (f : Proc → Proc) : State X :=
  { s with procs := Function.update s.procs p (f (s.procs p)) }

def setLock (s : State X) (l : Lock) (holder : Option Nat) : State X :=
  { s with lock := Function.update s.lock l holder }

def setNcli (s : State X) (p n : Nat) : State X := { s with ncli := Function.update s.ncli p n }

def Asleep (s : State X) (chan : Chan) (p : Nat) : Prop :=
  (s.procs p).state = .sleeping ∧ (s.procs p).chan = chan

instance (s : State X) (chan : Chan) (p : Nat) : Decidable (s.Asleep chan p) :=
  inferInstanceAs (Decidable (_ ∧ _))

def wake (s : State X) (q : Nat) (chan : Chan) : State X :=
  if s.Asleep chan q then s.setProc q fun x => { x with state := .runnable } else s

def rouse (s : State X) (q : Nat) : State X :=
  if (s.procs q).state = .sleeping then s.setProc q fun x => { x with state := .runnable } else s

end State

def act (p : Nat) : (e : Step X) → State X → Outcome (State X) Panic (Answer e)
  | .acquire l, s =>
    match s.lock l with
    | none => .returned () ((s.setLock l (some p)).setNcli p (s.ncli p + 1))
    | some q => if q = p then .panicked .acquire else .waiting
  | .release l, s =>
    if s.lock l ≠ some p then .panicked .release
    else if s.ncli p = 0 then .panicked .popcli
    else .returned () ((s.setLock l none).setNcli p (s.ncli p - 1))
  | .setChan chan, s => .returned () (s.setProc p fun x => { x with chan := chan })
  | .setState state, s => .returned () (s.setProc p fun x => { x with state := state })
  -- the scheduler that is switched to gives up `ptable.lock`, or goes on with it to another process
  | .sched, s =>
    if s.lock .ptable ≠ some p then .panicked .schedLock
    else if s.ncli p ≠ 1 then .panicked .schedLocks
    else if (s.procs p).state = .running then .panicked .schedRunning
    else .returned () (s.setLock .ptable none)
  -- some scheduler holds `ptable.lock`, chooses `p` and switches to it
  | .resume, s =>
    if (s.procs p).state = .runnable ∧ s.lock .ptable = none then
      .returned () ((s.setLock .ptable (some p)).setProc p fun x => { x with state := .running })
    else .waiting
  | .wake q chan, s => .returned () (s.wake q chan)
  | .killed, s => .returned (s.procs p).killed s
  | .pid q, s => .returned (s.procs q).pid s
  | .kill q, s => .returned () (s.setProc q fun x => { x with killed := true })
  | .rouse q, s => .returned () (s.rouse q)
  | .get, s => .returned s.data s
  | .upd f, s => .returned () { s with data := f s.data }
  | .mark, s => .returned () s
  | .stop, _ => .waiting

def machine (X : Type) (p : Nat) : Machine (signature X) (State X) Panic := ⟨act p⟩

def step (e : Step X) : Code X (Answer e) := .step e .done

def acquire (l : Lock) : Code X Unit := step (.acquire l)

def release (l : Lock) : Code X Unit := step (.release l)

/-- `swtch(&proc->context, cpu->scheduler)` returns when a scheduler switches back to the process. -/
def sched : Code X Unit := do
  step .sched
  step .resume

def yield : Code X Unit := do
  acquire .ptable
  step (.setState .runnable)
  sched
  release .ptable

def sleep (chan : Chan) (lk : Lock) : Code X Unit := do
  if lk ≠ .ptable then do
    acquire .ptable
    release lk
  step (.setChan chan)
  step (.setState .sleeping)
  sched
  step (.setChan .null)
  if lk ≠ .ptable then do
    release .ptable
    acquire lk

def wakeup1.loop (chan : Chan) (q : Nat) : Nat → Code X Unit
  | 0 => pure ()
  | n + 1 => do
    step (.wake q chan)
    wakeup1.loop chan (q + 1) n

def wakeup1 (chan : Chan) : Code X Unit := wakeup1.loop chan 0 NPROC

def wakeup (chan : Chan) : Code X Unit := do
  acquire .ptable
  wakeup1 chan
  release .ptable

def kill.loop (pid : Int) (q : Nat) : Nat → Code X Int
  | 0 => do
    release .ptable
    return -1
  | n + 1 => do
    let found : Int ← step (.pid q)
    if found = pid then
      step (.kill q)
      step (.rouse q)
      release .ptable
      return 0
    else kill.loop pid (q + 1) n

def kill (pid : Int) : Code X Int := do
  acquire .ptable
  kill.loop pid 0 NPROC

/-! ### What steps leave alone -/

@[simp] theorem setProc_lock (s : State X) (p : Nat) (f : Proc → Proc) : (s.setProc p f).lock = s.lock := rfl

@[simp] theorem setProc_data (s : State X) (p : Nat) (f : Proc → Proc) : (s.setProc p f).data = s.data := rfl

@[simp] theorem setProc_same (s : State X) (p : Nat) (f : Proc → Proc) :
    (s.setProc p f).procs p = f (s.procs p) := Function.update_self ..

theorem setProc_ne (s : State X) (f : Proc → Proc) {p q : Nat} (ne : q ≠ p) :
    (s.setProc p f).procs q = s.procs q := Function.update_of_ne ne ..

theorem setProc_forall {s : State X} {p : Nat} {f : Proc → Proc} (P : Nat → Proc → Prop) (slot : P p (f (s.procs p)))
    (others : ∀ q, q ≠ p → P q (s.procs q)) : ∀ q, P q ((s.setProc p f).procs q) :=
  (Function.forall_update_iff s.procs P).mpr ⟨slot, others⟩

theorem setProc_apply {A : Type} {s : State X} {p : Nat} {f : Proc → Proc} (field : Proc → A)
    (same : field (f (s.procs p)) = field (s.procs p)) : ∀ q, field ((s.setProc p f).procs q) = field (s.procs q) :=
  setProc_forall (fun q x => field x = field (s.procs q)) same fun _ _ => rfl

@[simp] theorem setLock_procs (s : State X) (l : Lock) (holder : Option Nat) :
    (s.setLock l holder).procs = s.procs := rfl

@[simp] theorem setLock_data (s : State X) (l : Lock) (holder : Option Nat) :
    (s.setLock l holder).data = s.data := rfl

@[simp] theorem setLock_same (s : State X) (l : Lock) (holder : Option Nat) :
    (s.setLock l holder).lock l = holder := Function.update_self ..

theorem setLock_ne (s : State X) (holder : Option Nat) {l m : Lock} (ne : m ≠ l) :
    (s.setLock l holder).lock m = s.lock m := Function.update_of_ne ne ..

@[simp] theorem setNcli_procs (s : State X) (p n : Nat) : (s.setNcli p n).procs = s.procs := rfl

@[simp] theorem setNcli_lock (s : State X) (p n : Nat) : (s.setNcli p n).lock = s.lock := rfl

@[simp] theorem setNcli_data (s : State X) (p n : Nat) : (s.setNcli p n).data = s.data := rfl

/-! ### When a step that may wait or panic returns -/

variable {p : Nat} {s s' : State X} {r : Unit}

theorem act_acquire {l : Lock} (returned : act p (.acquire l) s = .returned r s') :
    s.lock l = none ∧ s' = (s.setLock l (some p)).setNcli p (s.ncli p + 1) := by
  simp only [act] at returned
  split at returned
  · rename_i free
    cases returned
    exact ⟨free, rfl⟩
  · split at returned <;> cases returned

theorem act_release {l : Lock} (returned : act p (.release l) s = .returned r s') :
    s.lock l = some p ∧ s' = (s.setLock l none).setNcli p (s.ncli p - 1) := by
  simp only [act] at returned
  split at returned
  · cases returned
  · rename_i held
    split at returned <;> cases returned
    exact ⟨not_not.mp held, rfl⟩

theorem act_sched (returned : act p .sched s = .returned r s') :
    s.lock .ptable = some p ∧ s' = s.setLock .ptable none := by
  simp only [act] at returned
  split at returned
  · cases returned
  · rename_i held
    split at returned
    · cases returned
    · split at returned <;> cases returned
      exact ⟨not_not.mp held, rfl⟩

theorem act_resume (returned : act p .resume s = .returned r s') :
    (s.procs p).state = .runnable ∧ s.lock .ptable = none ∧
      s' = (s.setLock .ptable (some p)).setProc p fun x => { x with state := .running } := by
  simp only [act] at returned
  split at returned <;> cases returned
  rename_i runs
  exact ⟨runs.1, runs.2, rfl⟩

end Espl.Sched
