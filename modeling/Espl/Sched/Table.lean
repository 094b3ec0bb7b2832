import Espl.Sched.Basic
import Mathlib.Algebra.Ring.Int.Defs
import Mathlib.Algebra.Ring.Nat

/-!
# The process table

`allocproc`, `fork`, `exit`, `wait` and `kill` of `proc.c` by any number of processes, together with
`sleep`, `wakeup` and the scheduler. A slot of the table is used by one process after the other.
-/

namespace Espl.Sched

abbrev NOFILE : Nat := 16

abbrev initproc : Nat := 0

/-- What has happened to processes so far: pids given out, exits, children returned by `wait` to a
caller (with the child's parent at that time) and failures of `wait` (did the caller have children, was
it killed). -/
inductive Event where
  | alloc (pid : Int)
  | exit (pid : Int)
  | waited (caller : Nat) (pid : Int) (parent : Option Nat)
  | waitFailed (caller : Nat) (children killed : Bool)
  deriving DecidableEq

/-- The next pid, a C `int`, and what has happened, the latest first. -/
structure Books where
  nextpid : Int
  history : List Event

abbrev Table : Type := State Books

inductive Found where
  | other
  | child
  | zombie (pid : Int)

inductive TPanic where
  | sched (m : Panic)
  | initExiting
  | zombieExit

inductive TStep where
  | core (e : Step Books)
  | self
  | checkInit
  | parent
  /-- `if(p->state == UNUSED) goto found; found: p->state = EMBRYO; p->pid = nextpid++;` -/
  | tryTake (q : Nat)
  | giveBack (q : Nat)
  | setContext (q : Nat)
  | setParent (q : Nat)
  | dupFile (q fd : Nat)
  | setRunnable (q : Nat)
  | closeFile (fd : Nat)
  | setFile (fd : Nat) (f : Option Nat)
  /-- `if(p->parent == proc){ p->parent = initproc; if(p->state == ZOMBIE) … }` -/
  | adopt (q : Nat)
  | setZombie
  | reap (q : Nat)
  | waitFails
  /-- A scheduler, with `ptable.lock` and no other lock, switches to a process for the first time. -/
  | start
  | panic (m : TPanic)

@[reducible] def TStep.Answer : TStep → Type
  | .core e => Sched.Answer e
  | .self => Nat
  | .parent => Option Nat
  | .tryTake _ => Bool
  | .adopt _ => Bool
  | .reap _ => Found
  | .panic _ => Empty
  | _ => Unit

abbrev tsignature : Signature := ⟨TStep, TStep.Answer⟩

abbrev TCode : Type → Type := Program tsignature

def wrapInt (n : Int) : Int := Int.bmod n (2 ^ 32)

namespace Table

def log (s : Table) (e : Event) : Table := { s with data := { s.data with history := e :: s.data.history } }

def hasChild (s : Table) (p : Nat) : Bool := (List.range NPROC).any fun q => (s.procs q).parent == some p

def take (s : Table) (q : Nat) : Table :=
  let pid := s.data.nextpid
  let s := s.setProc q fun x => { x with state := .embryo, pid := pid }
  { s with data := ⟨wrapInt (pid + 1), .alloc pid :: s.data.history⟩ }

/-- The end of `wait` for the zombie `q`: the kernel stack and the page directory are freed as well. -/
def free (s : Table) (p q : Nat) : Table :=
  log (s.setProc q fun x => { x with state := .unused, pid := 0, parent := none, killed := false })
    (.waited p (s.procs q).pid (s.procs q).parent)

/-- `if(proc->ofile[fd]) np->ofile[fd] = filedup(proc->ofile[fd]);` -/
def dupFile (s : Table) (p q fd : Nat) : Table :=
  match (s.procs p).ofile fd with
  | some f => s.setProc q fun x => { x with ofile := Function.update x.ofile fd (some f) }
  | none => s

end Table

/-- A step of the code that runs on behalf of the process in slot `p`. -/
def tact (p : Nat) : (e : TStep) → Table → Outcome Table TPanic (TStep.Answer e)
  | .core .resume, s =>
    if (s.procs p).fresh then .waiting
    else match act p .resume s with
      | .returned r s' => .returned r s'
      | .panicked m => .panicked (.sched m)
      | .waiting => .waiting
  | .core e, s =>
    match act p e s with
    | .returned r s' => .returned r s'
    | .panicked m => .panicked (.sched m)
    | .waiting => .waiting
  | .self, s => .returned p s
  | .checkInit, s => if p = initproc then .panicked .initExiting else .returned () s
  | .parent, s => .returned (s.procs p).parent s
  | .tryTake q, s => if (s.procs q).state = .unused then .returned true (Table.take s q) else .returned false s
  | .giveBack q, s => .returned () (s.setProc q fun x => { x with state := .unused })
  | .setContext q, s => .returned () (s.setProc q fun x => { x with fresh := true })
  | .setParent q, s => .returned () (s.setProc q fun x => { x with parent := some p })
  | .dupFile q fd, s => .returned () (Table.dupFile s p q fd)
  | .setRunnable q, s => .returned () (s.setProc q fun x => { x with state := .runnable })
  | .closeFile fd, s => .returned () (s.setProc p fun x => { x with ofile := Function.update x.ofile fd none })
  | .setFile fd f, s => .returned () (s.setProc p fun x => { x with ofile := Function.update x.ofile fd f })
  | .adopt q, s =>
    if (s.procs q).parent = some p then
      .returned ((s.procs q).state == .zombie) (s.setProc q fun x => { x with parent := some initproc })
    else .returned false s
  | .setZombie, s =>
    .returned () (Table.log (s.setProc p fun x => { x with state := .zombie }) (.exit (s.procs p).pid))
  | .reap q, s =>
    if (s.procs q).parent = some p then
      if (s.procs q).state = .zombie then .returned (.zombie (s.procs q).pid) (Table.free s p q)
      else .returned .child s
    else .returned .other s
  | .waitFails, s => .returned () (Table.log s (.waitFailed p (Table.hasChild s p) (s.procs p).killed))
  | .start, s =>
    if (s.procs p).fresh = true ∧ (s.procs p).state = .runnable ∧ s.lock .ptable = none then
      .returned () (((s.setLock .ptable (some p)).setProc p fun x =>
        { x with state := .running, fresh := false }).setNcli p 1)
    else .waiting
  | .panic m, _ => .panicked m

def tmachine (p : Nat) : Machine tsignature Table TPanic := ⟨tact p⟩

namespace Table

def step (e : TStep) : TCode (TStep.Answer e) := .step e .done

def lift {α : Type} (code : Code Books α) : TCode α := code.interp fun e => step (.core e)

def allocproc.find (q : Nat) : Nat → TCode (Option Nat)
  | 0 => do
    lift (release .ptable)
    return none
  | n + 1 => do
    let found : Bool ← step (.tryTake q)
    if found then do
      lift (release .ptable)
      return some q
    else allocproc.find (q + 1) n

/-- `allocproc`; `stack` says whether `kalloc` has a page for the kernel stack. -/
def allocproc (stack : Bool) : TCode (Option Nat) := do
  lift (acquire .ptable)
  match ← allocproc.find 0 NPROC with
  | none => return none
  | some q =>
    if stack then do
      step (.setContext q)
      return some q
    else do
      step (.giveBack q)
      return none

def fork.files (q fd : Nat) : Nat → TCode Unit
  | 0 => pure ()
  | n + 1 => do
    step (.dupFile q fd)
    fork.files q (fd + 1) n

/-- `fork`; `copy` says whether `copyuvm` has enough pages. -/
def fork (stack copy : Bool) : TCode Int := do
  match ← allocproc stack with
  | none => return -1
  | some np =>
    if copy then do
      step (.setParent np)
      fork.files np 0 NOFILE
      let pid : Int ← step (.core (.pid np))
      step (.setRunnable np)
      return pid
    else do
      step (.giveBack np)
      return -1

def exit.files (fd : Nat) : Nat → TCode Unit
  | 0 => pure ()
  | n + 1 => do
    step (.closeFile fd)
    exit.files (fd + 1) n

def exit.children (q : Nat) : Nat → TCode Unit
  | 0 => pure ()
  | n + 1 => do
    let zombie : Bool ← step (.adopt q)
    if zombie then lift (wakeup1 (.proc initproc)) else pure ()
    exit.children (q + 1) n

def exit : TCode Empty := do
  step .checkInit
  exit.files 0 NOFILE
  lift (acquire .ptable)
  let parent : Option Nat ← step .parent
  lift (wakeup1 (parent.elim .null .proc))
  exit.children 0 NPROC
  step .setZombie
  lift sched
  step (.panic .zombieExit)

/-- The scan of `wait` over the `n` slots from `q` on: the pid of a zombie child, or whether there are
children. -/
def wait.scan (havekids : Bool) (q : Nat) : Nat → TCode (Except Bool Int)
  | 0 => return .error havekids
  | n + 1 => do
    let found : Found ← step (.reap q)
    match found with
    | .other => wait.scan havekids (q + 1) n
    | .child => wait.scan true (q + 1) n
    | .zombie pid => return .ok pid

def wait.loop : Nat → TCode Int
  | 0 => .step (.core .stop) nofun
  | fuel + 1 => do
    match ← wait.scan false 0 NPROC with
    | .ok pid => do
      lift (release .ptable)
      return pid
    | .error havekids => do
      let killed : Bool ← step (.core .killed)
      if !havekids || killed then do
        step .waitFails
        lift (release .ptable)
        return -1
      else do
        let p : Nat ← step .self
        lift (sleep (.proc p) .ptable)
        wait.loop fuel

/-- `wait`, cut off after `fuel` rounds. -/
def wait (fuel : Nat) : TCode Int := do
  lift (acquire .ptable)
  wait.loop fuel

def forkret : TCode Unit := do
  step .start
  lift (release .ptable)

end Table

/-- Other kernel code as far as it matters here: it takes locks, sleeps, wakes and yields. -/
inductive WOp where
  | acquire (n : Nat)
  | release (n : Nat)
  | sleep (chan : Chan) (n : Nat)
  | wakeup (chan : Chan)
  | yield

abbrev wops : Signature := ⟨WOp, fun _ => Unit⟩

def WOp.code : WOp → TCode Unit
  | .acquire n => Table.lift (Sched.acquire (.other n))
  | .release n => Table.lift (Sched.release (.other n))
  | .sleep chan n => Table.lift (Sched.sleep chan (.other n))
  | .wakeup chan => Table.lift (Sched.wakeup chan)
  | .yield => Table.lift Sched.yield

/-- What a process does in the kernel, with the outcomes of allocations. -/
inductive TOp where
  | fork (stack copy : Bool)
  | exit
  | wait (fuel : Nat)
  | kill (pid : Int)
  | killed
  | setFile (fd : Nat) (f : Option Nat)
  | work (o : WOp)

@[reducible] def TOp.Answer : TOp → Type
  | .fork .. => Int
  | .exit => Empty
  | .wait _ => Int
  | .kill _ => Int
  | .killed => Bool
  | _ => Unit

abbrev tops : Signature := ⟨TOp, TOp.Answer⟩

def TOp.code : (o : TOp) → TCode (TOp.Answer o)
  | .fork stack copy => Table.fork stack copy
  | .exit => Table.exit
  | .wait fuel => Table.wait fuel
  | .kill pid => Table.lift (Sched.kill pid)
  | .killed => Table.step (.core .killed)
  | .setFile fd f => Table.step (.setFile fd f)
  | .work o => o.code

/-- A new process starts in `forkret`, whoever had its slot before. A running one does anything. Anywhere
outside `ptable.lock` it runs other code first: an interrupt comes, the timer makes it yield, or the source
goes into the file system there. -/
def tcalls (p : Nat) (s : Table) (current prog : TCode Unit) : Prop :=
  ((s.procs p).fresh = true ∧ prog = Table.forkret) ∨
    (current = .done () ∧ (s.procs p).state = .running ∧
      ∃ body : Program tops Unit, prog = body.interp TOp.code) ∨
    ((s.procs p).state = .running ∧ s.lock .ptable ≠ some p ∧
      ∃ body : Program wops Unit, prog = (body.interp WOp.code).bind fun _ => current)

def tboot : Table where
  lock _ := none
  ncli _ := 0
  procs p :=
    if p = initproc then { state := .runnable, chan := .null, killed := false, pid := 1, fresh := true }
    else { state := .unused, chan := .null, killed := false, pid := 0 }
  data := ⟨2, [.alloc 1]⟩

end Espl.Sched
