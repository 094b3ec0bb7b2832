import Espl.Sched.Table

/-!
# Schedulers and context switches

Every CPU runs its own `scheduler` and, through `swtch`, the kernel code of processes. Here `ptable.lock`
is held by a CPU and stays held while the CPU switches stacks. `swtch` takes two steps: it saves the
context of the old stack, and it loads the new one.
-/

namespace Espl.Sched

/-- Where `scheduler` is; `q` is its loop variable. On an idle CPU a device interrupt may call `wakeup`. -/
inductive SPc where
  /-- `acquire(&ptable.lock);` -/
  | top
  /-- `if(p->state != RUNNABLE) continue;` or, after the last slot, `release(&ptable.lock);` -/
  | scan (q : Nat)
  /-- `proc = p;` -/
  | chosen (q : Nat)
  /-- `switchuvm(p);` -/
  | placed (q : Nat)
  /-- `p->state = RUNNING;` -/
  | mapped (q : Nat)
  /-- `swtch(&cpu->scheduler, proc->context);` -/
  | marked (q : Nat)
  /-- `switchkvm();` -/
  | back (q : Nat)
  /-- `proc = 0;` -/
  | unmapped (q : Nat)
  /-- `wakeup(chan)` before it has `ptable.lock`. -/
  | interrupted (chan : Chan)
  | waking (chan : Chan) (q : Nat)

/-- What a CPU executes, and on which stack: its scheduler, `swtch` from there to a process, the code of a
process, or `swtch` from a process to the scheduler. -/
inductive Control where
  | scheduler (pc : SPc)
  | entering
  | process (p : Nat) (code : TCode Unit)
  | leaving (p : Nat)

/-- `proc` and `scheduler` are the fields of `struct cpu`; `pgdir` says whose page directory is loaded, with
`none` for `kpgdir`. A context is here while it is saved. -/
structure Cpu where
  control : Control
  proc : Option Nat
  pgdir : Option Nat
  scheduler : Option SPc

/-- All CPUs. The holders of the locks in `table`, and the owners of `ncli`, are CPUs. -/
structure Sys where
  table : Table
  cpu : Nat → Cpu
  /-- `p->context` while it is saved. -/
  context : Nat → Option (TCode Unit)

/-- A step of CPU `c` in the code of a process, with `p` the CPU's `proc`. Locks belong to the CPU. The
return from `swtch` to an old or a new process is not a step of its own. -/
def cact (c p : Nat) : (e : TStep) → Table → Outcome Table TPanic (TStep.Answer e)
  | .core (.acquire l), s => tact c (.core (.acquire l)) s
  | .core (.release l), s => tact c (.core (.release l)) s
  | .core .resume, s => .returned () s
  | .start, s => .returned () s
  | e, s => tact p e s

namespace Sys

def setCpu (S : Sys) (c : Nat) (f : Cpu → Cpu) : Sys := { S with cpu := Function.update S.cpu c (f (S.cpu c)) }

def goto (S : Sys) (c : Nat) (k : Control) : Sys := S.setCpu c fun x => { x with control := k }

def prepare (S : Sys) : TStep → Sys
  | .setContext q => { S with context := Function.update S.context q (some Table.forkret) }
  | _ => S

/-- A step of CPU `c` on the table, and where it goes on if the step returns. -/
def does (S : Sys) (c : Nat) (o : Outcome Table TPanic Unit) (pc : SPc) : Option Sys :=
  match o with
  | .returned _ s => some ({ S with table := s }.goto c (.scheduler pc))
  | _ => none

def schedule (S : Sys) (c : Nat) : SPc → Option Sys
  | .top => S.does c (tact c (.core (.acquire .ptable)) S.table) (.scan 0)
  | .scan q =>
    if q < NPROC then
      if (S.table.procs q).state = .runnable then some (S.goto c (.scheduler (.chosen q)))
      else some (S.goto c (.scheduler (.scan (q + 1))))
    else S.does c (tact c (.core (.release .ptable)) S.table) .top
  | .chosen q => some (S.setCpu c fun x => { x with control := .scheduler (.placed q), proc := some q })
  | .placed q => some (S.setCpu c fun x => { x with control := .scheduler (.mapped q), pgdir := some q })
  | .mapped q =>
    S.does c (.returned () (S.table.setProc q fun x => { x with state := .running, fresh := false })) (.marked q)
  | .marked q => some (S.setCpu c fun x => { x with control := .entering, scheduler := some (.back q) })
  | .back q => some (S.setCpu c fun x => { x with control := .scheduler (.unmapped q), pgdir := none })
  | .unmapped q => some (S.setCpu c fun x => { x with control := .scheduler (.scan (q + 1)), proc := none })
  | .interrupted chan => S.does c (tact c (.core (.acquire .ptable)) S.table) (.waking chan 0)
  | .waking chan q =>
    if q < NPROC then S.does c (.returned () (S.table.wake q chan)) (.waking chan (q + 1))
    else S.does c (tact c (.core (.release .ptable)) S.table) .top

inductive Turn : Sys → Sys → Prop where
  | op {S : Sys} {c p q : Nat} {e : TStep} {next : TStep.Answer e → TCode Unit} {r : TStep.Answer e} {s : Table}
      (here : (S.cpu c).control = .process p (.step e next)) (other : e ≠ .core .sched)
      (proc : (S.cpu c).proc = some q) (act : cact c q e S.table = .returned r s) :
      Turn S (({ S with table := s }.prepare e).goto c (.process p (next r)))
  /-- `swtch(&proc->context, cpu->scheduler)` saves, after the checks of `sched`. -/
  | save {S : Sys} {c p q : Nat} {next : Unit → TCode Unit}
      (here : (S.cpu c).control = .process p (.step (.core .sched) next)) (proc : (S.cpu c).proc = some q)
      (holding : S.table.lock .ptable = some c) (ncli : S.table.ncli c = 1)
      (state : (S.table.procs q).state ≠ .running) :
      Turn S ({ S with context := Function.update S.context q (some (next ())) }.goto c (.leaving p))
  /-- It loads. -/
  | leave {S : Sys} {c p : Nat} {pc : SPc} (here : (S.cpu c).control = .leaving p)
      (saved : (S.cpu c).scheduler = some pc) :
      Turn S (S.setCpu c fun x => { x with control := .scheduler pc, scheduler := none })
  | schedule {S S' : Sys} {c : Nat} {pc : SPc} (here : (S.cpu c).control = .scheduler pc)
      (step : S.schedule c pc = some S') : Turn S S'
  /-- `swtch(&cpu->scheduler, proc->context)` loads. -/
  | enter {S : Sys} {c q : Nat} {code : TCode Unit} (here : (S.cpu c).control = .entering)
      (proc : (S.cpu c).proc = some q) (saved : S.context q = some code) :
      Turn S ({ S with context := Function.update S.context q none }.goto c (.process q code))
  | call {S : Sys} {c p : Nat} (here : (S.cpu c).control = .process p (.done ())) (body : Program tops Unit) :
      Turn S (S.goto c (.process p (body.interp TOp.code)))
  /-- Outside `ptable.lock` other code comes first: an interrupt, a timer tick or the file system. -/
  | work {S : Sys} {c p : Nat} {code : TCode Unit} (here : (S.cpu c).control = .process p code)
      (free : S.table.lock .ptable ≠ some c) (body : Program wops Unit) :
      Turn S (S.goto c (.process p ((body.interp WOp.code).bind fun _ => code)))
  | interrupt {S : Sys} {c : Nat} (here : (S.cpu c).control = .scheduler .top) (chan : Chan) :
      Turn S (S.goto c (.scheduler (.interrupted chan)))

def Reachable : Sys → Sys → Prop := Relation.ReflTransGen Turn

def boot : Sys where
  table := tboot
  cpu _ := ⟨.scheduler .top, none, none, none⟩
  context p := if p = initproc then some Table.forkret else none

end Sys

end Espl.Sched
