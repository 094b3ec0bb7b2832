import Espl.Program.Protocol
import Espl.Kernel.Exec

/-!
# System calls

The calls a process can make, with their arguments as the kernel has fetched them, and the state the
kernel starts them in.
-/

namespace Espl.Kernel

inductive Syscall where
  | fork
  | exit
  | wait
  | sbrk (n : Int)
  | pipe
  | read (fd : Nat) (n : UInt32)
  | write (fd : Nat) (src : List UInt8)
  | close (fd : Nat)
  | dup (fd : Nat)
  | fstat (fd : Nat)
  | open (path : List UInt8) (omode : Nat)
  | link (old new : List UInt8)
  | unlink (path : List UInt8)
  | mkdir (path : Option (List UInt8))
  | mknod (path : Option (List UInt8)) (major minor : Int)
  | chdir (path : List UInt8)
  | exec (elf : Elfhdr) (path : List UInt8) (argv : List (List UInt8))

namespace Syscall

def code (p : Nat) : Syscall → K Unit
  | fork => discard (Kernel.fork p)
  | exit => Kernel.exit p
  | wait => discard (Kernel.wait p)
  | sbrk n => discard (sysSbrk p n)
  | pipe => discard (sysPipe p)
  | read fd n => discard (sysRead p fd n.toNat)
  | write fd src => discard (sysWrite p fd src)
  | close fd => discard (sysClose p fd)
  | dup fd => discard (sysDup p fd)
  | fstat fd => discard (sysFstat p fd)
  | .open path omode => discard (sysOpen p path omode)
  | link old new => discard (sysLink p old new)
  | unlink path => discard (sysUnlink p path)
  | mkdir path => discard (sysMkdir p path)
  | mknod path major minor => discard (sysMknod p path major minor)
  | chdir path => discard (sysChdir p path)
  | exec elf path argv => discard (sysExec p elf path argv)
where
  /-- The result goes to the process. -/
  discard {α : Type} (c : K α) : K Unit := do
    let _ ← c
    return ()

end Syscall

def calls (p : Nat) (s : State) (prog : K Unit) : Prop :=
  (s.procs p).state = .runnable ∧ ∃ c : Syscall, prog = c.code p

/-! ### Start-up -/

def userinit : K Unit := do
  let _ ← step .allocproc
  let cwd ← namei initproc [SLASH]
  step (.setProc initproc fun proc => { proc with state := .runnable, cwd := cwd })

def boot (d : Nat → Block) : Outcome State Panic Unit :=
  let sb := Superblock.ofBlock (d 1)
  machine.run (do userinit; recoverFromLog) (booted (sb.size - sb.nlog) sb.nlog d)

/-- The calls of one process one after the other, each run to its end. -/
def script (p : Nat) : List Syscall → State → Option State
  | [], s => some s
  | c :: cs, s =>
    if (s.procs p).state = .runnable then
      match machine.run (c.code p) s with
      | .returned _ s' => script p cs s'
      | _ => none
    else
      none

/-- The panic in which the first process ends when it makes the calls `cs` and then `last` on the disk
`d`. -/
def crash (d : Nat → Block) (cs : List Syscall) (last : Syscall) : Option Panic :=
  match boot d with
  | .returned _ s =>
    match script initproc cs s with
    | some s =>
      if (s.procs initproc).state = .runnable then
        match machine.run (last.code initproc) s with
        | .panicked m => some m
        | _ => none
      else
        none
    | none => none
  | _ => none

theorem script_reachable {p : Nat} {cs : List Syscall} {s s' : State} (h : script p cs s = some s')
    (trace : List (Nat × Step)) :
    ∃ trace', machine.Reachable calls (fun _ _ _ => True) ⟨s, fun _ => .done (), trace⟩
      ⟨s', fun _ => .done (), trace'⟩ := by
  induction cs generalizing s trace with
  | nil =>
    cases h
    exact ⟨trace, .refl⟩
  | cons c cs ih =>
    rw [script] at h
    split at h
    · rename_i runnable
      split at h
      · rename_i u run
        obtain ⟨mid, ran⟩ := Machine.reachable_run (M := machine) (A := fun _ _ _ => True)
          (c := ⟨s, Function.update (fun _ => .done ()) p (c.code p), trace⟩) (p := p)
          (by simp) run fun _ _ _ => trivial
        obtain ⟨trace', rest⟩ := ih h mid
        refine ⟨trace', .head (.call (p := p) rfl ⟨runnable, c, rfl⟩) (ran.trans ?_)⟩
        rw [Function.update_idem, Function.update_eq_self]
        exact rest
      · cases h
    · cases h

theorem crash_reachable {d : Nat → Block} {cs : List Syscall} {last : Syscall} {m : Panic}
    (h : crash d cs last = some m) :
    ∃ s c e next, boot d = .returned () s ∧
      machine.Reachable calls (fun _ _ _ => True) (Machine.initial s) c ∧
      c.thread initproc = .step e next ∧ act e c.state = .panicked m := by
  rw [crash] at h
  split at h
  · rename_i s booted
    split at h
    · rename_i u scripted
      split at h
      · rename_i runnable
        split at h
        · rename_i m' run
          cases h
          obtain ⟨mid, ran⟩ := script_reachable scripted []
          obtain ⟨c, e, next, rest, at_step, stop⟩ := Machine.reachable_panic (M := machine)
            (A := fun _ _ _ => True)
            (c := ⟨u, Function.update (fun _ => .done ()) initproc (last.code initproc), mid⟩) (p := initproc)
            (by simp) run fun _ _ _ => trivial
          exact ⟨s, c, e, next, booted,
            ran.trans (.head (.call (p := initproc) rfl ⟨runnable, last, rfl⟩) rest), at_step, stop⟩
        · cases h
      · cases h
    · cases h
  · cases h

end Espl.Kernel
