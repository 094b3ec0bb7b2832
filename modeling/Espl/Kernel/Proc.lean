import Espl.Kernel.Sysfile

/-!
# `proc.c`: processes and their memory
-/

namespace Espl.Kernel

def allocproc : K (Option Nat) := do
  let slot : Option Nat ← step .allocproc
  match slot with
  | none => return none
  | some p =>
    match ← vm Vm.kalloc with
    | none => do
      step (.setProc p fun proc => { proc with kstack := 0, state := .unused })
      return none
    | some kstack => do
      step (.setProc p fun proc => { proc with kstack := kstack })
      return some p

def addInt (sz : Nat) (n : Int) : Nat := ((sz + n) % 2 ^ 32).toNat

def growproc (p : Nat) (n : Int) : K Int := do
  let proc ← step (.proc p)
  if n > 0 then
    set (← vm (Vm.allocuvm proc.pgdir proc.sz (addInt proc.sz n)))
  else if n < 0 then
    set (← vm (Vm.deallocuvm proc.pgdir proc.sz (addInt proc.sz n)))
  else
    return 0
where
  set (sz : Nat) : K Int := do
    if sz = 0 then
      return -1
    else
      step (.setProc p fun proc => { proc with sz := sz })
      return 0

def sysSbrk (p : Nat) (n : Int) : K Int := do
  let proc ← step (.proc p)
  if (← growproc p n) < 0 then
    return -1
  else
    return proc.sz

def fork (p : Nat) : K Int := do
  match ← allocproc with
  | none => return -1
  | some np => do
    let proc ← step (.proc p)
    match ← vm (Vm.copyuvm proc.pgdir proc.sz) with
    | none => do
      let child ← step (.proc np)
      vm (Vm.kfree child.kstack)
      step (.setProc np fun child => { child with pgdir := 0, kstack := 0, state := .unused })
      return -1
    | some pgdir => do
      step (.setProc np fun child => { child with
        pgdir := pgdir, sz := proc.sz, parent := some p, eip := proc.eip, esp := proc.esp })
      loop np proc.ofile 0 NOFILE
      let cwd ← idup (proc.cwd.getD 0)
      let child ← step (.proc np)
      step (.setProc np fun child => { child with cwd := some cwd, state := .runnable, name := proc.name })
      return child.pid
where
  loop (np : Nat) (ofile : Nat → Option Nat) (i : Nat) : Nat → K Unit
    | 0 => pure ()
    | k + 1 => do
      match ofile i with
      | some f => do
        step (.filedup f)
        step (.setProc np fun child => { child with ofile := upd child.ofile i (some f) })
      | none => pure ()
      loop np ofile (i + 1) k

def exit (p : Nat) : K Unit := do
  if p = initproc then
    panic .initExiting
  else
    loop 0 NOFILE
    let proc ← step (.proc p)
    iput (proc.cwd.getD 0)
    step (.setProc p fun proc => { proc with cwd := none })
    step (.zombie p)
where
  loop (fd : Nat) : Nat → K Unit
    | 0 => pure ()
    | k + 1 => do
      let proc ← step (.proc p)
      match proc.ofile fd with
      | some f => do
        fileclose f
        step (.setProc p fun proc => { proc with ofile := upd proc.ofile fd none })
      | none => pure ()
      loop (fd + 1) k

def wait (p : Nat) : K Int := do
  let found : Option Nat ← step (.findZombie p)
  match found with
  | none => return -1
  | some q => do
    let child ← step (.proc q)
    vm (Vm.kfree child.kstack)
    vm (Vm.freevm child.pgdir)
    step (.setProc q fun child => { child with
      kstack := 0, state := .unused, pid := 0, parent := none, name := [], killed := false })
    return child.pid

end Espl.Kernel
