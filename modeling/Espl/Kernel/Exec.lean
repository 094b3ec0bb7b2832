import Espl.Disk.Block
import Espl.Kernel.Proc

/-!
# `exec.c`

`exec` is written over its own steps: what it asks of the file it runs, of memory and of the process.
As kernel code each of them is carried out by the functions of `fs.c`.
-/

namespace Espl.Kernel

abbrev MAXARG : Nat := 32
abbrev ELF_MAGIC : Nat := 0x464C457F
abbrev ELF_PROG_LOAD : Nat := 1

/-- `struct elfhdr`, the fields `exec` reads. -/
structure Elfhdr where
  magic : Nat
  entry : Nat
  phoff : Nat
  phnum : Nat

/-- `struct proghdr`, the fields `exec` reads. -/
structure Proghdr where
  type : Nat
  off : Nat
  vaddr : Nat
  filesz : Nat
  memsz : Nat

abbrev ELFSIZE : Nat := 52

abbrev PHSIZE : Nat := 32

def Elfhdr.ofBytes (bs : List UInt8) : Elfhdr where
  magic := le32 fun j => bs.getD j 0
  entry := le32 fun j => bs.getD (24 + j) 0
  phoff := le32 fun j => bs.getD (28 + j) 0
  phnum := le16 fun j => bs.getD (44 + j) 0

def Proghdr.ofBytes (bs : List UInt8) : Proghdr where
  type := le32 fun j => bs.getD j 0
  off := le32 fun j => bs.getD (4 + j) 0
  vaddr := le32 fun j => bs.getD (8 + j) 0
  filesz := le32 fun j => bs.getD (16 + j) 0
  memsz := le32 fun j => bs.getD (20 + j) 0

namespace Exec

inductive Step where
  | mem (e : Vm.Step)
  | namei (path : List UInt8)
  | ilock (ip : Nat)
  | readi (ip off n : Nat)
  | iunlockput (ip : Nat)
  | commit (pgdir sz eip esp : Nat) (name : List UInt8)

@[reducible] def Answer : Step → Type
  | .mem e => Vm.Answer e
  | .namei _ => Option Nat
  | .readi _ _ _ => Int × List UInt8
  | .commit _ _ _ _ _ => Nat
  | _ => Unit

abbrev signature : Signature := ⟨Step, Answer⟩

end Exec

abbrev X := Program Exec.signature

namespace Exec

def step (e : Step) : X (Answer e) := Program.step (G := signature) e .done

def namei (path : List UInt8) : X (Option Nat) := step (.namei path)

def readi (ip off n : Nat) : X (Int × List UInt8) := step (.readi ip off n)

def vm {α : Type} (p : V α) : X α := p.interp (H := signature) fun e => step (.mem e)

/-- `false` is the result -1. -/
def loaduvm (pgdir addr ip offset sz : Nat) : X Bool := do
  if addr % PGSIZE ≠ 0 then
    vm (Vm.panic .loaduvmAlign)
  else
    loop 0 ((sz + PGSIZE - 1) / PGSIZE)
where
  loop (i : Nat) : Nat → X Bool
    | 0 => return true
    | k + 1 => do
      match ← vm (Vm.walkpgdir pgdir ((addr + i) % 2 ^ 32) false) with
      | none => vm (Vm.panic .loaduvmExist)
      | some (pgtab, j) => do
        let pte ← vm (Vm.step (.entry pgtab j))
        let n := min (sz - i) PGSIZE
        let (r, bs) ← readi ip ((offset + i) % 2 ^ 32) n
        vm (Vm.step (.store pte.page 0 bs))
        if r ≠ n then
          return false
        else
          loop (i + PGSIZE) k

/-- The loop over the program headers at `off`, `k` rounds of it; `none` is `goto bad`. -/
def load (pgdir ip sz off : Nat) : Nat → X (Option Nat)
  | 0 => return some sz
  | k + 1 => do
    let (r, bs) ← readi ip off PHSIZE
    if r ≠ PHSIZE then
      return none
    else
      let ph := Proghdr.ofBytes bs
      if ph.type ≠ ELF_PROG_LOAD then
        load pgdir ip sz ((off + PHSIZE) % 2 ^ 32) k
      else if ph.memsz < ph.filesz then
        return none
      else
        let sz ← vm (Vm.allocuvm pgdir sz ((ph.vaddr + ph.memsz) % 2 ^ 32))
        if sz = 0 then
          return none
        else if ← loaduvm pgdir ph.vaddr ip ph.off ph.filesz then
          load pgdir ip sz ((off + PHSIZE) % 2 ^ 32) k
        else
          return none

/-- The loop over the arguments: the stack pointer and the addresses of the strings, `none` for
`goto bad`. -/
def pushArgs (pgdir sp argc : Nat) : List (List UInt8) → X (Option (Nat × List Nat))
  | [] => return some (sp, [])
  | arg :: rest => do
    if argc ≥ MAXARG then
      return none
    else
      let sp := (sp + 2 ^ 32 - (arg.length + 1) % 2 ^ 32) % 2 ^ 32 / 4 * 4
      if (← vm (Vm.copyout pgdir sp (arg ++ [0]))) < 0 then
        return none
      else
        match ← pushArgs pgdir sp (argc + 1) rest with
        | none => return none
        | some (top, addrs) => return some (top, sp :: addrs)

def wordBytes (x : Nat) : List UInt8 := (List.range 4).map (leByte x)

/-- The last path element, cut to what `proc->name` holds. -/
def progName (path : List UInt8) : List UInt8 :=
  ((path.reverse.takeWhile (· ≠ SLASH)).reverse).take 15

def bad (pgdir ip : Option Nat) : X Int := do
  match pgdir with
  | some pgdir => vm (Vm.freevm pgdir)
  | none => pure ()
  match ip with
  | some ip => step (.iunlockput ip)
  | none => pure ()
  return -1

/-- The part of `exec` after the program is loaded: the stack, the arguments, the commit. -/
def finish (path : List UInt8) (argv : List (List UInt8)) (elf : Elfhdr) (pgdir sz : Nat) : X Int := do
  let sz ← vm (Vm.allocuvm pgdir (pgRoundUp sz) ((pgRoundUp sz + 2 * PGSIZE) % 2 ^ 32))
  if sz = 0 then
    bad (some pgdir) none
  else
    vm (Vm.clearpteu pgdir (sz - 2 * PGSIZE))
    match ← pushArgs pgdir sz 0 argv with
    | none => bad (some pgdir) none
    | some (sp, addrs) => do
      let argc := argv.length
      let ustack := [0xffffffff, argc, (sp + 2 ^ 32 - (argc + 1) * 4) % 2 ^ 32] ++ addrs ++ [0]
      let sp := (sp + 2 ^ 32 - (3 + argc + 1) * 4) % 2 ^ 32
      if (← vm (Vm.copyout pgdir sp (ustack.flatMap wordBytes))) < 0 then
        bad (some pgdir) none
      else
        let oldpgdir ← step (.commit pgdir sz elf.entry sp (progName path))
        vm (Vm.freevm oldpgdir)
        return 0

/-- `elf` is what the stack held where `exec` reads the header to: the comparison of its length is
unsigned, so a `readi` that fails passes it. -/
def exec (elf : Elfhdr) (path : List UInt8) (argv : List (List UInt8)) : X Int := do
  match ← namei path with
  | none => return -1
  | some ip => do
    step (.ilock ip)
    let (r, bs) ← readi ip 0 ELFSIZE
    if 0 ≤ r ∧ r < ELFSIZE then
      bad none (some ip)
    else
      let elf := if r < 0 then elf else Elfhdr.ofBytes bs
      if elf.magic ≠ ELF_MAGIC then
        bad none (some ip)
      else
        match ← vm Vm.setupkvm with
        | none => bad none (some ip)
        | some pgdir =>
          match ← load pgdir ip 0 elf.phoff elf.phnum with
          | none => bad (some pgdir) (some ip)
          | some sz => do
            step (.iunlockput ip)
            finish path argv elf pgdir sz

def handler (p : Nat) : (e : Step) → K (Answer e)
  | .mem e => Kernel.step (.mem e)
  | .namei path => Kernel.namei p path
  | .ilock ip => Kernel.ilock ip
  | .readi ip off n => Kernel.readi ip off n
  | .iunlockput ip => Kernel.iunlockput ip
  | .commit pgdir sz eip esp name => do
    let proc ← Kernel.step (.proc p)
    Kernel.step (.setProc p fun proc => { proc with pgdir := pgdir, sz := sz, eip := eip, esp := esp, name := name })
    return proc.pgdir

end Exec

def sysExec (p : Nat) (elf : Elfhdr) (path : List UInt8) (argv : List (List UInt8)) : K Int :=
  (Exec.exec elf path argv).interp (Exec.handler p)

end Espl.Kernel
