import Espl.Disk.Block
import Espl.Program.Basic

/-!
# `kalloc.c` and `vm.c`

Physical memory by page number. The code uses a page either as a table of entries or as bytes, and
never as both, so the two uses are two maps.
-/

namespace Espl.Kernel

abbrev PGSIZE : Nat := 4096
abbrev NPDENTRIES : Nat := 1024
abbrev NPTENTRIES : Nat := 1024
abbrev EXTMEM : Nat := 0x100000
abbrev PHYSTOP : Nat := 0xE000000
abbrev DEVSPACE : Nat := 0xFE000000
abbrev KERNBASE : Nat := 0x80000000
abbrev KERNLINK : Nat := KERNBASE + EXTMEM

def pgRoundUp (a : Nat) : Nat := (a + PGSIZE - 1) % 2 ^ 32 / PGSIZE * PGSIZE

def pgRoundDown (a : Nat) : Nat := a / PGSIZE * PGSIZE

def pdx (va : Nat) : Nat := va / 2 ^ 22 % NPDENTRIES

def ptx (va : Nat) : Nat := va / 2 ^ 12 % NPTENTRIES

/-- An entry of a page table or a page directory: `PTE_ADDR` as a page number, and the flags. -/
structure Pte where
  page : Nat
  present : Bool
  writable : Bool
  user : Bool
  deriving DecidableEq, Repr

def Pte.zero : Pte := ⟨0, false, false, false⟩

/-- The entry that `kfree`'s fill leaves, `0x01010101`. -/
def Pte.junk : Pte := ⟨0x1010, true, false, false⟩

/-- Where the linker put the kernel: `V2P(data)` as a page number and `V2P(end)`. -/
structure Link where
  data : Nat
  last : Nat
  text : EXTMEM < data * PGSIZE
  order : data * PGSIZE ≤ last
  fits : last ≤ PHYSTOP

structure Mem where
  link : Link
  freelist : List Nat
  entry : Nat → Nat → Pte
  byte : Nat → Nat → UInt8

namespace Vm

/-- The calls of `panic`; `trap` is the fault of a null pointer where nothing is mapped at address 0. -/
inductive Panic where
  | kfree | remap | loaduvmAlign | loaduvmExist | freevmNone | clearpteu | copyuvmExist | copyuvmPresent
  | trap
  deriving DecidableEq, Repr

inductive Step where
  | panic (m : Panic)
  | link
  | kalloc
  | kfree (page : Nat)
  | clear (page : Nat)
  | entry (page i : Nat)
  | setEntry (page i : Nat) (v : Pte)
  | store (page off : Nat) (src : List UInt8)
  | copy (dst src : Nat)
  /-- Reads the entry that a null pointer leads to, the word at address 0 of the current address space. -/
  | null

@[reducible] def Answer : Step → Type
  | .panic _ => Empty
  | .link => Link
  | .kalloc => Option Nat
  | .entry _ _ => Pte
  | .null => Pte
  | _ => Unit

abbrev signature : Signature := ⟨Step, Answer⟩

def act : (e : Step) → Mem → Outcome Mem Panic (Answer e)
  | .panic m, _ => .panicked m
  | .link, s => .returned s.link s
  | .kalloc, s =>
    match s.freelist with
    | [] => .returned none s
    | page :: rest => .returned (some page) { s with freelist := rest }
  | .kfree page, s =>
    if page * PGSIZE < s.link.last ∨ page * PGSIZE ≥ PHYSTOP then .panicked .kfree
    else .returned () { s with
      freelist := page :: s.freelist
      entry := upd s.entry page fun _ => Pte.junk
      byte := upd s.byte page fun _ => 1 }
  | .clear page, s => .returned () { s with
      entry := upd s.entry page fun _ => Pte.zero
      byte := upd s.byte page fun _ => 0 }
  | .entry page i, s => .returned (s.entry page i) s
  | .setEntry page i v, s => .returned () { s with entry := upd s.entry page (upd (s.entry page) i v) }
  | .store page off src, s => .returned () { s with
      byte := upd s.byte page fun k =>
        if off ≤ k ∧ k < off + src.length then src.getD (k - off) 0 else s.byte page k }
  | .copy dst src, s => .returned () { s with byte := upd s.byte dst (s.byte src) }
  | .null, _ => .panicked .trap

abbrev machine : Machine signature Mem Panic := ⟨act⟩

end Vm

abbrev V := Program Vm.signature

namespace Vm

def step (e : Step) : V (Answer e) := Program.step (G := signature) e .done

def panic {α : Type} (m : Panic) : V α := Program.step (G := signature) (.panic m) fun r => nomatch (r : Empty)

def kalloc : V (Option Nat) := step .kalloc

def kfree (page : Nat) : V Unit := step (.kfree page)

def walkpgdir (pgdir va : Nat) (alloc : Bool) : V (Option (Nat × Nat)) := do
  let pde ← step (.entry pgdir (pdx va))
  if pde.present then
    return some (pde.page, ptx va)
  else if alloc = false then
    return none
  else
    match ← kalloc with
    | none => return none
    | some pgtab => do
      step (.clear pgtab)
      step (.setEntry pgdir (pdx va) ⟨pgtab, true, true, true⟩)
      return some (pgtab, ptx va)

/-- `page` is the number of the page at `pa`; `w` and `u` are the flags of `perm`. -/
def mappages (pgdir va size page : Nat) (w u : Bool) : V Int :=
  loop (pgRoundDown va) page
    ((pgRoundDown ((va + size - 1) % 2 ^ 32) + 2 ^ 32 - pgRoundDown va) % 2 ^ 32 / PGSIZE + 1)
where
  /-- The loop from `a` on; it ends after `k` rounds, where `a` is `last`. -/
  loop (a page : Nat) : Nat → V Int
    | 0 => return 0
    | k + 1 => do
      match ← walkpgdir pgdir a true with
      | none => return -1
      | some (pgtab, i) => do
        let pte ← step (.entry pgtab i)
        if pte.present then
          panic .remap
        else
          step (.setEntry pgtab i ⟨page, true, w, u⟩)
          loop ((a + PGSIZE) % 2 ^ 32) ((page + 1) % 2 ^ 20) k

structure Kmap where
  virt : Nat
  physStart : Nat
  physEnd : Nat
  w : Bool

def kmap (link : Link) : List Kmap :=
  [⟨KERNBASE, 0, EXTMEM, true⟩,
   ⟨KERNLINK, EXTMEM, link.data * PGSIZE, false⟩,
   ⟨link.data * PGSIZE + KERNBASE, link.data * PGSIZE, PHYSTOP, true⟩,
   ⟨DEVSPACE, DEVSPACE, 0, true⟩]

def setupkvm : V (Option Nat) := do
  match ← kalloc with
  | none => return none
  | some pgdir => do
    step (.clear pgdir)
    let link ← step .link
    if ← map pgdir (kmap link) then
      return some pgdir
    else
      return none
where
  map (pgdir : Nat) : List Kmap → V Bool
    | [] => return true
    | k :: rest => do
      let r ← mappages pgdir k.virt ((k.physEnd + 2 ^ 32 - k.physStart) % 2 ^ 32) (k.physStart / PGSIZE) k.w false
      if r < 0 then
        return false
      else
        map pgdir rest

def deallocuvm (pgdir oldsz newsz : Nat) : V Nat := do
  if newsz ≥ oldsz then
    return oldsz
  else
    loop (pgRoundUp newsz) ((oldsz + PGSIZE - 1) / PGSIZE)
    return newsz
where
  loop (a : Nat) : Nat → V Unit
    | 0 => return ()
    | fuel + 1 => do
      if a < oldsz then
        match ← walkpgdir pgdir a false with
        | none => loop (a + (NPTENTRIES - 1) * PGSIZE + PGSIZE) fuel
        | some (pgtab, i) => do
          let pte ← step (.entry pgtab i)
          if pte.present then
            if pte.page = 0 then
              panic .kfree
            else
              kfree pte.page
              step (.setEntry pgtab i Pte.zero)
          loop (a + PGSIZE) fuel

/-- The new size, 0 on failure. -/
def allocuvm (pgdir oldsz newsz : Nat) : V Nat := do
  if newsz ≥ KERNBASE then
    return 0
  else if newsz < oldsz then
    return oldsz
  else
    loop (pgRoundUp oldsz) ((newsz + PGSIZE - 1) / PGSIZE)
where
  loop (a : Nat) : Nat → V Nat
    | 0 => return newsz
    | fuel + 1 => do
      if a < newsz then
        match ← kalloc with
        | none => do
          let _ ← deallocuvm pgdir newsz oldsz
          return 0
        | some mem => do
          step (.clear mem)
          let _ ← mappages pgdir a PGSIZE mem true true
          loop (a + PGSIZE) fuel
      else
        return newsz

def freevm (pgdir : Nat) : V Unit := do
  if pgdir = 0 then
    panic .freevmNone
  else
    let _ ← deallocuvm pgdir KERNBASE 0
    loop 0 NPDENTRIES
    kfree pgdir
where
  loop (i : Nat) : Nat → V Unit
    | 0 => return ()
    | k + 1 => do
      let pde ← step (.entry pgdir i)
      if pde.present then
        kfree pde.page
      loop (i + 1) k

def clearpteu (pgdir uva : Nat) : V Unit := do
  match ← walkpgdir pgdir uva false with
  | none => panic .clearpteu
  | some (pgtab, i) => do
    let pte ← step (.entry pgtab i)
    step (.setEntry pgtab i { pte with user := false })

def copyuvm (pgdir sz : Nat) : V (Option Nat) := do
  match ← setupkvm with
  | none => return none
  | some d =>
    if ← loop d 0 ((sz + PGSIZE - 1) / PGSIZE) then
      return some d
    else
      freevm d
      return none
where
  /-- The loop from page `i` on, `k` rounds of it; `false` is `goto bad`. -/
  loop (d i : Nat) : Nat → V Bool
    | 0 => return true
    | k + 1 => do
      match ← walkpgdir pgdir (i * PGSIZE) false with
      | none => panic .copyuvmExist
      | some (pgtab, j) => do
        let pte ← step (.entry pgtab j)
        if pte.present = false then
          panic .copyuvmPresent
        else
          match ← kalloc with
          | none => return false
          | some mem => do
            step (.copy mem pte.page)
            let r ← mappages d (i * PGSIZE) PGSIZE mem true true
            if r < 0 then
              return false
            else
              loop d (i + 1) k

def uva2ka (pgdir uva : Nat) : V (Option Nat) := do
  let pte ← match ← walkpgdir pgdir uva false with
    | none => step .null
    | some (pgtab, i) => step (.entry pgtab i)
  return if pte.present = false then none else if pte.user = false then none else some pte.page

def copyout (pgdir va : Nat) (p : List UInt8) : V Int :=
  loop va p p.length
where
  loop (va : Nat) (buf : List UInt8) : Nat → V Int
    | 0 => return 0
    | fuel + 1 => do
      if buf.length = 0 then
        return 0
      else
        let va0 := pgRoundDown va
        match ← uva2ka pgdir va0 with
        | none => return -1
        | some pa0 => do
          let n := min (PGSIZE - (va - va0)) buf.length
          step (.store pa0 (va - va0) (buf.take n))
          loop ((va0 + PGSIZE) % 2 ^ 32) (buf.drop n) fuel

end Vm

end Espl.Kernel
