import Mathlib.Algebra.Ring.Nat
import Espl.Program.Circular

/-!
# The allocator of user programs

`free`, `morecore` and `malloc` of `umalloc.c`. The fields of a header are kept by its address; sizes
are in units of headers, of eight bytes each. Loops take fuel.
-/

namespace Espl.Malloc

open Circular

structure Block where
  addr : Nat
  size : Nat
  deriving DecidableEq, Repr

def Block.limit (b : Block) : Nat := b.addr + 8 * b.size

/-- `s.ptr` and `s.size` of the header at each address, `freep`, and what `sbrk` has given. -/
structure Heap where
  ptr : Nat → Nat
  size : Nat → Nat
  freep : Nat
  regions : List Block

namespace Heap

def setPtr (h : Heap) (p v : Nat) : Heap := { h with ptr := Function.update h.ptr p v }

def setSize (h : Heap) (p v : Nat) : Heap := { h with size := Function.update h.size p v }

def setFreep (h : Heap) (p : Nat) : Heap := { h with freep := p }

variable (h : Heap) (p v : Nat)

@[simp] theorem setPtr_ptr : (h.setPtr p v).ptr = Function.update h.ptr p v := rfl
@[simp] theorem setPtr_size : (h.setPtr p v).size = h.size := rfl
@[simp] theorem setPtr_freep : (h.setPtr p v).freep = h.freep := rfl
@[simp] theorem setPtr_regions : (h.setPtr p v).regions = h.regions := rfl
@[simp] theorem setSize_ptr : (h.setSize p v).ptr = h.ptr := rfl
@[simp] theorem setSize_size : (h.setSize p v).size = Function.update h.size p v := rfl
@[simp] theorem setSize_freep : (h.setSize p v).freep = h.freep := rfl
@[simp] theorem setSize_regions : (h.setSize p v).regions = h.regions := rfl
@[simp] theorem setFreep_ptr : (h.setFreep p).ptr = h.ptr := rfl
@[simp] theorem setFreep_size : (h.setFreep p).size = h.size := rfl
@[simp] theorem setFreep_freep : (h.setFreep p).freep = p := rfl
@[simp] theorem setFreep_regions : (h.setFreep p).regions = h.regions := rfl

end Heap

/-- `p + n` for a `Header *`. -/
def plus (p n : Nat) : Nat := (p + 8 * n) % 2 ^ 32

/-- Where the loop of `free` ends: between two blocks around `bp`, or at the block with the highest address. -/
def free.stops (h : Heap) (bp p : Nat) : Bool :=
  decide (bp > p ∧ bp < h.ptr p) || decide (p ≥ h.ptr p ∧ (bp > p ∨ bp < h.ptr p))

def free.above (h : Heap) (bp p : Nat) : Heap :=
  if plus bp (h.size bp) = h.ptr p then
    (h.setSize bp ((h.size bp + h.size (h.ptr p)) % 2 ^ 32)).setPtr bp (h.ptr (h.ptr p))
  else h.setPtr bp (h.ptr p)

def free.below (h : Heap) (bp p : Nat) : Heap :=
  if plus p (h.size p) = bp then (h.setSize p ((h.size p + h.size bp) % 2 ^ 32)).setPtr p (h.ptr bp)
  else h.setPtr p bp

def free.insert (h : Heap) (bp p : Nat) : Heap := (free.below (free.above h bp p) bp p).setFreep p

def free (fuel : Nat) (h : Heap) (ap : Nat) : Option Heap :=
  let bp := ap - 8
  (seek h.ptr (free.stops h bp) fuel h.freep).map (free.insert h bp)

/-- What `sbrk` answers to a request for some bytes, after the regions it has given; `none` is -1. -/
abbrev Sbrk : Type := List Block → Nat → Option Nat

/-- A call of `sbrk`: the bytes that `morecore` asks for, and the units that it writes in the header of what it gets. -/
structure Request where
  bytes : Nat
  units : Nat
  deriving DecidableEq, Repr

def morecore.request (nu : Nat) : Request :=
  let nu := if nu < 4096 then 4096 else nu
  ⟨nu * 8 % 2 ^ 32, nu⟩

def morecore (sbrk : Sbrk) (fuel : Nat) (h : Heap) (nu : Nat) : Option (Heap × Nat) :=
  let r := morecore.request nu
  match sbrk h.regions r.bytes with
  | none => some (h, 0)
  | some p =>
    let h := { h with regions := ⟨p, r.bytes / 8⟩ :: h.regions }
    (free fuel (h.setSize p r.units) (plus p 1)).map fun h => (h, h.freep)

def malloc.take (h : Heap) (prevp p nunits : Nat) : Heap × Nat :=
  if h.size p = nunits then ((h.setPtr prevp (h.ptr p)).setFreep prevp, plus p 1)
  else
    let left := h.size p - nunits
    let q := plus p left
    (((h.setSize p left).setSize q nunits).setFreep prevp, plus q 1)

/-- The loop of `malloc`, which returns also how often it has called `morecore`. -/
def malloc.loop (sbrk : Sbrk) (nunits : Nat) : Nat → Heap → Nat → Nat → Nat → Option (Heap × Nat × Nat)
  | 0, _, _, _, _ => none
  | fuel + 1, h, prevp, p, calls =>
    if h.size p ≥ nunits then
      let (h, ap) := malloc.take h prevp p nunits
      some (h, ap, calls)
    else if p = h.freep then
      match morecore sbrk fuel h nunits with
      | none => none
      | some (h, p) => if p = 0 then some (h, 0, calls + 1) else malloc.loop sbrk nunits fuel h p (h.ptr p) (calls + 1)
    else malloc.loop sbrk nunits fuel h p (h.ptr p) calls

def units (nbytes : Nat) : Nat := (nbytes + 8 - 1) % 2 ^ 32 / 8 + 1

/-- `malloc` makes the list of free blocks when it is called for the first time. -/
def malloc.start (base : Nat) (h : Heap) : Heap :=
  if h.freep = 0 then ((h.setPtr base base).setFreep base).setSize base 0 else h

/-- `malloc`, where the header `base` is at the given address. -/
def malloc (base : Nat) (sbrk : Sbrk) (fuel : Nat) (h : Heap) (nbytes : Nat) : Option (Heap × Nat × Nat) :=
  let h := malloc.start base h
  malloc.loop sbrk (units nbytes) fuel h h.freep (h.ptr h.freep) 0

end Espl.Malloc
