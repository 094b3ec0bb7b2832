import Mathlib.Data.BitVec

/-!
# Disk blocks

A sector is an array of `BSIZE` bytes. The kernel and `mkfs` read it as little-endian words, as
bits of the free map, or as raw bytes; the lemmas here say what each kind of store leaves to each
kind of load.
-/

namespace Espl

/-- `Function.update` without the cast in it, which the evaluation of a run would have to check at every access. -/
def upd {α : Type} (f : Nat → α) (i : Nat) (v : α) : Nat → α := fun j => if j = i then v else f j

section

variable {α : Type} (f : Nat → α)

theorem upd_eq_update (i : Nat) (v : α) : upd f i v = Function.update f i v :=
  funext fun j => (Function.update_apply f i v j).symm

@[simp] theorem upd_same (i : Nat) (v : α) : upd f i v i = v := by rw [upd_eq_update, Function.update_self]

theorem upd_ne {i j : Nat} (v : α) (h : j ≠ i) : upd f i v j = f j := by rw [upd_eq_update, Function.update_of_ne h]

theorem upd_eq_of {i j : Nat} {v : α} (h : j ≠ i → f j = v) : upd f i v j = v := by
  by_cases same : j = i
  · rw [same, upd_same]
  · rw [upd_ne f v same, h same]

@[simp] theorem upd_upd (i : Nat) (v w : α) : upd (upd f i v) i w = upd f i w := by
  simp only [upd_eq_update, Function.update_idem]

theorem upd_comm {i j : Nat} (v w : α) (h : i ≠ j) : upd (upd f i v) j w = upd (upd f j w) i v := by
  simp only [upd_eq_update, Function.update_comm h]

@[simp] theorem upd_self (i : Nat) : upd f i (f i) = f := by rw [upd_eq_update, Function.update_eq_self]

end

abbrev BSIZE : Nat := 512

def Block := Fin BSIZE → UInt8

def leByte (x j : Nat) : UInt8 := UInt8.ofNat (x / 256 ^ j)

def le16 (f : Nat → UInt8) : Nat := (f 0).toNat + 256 * (f 1).toNat

def le32 (f : Nat → UInt8) : Nat :=
  (f 0).toNat + 256 * (f 1).toNat + 65536 * (f 2).toNat + 16777216 * (f 3).toNat

theorem le32_lt (f : Nat → UInt8) : le32 f < 2 ^ 32 := by
  have h0 := (f 0).toNat_lt
  have h1 := (f 1).toNat_lt
  have h2 := (f 2).toNat_lt
  have h3 := (f 3).toNat_lt
  unfold le32
  omega

theorem le16_leByte {f : Nat → UInt8} {x : Nat} (h : ∀ j < 2, f j = leByte x j) :
    le16 f = x % 2 ^ 16 := by
  simp only [le16, h 0 (by decide), h 1 (by decide), leByte, UInt8.toNat_ofNat']
  omega

theorem le32_leByte {f : Nat → UInt8} {x : Nat} (h : ∀ j < 4, f j = leByte x j) :
    le32 f = x % 2 ^ 32 := by
  simp only [le32, h 0 (by decide), h 1 (by decide), h 2 (by decide), h 3 (by decide), leByte,
    UInt8.toNat_ofNat']
  omega

theorem le16_congr {f g : Nat → UInt8} (h : ∀ j < 2, f j = g j) : le16 f = le16 g := by
  simp only [le16, h 0 (by decide), h 1 (by decide)]

theorem le32_congr {f g : Nat → UInt8} (h : ∀ j < 4, f j = g j) : le32 f = le32 g := by
  simp only [le32, h 0 (by decide), h 1 (by decide), h 2 (by decide), h 3 (by decide)]

namespace Block

def byte (b : Block) (i : Nat) : UInt8 := if h : i < BSIZE then b ⟨i, h⟩ else 0

def ofBytes (f : Nat → UInt8) : Block := fun i => f i

def zero : Block := fun _ => 0

@[simp] theorem byte_ofBytes (f : Nat → UInt8) {i : Nat} (h : i < BSIZE) :
    (ofBytes f).byte i = f i := by
  simp [byte, ofBytes, h]

@[simp] theorem byte_zero (i : Nat) : zero.byte i = 0 := by
  unfold byte zero
  split <;> rfl

/-- `memmove(b->data + off, src, src.length)`. -/
def splice (b : Block) (off : Nat) (src : List UInt8) : Block :=
  ofBytes fun i => if off ≤ i ∧ i < off + src.length then src.getD (i - off) 0 else b.byte i

def slice (b : Block) (off n : Nat) : List UInt8 := (List.range n).map fun k => b.byte (off + k)

theorem byte_splice (b : Block) (off : Nat) (src : List UInt8) {i : Nat} (h : i < BSIZE) :
    (b.splice off src).byte i =
      if off ≤ i ∧ i < off + src.length then src.getD (i - off) 0 else b.byte i := by
  simp only [splice, byte_ofBytes _ h]

/-! ### Words -/

def word (b : Block) (k : Nat) : Nat := le32 fun j => b.byte (4 * k + j)

def setWord (b : Block) (k x : Nat) : Block :=
  ofBytes fun i => if i / 4 = k then leByte x (i % 4) else b.byte i

theorem word_setWord_same (b : Block) (x : Nat) {k : Nat} (h : k < 128) :
    (b.setWord k x).word k = x % 2 ^ 32 := by
  apply le32_leByte
  intro j hj
  rw [setWord, byte_ofBytes _ (by simp only [BSIZE]; omega), if_pos (by omega)]
  congr 1
  omega

theorem word_setWord_ne (b : Block) (x : Nat) {k i : Nat} (h : i < 128) (ne : i ≠ k) :
    (b.setWord k x).word i = b.word i := by
  apply le32_congr
  intro j hj
  rw [setWord, byte_ofBytes _ (by simp only [BSIZE]; omega), if_neg (by omega)]

@[simp] theorem word_zero (k : Nat) : zero.word k = 0 := by simp [word, le32]

/-! ### Bits -/

def mask (i : Nat) : UInt8 := ⟨BitVec.twoPow 8 (i % 8)⟩

def bit (b : Block) (i : Nat) : Bool := (b.byte (i / 8) &&& mask i) != 0

def setBit (b : Block) (i : Nat) : Block :=
  ofBytes fun k => if k = i / 8 then b.byte k ||| mask i else b.byte k

def clearBit (b : Block) (i : Nat) : Block :=
  ofBytes fun k => if k = i / 8 then b.byte k &&& ~~~ mask i else b.byte k

theorem bit_eq (b : Block) (i : Nat) : b.bit i = (b.byte (i / 8)).toBitVec.getLsbD (i % 8) := by
  have hk : i % 8 < 8 := Nat.mod_lt _ (by decide)
  have hne : BitVec.twoPow 8 (i % 8) ≠ 0#8 := by
    intro h
    have := congrArg (fun v => v.getLsbD (i % 8)) h
    simp [hk] at this
  unfold bit mask
  rw [Bool.eq_iff_iff, bne_iff_ne, ne_eq, ← UInt8.toBitVec_inj, UInt8.toBitVec_and]
  simp only [BitVec.and_twoPow]
  split <;> rename_i h
  · simp [h]; exact hne
  · simp [h]

theorem bit_setBit (b : Block) (i : Nat) {j : Nat} (hj : j < 4096) :
    (b.setBit i).bit j = (decide (i = j) || b.bit j) := by
  have hj8 : j / 8 < BSIZE := by simp only [BSIZE]; omega
  rw [bit_eq, bit_eq, setBit, byte_ofBytes _ hj8]
  split <;> rename_i h
  · simp only [UInt8.toBitVec_or, mask, BitVec.getLsbD_or, BitVec.getLsbD_twoPow]
    have : (decide (i % 8 < 8) && decide (i % 8 = j % 8)) = decide (i = j) := by
      simp only [← Bool.decide_and, decide_eq_decide]; omega
    rw [this, Bool.or_comm]
  · have : i ≠ j := by rintro rfl; exact h rfl
    simp [this]

theorem bit_clearBit (b : Block) (i : Nat) {j : Nat} (hj : j < 4096) :
    (b.clearBit i).bit j = (!decide (i = j) && b.bit j) := by
  have hj8 : j / 8 < BSIZE := by simp only [BSIZE]; omega
  rw [bit_eq, bit_eq, clearBit, byte_ofBytes _ hj8]
  split <;> rename_i h
  · simp only [UInt8.toBitVec_and, UInt8.toBitVec_not, mask, BitVec.getLsbD_and, BitVec.getLsbD_not,
      BitVec.getLsbD_twoPow]
    have hj8 : decide (j % 8 < 8) = true := by simp only [decide_eq_true_eq]; omega
    have : (decide (i % 8 < 8) && decide (i % 8 = j % 8)) = decide (i = j) := by
      simp only [← Bool.decide_and, decide_eq_decide]; omega
    rw [hj8, this, Bool.true_and, Bool.and_comm]
  · have : i ≠ j := by rintro rfl; exact h rfl
    simp [this]

@[simp] theorem bit_zero (i : Nat) : zero.bit i = false := by
  rw [bit_eq, byte_zero]; simp

end Block

end Espl
