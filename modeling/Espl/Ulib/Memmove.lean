import Mathlib.Data.UInt
import Mathlib.Logic.Function.Basic

/-!
# Two versions of memmove

`memmove` of `string.c`, for the kernel, and of `ulib.c`, for user programs, on a memory of 32-bit
addresses. The first copies from the end when the destination starts inside the source, the second always
from the beginning.
-/

namespace Espl.Ulib

abbrev Memory : Type := UInt32 → UInt8

/-- `while(n-- > 0) *d++ = *s++;` -/
def forward (mem : Memory) (d s : UInt32) : Nat → Memory
  | 0 => mem
  | n + 1 => forward (Function.update mem d (mem s)) (d + 1) (s + 1) n

/-- `while(n-- > 0) *--d = *--s;` -/
def backward (mem : Memory) (d s : UInt32) : Nat → Memory
  | 0 => mem
  | n + 1 => backward (Function.update mem (d - 1) (mem (s - 1))) (d - 1) (s - 1) n

/-- `memmove` of `string.c`. -/
def kernelMemmove (mem : Memory) (dst src n : UInt32) : Memory :=
  if src < dst ∧ src + n > dst then backward mem (dst + n) (src + n) n.toNat else forward mem dst src n.toNat

/-- `memmove` of `ulib.c`, where `n` is an `int`. -/
def memmove (mem : Memory) (vdst vsrc : UInt32) (n : Int) : Memory := forward mem vdst vsrc n.toNat

def copied (mem : Memory) (dst src : UInt32) (lo n : Nat) : Memory :=
  fun x => if lo ≤ (x - dst).toNat ∧ (x - dst).toNat < n then mem (src + (x - dst)) else mem x

/-- What a memmove does: the `n` bytes at `dst` are those that were at `src`, and all others are left alone. -/
def moved (mem : Memory) (dst src : UInt32) (n : Nat) : Memory := copied mem dst src 0 n

section

variable {mem : Memory} {dst src x : UInt32} {k n : Nat}

theorem ofNat_step (p : UInt32) (n : Nat) : p + 1 + UInt32.ofNat n = p + UInt32.ofNat (n + 1) := by
  rw [UInt32.ofNat_add, UInt32.add_assoc, UInt32.add_comm 1]
  rfl

theorem ofNat_back (p : UInt32) (n : Nat) : p + UInt32.ofNat (n + 1) - 1 = p + UInt32.ofNat n := by
  rw [UInt32.ofNat_add, ← UInt32.add_assoc]
  exact UInt32.add_sub_cancel _ 1

theorem index_iff (lt : k < 2 ^ 32) : x = dst + UInt32.ofNat k ↔ (x - dst).toNat = k := by
  constructor
  · rintro rfl
    rw [UInt32.add_comm, UInt32.add_sub_cancel, UInt32.toNat_ofNat_of_lt' lt]
  · rintro rfl
    rw [UInt32.ofNat_toNat, UInt32.add_comm, UInt32.sub_add_cancel]

theorem index_add (p dst : UInt32) (lt : k < 2 ^ 32) :
    (p + UInt32.ofNat k - dst).toNat = ((p - dst).toNat + k) % 2 ^ 32 := by
  have := dst.toNat_lt
  rw [UInt32.toNat_sub, UInt32.toNat_sub, UInt32.toNat_add, UInt32.toNat_ofNat_of_lt' lt]
  omega

/-! ### From the beginning -/

theorem forward_succ (mem : Memory) (dst src : UInt32) (n : Nat) :
    forward mem dst src (n + 1) =
      Function.update (forward mem dst src n) (dst + UInt32.ofNat n)
        (forward mem dst src n (src + UInt32.ofNat n)) := by
  induction n generalizing mem dst src with
  | zero => simp [forward]
  | succ n ih =>
    rw [forward, ih, ofNat_step, ofNat_step]
    rfl

theorem forward_eq (mem : Memory) (dst src : UInt32) (small : n ≤ 2 ^ 31) (x : UInt32) :
    forward mem dst src n x =
      if (x - dst).toNat < n then mem (src + UInt32.ofNat ((x - dst).toNat % (dst - src).toNat)) else mem x := by
  induction n generalizing x with
  | zero => rfl
  | succ n ih =>
    have read : forward mem dst src n (src + UInt32.ofNat n) = mem (src + UInt32.ofNat (n % (dst - src).toNat)) := by
      rw [ih (by omega), index_add src dst (by omega)]
      have opposite : (src - dst).toNat = (2 ^ 32 - (dst - src).toNat) % 2 ^ 32 := by
        rw [← UInt32.neg_sub, UInt32.toNat_neg]
        rfl
      have lt := (dst - src).toNat_lt
      generalize (dst - src).toNat = d at opposite lt ⊢
      -- The byte has been written over if the destination starts at most `n` bytes behind the source.
      split
      · have earlier : ((src - dst).toNat + n) % 2 ^ 32 = n - d := by omega
        rw [earlier, ← Nat.mod_eq_sub_mod (by omega)]
      · have whole : n % d = n := by
          by_cases zero : d = 0
          · rw [zero, Nat.mod_zero]
          · exact Nat.mod_eq_of_lt (by omega)
        rw [whole]
    rw [forward_succ, read]
    by_cases here : (x - dst).toNat = n
    · rw [(index_iff (by omega)).mpr here, Function.update_self, ← (index_iff (by omega)).mpr here, here,
        if_pos (by omega)]
    · rw [Function.update_of_ne (fun same => here ((index_iff (by omega)).mp same)), ih (by omega)]
      have same : (x - dst).toNat < n ↔ (x - dst).toNat < n + 1 := by omega
      simp only [same]

/-! ### From the end -/

theorem backward_eq (mem : Memory) (dst src : UInt32) (small : n ≤ 2 ^ 31) (apart : src = dst ∨ n ≤ (src - dst).toNat)
    (le : k ≤ n) :
    backward (copied mem dst src k n) (dst + UInt32.ofNat k) (src + UInt32.ofNat k) k = moved mem dst src n := by
  induction k with
  | zero => rfl
  | succ k ih =>
    have read : copied mem dst src (k + 1) n (src + UInt32.ofNat k) = mem (src + UInt32.ofNat k) := by
      refine if_neg ?_
      rw [index_add src dst (by omega)]
      rcases apart with rfl | apart
      · rw [UInt32.sub_self]
        simp
        omega
      · have := (src - dst).toNat_lt
        omega
    rw [backward, ofNat_back, ofNat_back, read, ← ih (by omega)]
    congr 1
    funext x
    by_cases here : (x - dst).toNat = k
    · have place := (index_iff (by omega)).mpr here
      rw [copied, if_pos (by omega), place, Function.update_self, ← place, ← here, UInt32.ofNat_toNat]
    · rw [Function.update_of_ne fun same => here ((index_iff (by omega)).mp same)]
      have same : k + 1 ≤ (x - dst).toNat ↔ k ≤ (x - dst).toNat := by omega
      simp only [copied, same]

/-! ### Both versions -/

/-- In the kernel the direction is right for every overlap that it sees. -/
theorem kernelMemmove_eq (mem : Memory) (dst src : UInt32) (small : n < 2 ^ 31) :
    kernelMemmove mem dst src (UInt32.ofNat n) = moved mem dst src n ∨
      kernelMemmove mem dst src (UInt32.ofNat n) = forward mem dst src n := by
  have count : (UInt32.ofNat n).toNat = n := UInt32.toNat_ofNat_of_lt' (Nat.lt_trans small (by decide))
  unfold kernelMemmove
  rw [count]
  split
  · rename_i inside
    obtain ⟨before, beyond⟩ := inside
    rw [UInt32.lt_iff_toNat_lt] at before
    rw [gt_iff_lt, UInt32.lt_iff_toNat_lt, UInt32.toNat_add, count] at beyond
    have apart : n ≤ (src - dst).toNat := by
      rw [UInt32.toNat_sub]
      have := src.toNat_lt
      have := dst.toNat_lt
      omega
    have start : copied mem dst src n n = mem := by
      funext x
      exact if_neg (by omega)
    left
    rw [← backward_eq mem dst src (Nat.le_of_lt small) (Or.inr apart) (Nat.le_refl n), start]
  · exact Or.inr rfl

theorem forward_moved_iff (mem : Memory) (dst src : UInt32) (small : n < 2 ^ 31) :
    forward mem dst src n = moved mem dst src n ↔
      ∀ i, i + (dst - src).toNat < n → mem (dst + UInt32.ofNat i) = mem (src + UInt32.ofNat i) := by
  -- Byte `i` of the destination is byte `i + d` of the source.
  have shift : ∀ i, src + UInt32.ofNat (i + (dst - src).toNat) = dst + UInt32.ofNat i := by
    intro i
    rw [Nat.add_comm, UInt32.ofNat_add, UInt32.ofNat_toNat, ← UInt32.add_assoc, UInt32.add_comm src,
      UInt32.sub_add_cancel]
  have pointwise : forward mem dst src n = moved mem dst src n ↔
      ∀ j < n, mem (src + UInt32.ofNat (j % (dst - src).toNat)) = mem (src + UInt32.ofNat j) := by
    constructor
    · intro same j lt
      have index : (dst + UInt32.ofNat j - dst).toNat = j := (index_iff (by omega)).mp rfl
      have here := congrFun same (dst + UInt32.ofNat j)
      rw [forward_eq mem dst src (Nat.le_of_lt small), moved, copied, index, if_pos lt, if_pos ⟨Nat.zero_le j, lt⟩,
        ← UInt32.ofNat_toNat (x := dst + UInt32.ofNat j - dst), index] at here
      exact here
    · intro same
      funext x
      rw [forward_eq mem dst src (Nat.le_of_lt small), moved, copied]
      by_cases lt : (x - dst).toNat < n
      · rw [if_pos lt, if_pos ⟨Nat.zero_le _, lt⟩, same _ lt, UInt32.ofNat_toNat]
      · rw [if_neg lt, if_neg fun inside => lt inside.2]
  rw [pointwise]
  generalize (dst - src).toNat = d at shift ⊢
  constructor
  · intro same i lt
    rw [← shift, ← same (i + d) lt, Nat.add_mod_right, same i (by omega)]
  · intro same j
    induction j using Nat.strong_induction_on with
    | _ j ih =>
      intro lt
      by_cases early : j < d ∨ d = 0
      · rcases early with early | rfl
        · rw [Nat.mod_eq_of_lt early]
        · rw [Nat.mod_zero]
      · obtain ⟨i, rfl⟩ := Nat.exists_eq_add_of_le' (show d ≤ j by omega)
        rw [Nat.add_mod_right, ih i (by omega) (by omega), shift, same i lt]

end

/-- The user's version is a memmove if no byte is read that was written with another value before. -/
theorem memmove_agrees_iff (mem : Memory) (dst src : UInt32) (n : Int) (natural : 0 ≤ n) (small : n < 2 ^ 31) :
    (memmove mem dst src n = kernelMemmove mem dst src (UInt32.ofNat n.toNat) ∧
      memmove mem dst src n = moved mem dst src n.toNat) ↔
      ∀ i : Nat, i + (dst - src).toNat < n → mem (dst + UInt32.ofNat i) = mem (src + UInt32.ofNat i) := by
  lift n to Nat using natural
  have lt : n < 2 ^ 31 := by exact_mod_cast small
  rw [Int.toNat_natCast]
  have correct := forward_moved_iff mem dst src lt
  constructor
  · rintro ⟨-, same⟩ i inside
    exact correct.mp same i (by exact_mod_cast inside)
  · intro same
    have moves : memmove mem dst src n = moved mem dst src n := correct.mpr fun i inside =>
      same i (by exact_mod_cast inside)
    refine ⟨?_, moves⟩
    rcases kernelMemmove_eq mem dst src lt with kernel | kernel
    · rw [moves, kernel]
    · rw [kernel]
      rfl

def ramp : Memory := UInt32.toUInt8

theorem memmove_agrees_down :
    memmove ramp 0 1 2 = kernelMemmove ramp 0 1 2 ∧ memmove ramp 0 1 2 = moved ramp 0 1 2 := by
  refine (memmove_agrees_iff ramp 0 1 2 (by decide) (by decide)).mpr fun i below => ?_
  have far : ((0 : UInt32) - 1).toNat = 2 ^ 32 - 1 := by decide
  omega

/-- Two bytes that are moved up by one: the first is copied twice. -/
theorem memmove_repeats : memmove ramp 1 0 2 2 = 0 ∧ kernelMemmove ramp 1 0 2 2 = 1 ∧ moved ramp 1 0 2 2 = 1 := by
  decide

end Espl.Ulib
