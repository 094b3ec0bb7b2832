import Mathlib.Algebra.Ring.Int.Defs
import Mathlib.Data.List.TakeWhile

/-!
# Strings of the C library

A block of memory is a list of bytes; a string in it ends at its first NUL. An access outside a block is
`none`, and so is an `int` that overflows.
-/

namespace Espl.Libc

/-- A result of type `int`, if it fits. -/
def int (x : Int) : Option Int := if -2 ^ 31 ≤ x ∧ x < 2 ^ 31 then some x else none

theorem int_eq {x : Int} (low : -2 ^ 31 ≤ x) (high : x < 2 ^ 31) : int x = some x := if_pos ⟨low, high⟩

theorem int_high {x : Int} (high : 2 ^ 31 ≤ x) : int x = none := if_neg fun fits => absurd fits.2 (Int.not_lt.mpr high)

def string (block : List UInt8) : List UInt8 := block.takeWhile (· ≠ 0)

/-- `strcmp(p, q)`; past its end a list reads as 0. -/
def strcmp : List UInt8 → List UInt8 → Int
  | [], q => -(q.headD 0).toNat
  | a :: p, q =>
    if a ≠ q.headD 0 then a.toNat - (q.headD 0).toNat
    else if a = 0 then 0
    else strcmp p q.tail

/-- `strchr(s, c)` for a character other than NUL: the rest of the block from its first place in the string. -/
def strchr (s : List UInt8) (c : UInt8) : Option (List UInt8) :=
  if c ∈ string s then some (s.dropWhile (· ≠ c)) else none

/-- `strcpy(dest, src)`: the bytes of the string and its NUL. -/
def strcpy (dest src : List UInt8) : Option (List UInt8) :=
  if (string src).length < dest.length then some (string src ++ 0 :: dest.drop ((string src).length + 1)) else none

section

variable {p q : List UInt8}

theorem string_plain (plain : 0 ∉ p) : string p = p := by
  refine List.takeWhile_eq_self_iff.mpr fun c member => ?_
  simpa using fun zero : c = 0 => plain (zero ▸ member)

theorem string_plain_append (plain : 0 ∉ p) (q : List UInt8) : string (p ++ q) = p ++ string q := by
  refine List.takeWhile_append_of_pos fun c member => ?_
  simpa using fun zero : c = 0 => plain (zero ▸ member)

theorem string_append (plain : 0 ∉ p) (q : List UInt8) : string (p ++ 0 :: q) = p := by
  rw [string_plain_append plain]
  simp [string]

theorem strcmp_eq_zero (p q : List UInt8) : strcmp p q = 0 ↔ string p = string q := by
  have positive : ∀ {b : UInt8}, b ≠ 0 → b.toNat ≠ 0 := fun nonzero h => nonzero (UInt8.toNat_inj.mp h)
  induction p generalizing q with
  | nil =>
    cases q with
    | nil => simp [strcmp, string]
    | cons b q =>
      by_cases zero : b = 0
      · simp [strcmp, string, zero]
      · simpa [strcmp, string, zero] using positive zero
  | cons a p ih =>
    cases q with
    | nil =>
      by_cases zero : a = 0
      · simp [strcmp, string, zero]
      · simpa [strcmp, string, zero] using positive zero
    | cons b q =>
      by_cases same : a = b
      · subst same
        by_cases zero : a = 0
        · simp [strcmp, string, zero]
        · simpa [strcmp, string, zero] using ih q
      · have apart : (a.toNat : Int) - b.toNat ≠ 0 := fun h => same (UInt8.toNat_inj.mp (by omega))
        by_cases zero : a = 0
        · have other : b ≠ 0 := fun h => same (zero.trans h.symm)
          simpa [strcmp, string, zero, other, Ne.symm other] using positive other
        · by_cases other : b = 0
          · simpa [strcmp, string, zero, other] using positive zero
          · simpa [strcmp, string, zero, other, same] using apart

end

end Espl.Libc
