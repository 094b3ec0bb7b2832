import Espl.Libc.Ctype
import Espl.Program.Numeral

/-!
# Numbers in strings

`strtol` in base ten, with a `long` of 64 bits. A string is given with what is in memory after it.
-/

namespace Espl.Libc

abbrev LONG_MAX : Int := 0x7fffffffffffffff
abbrev LONG_MIN : Int := -0x8000000000000000

def strtol.sign (s : List UInt8) : Bool × List UInt8 :=
  if s.head? = some 45 then (true, s.tail)
  else if s.head? = some 43 then (false, s.tail)
  else (false, s)

/-- `strtol(s, &s, 10)`: the number, which stays between `LONG_MIN` and `LONG_MAX`, and where it ends. Without a
digit nothing is read. -/
def strtol (s : List UInt8) : Int × List UInt8 :=
  let (negative, t) := strtol.sign (s.dropWhile isspace)
  let digits := t.takeWhile isdigit
  if digits = [] then (0, s)
  else
    let n : Nat := digits.foldl (fun v c => v * 10 + digit c) 0
    (max LONG_MIN (min LONG_MAX (if negative then -n else n)), t.dropWhile isdigit)

section

variable {n : Nat} {s rest : List UInt8}

theorem isdigit_decimal {c : UInt8} (member : c ∈ decimal n) : isdigit c = true := by
  simpa [isdigit] using decimal_char member

theorem sign_decimal (n : Nat) (rest : List UInt8) :
    strtol.sign ((decimal n ++ rest).dropWhile isspace) = (false, decimal n ++ rest) := by
  obtain ⟨c, digits, first⟩ := List.exists_cons_of_ne_nil (decimal_ne_nil n)
  have member : c ∈ decimal n := first ▸ List.mem_cons_self
  obtain ⟨low, high⟩ := decimal_char member
  have blank : isspace c ≠ true := by
    simp only [isspace, ne_eq, Bool.or_eq_true, Bool.and_eq_true, beq_iff_eq, decide_eq_true_eq]
    rintro (rfl | ⟨-, small⟩)
    · exact absurd low (by decide)
    · exact absurd (UInt8.le_trans low small) (by decide)
  have minus : c ≠ 45 := by
    rintro rfl
    exact absurd low (by decide)
  have plus : c ≠ 43 := by
    rintro rfl
    exact absurd low (by decide)
  rw [first, List.cons_append, List.dropWhile_cons_of_neg blank]
  simp [strtol.sign, minus, plus]

theorem decimal_span (n : Nat) (stop : ∀ c ∈ rest.head?, isdigit c ≠ true) :
    (decimal n ++ rest).takeWhile isdigit = decimal n ∧ (decimal n ++ rest).dropWhile isdigit = rest := by
  rw [List.takeWhile_append_of_pos fun c => isdigit_decimal, List.dropWhile_append_of_pos fun c => isdigit_decimal]
  cases rest with
  | nil => simp
  | cons c rest => simp [stop c rfl]

theorem strtol_decimal (negative : Bool) (reads : strtol.sign (s.dropWhile isspace) = (negative, decimal n ++ rest))
    (small : n ≤ LONG_MAX) (stop : ∀ c ∈ rest.head?, isdigit c ≠ true) :
    strtol s = (if negative then -(n : Int) else n, rest) := by
  obtain ⟨digits, after⟩ := decimal_span n stop
  simp only [strtol, reads, digits, after, if_neg (decimal_ne_nil n), foldl_decimal]
  have natural : 0 ≤ (n : Int) := Int.natCast_nonneg n
  have symmetric : LONG_MIN = -LONG_MAX - 1 := rfl
  split
  · rw [min_eq_right (by omega), max_eq_right (by omega)]
  · rw [min_eq_right small, max_eq_right (by omega)]

theorem strtol_blank (small : n ≤ LONG_MAX) (stop : ∀ c ∈ rest.head?, isdigit c ≠ true) :
    strtol (32 :: (decimal n ++ rest)) = ((n : Int), rest) :=
  strtol_decimal false (sign_decimal n rest) small stop

theorem strtol_minus (small : n ≤ LONG_MAX) (stop : ∀ c ∈ rest.head?, isdigit c ≠ true) :
    strtol (32 :: 45 :: (decimal n ++ rest)) = (-(n : Int), rest) := strtol_decimal true rfl small stop

theorem strtol_plus (small : n ≤ LONG_MAX) (stop : ∀ c ∈ rest.head?, isdigit c ≠ true) :
    strtol (32 :: 43 :: (decimal n ++ rest)) = ((n : Int), rest) := strtol_decimal false rfl small stop

end

end Espl.Libc
