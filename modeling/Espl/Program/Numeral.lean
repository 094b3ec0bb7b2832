import Mathlib.Data.Nat.Digits.Lemmas

/-!
# Numerals

The numeral of a number in a base, with its first digit first and no zero in front of it, and in base ten
as characters.
-/

namespace Espl

def numeral (b n : Nat) : List Nat := if n = 0 then [0] else (Nat.digits b n).reverse

section

variable {b n : Nat}

theorem numeral_ne_nil (b n : Nat) : numeral b n ≠ [] := by
  unfold numeral
  split
  · exact List.cons_ne_nil _ _
  · rename_i positive
    exact fun empty => positive (Nat.digits_eq_nil_iff_eq_zero.mp (List.reverse_eq_nil_iff.mp empty))

theorem numeral_lt (base : 1 < b) {d : Nat} (member : d ∈ numeral b n) : d < b := by
  unfold numeral at member
  split at member
  · rw [List.mem_singleton.mp member]
    omega
  · exact Nat.digits_lt_base base (List.mem_reverse.mp member)

theorem foldl_numeral (b n : Nat) : (numeral b n).foldl (fun v d => v * b + d) 0 = n := by
  have reading : ∀ ds : List Nat, ds.reverse.foldl (fun v d => v * b + d) 0 = Nat.ofDigits b ds := by
    intro ds
    induction ds with
    | nil => rfl
    | cons d ds ih =>
      rw [List.reverse_cons, List.foldl_append, ih, List.foldl_cons, List.foldl_nil, Nat.ofDigits_cons,
        Nat.mul_comm, Nat.add_comm]
  unfold numeral
  split
  · rename_i zero
    simp [zero]
  · rw [reading, Nat.ofDigits_digits]

def lows (b : Nat) : Nat → Nat → List Nat
  | 0, _ => []
  | fuel + 1, n => n % b :: if n / b ≠ 0 then lows b fuel (n / b) else []

theorem lows_length (b fuel n : Nat) : (lows b fuel n).length ≤ fuel := by
  induction fuel generalizing n with
  | zero => exact Nat.le_refl 0
  | succ fuel ih =>
    rw [lows, List.length_cons]
    split
    · exact Nat.succ_le_succ (ih _)
    · exact Nat.succ_le_succ (Nat.zero_le fuel)

theorem lows_eq (base : 1 < b) {fuel : Nat} (turns : 0 < fuel) (small : n < b ^ fuel) :
    (lows b fuel n).reverse = numeral b n := by
  induction fuel generalizing n with
  | zero => exact absurd turns (Nat.lt_irrefl 0)
  | succ fuel ih =>
    by_cases last : n / b = 0
    · have lt : n < b := (Nat.div_eq_zero_iff_lt (by omega)).mp last
      rw [lows, if_neg (not_not.mpr last), Nat.mod_eq_of_lt lt, numeral]
      split
      · rename_i zero
        rw [zero]
        rfl
      · rename_i positive
        rw [Nat.digits_of_lt b n positive lt]
    · have smaller : n / b < b ^ fuel := Nat.div_lt_of_lt_mul (by rwa [Nat.mul_comm, ← Nat.pow_succ])
      have more : 0 < fuel := by
        by_contra none
        rw [Nat.eq_zero_of_not_pos none, Nat.pow_zero] at smaller
        exact last (Nat.lt_one_iff.mp smaller)
      have positive : n ≠ 0 := by
        rintro rfl
        exact last (Nat.zero_div b)
      rw [lows, if_pos last, List.reverse_cons, ih more smaller, numeral, if_neg last, numeral, if_neg positive,
        Nat.digits_def' base (Nat.pos_of_ne_zero positive), List.reverse_cons]

theorem spelled_eq {α : Type} {spell : Nat → α} {f : Nat → Nat → List α} (none : ∀ n, f 0 n = [])
    (turn : ∀ fuel n, f (fuel + 1) n = spell (n % b) :: if n / b ≠ 0 then f fuel (n / b) else []) (fuel n : Nat) :
    f fuel n = (lows b fuel n).map spell := by
  induction fuel generalizing n with
  | zero => exact none n
  | succ fuel ih =>
    rw [turn, lows, List.map_cons]
    split
    · rw [ih]
    · rfl

theorem spelled_reverse {α : Type} {spell : Nat → α} {f : Nat → Nat → List α} (none : ∀ n, f 0 n = [])
    (turn : ∀ fuel n, f (fuel + 1) n = spell (n % b) :: if n / b ≠ 0 then f fuel (n / b) else []) (base : 1 < b)
    {fuel : Nat} (turns : 0 < fuel) (small : n < b ^ fuel) : (f fuel n).reverse = (numeral b n).map spell := by
  rw [spelled_eq none turn, ← List.map_reverse, lows_eq base turns small]

end

def decimal (n : Nat) : List UInt8 := (numeral 10 n).map fun d => UInt8.ofNat (48 + d)

def digit (c : UInt8) : Nat := c.toNat - 48

theorem decimal_ne_nil (n : Nat) : decimal n ≠ [] := by
  simpa [decimal] using numeral_ne_nil 10 n

theorem toNat_char {d : Nat} (lt : d < 10) : (UInt8.ofNat (48 + d)).toNat = 48 + d := UInt8.toNat_ofNat_of_lt' (by
  have : UInt8.size = 256 := rfl
  omega)

theorem decimal_char {n : Nat} {c : UInt8} (member : c ∈ decimal n) : 48 ≤ c ∧ c ≤ 57 := by
  obtain ⟨d, inside, rfl⟩ := List.mem_map.mp member
  have lt := numeral_lt (by decide) inside
  simp only [UInt8.le_iff_toNat_le, toNat_char lt]
  exact ⟨Nat.le_add_right 48 d, by simpa using Nat.le_of_lt_succ (Nat.add_lt_add_left lt 48)⟩

theorem foldl_decimal (n : Nat) : (decimal n).foldl (fun v c => v * 10 + digit c) 0 = n := by
  have digits : (decimal n).map digit = numeral 10 n := by
    rw [decimal, List.map_map]
    refine (List.map_congr_left fun d inside => ?_).trans (List.map_id _)
    rw [Function.comp_apply, digit, toNat_char (numeral_lt (by decide) inside), Nat.add_sub_cancel_left, id]
  have read := foldl_numeral 10 n
  rwa [← digits, List.foldl_map] at read

end Espl
