import Espl.Libc.Ctype
import Espl.Program.Numeral
import Espl.Ulib.Printf

/-!
# Numbers on the console

`printint` of `console.c`, beside the one of `printf.c`. Both fill `buf` from the last digit on and write it
backwards; the kernel's keeps in `sign` whether there is a minus sign.
-/

namespace Espl.Kernel.Console

open Shell (code codes)

def printint.digits : List UInt8 :=
  codes ['0', '1', '2', '3', '4', '5', '6', '7', '8', '9', 'a', 'b', 'c', 'd', 'e', 'f']

/-- The digits of `x`, the last one first. The loop ends before the fuel for a 32-bit `x`. -/
def printint.loop (base : Nat) : Nat → Nat → List UInt8
  | 0, _ => []
  | fuel + 1, x => printint.digits.getD (x % base) 0 :: if x / base ≠ 0 then printint.loop base fuel (x / base) else []

/-- `buf` before its characters are written from the last one on. -/
def printint.buf (xx : UInt32) (base : Nat) (sign : Bool) : List UInt8 :=
  -- `sign && (sign = xx < 0)`
  let sign := sign && decide (0x80000000 ≤ xx.toNat)
  let x := if sign then -xx else xx
  printint.loop base 32 x.toNat ++ if sign then [code '-'] else []

/-- What is given to `consputc`. -/
def printint (xx : UInt32) (base : Nat) (sign : Bool) : List UInt8 := (printint.buf xx base sign).reverse

def int (xx : UInt32) : Int := (xx.toNat : Int).bmod 0x100000000

def signedDecimal (z : Int) : List UInt8 := if z < 0 then code '-' :: decimal z.natAbs else decimal z.natAbs

def hexDigit (d : Nat) : UInt8 := if d < 10 then UInt8.ofNat (48 + d) else UInt8.ofNat (87 + d)

def toupper (c : UInt8) : UInt8 := if Libc.islower c then c - 32 else c

section

variable {base fuel x : Nat}

theorem loop_reverse (large : 1 < base) (turns : 0 < fuel) (small : x < base ^ fuel) :
    (printint.loop base fuel x).reverse = (numeral base x).map (printint.digits.getD · 0) :=
  spelled_reverse (fun _ => rfl) (fun _ _ => rfl) large turns small

theorem ulib_loop_reverse (large : 1 < base) (turns : 0 < fuel) (small : x < base ^ fuel) :
    (Ulib.printint.loop base fuel x).reverse = (numeral base x).map (Ulib.digits.getD · 0) :=
  spelled_reverse (fun _ => rfl) (fun _ _ => rfl) large turns small

theorem numeral_length (large : 10 ≤ base) (small : x < 2 ^ 32) : (numeral base x).length ≤ 10 := by
  have power : 10 ^ 10 ≤ base ^ 10 := Nat.pow_le_pow_left large 10
  have found : (lows base 10 x).reverse = numeral base x := lows_eq (by omega) (by decide) (by omega)
  rw [← found, List.length_reverse]
  exact lows_length base 10 x

theorem spell_decimal (x : Nat) : (numeral 10 x).map (printint.digits.getD · 0) = decimal x ∧
    (numeral 10 x).map (Ulib.digits.getD · 0) = decimal x := by
  have same : ∀ d < 10, printint.digits.getD d 0 = UInt8.ofNat (48 + d) ∧
    Ulib.digits.getD d 0 = UInt8.ofNat (48 + d) := by
    decide
  constructor
  · exact List.map_congr_left fun d member => (same d (numeral_lt (by decide) member)).1
  · exact List.map_congr_left fun d member => (same d (numeral_lt (by decide) member)).2

theorem spell_hex (x : Nat) : (numeral 16 x).map (printint.digits.getD · 0) = (numeral 16 x).map hexDigit ∧
    (numeral 16 x).map (Ulib.digits.getD · 0) = (numeral 16 x).map (toupper ∘ hexDigit) := by
  have same : ∀ d < 16, printint.digits.getD d 0 = hexDigit d ∧ Ulib.digits.getD d 0 = (toupper ∘ hexDigit) d := by
    decide
  constructor
  · exact List.map_congr_left fun d member => (same d (numeral_lt (by decide) member)).1
  · exact List.map_congr_left fun d member => (same d (numeral_lt (by decide) member)).2

end

section

variable (xx : UInt32)

theorem int_negative (negative : 0x80000000 ≤ xx.toNat) : int xx < 0 ∧ (int xx).natAbs = (-xx).toNat := by
  have lt := xx.toNat_lt
  have opposite := UInt32.toNat_neg xx
  simp only [UInt32.size] at opposite
  have value : int xx = xx.toNat - 0x100000000 := by
    unfold int
    rw [← Int.sub_bmod_right, Int.bmod_eq_of_le]
    · rfl
    · omega
    · omega
  omega

theorem int_natural (natural : ¬ 0x80000000 ≤ xx.toNat) : int xx = xx.toNat := Int.bmod_eq_of_le (by omega) (by omega)

theorem fuel_suffices (x : UInt32) {base : Nat} (large : 10 ≤ base) : x.toNat < base ^ 32 := by
  have power : 10 ^ 32 ≤ base ^ 32 := Nat.pow_le_pow_left large 32
  have lt := x.toNat_lt
  omega

theorem printint_signed : printint xx 10 true = signedDecimal (int xx) := by
  rw [printint, printint.buf, signedDecimal]
  by_cases negative : 0x80000000 ≤ xx.toNat
  · obtain ⟨less, magnitude⟩ := int_negative xx negative
    simp only [negative, decide_true, Bool.and_self, if_true, List.reverse_append, less, magnitude]
    rw [loop_reverse (by decide) (by decide) (fuel_suffices _ (by decide)), (spell_decimal _).1]
    rfl
  · have value := int_natural xx negative
    have natural : ¬ int xx < 0 := by omega
    simp only [negative, decide_false, Bool.and_false, Bool.false_eq_true, if_false, List.append_nil, natural]
    rw [loop_reverse (by decide) (by decide) (fuel_suffices _ (by decide)), (spell_decimal _).1, value,
      Int.natAbs_natCast]

theorem ulib_printint_signed : Ulib.printint xx 10 true = signedDecimal (int xx) := by
  rw [Ulib.printint, Ulib.printint.buf, signedDecimal]
  by_cases negative : 0x80000000 ≤ xx.toNat
  · obtain ⟨less, magnitude⟩ := int_negative xx negative
    rw [if_pos ⟨rfl, negative⟩, if_pos less, magnitude, List.reverse_append,
      ulib_loop_reverse (by decide) (by decide) (fuel_suffices _ (by decide)), (spell_decimal _).2]
    rfl
  · have value := int_natural xx negative
    rw [if_neg fun both => negative both.2, if_neg (by omega), value, Int.natAbs_natCast,
      ulib_loop_reverse (by decide) (by decide) (fuel_suffices _ (by decide)), (spell_decimal _).2]

theorem printint_hex : printint xx 16 false = (numeral 16 xx.toNat).map hexDigit := by
  rw [printint, printint.buf]
  simp only [Bool.false_and, Bool.false_eq_true, if_false, List.append_nil]
  rw [loop_reverse (by decide) (by decide) (fuel_suffices _ (by decide)), (spell_hex _).1]

theorem ulib_printint_hex : Ulib.printint xx 16 false = (numeral 16 xx.toNat).map (toupper ∘ hexDigit) := by
  rw [Ulib.printint, Ulib.printint.buf, if_neg fun both => Bool.false_ne_true both.1,
    ulib_loop_reverse (by decide) (by decide) (fuel_suffices _ (by decide)), (spell_hex _).2]

theorem signedDecimal_length : (signedDecimal (int xx)).length ≤ 11 := by
  have small : (int xx).natAbs < 2 ^ 32 := by
    by_cases negative : 0x80000000 ≤ xx.toNat
    · rw [(int_negative xx negative).2]
      exact (-xx).toNat_lt
    · rw [int_natural xx negative, Int.natAbs_natCast]
      exact xx.toNat_lt
  have digits := numeral_length (Nat.le_refl 10) small
  unfold signedDecimal decimal
  split
  · rw [List.length_cons, List.length_map]
    omega
  · rw [List.length_map]
    omega

end

/-- Both versions print the numeral of every number, and `buf` has room for it. -/
theorem printint_canonical (xx : UInt32) :
    printint xx 10 true = signedDecimal (int xx) ∧ Ulib.printint xx 10 true = signedDecimal (int xx) ∧
    printint xx 16 false = (numeral 16 xx.toNat).map hexDigit ∧
    Ulib.printint xx 16 false = (printint xx 16 false).map toupper ∧
    (printint.buf xx 10 true).length ≤ 16 ∧ (Ulib.printint.buf xx 10 true).length ≤ 16 ∧
    (printint.buf xx 16 false).length ≤ 16 ∧ (Ulib.printint.buf xx 16 false).length ≤ 16 := by
  have decimals : (signedDecimal (int xx)).length ≤ 16 := (signedDecimal_length xx).trans (by decide)
  have hex : ∀ f : Nat → UInt8, ((numeral 16 xx.toNat).map f).length ≤ 16 := by
    intro f
    rw [List.length_map]
    exact (numeral_length (by decide) xx.toNat_lt).trans (by decide)
  refine ⟨printint_signed xx, ulib_printint_signed xx, printint_hex xx, ?_, ?_, ?_, ?_, ?_⟩
  · rw [ulib_printint_hex, printint_hex, List.map_map]
  · rwa [← printint_signed, printint, List.length_reverse] at decimals
  · rwa [← ulib_printint_signed, Ulib.printint, List.length_reverse] at decimals
  · have short := hex hexDigit
    rwa [← printint_hex, printint, List.length_reverse] at short
  · have short := hex (toupper ∘ hexDigit)
    rwa [← ulib_printint_hex, Ulib.printint, List.length_reverse] at short

example : printint 0x80000000 10 true = codes ['-', '2', '1', '4', '7', '4', '8', '3', '6', '4', '8'] := by
  decide +kernel

end Espl.Kernel.Console
