import Espl.Shell.Parser

/-!
# Printing in user programs

`printint` and `printf` of `printf.c`, with the characters that they write. The arguments of `printf` are
the words on the stack after the format, whether the caller has put them there or not.
-/

namespace Espl.Ulib

open Shell (code codes)

def digits : List UInt8 :=
  codes ['0', '1', '2', '3', '4', '5', '6', '7', '8', '9', 'A', 'B', 'C', 'D', 'E', 'F']

/-- The digits of `x`, the last one first. The loop ends before the fuel for a 32-bit `x`. -/
def printint.loop (base : Nat) : Nat → Nat → List UInt8
  | 0, _ => []
  | fuel + 1, x => digits.getD (x % base) 0 :: if x / base ≠ 0 then printint.loop base fuel (x / base) else []

/-- `buf` before its characters are written from the last one on. -/
def printint.buf (xx : UInt32) (base : Nat) (sgn : Bool) : List UInt8 :=
  if sgn ∧ 0x80000000 ≤ xx.toNat then printint.loop base 32 (-xx).toNat ++ [code '-'] else printint.loop
    base 32 xx.toNat

def printint (xx : UInt32) (base : Nat) (sgn : Bool) : List UInt8 := (printint.buf xx base sgn).reverse

/-- What `printf` finds beside its format: the words after it, and the string at each address. -/
structure Stack where
  word : Nat → UInt32
  string : UInt32 → List UInt8

/-- The loop of `printf`, where `percent` is its `state` and `ap` the number of words taken. -/
def printf.loop (S : Stack) : Bool → Nat → List UInt8 → List UInt8
  | _, _, [] => []
  | false, ap, c :: fmt => if c = code '%' then printf.loop S true ap fmt else c :: printf.loop S false ap fmt
  | true, ap, c :: fmt =>
    if c = code 'd' then printint (S.word ap) 10 true ++ printf.loop S false (ap + 1) fmt
    else if c = code 'x' ∨ c = code 'p' then printint (S.word ap) 16 false ++ printf.loop S false (ap + 1) fmt
    else if c = code 's' then
      (if S.word ap = 0 then codes ['(', 'n', 'u', 'l', 'l', ')'] else S.string (S.word ap)) ++ printf.loop S
        false (ap + 1) fmt
    else if c = code 'c' then (S.word ap).toUInt8 :: printf.loop S false (ap + 1) fmt
    else if c = code '%' then c :: printf.loop S false ap fmt
    else code '%' :: c :: printf.loop S false ap fmt

def printf (S : Stack) (fmt : List UInt8) : List UInt8 := printf.loop S false 0 fmt

def conversions : List UInt8 := codes ['d', 'x', 'p', 's', 'c', '%']

def plain : Bool → List UInt8 → Bool
  | percent, [] => !percent
  | false, c :: fmt => plain (c == code '%') fmt
  | true, c :: fmt => !conversions.contains c && plain false fmt

theorem printf_loop_plain (S : Stack) (ap : Nat) {percent : Bool} {fmt : List UInt8} (h : plain percent fmt = true) :
    printf.loop S percent ap fmt = if percent then code '%' :: fmt else fmt := by
  induction fmt generalizing percent with
  | nil =>
    cases percent with
    | false => rfl
    | true => cases h
  | cons c fmt ih =>
    cases percent with
    | false =>
      rw [plain] at h
      rw [printf.loop]
      by_cases same : c = code '%'
      · rw [same, beq_self_eq_true] at h
        rw [if_pos same, ih h, same]
        rfl
      · rw [beq_eq_false_iff_ne.mpr same] at h
        rw [if_neg same, ih h]
        rfl
    | true =>
      simp only [plain, Bool.and_eq_true, Bool.not_eq_true'] at h
      obtain ⟨other, rest⟩ := h
      simp only [conversions, codes, List.map_cons, List.map_nil, List.contains_cons, List.contains_nil, Bool.or_false,
        Bool.or_eq_false_iff, beq_eq_false_iff_ne] at other
      obtain ⟨d, x, p, s, ch, percent⟩ := other
      simp only [printf.loop, d, x, p, s, ch, percent, if_false, or_self, ih rest, if_true, Bool.false_eq_true]

theorem printf_plain (S : Stack) {fmt : List UInt8} (h : plain false fmt = true) : printf S fmt = fmt :=
  printf_loop_plain S 0 h

end Espl.Ulib
