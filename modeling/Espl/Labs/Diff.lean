import Espl.Libc.Stdlib
import Espl.Libc.String

/-!
# Difference lines

`diff.c`: a difference of two files as a line of text, and back.
-/

namespace Espl.Labs

open Libc (strchr strtol LONG_MAX)

structure Diff where
  offset : Int
  old : Int
  new : Int

abbrev INT_MAX : Int := 0x7fffffff

/-- What `fprintf(stream, "byte %lu -%u +%u\n", …)` prints. -/
def fputdiff (d : Diff) : List UInt8 :=
  [98, 121, 116, 101, 32] ++ decimal (d.offset % 0x10000000000000000).toNat ++ [32, 45] ++ decimal
    (d.old % 0x100000000).toNat ++
    [32, 43] ++ decimal (d.new % 0x100000000).toNat ++ [10]

/-- `parsediff` on the string at the start of a block, unless it has no blank. -/
def parsediff (s : List UInt8) : Option Diff := do
  let s ← strchr s 32
  let (offset, s) := strtol s
  let (old, s) := strtol s
  let (new, _) := strtol s
  return ⟨offset, (-old).bmod 0x100000000, new.bmod 0x100000000⟩

theorem strchr_byte (rest : List UInt8) : strchr ([98, 121, 116, 101, 32] ++ rest) 32 = some (32 :: rest) := by
  have blank : 32 ∈ Libc.string ([98, 121, 116, 101, 32] ++ rest) := by simp [Libc.string]
  rw [strchr, if_pos blank]
  simp

theorem parsediff_offset {o : Nat} (small : o ≤ LONG_MAX) {rest : List UInt8}
    (stop : ∀ c ∈ rest.head?, Libc.isdigit c ≠ true) :
    parsediff ([98, 121, 116, 101, 32] ++ decimal o ++ rest) =
      some ⟨o, (-(strtol rest).1).bmod 0x100000000, (strtol (strtol rest).2).1.bmod 0x100000000⟩ := by
  rw [parsediff, List.append_assoc, strchr_byte]
  simp only [Option.bind_eq_bind, Option.bind_some, Libc.strtol_blank small stop]
  rfl

theorem parsediff_numbers {o p q : Nat} (junk : List UInt8) (offset : o ≤ LONG_MAX) (old : p ≤ INT_MAX)
    (new : q ≤ INT_MAX) :
    parsediff ([98, 121, 116, 101, 32] ++ decimal o ++ [32, 45] ++ decimal p ++ [32, 43] ++ decimal
      q ++ [10] ++ 0 :: junk) =
      some ⟨o, p, q⟩ := by
  have line : [98, 121, 116, 101, 32] ++ decimal o ++ [32, 45] ++ decimal p ++ [32, 43] ++ decimal
    q ++ [10] ++ 0 :: junk =
      [98, 121, 116, 101, 32] ++ decimal o ++ (32 :: 45 :: (decimal p ++ 32 :: 43 :: (decimal q ++ 10 :: 0 :: junk))) :=
        by simp
  have third : strtol (32 :: 43 :: (decimal q ++ 10 :: 0 :: junk)) = ((q : Int), 10 :: 0 :: junk) :=
    Libc.strtol_plus (new.trans (by decide)) (by simp [Libc.isdigit])
  have second : strtol (32 :: 45 :: (decimal p ++ 32 :: 43 :: (decimal q ++ 10 :: 0 :: junk))) = (-(p : Int), _) :=
    Libc.strtol_minus (old.trans (by decide)) (by simp [Libc.isdigit])
  simp only [INT_MAX] at old new
  rw [line, parsediff_offset offset (by simp [Libc.isdigit]), second, third, Int.neg_neg,
    Int.bmod_eq_of_le (by omega) (by omega), Int.bmod_eq_of_le (by omega) (by omega)]

/-- A difference is the same after it was printed and read. -/
theorem parsediff_fputdiff (d : Diff) (junk : List UInt8) (offset : 0 ≤ d.offset ∧ d.offset ≤ LONG_MAX)
    (old : 0 ≤ d.old ∧ d.old ≤ INT_MAX) (new : 0 ≤ d.new ∧ d.new ≤ INT_MAX) :
    parsediff (fputdiff d ++ 0 :: junk) = some d := by
  obtain ⟨o, p, q⟩ := d
  -- Each number is the natural number that is printed.
  lift o to Nat using offset.1
  lift p to Nat using old.1
  lift q to Nat using new.1
  have numbers := parsediff_numbers junk offset.2 old.2 new.2
  simp only [LONG_MAX, INT_MAX] at offset old new
  have printed : ((o : Int) % 0x10000000000000000).toNat = o ∧ ((p : Int) % 0x100000000).toNat = p ∧
      ((q : Int) % 0x100000000).toNat = q := by omega
  rw [fputdiff]
  dsimp only
  rw [printed.1, printed.2.1, printed.2.2]
  exact numbers

theorem parsediff_fputdiff_first : parsediff (fputdiff ⟨33, 174, 230⟩ ++ 0 :: []) = some ⟨33, 174, 230⟩ :=
  parsediff_fputdiff ⟨33, 174, 230⟩ [] (by decide) (by decide) (by decide)

end Espl.Labs
