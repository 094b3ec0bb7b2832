import Espl.Libc.Stdio
import Mathlib.Data.List.GetD
import Mathlib.Data.List.Induction

/-!
# Comparing files line by line

`complines.c` reads the lines of two files into two buffers and compares the first eleven bytes of those.
-/

namespace Espl.Labs.Complines

open Libc (fgets int int_eq int_high lines put)

structure Report where
  row : Int
  a : List UInt8
  b : List UInt8

/-- The loop over `j`, with `n` turns to go: whether it comes to a difference. -/
def differ : Nat → List UInt8 → List UInt8 → Bool
  | 0, _, _ => false
  | n + 1, a, b => if a.headD 0 ≠ b.headD 0 then true else differ n a.tail b.tail

/-- The loop of `main` over the lines, with the buffers as they are, unless `row` overflows. -/
def loop (a b : List UInt8) (row : Int) (file1 file2 : List UInt8) : Option (List Report) :=
  match _read : fgets a 129 file1 with
  | none => some []
  | some (a, rest1) =>
    let (b, rest2) := (fgets b 129 file2).getD (b, file2)
    let report : List Report := if differ 11 a b then [⟨row, Libc.string a, Libc.string b⟩] else []
    (int (row + 1)).bind fun row => (report ++ ·) <$> loop a b row rest1 rest2
termination_by file1.length
decreasing_by exact Libc.fgets_shorter _read

def complines (a b file1 file2 : List UInt8) : Option (List Report) := loop a b 1 file1 file2

/-- A text file whose lines are shorter than 128 bytes, apart from their newlines. -/
structure Text (file : List UInt8) : Prop where
  plain : 0 ∉ file
  short : ∀ l ∈ lines file, l.length ≤ 128

/-- The program reports the lines in which the files differ, and no others; line `k` is the one after `k` lines. -/
def Exact (output : Option (List Report)) (file1 file2 : List UInt8) : Prop :=
  ∃ reports, output = some reports ∧ ∀ k : Nat, (∃ r ∈ reports, r.row = k + 1) ↔ (lines file1)[k]? ≠ (lines file2)[k]?

/-- Byte `j` of a buffer that held `block` before these lines: it is from the last of them that reaches so far. -/
def left (block : List UInt8) (ls : List (List UInt8)) (j : Nat) : UInt8 :=
  match ls.reverse.find? fun l => j ≤ l.length with
  | some l => l.getD j 0
  | none => block.getD j 0

/-- The first file has fewer lines than an `int` can count, and at least as many as the second; lines that differ do
so within their first eleven bytes; behind lines that are the same, the buffers are the same so far; and so far the
buffers differ when only the first file has the line. -/
structure Regular (a b : List UInt8) (ls ms : List (List UInt8)) : Prop where
  rows : ls.length < 0x7fffffff
  longer : ms.length ≤ ls.length
  early : ∀ (k : Nat) l m, ls[k]? = some l → ms[k]? = some m → l ≠ m → l.take 11 ≠ m.take 11
  same : ∀ (k : Nat) l, ls[k]? = some l → ms[k]? = some l → ∀ j, l.length < j → j < 11 →
    left a (ls.take k) j = left b (ms.take k) j
  extra : ∀ k < ls.length, ms.length ≤ k → ∃ j < 11, left a (ls.take (k + 1)) j ≠ left b ms j

/-! ### The buffers -/

section

variable {a b block l m file : List UInt8} {ls ms : List (List UInt8)} {j k n : Nat}

theorem differ_iff : differ n a b = true ↔ ∃ j < n, a.getD j 0 ≠ b.getD j 0 := by
  have shift : ∀ (l : List UInt8) (j : Nat), l.tail.getD j 0 = l.getD (j + 1) 0 := by
    intro l j
    cases l <;> simp
  have first : ∀ l : List UInt8, l.headD 0 = l.getD 0 0 := by
    intro l
    cases l <;> simp
  induction n generalizing a b with
  | zero => simp [differ]
  | succ n ih =>
    rw [differ, first, first]
    by_cases here : a.getD 0 0 = b.getD 0 0
    · rw [if_neg (not_not.mpr here)]
      refine ih.trans ?_
      constructor
      · rintro ⟨j, lt, other⟩
        exact ⟨j + 1, Nat.succ_lt_succ lt, by rwa [← shift, ← shift]⟩
      · rintro ⟨j, lt, other⟩
        cases j with
        | zero => exact absurd here other
        | succ j => exact ⟨j, Nat.lt_of_succ_lt_succ lt, by rwa [shift, shift]⟩
    · rw [if_pos here]
      exact ⟨fun _ => ⟨0, Nat.succ_pos n, here⟩, fun _ => rfl⟩

theorem put_getD (block l : List UInt8) (j : Nat) :
    (put block l).getD j 0 = if j ≤ l.length then l.getD j 0 else block.getD j 0 := by
  rw [put]
  rcases Nat.lt_trichotomy j l.length with lt | rfl | gt
  · rw [if_pos (Nat.le_of_lt lt), List.getD_append _ _ _ _ lt]
  · simp
  · obtain ⟨i, rfl⟩ : ∃ i, j = l.length + 1 + i := ⟨j - (l.length + 1), by omega⟩
    rw [if_neg (by omega), List.getD_append_right _ _ _ _ (by omega)]
    simp only [List.getD_eq_getElem?_getD]
    rw [show l.length + 1 + i - l.length = i + 1 by omega, List.getElem?_cons_succ, List.getElem?_drop]

def held (block : List UInt8) (ls : List (List UInt8)) : List UInt8 := ls.foldl put block

theorem held_getD (block : List UInt8) (ls : List (List UInt8)) (j : Nat) :
    (held block ls).getD j 0 = left block ls j := by
  induction ls using List.reverseRecOn with
  | nil => rfl
  | append_singleton ls l ih =>
    rw [held, List.foldl_append, List.foldl_cons, List.foldl_nil, put_getD]
    rw [left, List.reverse_append, List.reverse_singleton, List.singleton_append]
    by_cases reaches : j ≤ l.length
    · rw [if_pos reaches, List.find?_cons_of_pos (by simpa using reaches)]
    · rw [if_neg reaches, List.find?_cons_of_neg (by simpa using reaches)]
      exact ih

theorem left_take_succ (here : ls[k]? = some l) :
    left block (ls.take (k + 1)) j = if j ≤ l.length then l.getD j 0 else left block (ls.take k) j := by
  rw [List.take_add_one, here, Option.toList_some, left, List.reverse_append, List.reverse_singleton,
    List.singleton_append]
  by_cases reaches : j ≤ l.length
  · rw [if_pos reaches, List.find?_cons_of_pos (by simpa using reaches)]
  · rw [if_neg reaches, List.find?_cons_of_neg (by simpa using reaches)]
    rfl

/-! ### The lines -/

theorem loop_nil (a b : List UInt8) (row : Int) (file2 : List UInt8) : loop a b row [] file2 = some [] := by
  rw [loop]
  rfl

theorem loop_line {row : Int} {file1 file2 rest2 b' : List UInt8} (first : lines file1 = l :: ls)
    (short : l.length ≤ 128) (second : (fgets b 129 file2).getD (b, file2) = (b', rest2)) :
    loop a b row file1 file2 =
      (int (row + 1)).bind fun next =>
        ((if differ 11 (put a l) b' then [⟨row, Libc.string (put a l), Libc.string b'⟩] else []) ++ ·) <$>
          loop (put a l) b' next (file1.drop l.length) rest2 := by
  have read := Libc.fgets_line a first short
  rw [loop]
  split
  · rename_i none
    rw [read] at none
    cases none
  · rename_i a' rest1 some
    obtain ⟨rfl, rfl⟩ := Prod.mk.inj (Option.some.inj (read.symm.trans some))
    rw [second]

theorem second_line (b : List UInt8) {file2 : List UInt8} (short : ∀ l ∈ lines file2, l.length ≤ 128) :
    ∃ rest2, (fgets b 129 file2).getD (b, file2) = (held b ((lines file2).take 1), rest2) ∧
      lines rest2 = (lines file2).tail := by
  cases rest : lines file2 with
  | nil =>
    obtain rfl := Libc.lines_eq_nil.mp rest
    exact ⟨[], rfl, rfl⟩
  | cons m ms =>
    refine ⟨file2.drop m.length, ?_, Libc.lines_drop rest⟩
    rw [Libc.fgets_line b rest (short m (rest ▸ List.mem_cons_self))]
    rfl

theorem held_take_succ (block : List UInt8) (ls : List (List UInt8)) (k : Nat) :
    held block (ls.take (k + 1)) = held (held block (ls.take 1)) (ls.tail.take k) := by
  cases ls <;> simp [held]

theorem loop_rows {row : Int} {file1 file2 : List UInt8} (positive : 0 < row) (start : row ≤ 0x7fffffff)
    (short1 : ∀ l ∈ lines file1, l.length ≤ 128) (short2 : ∀ l ∈ lines file2, l.length ≤ 128) :
    (loop a b row file1 file2 = none ∧ 0x7fffffff < row + (lines file1).length) ∨
    ∃ reports, loop a b row file1 file2 = some reports ∧ row + (lines file1).length ≤ 0x7fffffff ∧
      ∀ i, (∃ r ∈ reports, r.row = i) ↔ ∃ k < (lines file1).length, i = row + k ∧
        differ 11 (held a ((lines file1).take (k + 1))) (held b ((lines file2).take (k + 1))) = true := by
  induction rest : lines file1 generalizing a b row file1 file2 with
  | nil =>
    obtain rfl := Libc.lines_eq_nil.mp rest
    refine Or.inr ⟨[], loop_nil a b row file2, by simpa using start, by simp⟩
  | cons l ls ih =>
    obtain ⟨rest2, second, others⟩ := second_line b short2
    rw [loop_line rest (short1 l (rest ▸ List.mem_cons_self)) second, List.length_cons]
    by_cases last : row = 0x7fffffff
    · rw [int_high (by omega)]
      exact Or.inl ⟨rfl, by omega⟩
    rw [int_eq (by omega) (by omega), Option.bind_some]
    have later := Libc.lines_drop rest
    have result := @ih (put a l) (held b ((lines file2).take 1)) (row + 1) (file1.drop l.length) rest2
      (by omega) (by omega)
      (fun k member => short1 k (rest ▸ List.mem_cons_of_mem l (later ▸ member)))
      (fun k member => short2 k (List.mem_of_mem_tail (others ▸ member))) later
    rcases result with ⟨none, many⟩ | ⟨reports, some, fits, rows⟩
    · rw [none]
      exact Or.inl ⟨rfl, by omega⟩
    · rw [some]
      refine Or.inr ⟨_, rfl, by omega, fun i => ?_⟩
      have here : (∃ r ∈ (if differ 11 (put a l) (held b ((lines file2).take 1))
          then [(⟨row, Libc.string (put a l), Libc.string (held b ((lines file2).take 1))⟩ : Report)] else []),
            r.row = i) ↔
          i = row ∧ differ 11 (put a l) (held b ((lines file2).take 1)) = true := by
        split
        · rename_i other
          simp [other, eq_comm]
        · rename_i same
          simp [same]
      simp only [List.mem_append, or_and_right, exists_or, here, rows]
      constructor
      · rintro (⟨rfl, other⟩ | ⟨k, lt, rfl, other⟩)
        · exact ⟨0, Nat.succ_pos _, by simp, other⟩
        · refine ⟨k + 1, Nat.succ_lt_succ lt, by omega, ?_⟩
          rw [held_take_succ b, ← others]
          exact other
      · rintro ⟨k, lt, rfl, other⟩
        cases k with
        | zero => exact Or.inl ⟨by simp, other⟩
        | succ k =>
          refine Or.inr ⟨k, Nat.lt_of_succ_lt_succ lt, by omega, ?_⟩
          rw [held_take_succ b, ← others] at other
          exact other

/-! ### Which lines are seen to differ -/

def Shown (a b : List UInt8) (ls ms : List (List UInt8)) (k : Nat) : Prop :=
  ∃ j < 11, left a (ls.take (k + 1)) j ≠ left b (ms.take (k + 1)) j

theorem take_eq_of_ne (other : l ≠ m) (same : l.take n = m.take n) : n ≤ l.length ∧ n ≤ m.length := by
  have lengths := congrArg List.length same
  rw [List.length_take, List.length_take] at lengths
  by_contra short
  have all : l.length ≤ n ∧ m.length ≤ n := by omega
  rw [List.take_of_length_le all.1, List.take_of_length_le all.2] at same
  exact other same

theorem getD_ne_of_lt (plain : 0 ∉ m) (lt : l.length < m.length) : l.getD l.length 0 ≠ m.getD l.length 0 := by
  rw [List.getD_eq_default _ _ Nat.le.refl, List.getD_eq_getElem _ _ lt]
  exact fun zero => plain (zero ▸ List.getElem_mem lt)

theorem shown_other (one : ls[k]? = some l) (two : ms[k]? = some m) (plain : 0 ∉ l) (plain' : 0 ∉ m) (other : l ≠ m) :
    Shown a b ls ms k ↔ l.take 11 ≠ m.take 11 := by
  simp only [Shown, left_take_succ one, left_take_succ two]
  constructor
  · rintro ⟨j, lt, apart⟩ same
    obtain ⟨long, long'⟩ := take_eq_of_ne other same
    rw [if_pos (by omega), if_pos (by omega)] at apart
    have byte := congrArg (fun t => t.getD j 0) same
    simp only [List.getD_eq_getElem?_getD, List.getElem?_take_of_lt lt] at byte apart
    exact apart byte
  · intro apart
    obtain ⟨j, differs⟩ : ∃ j, (l.take 11)[j]? ≠ (m.take 11)[j]? := by
      by_contra none
      exact apart (List.ext_getElem? fun j => not_not.mp fun differs => none ⟨j, differs⟩)
    have lt : j < 11 := by
      by_contra far
      rw [List.getElem?_take_eq_none (Nat.le_of_not_lt far),
        List.getElem?_take_eq_none (Nat.le_of_not_lt far)] at differs
      exact differs rfl
    rw [List.getElem?_take_of_lt lt, List.getElem?_take_of_lt lt] at differs
    by_cases ends : l.length ≤ j
    · by_cases ends' : m.length ≤ j
      · rw [List.getElem?_eq_none ends, List.getElem?_eq_none ends'] at differs
        exact absurd rfl differs
      · refine ⟨l.length, by omega, ?_⟩
        rw [if_pos (Nat.le_refl _), if_pos (by omega)]
        exact getD_ne_of_lt plain' (by omega)
    · by_cases ends' : m.length ≤ j
      · refine ⟨m.length, by omega, ?_⟩
        rw [if_pos (by omega), if_pos (Nat.le_refl _)]
        exact (getD_ne_of_lt plain (by omega)).symm
      · refine ⟨j, lt, ?_⟩
        rw [if_pos (by omega), if_pos (by omega), List.getD_eq_getElem _ _ (by omega),
          List.getD_eq_getElem _ _ (by omega)]
        rw [List.getElem?_eq_getElem (by omega), List.getElem?_eq_getElem (by omega)] at differs
        exact fun same => differs (congrArg some same)

theorem shown_same (one : ls[k]? = some l) (two : ms[k]? = some l) :
    Shown a b ls ms k ↔ ∃ j, l.length < j ∧ j < 11 ∧ left a (ls.take k) j ≠ left b (ms.take k) j := by
  simp only [Shown, left_take_succ one, left_take_succ two]
  constructor
  · rintro ⟨j, lt, apart⟩
    by_cases reaches : j ≤ l.length
    · rw [if_pos reaches, if_pos reaches] at apart
      exact absurd rfl apart
    · rw [if_neg reaches, if_neg reaches] at apart
      exact ⟨j, by omega, lt, apart⟩
  · rintro ⟨j, past, lt, apart⟩
    refine ⟨j, lt, ?_⟩
    rwa [if_neg (by omega), if_neg (by omega)]

/-- The lines are reported as they should be if and only if the files are regular. -/
theorem shown_iff (plain : ∀ l ∈ ls, 0 ∉ l) (plain' : ∀ m ∈ ms, 0 ∉ m) :
    (ls.length < 0x7fffffff ∧ ∀ k, (k < ls.length ∧ Shown a b ls ms k) ↔ ls[k]? ≠ ms[k]?) ↔ Regular a b ls ms := by
  constructor
  · rintro ⟨rows, exactly⟩
    refine ⟨rows, ?_, fun k l m one two other => ?_, fun k l one two j past lt => ?_, fun k lt past => ?_⟩
    · by_contra shorter
      -- The line after the last one of the first file is not looked at.
      have missing := (exactly ls.length).mpr (by rw [List.getElem?_eq_none Nat.le.refl]; simp; omega)
      exact Nat.lt_irrefl _ missing.1
    · have shown := ((exactly k).mpr (by rw [one, two]; simpa using other)).2
      exact (shown_other one two (plain l (List.mem_of_getElem? one)) (plain' m (List.mem_of_getElem? two))
        other).mp shown
    · by_contra apart
      have shown := (shown_same one two).mpr ⟨j, past, lt, apart⟩
      exact (exactly k).mp ⟨(List.getElem?_eq_some_iff.mp one).1, shown⟩ (one.trans two.symm)
    · have shown := ((exactly k).mpr (by rw [List.getElem?_eq_none past]; simpa using lt)).2
      rwa [Shown, List.take_of_length_le (by omega : ms.length ≤ k + 1)] at shown
  · rintro ⟨rows, longer, early, same, extra⟩
    refine ⟨rows, fun k => ?_⟩
    by_cases lt : k < ls.length
    · have one := List.getElem?_eq_getElem lt
      by_cases lt' : k < ms.length
      · have two := List.getElem?_eq_getElem lt'
        by_cases equal : ls[k] = ms[k]
        · rw [← equal] at two
          rw [shown_same one two, one, two]
          refine ⟨?_, fun other => absurd rfl other⟩
          rintro ⟨-, j, past, near, apart⟩
          exact absurd (same k _ one two j past near) apart
        · have shown := (shown_other (a := a) (b := b) one two (plain _ (List.getElem_mem lt))
            (plain' _ (List.getElem_mem lt')) equal).mpr
            (early k _ _ one two equal)
          rw [one, two]
          exact ⟨fun _ both => equal (Option.some.inj both), fun _ => ⟨lt, shown⟩⟩
      · have shown : Shown a b ls ms k := by
          rw [Shown, List.take_of_length_le (by omega : ms.length ≤ k + 1)]
          exact extra k lt (Nat.le_of_not_lt lt')
        rw [one, List.getElem?_eq_none (Nat.le_of_not_lt lt')]
        exact ⟨fun _ => Option.some_ne_none _, fun _ => ⟨lt, shown⟩⟩
    · rw [List.getElem?_eq_none (by omega), List.getElem?_eq_none (by omega)]
      exact ⟨fun both => absurd both.1 lt, fun other => absurd rfl other⟩

theorem plain_lines (plain : 0 ∉ file) : ∀ l ∈ lines file, 0 ∉ l := by
  induction file with
  | nil => simp [lines]
  | cons c file ih =>
    rw [List.mem_cons, not_or] at plain
    have rest := ih plain.2
    by_cases newline : c = 10
    · subst newline
      rw [Libc.lines_newline]
      exact List.forall_mem_cons.mpr ⟨by decide, rest⟩
    · rw [Libc.lines_char newline]
      cases others : lines file with
      | nil => simpa using plain.1
      | cons l ls =>
        rw [others] at rest
        obtain ⟨first, tail⟩ := List.forall_mem_cons.mp rest
        exact List.forall_mem_cons.mpr ⟨by simpa using ⟨plain.1, first⟩, tail⟩

end

/-- The program reports exactly the lines that differ if and only if the files are regular. -/
theorem complines_exact_iff (a b file1 file2 : List UInt8) (text1 : Text file1) (text2 : Text file2) :
    Exact (complines a b file1 file2) file1 file2 ↔ Regular a b (lines file1) (lines file2) := by
  rw [← shown_iff (plain_lines text1.plain) (plain_lines text2.plain), complines]
  rcases loop_rows (a := a) (b := b) Int.one_pos (by decide) text1.short
    text2.short with ⟨none, many⟩ | ⟨reports, some, fits, rows⟩
  · constructor
    · rintro ⟨reports, some, -⟩
      rw [none] at some
      cases some
    · rintro ⟨few, -⟩
      omega
  · have shown : ∀ k : Nat, (∃ r ∈ reports, r.row = k + 1) ↔ k < (lines file1).length ∧
      Shown a b (lines file1) (lines file2) k := by
      intro k
      rw [rows]
      simp only [differ_iff, held_getD]
      constructor
      · rintro ⟨i, lt, row, other⟩
        obtain rfl : k = i := by omega
        exact ⟨lt, other⟩
      · rintro ⟨lt, other⟩
        exact ⟨k, lt, by omega, other⟩
    constructor
    · rintro ⟨reports', some', exactly⟩
      obtain rfl := Option.some.inj (some.symm.trans some')
      exact ⟨by omega, fun k => (shown k).symm.trans (exactly k)⟩
    · rintro ⟨-, exactly⟩
      exact ⟨reports, some, fun k => (shown k).trans (exactly k)⟩

/-- Two files of one letter. -/
theorem complines_exact_letters :
    Exact (complines (List.replicate 129 0) (List.replicate 129 0) [120, 10] [121, 10]) [120, 10] [121, 10] := by
  refine (complines_exact_iff _ _ [120, 10] [121, 10] ⟨by decide, by decide⟩ ⟨by decide, by decide⟩).mpr ?_
  have one : lines [120, 10] = [[120, 10]] := rfl
  have two : lines [121, 10] = [[121, 10]] := rfl
  rw [one, two]
  refine ⟨by decide, Nat.le.refl, fun k l m here there _ => ?_, fun k l here there => ?_, fun k lt past => ?_⟩
  · obtain rfl : l = [120, 10] := List.mem_singleton.mp (List.mem_of_getElem? here)
    obtain rfl : m = [121, 10] := List.mem_singleton.mp (List.mem_of_getElem? there)
    decide
  · obtain rfl : l = [120, 10] := List.mem_singleton.mp (List.mem_of_getElem? here)
    exact absurd (List.mem_singleton.mp (List.mem_of_getElem? there)) (by decide)
  · exact absurd lt (Nat.not_lt.mpr past)

/-- Lines that differ in their twelfth byte are not reported, nor is a line that only the second file has. -/
theorem complines_misses :
    ¬ Exact (complines (List.replicate 129 0) (List.replicate 129 0) (List.replicate 11 97 ++ [120, 10])
      (List.replicate 11 97 ++ [121, 10]))
      (List.replicate 11 97 ++ [120, 10]) (List.replicate 11 97 ++ [121, 10]) ∧
    ¬ Exact (complines (List.replicate 129 0) (List.replicate 129 0) [] [120, 10]) [] [120, 10] := by
  constructor
  · rintro ⟨reports, some, exactly⟩
    have none : complines (List.replicate 129 0) (List.replicate 129 0) (List.replicate 11 97 ++ [120, 10])
        (List.replicate 11 97 ++ [121, 10]) = Option.some [] := by
      have line : lines (List.replicate 11 97 ++ [120, 10]) = [List.replicate 11 97 ++ [120, 10]] := rfl
      rw [complines, loop_line line (by decide) rfl]
      rw [int_eq (by decide) (by decide), Option.bind_some, if_neg (by decide)]
      exact congrArg _ (loop_nil _ _ _ _)
    obtain rfl := Option.some.inj (none.symm.trans some)
    obtain ⟨r, member, -⟩ := (exactly 0).mpr (by decide)
    cases member
  · rintro ⟨reports, some, exactly⟩
    obtain rfl := Option.some.inj ((loop_nil _ _ _ _).symm.trans some)
    obtain ⟨r, member, -⟩ := (exactly 0).mpr (by decide)
    cases member

end Espl.Labs.Complines
