import Espl.Libc.String

/-!
# Streams

`fgets`. What is still to be read from a stream is a list of bytes.
-/

namespace Espl.Libc

def upToNewline : Nat → List UInt8 → List UInt8
  | 0, _ => []
  | _ + 1, [] => []
  | n + 1, c :: file => if c = 10 then [c] else c :: upToNewline n file

def put (block s : List UInt8) : List UInt8 := s ++ 0 :: block.drop (s.length + 1)

/-- `fgets(block, size, file)` for a `size` of more than one, and the rest of the file. At the end of the file the
block stays as it is. -/
def fgets (block : List UInt8) (size : Nat) (file : List UInt8) : Option (List UInt8 × List UInt8) :=
  if file = [] then none
  else some (put block (upToNewline (size - 1) file), file.drop (upToNewline (size - 1) file).length)

theorem fgets_shorter {block file block' rest : List UInt8} {size : Nat}
    (read : fgets block (size + 2) file = some (block', rest)) : rest.length < file.length := by
  cases file with
  | nil => cases read
  | cons c file =>
    rw [fgets, if_neg (List.cons_ne_nil _ _), Nat.add_sub_assoc (by decide)] at read
    obtain ⟨-, rfl⟩ := Prod.mk.inj (Option.some.inj read)
    have some : 0 < (upToNewline (size + (2 - 1)) (c :: file)).length := by
      rw [upToNewline]
      split <;> simp
    rw [List.length_drop, List.length_cons]
    omega

def blocks (n : Nat) (block file : List UInt8) : List (List UInt8) :=
  match _read : fgets block (n + 2) file with
  | none => []
  | some (block, rest) => block :: blocks n block rest
termination_by file.length
decreasing_by exact fgets_shorter _read

/-- The lines of a file, each with its newline; the last one may have none. -/
def lines : List UInt8 → List (List UInt8)
  | [] => []
  | c :: file =>
    if c = 10 then [c] :: lines file
    else match lines file with
      | [] => [[c]]
      | l :: ls => (c :: l) :: ls

section

variable {block file l : List UInt8} {ls : List (List UInt8)} {n : Nat}

theorem lines_newline (file : List UInt8) : lines (10 :: file) = [10] :: lines file := by simp [lines]

theorem lines_char {c : UInt8} (other : c ≠ 10) (file : List UInt8) :
    lines (c :: file) = (c :: (lines file).headD []) :: (lines file).tail := by
  cases rest : lines file <;> simp [lines, other, rest]

theorem lines_eq_nil : lines file = [] ↔ file = [] := by
  cases file with
  | nil => simp [lines]
  | cons c file =>
    by_cases newline : c = 10
    · simp [newline, lines_newline]
    · simp [lines_char newline]

theorem upToNewline_eq (first : lines file = l :: ls) (short : l.length ≤ n) : upToNewline n file = l := by
  induction file generalizing l ls n with
  | nil => cases first
  | cons c file ih =>
    by_cases newline : c = 10
    · subst newline
      rw [lines_newline] at first
      obtain ⟨rfl, -⟩ := List.cons.inj first
      obtain ⟨n, rfl⟩ : ∃ k, n = k + 1 := ⟨n - 1, (Nat.sub_add_cancel short).symm⟩
      simp [upToNewline]
    · rw [lines_char newline] at first
      obtain ⟨rfl, -⟩ := List.cons.inj first
      obtain ⟨n, rfl⟩ : ∃ k, n = k + 1 := ⟨n - 1, (Nat.sub_add_cancel (Nat.le_trans (Nat.le_add_left 1 _) short)).symm⟩
      rw [upToNewline, if_neg newline]
      cases rest : lines file with
      | nil =>
        rw [lines_eq_nil.mp rest]
        cases n <;> rfl
      | cons k ks => exact congrArg (c :: ·) (ih rest (Nat.le_of_succ_le_succ (by simpa [rest] using short)))

theorem lines_drop (first : lines file = l :: ls) : lines (file.drop l.length) = ls := by
  induction file generalizing l ls with
  | nil => cases first
  | cons c file ih =>
    by_cases newline : c = 10
    · subst newline
      rw [lines_newline] at first
      obtain ⟨rfl, rfl⟩ := List.cons.inj first
      rfl
    · rw [lines_char newline] at first
      obtain ⟨rfl, rfl⟩ := List.cons.inj first
      cases rest : lines file with
      | nil => simp [lines_eq_nil.mp rest, lines]
      | cons k ks => simpa [rest] using ih rest

theorem lines_append (single : 10 ∉ l) (rest : List UInt8) : lines (l ++ 10 :: rest) = (l ++ [10]) :: lines rest := by
  induction l with
  | nil => exact lines_newline rest
  | cons c l ih =>
    rw [List.mem_cons, not_or] at single
    rw [List.cons_append, lines_char (Ne.symm single.1), ih single.2]
    rfl

theorem fgets_line (block : List UInt8) (first : lines file = l :: ls) (short : l.length ≤ n) :
    fgets block (n + 1) file = some (put block l, file.drop l.length) := by
  have more : file ≠ [] := fun empty => by
    rw [empty] at first
    cases first
  rw [fgets, if_neg more, Nat.add_sub_cancel, upToNewline_eq first short]

theorem blocks_append (block : List UInt8) (single : 10 ∉ l) (short : l.length ≤ n) (rest : List UInt8) :
    blocks n block (l ++ 10 :: rest) = put block (l ++ [10]) :: blocks n (put block (l ++ [10])) rest := by
  have read := fgets_line block (lines_append single rest) (n := n + 1) (by simpa using short)
  rw [List.append_cons, List.drop_left, ← List.append_cons] at read
  rw [blocks]
  split
  · rename_i none
    rw [read] at none
    cases none
  · rename_i b r some
    obtain ⟨rfl, rfl⟩ := Prod.mk.inj (Option.some.inj (read.symm.trans some))
    rfl

theorem blocks_nil (block : List UInt8) : blocks n block [] = [] := by
  rw [blocks]
  rfl

end

end Espl.Libc
