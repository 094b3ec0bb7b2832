import Mathlib.Data.List.Basic

/-!
# Paths

A path as the names between its separators, each cut to a width, and following names from one place to
the next.
-/

namespace Espl

section Elements

variable {α : Type} [DecidableEq α] {sep : α} {width : Nat}

def elements (sep : α) (width : Nat) (path : List α) : List (List α) :=
  ((path.splitOn sep).filter (· ≠ [])).map (List.take width)

theorem elements_append (front back : List α) :
    elements sep width (front ++ sep :: back) = elements sep width front ++ elements sep width back := by
  unfold elements
  rw [List.splitOn_append_cons_self, List.filter_append, List.map_append]

theorem elements_name {name : List α} (some : name ≠ []) (single : sep ∉ name) :
    elements sep width name = [name.take width] := by
  unfold elements
  rw [List.splitOn_eq_singleton single]
  simp [some]

end Elements

section Follow

variable {α D : Type}

def follow (find : D → List α → Option D) (d : D) (names : List (List α)) : Option D := names.foldlM find d

theorem follow_append (find : D → List α → Option D) (d : D) (front back : List (List α)) :
    follow find d (front ++ back) = (follow find d front).bind fun e => follow find e back := by
  unfold follow
  rw [List.foldlM_append]
  rfl

end Follow

end Espl
