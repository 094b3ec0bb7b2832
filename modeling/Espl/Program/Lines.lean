import Mathlib.Data.List.Basic

/-!
# Lines

A text as lines that each end in a separator, and what comes after the last of them.
-/

namespace Espl

variable {α : Type} {sep : α} {x y t t' : List α} {ls ls' : List (List α)}

def joined (sep : α) (ls : List (List α)) : List α := (ls.map (· ++ [sep])).flatten

@[simp] theorem joined_nil : joined sep [] = [] := rfl

@[simp] theorem joined_cons (l : List α) (ls : List (List α)) : joined sep (l :: ls) = l ++ sep :: joined sep ls := by
  simp [joined]

theorem joined_append (ls ls' : List (List α)) : joined sep (ls ++ ls') = joined sep ls ++ joined sep ls' := by
  simp [joined]

theorem length_le_joined (sep : α) (ls : List (List α)) : ls.length ≤ (joined sep ls).length := by
  induction ls with
  | nil => exact Nat.le.refl
  | cons l ls ih =>
    simp only [joined_cons, List.length_cons, List.length_append]
    omega

/-- `x` is the lines `ls` and `t` after them. -/
structure Cut (sep : α) (x : List α) (ls : List (List α)) (t : List α) : Prop where
  whole : x = joined sep ls ++ t
  lines : ∀ l ∈ ls, sep ∉ l
  rest : sep ∉ t

theorem cut_exists [DecidableEq α] (sep : α) (x : List α) : ∃ ls t, Cut sep x ls t := by
  induction x with
  | nil => exact ⟨[], [], rfl, by simp, by simp⟩
  | cons a x ih =>
    obtain ⟨ls, t, rfl, lines, rest⟩ := ih
    by_cases here : a = sep
    · refine ⟨[] :: ls, t, by simp [here], fun l mem => ?_, rest⟩
      rcases List.mem_cons.mp mem with rfl | mem
      · exact List.not_mem_nil
      · exact lines l mem
    · cases ls with
      | nil => exact ⟨[], a :: t, rfl, lines, by simp [rest, Ne.symm here]⟩
      | cons l ls =>
        refine ⟨(a :: l) :: ls, t, by simp, fun k mem => ?_, rest⟩
        rcases List.mem_cons.mp mem with rfl | mem
        · simp [Ne.symm here, lines l List.mem_cons_self]
        · exact lines k (List.mem_cons_of_mem _ mem)

theorem Cut.append (h : Cut sep x ls t) (more : Cut sep (t ++ y) ls' t') : Cut sep (x ++ y) (ls ++ ls') t' where
  whole := by rw [h.whole, List.append_assoc, more.whole, joined_append, List.append_assoc]
  lines l mem := (List.mem_append.mp mem).elim (h.lines l) (more.lines l)
  rest := more.rest

theorem first_unique {a b c d : List α} (same : a ++ sep :: b = c ++ sep :: d) (out : sep ∉ a) (out' : sep ∉ c) :
    a = c ∧ b = d := by
  induction a generalizing c with
  | nil =>
    cases c with
    | nil => exact ⟨rfl, (List.cons.inj same).2⟩
    | cons e c => exact absurd ((List.cons.inj same).1 ▸ List.mem_cons_self) out'
  | cons e a ih =>
    cases c with
    | nil => exact absurd ((List.cons.inj same).1 ▸ List.mem_cons_self) out
    | cons f c =>
      obtain ⟨rfl, tail⟩ := List.cons.inj same
      obtain ⟨rfl, rfl⟩ := ih tail (List.not_mem_of_not_mem_cons out) (List.not_mem_of_not_mem_cons out')
      exact ⟨rfl, rfl⟩

theorem Cut.unique (h : Cut sep x ls t) (h' : Cut sep x ls' t') : ls = ls' ∧ t = t' := by
  obtain ⟨rfl, lines, rest⟩ := h
  obtain ⟨same, lines', rest'⟩ := h'
  induction ls generalizing ls' with
  | nil =>
    cases ls' with
    | nil => exact ⟨rfl, same⟩
    | cons l ls' =>
      rw [joined_nil, List.nil_append] at same
      exact absurd (same ▸ by simp) rest
  | cons l ls ih =>
    cases ls' with
    | nil =>
      rw [joined_nil, List.nil_append] at same
      exact absurd (same ▸ by simp) rest'
    | cons l' ls' =>
      simp only [joined_cons, List.append_assoc, List.cons_append] at same
      obtain ⟨rfl, tail⟩ := first_unique same (lines l List.mem_cons_self) (lines' l' List.mem_cons_self)
      obtain ⟨rfl, rfl⟩ := ih (fun k mem => lines k (List.mem_cons_of_mem _ mem)) tail
        fun k mem => lines' k (List.mem_cons_of_mem _ mem)
      exact ⟨rfl, rfl⟩

end Espl
