import Mathlib.Data.List.Induction
import Mathlib.Data.List.Nodup

/-!
# Counts of distinct elements

The distinct elements of a list in the order of their first occurrences, each with the number of its
occurrences, and what one more element at the end changes.
-/

namespace Espl

variable {α : Type} [BEq α] {a : α} {l : List α}

def tally (l : List α) : List (α × Nat) := l.eraseDups.map fun a => (a, l.count a)

theorem tally_fst (l : List α) : (tally l).map Prod.fst = l.eraseDups := by
  rw [tally, List.map_map]
  exact List.map_id _

variable [LawfulBEq α]

theorem eraseDups_concat_mem (h : a ∈ l) : (l ++ [a]).eraseDups = l.eraseDups := by
  rw [List.eraseDups_append, List.removeAll]
  simp [h]

theorem eraseDups_concat_new (h : a ∉ l) : (l ++ [a]).eraseDups = l.eraseDups ++ [a] := by
  rw [List.eraseDups_append, List.removeAll]
  simp [h, List.eraseDups_cons]

theorem nodup_eraseDups (l : List α) : l.eraseDups.Nodup := by
  induction l using List.reverseRecOn with
  | nil => exact List.nodup_nil
  | append_singleton l a ih =>
    by_cases member : a ∈ l
    · rwa [eraseDups_concat_mem member]
    · rw [eraseDups_concat_new member]
      exact ih.append (List.nodup_singleton a) (by simpa using member)

theorem tally_concat_new (h : a ∉ l) : tally (l ++ [a]) = tally l ++ [(a, 1)] := by
  unfold tally
  rw [eraseDups_concat_new h, List.map_append, List.map_singleton, List.count_append, List.count_eq_zero.mpr h,
    List.count_singleton_self, Nat.zero_add]
  congr 1
  apply List.map_congr_left
  intro b member
  have other : a ≠ b := by
    rintro rfl
    exact h (List.mem_eraseDups.mp member)
  have none : [a].count b = 0 := List.count_eq_zero.mpr (by simpa using Ne.symm other)
  rw [List.count_append, none, Nat.add_zero]

theorem tally_concat_mem (h : a ∈ l) : tally (l ++ [a]) = (tally l).set (l.eraseDups.idxOf a) (a, l.count a + 1) := by
  have lt : l.eraseDups.idxOf a < l.eraseDups.length := List.idxOf_lt_length_of_mem (List.mem_eraseDups.mpr h)
  unfold tally
  rw [eraseDups_concat_mem h]
  apply List.ext_getElem
  · simp
  · intro i hi hi'
    have inside : i < l.eraseDups.length := by simpa using hi
    rw [List.getElem_map, List.getElem_set, List.getElem_map, List.count_append]
    split
    · rename_i same
      subst same
      rw [List.getElem_idxOf lt, List.count_singleton_self]
    · rename_i other
      have ne : l.eraseDups[i] ≠ a := by
        intro same
        rw [← same] at other
        exact other ((nodup_eraseDups l).idxOf_getElem i inside)
      have none : [a].count l.eraseDups[i] = 0 := List.count_eq_zero.mpr (by simpa using ne)
      rw [none, Nat.add_zero]

theorem tally_replicate (a : α) (n : Nat) : tally (List.replicate (n + 1) a) = [(a, n + 1)] := by
  induction n with
  | zero => exact tally_concat_new List.not_mem_nil
  | succ n ih =>
    have member : a ∈ List.replicate (n + 1) a := List.mem_replicate.mpr ⟨Nat.succ_ne_zero n, rfl⟩
    have names : (List.replicate (n + 1) a).eraseDups = [a] := by rw [← tally_fst, ih]; rfl
    rw [List.replicate_succ', tally_concat_mem member, ih, names, List.count_replicate_self, List.idxOf_cons_self]
    rfl

end Espl
