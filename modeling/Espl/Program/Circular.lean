import Mathlib.Data.List.Chain
import Mathlib.Logic.Function.Basic

/-!
# Circular lists

Nodes that each lead to the next one, rings of them, and the search along a ring.
-/

namespace Espl.Circular

variable {α : Type*} {next next' : α → α} {l l₁ l₂ : List α} {a b : α}

def Linked (next : α → α) (l : List α) : Prop := l.IsChain fun a b => next a = b

def Ring (next : α → α) (a : α) (l : List α) : Prop := Linked next (a :: l ++ [a])

theorem linked_split : Linked next (l₁ ++ a :: l₂) ↔ Linked next (l₁ ++ [a]) ∧ Linked next (a :: l₂) :=
  List.isChain_split

theorem linked_singleton (a : α) : Linked next [a] := List.isChain_singleton a

theorem linked_cons_cons : Linked next (a :: b :: l) ↔ next a = b ∧ Linked next (b :: l) :=
  List.isChain_cons_cons

theorem Linked.step (h : Linked next (l₁ ++ a :: b :: l₂)) : next a = b :=
  (linked_cons_cons.mp (linked_split.mp h).2).1

theorem Linked.congr (h : Linked next l) (same : ∀ a ∈ l.dropLast, next' a = next a) : Linked next' l := by
  induction l with
  | nil => exact List.isChain_nil
  | cons a l ih =>
    cases l with
    | nil => exact linked_singleton a
    | cons b l =>
      obtain ⟨step, rest⟩ := linked_cons_cons.mp h
      refine linked_cons_cons.mpr ⟨?_, ih rest fun c member => same c ?_⟩
      · rw [same a (by simp), step]
      · exact List.mem_cons_of_mem _ member

theorem Linked.join [DecidableEq α] (h₁ : Linked next (l₁ ++ [a])) (h₂ : Linked next (b :: l₂)) (out₁ : a ∉ l₁)
    (out₂ : a ∉ (b :: l₂).dropLast) : Linked (Function.update next a b) (l₁ ++ a :: b :: l₂) := by
  refine linked_split.mpr ⟨h₁.congr ?_, linked_cons_cons.mpr ⟨Function.update_self .., h₂.congr ?_⟩⟩
  · intro c member
    rw [List.dropLast_concat] at member
    apply Function.update_of_ne
    rintro rfl
    exact out₁ member
  · intro c member
    apply Function.update_of_ne
    rintro rfl
    exact out₂ member

theorem Ring.rotate (h : Ring next a l) (split : a :: l = l₁ ++ b :: l₂) : Ring next b (l₂ ++ l₁) := by
  cases l₁ with
  | nil =>
    obtain ⟨rfl, rfl⟩ := List.cons.inj split
    rw [List.append_nil]
    exact h
  | cons c l₁ =>
    obtain ⟨rfl, rfl⟩ := List.cons.inj split
    -- from `a` to `b` and from `b` to `a`
    have parts : Linked next ((a :: l₁) ++ b :: (l₂ ++ [a])) := by
      have h : Linked next (a :: (l₁ ++ b :: l₂) ++ [a]) := h
      simpa only [List.cons_append, List.append_assoc] using h
    obtain ⟨first, second⟩ := linked_split.mp parts
    have whole : Linked next ((b :: l₂) ++ a :: (l₁ ++ [b])) := linked_split.mpr ⟨second, first⟩
    change Linked next (b :: (l₂ ++ a :: l₁) ++ [b])
    simpa only [List.cons_append, List.append_assoc] using whole

theorem Linked.iterate (h : Linked next (a :: l)) (member : b ∈ a :: l) : ∃ k, next^[k] a = b := by
  induction l generalizing a with
  | nil => exact ⟨0, (List.mem_singleton.mp member).symm⟩
  | cons c l ih =>
    obtain ⟨step, rest⟩ := linked_cons_cons.mp h
    rcases List.mem_cons.mp member with rfl | member
    · exact ⟨0, rfl⟩
    · obtain ⟨k, reached⟩ := ih rest member
      exact ⟨k + 1, by rw [Function.iterate_succ_apply, step, reached]⟩

theorem Ring.iterate_mem (h : Ring next a l) (member : b ∈ a :: l) (k : Nat) : next^[k] b ∈ a :: l := by
  induction k with
  | zero => exact member
  | succ k ih =>
    rw [Function.iterate_succ_apply']
    obtain ⟨l₁, l₂, split⟩ := List.append_of_mem ih
    have around : Linked next (l₁ ++ next^[k] b :: (l₂ ++ [a])) := by
      have h : Linked next (a :: l ++ [a]) := h
      rwa [split, List.append_assoc, List.cons_append] at h
    cases l₂ with
    | nil =>
      rw [around.step]
      exact List.mem_cons_self
    | cons c l₂ =>
      rw [around.step, split]
      simp

def seek (next : α → α) (stop : α → Bool) : Nat → α → Option α
  | 0, _ => none
  | fuel + 1, a => if stop a then some a else seek next stop fuel (next a)

theorem seek_mono {stop : α → Bool} {fuel fuel' : Nat} (read : seek next stop fuel a = some b) (more : fuel ≤ fuel') :
    seek next stop fuel' a = some b := by
  induction fuel generalizing a fuel' with
  | zero => cases read
  | succ fuel ih =>
    obtain ⟨fuel', rfl⟩ := Nat.exists_eq_add_one.mpr (Nat.lt_of_lt_of_le (Nat.succ_pos fuel) more)
    rw [seek] at read ⊢
    split
    · rename_i here
      rwa [if_pos here] at read
    · rename_i here
      rw [if_neg here] at read
      exact ih read (Nat.le_of_succ_le_succ more)

theorem seek_linked {stop : α → Bool} {fuel : Nat} (h : Linked next (a :: l)) (found : ∃ b ∈ a :: l, stop b = true)
    (enough : l.length < fuel) : ∃ b ∈ a :: l, stop b = true ∧ seek next stop fuel a = some b := by
  induction l generalizing a fuel with
  | nil =>
    obtain ⟨fuel, rfl⟩ := Nat.exists_eq_add_one.mpr (Nat.zero_lt_of_lt enough)
    obtain ⟨b, member, stops⟩ := found
    obtain rfl := List.mem_singleton.mp member
    exact ⟨b, member, stops, by rw [seek, if_pos stops]⟩
  | cons c l ih =>
    obtain ⟨fuel, rfl⟩ := Nat.exists_eq_add_one.mpr (Nat.zero_lt_of_lt enough)
    by_cases here : stop a = true
    · exact ⟨a, List.mem_cons_self, here, by rw [seek, if_pos here]⟩
    · obtain ⟨step, rest⟩ := linked_cons_cons.mp h
      obtain ⟨b, member, stops⟩ := found
      have later : b ∈ c :: l := by
        refine (List.mem_cons.mp member).resolve_left ?_
        rintro rfl
        exact here stops
      rw [List.length_cons] at enough
      obtain ⟨d, member', stops', read⟩ := ih rest ⟨b, later, stops⟩ (Nat.lt_of_succ_lt_succ enough)
      exact ⟨d, List.mem_cons_of_mem _ member', stops', by rw [seek, if_neg here, step, read]⟩

/-- From any node of a ring the search finds the node that it stops at, if there is just one. -/
theorem Ring.seek {stop : α → Bool} {c : α} {fuel : Nat} (h : Ring next a l) (start : b ∈ a :: l) (target : c ∈ a :: l)
    (stops : stop c = true) (only : ∀ d ∈ a :: l, stop d = true → d = c) (enough : l.length < fuel) :
    seek next stop fuel b = some c := by
  obtain ⟨l₁, l₂, split⟩ := List.append_of_mem start
  have members : ∀ d, d ∈ b :: (l₂ ++ l₁) ↔ d ∈ a :: l := by
    intro d
    rw [split]
    simp only [List.mem_cons, List.mem_append]
    grind
  have length : (l₂ ++ l₁).length = l.length := by
    have := congrArg List.length split
    simp only [List.length_cons, List.length_append] at this ⊢
    omega
  have around : Linked next (b :: (l₂ ++ l₁)) := (h.rotate split).left_of_append
  obtain ⟨d, member, stops', read⟩ := seek_linked around ⟨c, (members c).mpr target, stops⟩ (length ▸ enough)
  rw [read, only d ((members d).mp member) stops']

end Espl.Circular
