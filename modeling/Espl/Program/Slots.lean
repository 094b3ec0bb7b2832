import Mathlib.Logic.Basic
import Mathlib.Data.List.Basic

/-!
# Tables of slots

A slot is free or has a key. A table in which no key occurs twice is a finite map from keys to slots, and
changing one slot changes the map for the old and the new key of that slot only.
-/

namespace Espl.Slots

variable {α K : Type} {key : α → Option K} {l l' : List α} {j k : Nat} {x y : α} {c : K}

def Distinct (key : α → Option K) (l : List α) : Prop :=
  ∀ (j k : Nat) x y c, l[j]? = some x → l[k]? = some y → key x = some c → key y = some c → j = k

def find [DecidableEq K] (key : α → Option K) (l : List α) (c : K) : Option Nat :=
  l.findIdx? fun x => decide (key x = some c)

structure Replaces (l : List α) (k : Nat) (y : α) (l' : List α) : Prop where
  here : l'[k]? = some y
  others : ∀ j, j ≠ k → l'[j]? = l[j]?

theorem replaces_set (lt : k < l.length) (y : α) : Replaces l k y (l.set k y) :=
  ⟨List.getElem?_set_self lt, fun _ ne => List.getElem?_set_ne (Ne.symm ne)⟩

theorem replaces_append (l : List α) (y : α) : Replaces l l.length y (l ++ [y]) := by
  refine ⟨by simp, fun j ne => ?_⟩
  rcases Nat.lt_or_ge j l.length with lt | ge
  · exact List.getElem?_append_left lt
  · rw [List.getElem?_eq_none ge, List.getElem?_eq_none]
    rw [List.length_append, List.length_singleton]
    omega

theorem distinct_of_pairwise (h : l.Pairwise fun x y => key x = none ∨ key x ≠ key y) : Distinct key l := by
  intro j k x y c hj hk kx ky
  obtain ⟨inj, rfl⟩ := List.getElem?_eq_some_iff.mp hj
  obtain ⟨ink, rfl⟩ := List.getElem?_eq_some_iff.mp hk
  have apart := List.pairwise_iff_getElem.mp h
  rcases Nat.lt_trichotomy j k with less | same | more
  · have other := apart j k inj ink less
    simp [kx, ky] at other
  · exact same
  · have other := apart k j ink inj more
    simp [kx, ky] at other

/-- The new key is not in another slot. -/
theorem Distinct.replace (h : Distinct key l) (replaces : Replaces l k y l')
    (new : ∀ (j : Nat) x c, j ≠ k → l[j]? = some x → key x = some c → key y ≠ some c) : Distinct key l' := by
  intro i j a b c hi hj ka kb
  by_cases first : i = k
  · by_cases second : j = k
    · rw [first, second]
    · rw [first, replaces.here] at hi
      obtain rfl := Option.some.inj hi
      exact absurd ka (new j b c second ((replaces.others j second).symm.trans hj) kb)
  · have hi' := (replaces.others i first).symm.trans hi
    by_cases second : j = k
    · rw [second, replaces.here] at hj
      obtain rfl := Option.some.inj hj
      exact absurd kb (new i a c first hi' ka)
    · exact h i j a b c hi' ((replaces.others j second).symm.trans hj) ka kb

variable [DecidableEq K]

theorem find_eq_some (h : Distinct key l) : find key l c = some k ↔ ∃ x, l[k]? = some x ∧ key x = some c := by
  rw [find, List.findIdx?_eq_some_iff_getElem]
  constructor
  · rintro ⟨lt, is, -⟩
    exact ⟨l[k], List.getElem?_eq_getElem lt, of_decide_eq_true is⟩
  · rintro ⟨x, here, is⟩
    obtain ⟨lt, rfl⟩ := List.getElem?_eq_some_iff.mp here
    refine ⟨lt, decide_eq_true is, fun j before found => ?_⟩
    have same := h j k l[j] l[k] c (List.getElem?_eq_getElem _) here (of_decide_eq_true found) is
    omega

theorem find_eq_none : find key l c = none ↔ ∀ (k : Nat) x, l[k]? = some x → key x ≠ some c := by
  rw [find, List.findIdx?_eq_none_iff]
  constructor
  · intro none k x here
    exact of_decide_eq_false (none x (List.mem_of_getElem? here))
  · intro none x member
    obtain ⟨k, here⟩ := List.mem_iff_getElem?.mp member
    exact decide_eq_false (none k x here)

theorem find_replace (h : Distinct key l) (h' : Distinct key l') (replaces : Replaces l k y l') (c : K) :
    find key l' c = if key y = some c then some k else if find key l c = some k then none else find key l c := by
  split
  · rename_i is
    exact (find_eq_some h').mpr ⟨y, replaces.here, is⟩
  · rename_i other
    -- what is found is not in slot `k`, so it was there before
    have same : ∀ j, find key l' c = some j ↔ j ≠ k ∧ find key l c = some j := by
      intro j
      rw [find_eq_some h', find_eq_some h]
      constructor
      · rintro ⟨x, here, is⟩
        have ne : j ≠ k := by
          rintro rfl
          rw [replaces.here] at here
          exact other (Option.some.inj here ▸ is)
        exact ⟨ne, x, (replaces.others j ne).symm.trans here, is⟩
      · rintro ⟨ne, x, here, is⟩
        exact ⟨x, (replaces.others j ne).trans here, is⟩
    apply Option.ext
    intro j
    rw [same]
    split
    · rename_i old
      simp [old, eq_comm]
    · rename_i old
      exact ⟨And.right, fun found => ⟨fun eq => old (eq ▸ found), found⟩⟩

end Espl.Slots
