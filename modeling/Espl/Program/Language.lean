import Mathlib.Computability.Language

/-!
# Languages found in a text

`Begins L e text` says that a word of `L` stands at the beginning of `text`, and reaches its end if `e`;
`Within L e text` that one stands anywhere. The rules take a text apart from its first character on.
-/

namespace Espl

open Computability

variable {α : Type} {S : Set α} {L : Language α} {e : Bool} {x : α} {text : List α}

def letters (S : Set α) : Language α := { w | ∃ x ∈ S, w = [x] }

def Begins (L : Language α) (e : Bool) (text : List α) : Prop :=
  ∃ w rest, text = w ++ rest ∧ w ∈ L ∧ (e = true → rest = [])

def Within (L : Language α) (e : Bool) (text : List α) : Prop :=
  ∃ before rest, text = before ++ rest ∧ Begins L e rest

theorem begins_one : Begins (1 : Language α) e text ↔ (e = true → text = []) := by
  constructor
  · rintro ⟨w, rest, rfl, empty, ends⟩
    rw [Language.mem_one] at empty
    simpa [empty] using ends
  · intro ends
    exact ⟨[], text, rfl, Language.nil_mem_one, ends⟩

theorem begins_add {L' : Language α} : Begins (L + L') e text ↔ Begins L e text ∨ Begins L' e text := by
  constructor
  · rintro ⟨w, rest, split, here | here, ends⟩
    · exact Or.inl ⟨w, rest, split, here, ends⟩
    · exact Or.inr ⟨w, rest, split, here, ends⟩
  · rintro (⟨w, rest, split, here, ends⟩ | ⟨w, rest, split, here, ends⟩)
    · exact ⟨w, rest, split, Or.inl here, ends⟩
    · exact ⟨w, rest, split, Or.inr here, ends⟩

theorem not_begins_letters_mul_nil : ¬ Begins (letters S * L) e [] := by
  rintro ⟨w, rest, split, member, _⟩
  obtain ⟨_, ⟨x, _, rfl⟩, b, _, rfl⟩ := Language.mem_mul.mp member
  cases split

theorem begins_letters_mul_cons : Begins (letters S * L) e (x :: text) ↔ x ∈ S ∧ Begins L e text := by
  constructor
  · rintro ⟨w, rest, split, member, ends⟩
    obtain ⟨_, ⟨y, letter, rfl⟩, b, tail, rfl⟩ := Language.mem_mul.mp member
    obtain ⟨rfl, rfl⟩ := List.cons.inj split
    exact ⟨letter, b, rest, rfl, tail, ends⟩
  · rintro ⟨letter, w, rest, rfl, tail, ends⟩
    exact ⟨x :: w, rest, rfl, Language.mem_mul.mpr ⟨[x], ⟨x, letter, rfl⟩, w, tail, rfl⟩, ends⟩

theorem begins_kstar_mul :
    Begins ((letters S)∗ * L) e text ↔ Begins L e text ∨ Begins (letters S * ((letters S)∗ * L)) e text := by
  have unroll : (letters S)∗ * L = L + letters S * ((letters S)∗ * L) := by
    rw [← mul_assoc, ← Language.one_add_self_mul_kstar_eq_kstar (letters S), add_mul, one_mul]
    simp only [Language.one_add_self_mul_kstar_eq_kstar]
  rw [unroll, begins_add, ← unroll]

theorem within_nil : Within L e [] ↔ Begins L e [] := by
  constructor
  · rintro ⟨before, rest, split, here⟩
    obtain ⟨rfl, rfl⟩ := List.append_eq_nil_iff.mp split.symm
    exact here
  · exact fun here => ⟨[], [], rfl, here⟩

theorem within_cons : Within L e (x :: text) ↔ Begins L e (x :: text) ∨ Within L e text := by
  constructor
  · rintro ⟨before, rest, split, here⟩
    cases before with
    | nil => exact Or.inl (split ▸ here)
    | cons y before => exact Or.inr ⟨before, rest, (List.cons.inj split).2, here⟩
  · rintro (here | ⟨before, rest, rfl, here⟩)
    · exact ⟨[], _, rfl, here⟩
    · exact ⟨x :: before, rest, rfl, here⟩

end Espl
