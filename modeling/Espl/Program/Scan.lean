import Espl.Program.Language

/-!
# The matches of a language in a text

The words of a language that are found in a text from left to right: the leftmost, of those that start
there the longest, and after it the rest of the text is searched. For words of one letter and any number
of others, they are found letter by letter.
-/

namespace Espl

open Computability

variable {α : Type} {L : Language α} {text before word rest : List α} {ms ms' : List (List α)}

structure First (L : Language α) (text before word rest : List α) : Prop where
  split : text = before ++ (word ++ rest)
  member : word ∈ L
  leftmost : ∀ b r, text = b ++ r → Begins L false r → before.length ≤ b.length
  longest : ∀ w r, text = before ++ (w ++ r) → w ∈ L → w.length ≤ word.length

inductive Matches (L : Language α) : List α → List (List α) → Prop
  | none {text : List α} (absent : ¬ Within L false text) : Matches L text []
  | next {text before word rest : List α} {ms : List (List α)} (first : First L text before word rest)
      (others : Matches L rest ms) : Matches L text (word :: ms)

theorem First.begins (h : First L text before word rest) : Begins L false (word ++ rest) :=
  ⟨word, rest, rfl, h.member, fun e => by cases e⟩

theorem First.within (h : First L text before word rest) : Within L false text :=
  ⟨before, word ++ rest, h.split, h.begins⟩

theorem First.unique {before' word' rest' : List α} (h : First L text before word rest)
    (h' : First L text before' word' rest') : word = word' ∧ rest = rest' := by
  have place : before.length = before'.length :=
    Nat.le_antisymm (h.leftmost _ _ h'.split h'.begins) (h'.leftmost _ _ h.split h.begins)
  obtain ⟨rfl, tail⟩ := List.append_inj (h.split.symm.trans h'.split) place
  have length : word.length = word'.length :=
    Nat.le_antisymm (h'.longest _ _ h.split h.member) (h.longest _ _ h'.split h'.member)
  exact List.append_inj tail length

theorem Matches.unique (h : Matches L text ms) (h' : Matches L text ms') : ms = ms' := by
  induction h generalizing ms' with
  | none absent =>
    cases h' with
    | none _ => rfl
    | next first _ => exact absurd first.within absent
  | next first _ ih =>
    cases h' with
    | none absent => exact absurd first.within absent
    | next first' others' =>
      obtain ⟨rfl, rfl⟩ := first.unique first'
      rw [ih others']

/-! ### One letter and any number of others -/

section

variable {S T : Set α} {x : α}

theorem mem_kstar_letters : word ∈ (letters T)∗ ↔ ∀ y ∈ word, y ∈ T := by
  constructor
  · intro member
    obtain ⟨ws, rfl, each⟩ := Language.mem_kstar.mp member
    intro y inside
    obtain ⟨w, listed, here⟩ := List.mem_flatten.mp inside
    obtain ⟨z, letter, rfl⟩ := each w listed
    obtain rfl := List.mem_singleton.mp here
    exact letter
  · intro each
    refine Language.mem_kstar.mpr ⟨word.map fun y => [y], (List.flatMap_singleton' word).symm, fun w listed => ?_⟩
    obtain ⟨y, inside, rfl⟩ := List.mem_map.mp listed
    exact ⟨y, each y inside, rfl⟩

theorem mem_letters_mul : word ∈ letters S * L ↔ ∃ x ∈ S, ∃ w ∈ L, word = x :: w := by
  rw [Language.mem_mul]
  constructor
  · rintro ⟨_, ⟨x, letter, rfl⟩, w, member, rfl⟩
    exact ⟨x, letter, w, member, rfl⟩
  · rintro ⟨x, letter, w, member, rfl⟩
    exact ⟨[x], ⟨x, letter, rfl⟩, w, member, rfl⟩

theorem not_within_letters (out : ∀ y ∈ text, y ∉ S) : ¬ Within (letters S * L) false text := by
  rintro ⟨b, r, rfl, w, r', rfl, member, -⟩
  obtain ⟨x, letter, w, -, rfl⟩ := mem_letters_mul.mp member
  exact out x (by simp) letter

theorem first_letters (out : ∀ y ∈ before, y ∉ S) (starts : x ∈ S) (inside : ∀ y ∈ word, y ∈ T)
    (stop : ∀ y ∈ rest.head?, y ∉ T) :
    First (letters S * (letters T)∗) (before ++ x :: (word ++ rest)) before (x :: word) rest where
  split := rfl
  member := mem_letters_mul.mpr ⟨x, starts, word, mem_kstar_letters.mpr inside, rfl⟩
  leftmost b r same found := by
    -- A match that starts earlier starts at a letter of `before`.
    obtain ⟨w, r', rfl, member, -⟩ := found
    obtain ⟨y, letter, w, -, rfl⟩ := mem_letters_mul.mp member
    by_contra less
    obtain ⟨c, rfl, -⟩ | ⟨c, rfl, tail⟩ := List.append_eq_append_iff.mp same
    · simp at less
    · cases c with
      | nil => simp at less
      | cons z c =>
        obtain ⟨rfl, -⟩ := List.cons.inj tail
        exact out y (by simp) letter
  longest w r same member := by
    obtain ⟨y, -, w, letters, rfl⟩ := mem_letters_mul.mp member
    have tail := (List.cons.inj (List.append_cancel_left same)).2
    obtain ⟨c, rfl, after⟩ | ⟨c, rfl, -⟩ := List.append_eq_append_iff.mp tail
    · cases c with
      | nil => simp
      | cons z c =>
        rw [after] at stop
        exact absurd (mem_kstar_letters.mp letters z (by simp)) (stop z rfl)
    · simp

end

end Espl
