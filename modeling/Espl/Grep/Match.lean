import Espl.Program.Language
import Espl.Shell.Parser

/-!
# The pattern matcher of `grep`

`match`, `matchhere` and `matchstar` of `grep.c`. A string is the list of its characters, and the end of
the list is its NUL. `matchstar` is given the matcher of the rest of the pattern in place of that rest.
-/

namespace Espl.Grep

open Computability
open Shell (code)

def matchstar (c : UInt8) (here : List UInt8 → Bool) : List UInt8 → Bool
  | [] => here []
  | t :: text => here (t :: text) || ((t = c || c = code '.') && matchstar c here text)

def matchhere.one (c : UInt8) (here : List UInt8 → Bool) : List UInt8 → Bool
  | [] => false
  | t :: text => (c = code '.' || c = t) && here text

def matchhere : List UInt8 → List UInt8 → Bool
  | [], _ => true
  | [c], text => if c = code '$' then text.isEmpty else matchhere.one c (matchhere []) text
  | c :: d :: re, text =>
    if d = code '*' then matchstar c (matchhere re) text else matchhere.one c (matchhere (d :: re)) text

def matchText (re text : List UInt8) : Bool :=
  if re.head? = some (code '^') then matchhere re.tail text else loop text
where
  loop : List UInt8 → Bool
    | [] => matchhere re []
    | t :: text => matchhere re (t :: text) || loop text

structure Item where
  char : UInt8
  repeated : Bool
  deriving DecidableEq, Repr

def stands (c : UInt8) : Set UInt8 := { x | c = code '.' ∨ c = x }

def Item.language (i : Item) : Language UInt8 :=
  if i.repeated then (letters (stands i.char))∗ else letters (stands i.char)

def language (is : List Item) : Language UInt8 := (is.map Item.language).prod

/-- The items of a pattern after its `^`, and whether it ends in the `$` for the end of the text. -/
def items : List UInt8 → List Item × Bool
  | [] => ([], false)
  | [c] => if c = code '$' then ([], true) else ([⟨c, false⟩], false)
  | c :: d :: re =>
    if d = code '*' then (⟨c, true⟩ :: (items re).1, (items re).2)
    else (⟨c, false⟩ :: (items (d :: re)).1, (items (d :: re)).2)

structure Reading where
  anchored : Bool
  items : List Item
  final : Bool

def reading (re : List UInt8) : Reading :=
  if re.head? = some (code '^') then ⟨true, (items re.tail).1, (items re.tail).2⟩
  else ⟨false, (items re).1, (items re).2⟩

/-- Some part of the text is in the language of the items: one at the beginning if the pattern has a
`^`, one at the end if it has a `$`. -/
def Reading.Found (r : Reading) (text : List UInt8) : Prop :=
  ∃ before w rest, text = before ++ w ++ rest ∧ w ∈ language r.items ∧
    (r.anchored = true → before = []) ∧ (r.final = true → rest = [])

theorem found_anchored {is : List Item} {e : Bool} {text : List UInt8} :
    Reading.Found ⟨true, is, e⟩ text ↔ Begins (language is) e text := by
  constructor
  · rintro ⟨before, w, rest, split, word, first, last⟩
    rw [first rfl] at split
    exact ⟨w, rest, split, word, last⟩
  · rintro ⟨w, rest, split, word, last⟩
    exact ⟨[], w, rest, split, word, fun _ => rfl, last⟩

theorem found_free {is : List Item} {e : Bool} {text : List UInt8} :
    Reading.Found ⟨false, is, e⟩ text ↔ Within (language is) e text := by
  constructor
  · rintro ⟨before, w, rest, split, word, _, last⟩
    exact ⟨before, w ++ rest, split.trans (List.append_assoc _ _ _), w, rest, rfl, word, last⟩
  · rintro ⟨before, _, rfl, w, rest, rfl, word, last⟩
    exact ⟨before, w, rest, (List.append_assoc _ _ _).symm, word, fun never => (Bool.false_ne_true never).elim, last⟩

theorem language_char (c : UInt8) (is : List Item) :
    language (⟨c, false⟩ :: is) = letters (stands c) * language is := rfl

theorem language_repeated (c : UInt8) (is : List Item) :
    language (⟨c, true⟩ :: is) = (letters (stands c))∗ * language is := rfl

theorem matchstar_iff {c : UInt8} {here : List UInt8 → Bool} {L : Language UInt8} {e : Bool}
    (spec : ∀ text, here text = true ↔ Begins L e text) (text : List UInt8) :
    matchstar c here text = true ↔ Begins ((letters (stands c))∗ * L) e text := by
  induction text with
  | nil =>
    rw [begins_kstar_mul, matchstar, spec]
    exact (or_iff_left not_begins_letters_mul_nil).symm
  | cons t text ih =>
    rw [begins_kstar_mul, begins_letters_mul_cons, ← ih, ← spec]
    simp only [matchstar, stands, Set.mem_ofPred_eq, Bool.or_eq_true, Bool.and_eq_true, decide_eq_true_eq,
      eq_comm (a := t), or_comm (a := c = t)]

theorem one_iff {c : UInt8} {here : List UInt8 → Bool} {L : Language UInt8} {e : Bool}
    (spec : ∀ text, here text = true ↔ Begins L e text) (text : List UInt8) :
    matchhere.one c here text = true ↔ Begins (letters (stands c) * L) e text := by
  cases text with
  | nil => simp [matchhere.one, not_begins_letters_mul_nil]
  | cons t text => simp [matchhere.one, begins_letters_mul_cons, spec, stands]

theorem matchhere_iff (re text : List UInt8) :
    matchhere re text = true ↔ Begins (language (items re).1) (items re).2 text := by
  induction re using items.induct generalizing text with
  | case1 | case2 => simp [matchhere, items, language, begins_one]
  | case3 c other =>
    rw [matchhere, items, if_neg other, if_neg other, language_char]
    exact one_iff (fun text => by simp [matchhere, language, begins_one]) text
  | case4 c re ih =>
    rw [matchhere, items, if_pos rfl, if_pos rfl, language_repeated]
    exact matchstar_iff ih text
  | case5 c d re other ih =>
    rw [matchhere, items, if_neg other, if_neg other, language_char]
    exact one_iff ih text

theorem loop_iff (re text : List UInt8) : matchText.loop re text = true ↔ Within (language (items re).1)
    (items re).2 text := by
  induction text with
  | nil => rw [within_nil, matchText.loop, matchhere_iff]
  | cons t text ih => rw [within_cons, matchText.loop, Bool.or_eq_true, matchhere_iff, ih]

/-- The matcher finds exactly what the pattern denotes. -/
theorem matchText_iff_found (re text : List UInt8) : matchText re text = true ↔ (reading re).Found text := by
  unfold matchText reading
  split
  · rw [found_anchored, matchhere_iff]
  · rw [found_free, loop_iff]

end Espl.Grep
