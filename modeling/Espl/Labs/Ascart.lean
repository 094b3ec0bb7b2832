import Espl.Labs.Font

/-!
# Banners

`ascart.c`: the arguments in big letters. The rows of all symbols lie one after the other in memory, so a row
index that is too large reads a row of the next symbol.
-/

namespace Espl.Labs

abbrev Printable : Type := { c : UInt8 // 32 ≤ c ∧ c ≤ 126 }

/-- The pointers of `alphabet`; the last symbol is null pointers only. -/
def pointers : List (Option String) := alphabet.flatten.map some ++ List.replicate SYMBOL_HEIGHT none

/-- What one call of `printf` prints: `(*symbol)[pline]` of the symbol at `idx`, or a newline. -/
inductive Piece where
  | row (idx pline : Nat)
  | newline
  deriving DecidableEq

namespace Piece

/-- A null pointer is printed as `(null)`. -/
def text : Piece → List Char
  | .row idx pline =>
    match pointers[idx * SYMBOL_HEIGHT + pline]? with
    | some (some s) => s.toList
    | _ => "(null)".toList
  | .newline => ['\n']

end Piece

def index (c : Printable) : Nat := c.val.toNat - 32

def ascart.line (args : List (List Printable)) (pline : Nat) : List Piece :=
  args.flatMap (fun arg => arg.map (fun c => .row (index c) pline) ++ [.row 0 pline]) ++ [.newline]

def ascart (args : List (List Printable)) : List Piece := (List.range (SYMBOL_HEIGHT + 1)).flatMap (ascart.line args)

def symbolRow (idx r : Nat) : List Char := ((alphabet.getD idx []).getD r "").toList

def bannerLine (args : List (List Printable)) (r : Nat) : List Char :=
  args.flatMap (fun arg => arg.flatMap (fun c => symbolRow (index c) r) ++ symbolRow 0 r)

def banner (args : List (List Printable)) : List Char :=
  (List.range SYMBOL_HEIGHT).flatMap fun r => bannerLine args r ++ ['\n']

/-- The banner is printed, and no row is read that is not one of the symbol. -/
def Prints (args : List (List Printable)) : Prop :=
  (ascart args).flatMap Piece.text = banner args ∧ ∀ idx pline, .row idx pline ∈ ascart args → pline < SYMBOL_HEIGHT

section

variable {args : List (List Printable)} {idx r : Nat}

theorem flatten_getElem? {α : Type} {n : Nat} {ls : List (List α)} (each : ∀ l ∈ ls, l.length = n) (lt : r < n) :
    ls.flatten[idx * n + r]? = ls[idx]?.bind (·[r]?) := by
  induction ls generalizing idx with
  | nil => rfl
  | cons l ls ih =>
    obtain ⟨here, rest⟩ := List.forall_mem_cons.mp each
    cases idx with
    | zero =>
      rw [List.flatten_cons, Nat.zero_mul, Nat.zero_add, List.getElem?_append_left (by omega)]
      rfl
    | succ idx =>
      have beyond : l.length ≤ (idx + 1) * n + r := by
        rw [here, Nat.succ_mul]
        omega
      have rebased : (idx + 1) * n + r - l.length = idx * n + r := by
        rw [here, Nat.succ_mul]
        omega
      rw [List.flatten_cons, List.getElem?_append_right beyond, rebased, ih rest]
      rfl

theorem alphabet_height : ∀ symbol ∈ alphabet, symbol.length = SYMBOL_HEIGHT := by decide +kernel

theorem alphabet_length : alphabet.length = 139 := by decide +kernel

theorem index_lt (c : Printable) : index c < alphabet.length := by
  have high := UInt8.le_iff_toNat_le.mp c.property.2
  have limit : (126 : UInt8).toNat = 126 := rfl
  rw [index, alphabet_length]
  omega

theorem text_row (symbol : idx < alphabet.length) (row : r < SYMBOL_HEIGHT) :
    (Piece.row idx r).text = symbolRow idx r := by
  have height : alphabet[idx].length = SYMBOL_HEIGHT := alphabet_height _ (List.getElem_mem symbol)
  have found : alphabet.flatten[idx * SYMBOL_HEIGHT + r]? = some (alphabet[idx][r]) := by
    rw [flatten_getElem? alphabet_height row, List.getElem?_eq_getElem symbol, Option.bind_some,
      List.getElem?_eq_getElem]
  have inside : idx * SYMBOL_HEIGHT + r < alphabet.flatten.length := (List.getElem?_eq_some_iff.mp found).1
  have pointer : pointers[idx * SYMBOL_HEIGHT + r]? = some (some (alphabet[idx][r])) := by
    rw [pointers, List.getElem?_append_left (by rw [List.length_map]; exact inside), List.getElem?_map, found]
    rfl
  have rows : alphabet.getD idx [] = alphabet[idx] := by
    rw [List.getD_eq_getElem?_getD, List.getElem?_eq_getElem symbol, Option.getD_some]
  rw [Piece.text, pointer, symbolRow, rows, List.getD_eq_getElem?_getD,
    List.getElem?_eq_getElem (by rw [height]; exact row), Option.getD_some]

theorem text_line (row : r < SYMBOL_HEIGHT) :
    (ascart.line args r).flatMap Piece.text = bannerLine args r ++ ['\n'] := by
  have character : ∀ c : Printable, (Piece.row (index c) r).text = symbolRow (index c) r :=
    fun c => text_row (index_lt c) row
  have space : (Piece.row 0 r).text = symbolRow 0 r := text_row (by rw [alphabet_length]; decide) row
  rw [ascart.line, List.flatMap_append, bannerLine]
  congr 1
  rw [List.flatMap_assoc]
  congr 1
  funext arg
  rw [List.flatMap_append, List.flatMap_map, List.flatMap_singleton, space]
  simp only [character]

theorem ascart_text (args : List (List Printable)) :
    (ascart args).flatMap Piece.text = banner args ++ (ascart.line args SYMBOL_HEIGHT).flatMap Piece.text := by
  rw [ascart, List.range_succ, List.flatMap_append, List.flatMap_append, List.flatMap_singleton, banner,
    List.flatMap_assoc]
  congr 1
  rw [List.flatMap_def, List.flatMap_def]
  congr 1
  exact List.map_congr_left fun r member => text_line (List.mem_range.mp member)

end

/-- One line more is printed, whatever the arguments are. -/
theorem ascart_not_prints (args : List (List Printable)) : ¬ Prints args := by
  rintro ⟨output, -⟩
  rw [ascart_text] at output
  have extra := congrArg List.length output
  rw [List.length_append, ascart.line, List.flatMap_append, List.length_append] at extra
  have newline : ([Piece.newline].flatMap Piece.text).length = 1 := rfl
  omega

/-- An exclamation mark: its last line is the first row of the symbol after it. -/
theorem ascart_reads_next : .row 1 6 ∈ ascart [[⟨33, by decide⟩]] ∧
    pointers[1 * SYMBOL_HEIGHT + 6]? = pointers[2 * SYMBOL_HEIGHT + 0]? ∧ ¬ Prints [[⟨33, by decide⟩]] := by
  have member : Piece.row 1 6 ∈ ascart [[⟨33, by decide⟩]] := by decide
  exact ⟨member, rfl, fun prints => absurd (prints.2 1 6 member) (by decide)⟩

end Espl.Labs
