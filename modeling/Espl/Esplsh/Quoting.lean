import Espl.Esplsh.Split

/-!
# Quoting

Arguments written on a command line, bare or in quotes, come out of `split_command` and `expand_args` as they were.
-/

namespace Espl.Esplsh

inductive Style where
  | bare
  | double
  | single

def Style.mark : Style → List UInt8
  | bare => []
  | double => [34]
  | single => [39]

def Style.Fits : Style → List UInt8 → Prop
  | bare, arg => arg ≠ [] ∧ SPACE ∉ arg ∧ 34 ∉ arg ∧ 39 ∉ arg
  | double, arg => 34 ∉ arg
  | single, arg => 39 ∉ arg

structure Argument where
  bytes : List UInt8
  style : Style
  plain : BACKSLASH ∉ bytes ∧ 10 ∉ bytes ∧ 0 ∉ bytes
  fits : style.Fits bytes

def Argument.render (arg : Argument) : List UInt8 := arg.style.mark ++ arg.bytes ++ arg.style.mark

/-- Arguments with spaces behind them; one more than the number if there is another argument. -/
def render : List (Argument × Nat) → List UInt8
  | [] => []
  | [(arg, n)] => arg.render ++ List.replicate n SPACE
  | (arg, n) :: next :: args => arg.render ++ (List.replicate (n + 1) SPACE ++ render (next :: args))

section

variable {arg rest : List UInt8} {q : UInt8}

theorem words_space (between : Bool) (text : List UInt8) :
    words 0 between (SPACE :: text) = (words 0 true text).map fun r => ([], r.2) := by
  rw [words.eq_def]
  exact (if_neg (by decide)).trans (if_pos ⟨rfl, rfl⟩)

theorem words_char {sep c : UInt8} (escape : c ≠ BACKSLASH) (inside : ¬ (c = SPACE ∧ sep = 0)) (between : Bool)
    (text : List UInt8) :
    words sep between (c :: text) = (words (if quote c then toggle sep c else sep) false text).map fun r =>
      if between then ([], (c :: r.1) :: r.2) else (c :: r.1, r.2) := by
  rw [words.eq_def]
  exact (if_neg escape).trans (if_neg inside)

theorem words_spaces (n : Nat) (text : List UInt8) :
    (words 0 true (List.replicate n SPACE ++ text)).map Prod.snd = (words 0 true text).map Prod.snd := by
  induction n with
  | zero => rfl
  | succ n ih =>
    rw [List.replicate_succ, List.cons_append, words_space, Option.map_map, ← ih]
    rfl

theorem words_gap (n : Nat) (text : List UInt8) :
    words 0 false (List.replicate (n + 1) SPACE ++ text) = (words 0 true text).map fun r => ([], r.2) := by
  rw [List.replicate_succ, List.cons_append, words_space]
  have rest := congrArg (Option.map fun ws => (([] : List UInt8), ws)) (words_spaces n text)
  rwa [Option.map_map, Option.map_map] at rest

theorem words_trail (n : Nat) : words 0 false (List.replicate n SPACE) = some ([], []) := by
  cases n with
  | zero => rfl
  | succ n =>
    have gap := words_gap n []
    rwa [List.append_nil] at gap

theorem words_bare (escape : BACKSLASH ∉ arg) (space : SPACE ∉ arg) (double : 34 ∉ arg) (single : 39 ∉ arg)
    (text : List UInt8) : words 0 false (arg ++ text) = (words 0 false text).map fun r => (arg ++ r.1, r.2) := by
  induction arg with
  | nil => simp
  | cons c arg ih =>
    simp only [List.mem_cons, not_or] at escape space double single
    have other : quote c = false := by simp [quote, Ne.symm double.1, Ne.symm single.1]
    rw [List.cons_append, words_char (Ne.symm escape.1) (fun both => space.1 both.1.symm), other,
      if_neg Bool.false_ne_true, ih escape.2 space.2 double.2 single.2, Option.map_map]
    rfl

theorem words_quoted (opens : quote q = true) (escape : BACKSLASH ∉ arg) (other : q ∉ arg) (text : List UInt8) :
    words q false (arg ++ q :: text) = (words 0 false text).map fun r => (arg ++ q :: r.1, r.2) := by
  have nonzero : q ≠ 0 := fun zero => by
    rw [zero] at opens
    cases opens
  induction arg with
  | nil =>
    have closing : toggle q q = 0 := by simp [toggle, nonzero]
    have escape' : q ≠ BACKSLASH := fun same => by
      rw [same] at opens
      cases opens
    rw [List.nil_append, words_char escape' (fun both => nonzero both.2), if_pos opens, closing]
    rfl
  | cons c arg ih =>
    simp only [List.mem_cons, not_or] at escape other
    have kept : (if quote c then toggle q c else q) = q := by simp [toggle, nonzero, other.1]
    rw [List.cons_append, words_char (Ne.symm escape.1) (fun both => nonzero both.2), kept, ih escape.2 other.2,
      Option.map_map]
    rfl

theorem words_wrapped (opens : quote q = true) (escape : BACKSLASH ∉ arg) (other : q ∉ arg) (text : List UInt8) :
    words 0 true ([q] ++ arg ++ [q] ++ text) = (words 0 false text).map fun r =>
      ([], ([q] ++ arg ++ [q] ++ r.1) :: r.2) := by
  have first : q ≠ BACKSLASH ∧ q ≠ SPACE := by
    constructor <;> rintro rfl <;> cases opens
  have line : [q] ++ arg ++ [q] ++ text = q :: (arg ++ q :: text) := by simp
  rw [line, words_char first.1 (fun both => first.2 both.1), if_pos opens, show toggle 0 q = q from rfl,
    words_quoted opens escape other, Option.map_map]
  congr 1
  funext r
  simp

theorem words_start (some : arg ≠ []) (escape : BACKSLASH ∉ arg) (space : SPACE ∉ arg) (double : 34 ∉ arg)
    (single : 39 ∉ arg)
    (text : List UInt8) : words 0 true (arg ++ text) = (words 0 false text).map fun r => ([], (arg ++ r.1) :: r.2) := by
  obtain ⟨c, l, rfl⟩ := List.exists_cons_of_ne_nil some
  simp only [List.mem_cons, not_or] at escape space double single
  have other : quote c = false := by simp [quote, Ne.symm double.1, Ne.symm single.1]
  rw [List.cons_append, words_char (Ne.symm escape.1) (fun both => space.1 both.1.symm), other,
    if_neg Bool.false_ne_true, words_bare escape.2 space.2 double.2 single.2, Option.map_map]
  rfl

theorem render_bare {arg : Argument} (bare : arg.style = .bare) : arg.render = arg.bytes := by
  simp [Argument.render, bare, Style.mark]

theorem words_argument (arg : Argument) (text : List UInt8) :
    words 0 true (arg.render ++ text) = (words 0 false text).map fun r => ([], (arg.render ++ r.1) :: r.2) := by
  obtain ⟨bytes, style, ⟨escape, newline, plain⟩, fits⟩ := arg
  cases style with
  | bare =>
    rw [render_bare rfl]
    exact words_start fits.1 escape fits.2.1 fits.2.2.1 fits.2.2.2 text
  | double | single => exact words_wrapped rfl escape fits text

theorem expand_argument (arg : Argument) : expand arg.render = some arg.bytes := by
  obtain ⟨bytes, style, ⟨escape, newline, plain⟩, fits⟩ := arg
  cases style with
  | bare =>
    rw [render_bare rfl]
    obtain ⟨c, l, rfl⟩ := List.exists_cons_of_ne_nil fits.1
    have double : 34 ≠ c := fun same => fits.2.2.1 (same ▸ List.mem_cons_self)
    have single : 39 ≠ c := fun same => fits.2.2.2 (same ▸ List.mem_cons_self)
    exact expand_other plain (by simp [quote, Ne.symm double, Ne.symm single])
  | double | single => exact expand_quoted plain rfl (by decide)

theorem words_render (args : List (Argument × Nat)) :
    words 0 true (render args) = some ([], args.map fun a => a.1.render) := by
  induction args with
  | nil => rfl
  | cons a args ih =>
    obtain ⟨arg, n⟩ := a
    cases args with
    | nil =>
      rw [render, words_argument, words_trail]
      simp
    | cons next args =>
      rw [render, words_argument, words_gap, ih]
      simp

theorem mapM_expand (args : List (Argument × Nat)) :
    (args.map fun a => a.1.render).mapM expand = some (args.map fun a => a.1.bytes) := by
  induction args with
  | nil => rfl
  | cons a args ih =>
    rw [List.map_cons, List.mapM_cons, expand_argument, ih]
    rfl

theorem plain_argument (arg : Argument) : 0 ∉ arg.render := by
  obtain ⟨bytes, style, ⟨escape, newline, plain⟩, fits⟩ := arg
  cases style <;> simp [Argument.render, Style.mark, plain]

theorem plain_render (args : List (Argument × Nat)) : 0 ∉ render args := by
  induction args with
  | nil => exact List.not_mem_nil
  | cons a args ih =>
    obtain ⟨arg, n⟩ := a
    have spaces : ∀ n, 0 ∉ List.replicate n SPACE := fun n zero => absurd (List.eq_of_mem_replicate zero) (by decide)
    cases args with
    | nil =>
      rw [render, List.mem_append, not_or]
      exact ⟨plain_argument arg, spaces n⟩
    | cons next args =>
      rw [render, List.mem_append, List.mem_append, not_or, not_or]
      exact ⟨plain_argument arg, spaces (n + 1), ih⟩

end

/-- Arguments that are written on a line, with spaces between them and perhaps around them, are its arguments. -/
theorem arguments_rendered (lead : Nat) (args : List (Argument × Nat)) (stale : List UInt8) :
    ∃ r, splitCommand (List.replicate lead SPACE ++ render args ++ 0 :: stale) = some r ∧ r.argv.length = args.length ∧
      (arguments (List.replicate lead SPACE ++ render args ++ 0 :: stale)).map Prod.fst = some
        (args.map fun a => a.1.bytes) := by
  have all := words_spaces lead (render args)
  rw [words_render] at all
  obtain ⟨⟨w, ws⟩, split, same⟩ := Option.map_eq_some_iff.mp all
  obtain rfl : ws = args.map fun a => a.1.render := same
  have plain : 0 ∉ List.replicate lead SPACE ++ render args := by
    rw [List.mem_append, not_or]
    exact ⟨fun zero => absurd (List.eq_of_mem_replicate zero) (by decide), plain_render args⟩
  obtain ⟨r, run, count, result, -⟩ := arguments_words split plain stale
  refine ⟨r, run, by simpa using count, ?_⟩
  rw [result, mapM_expand]

end Espl.Esplsh
