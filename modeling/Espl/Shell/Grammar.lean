import Espl.Shell.Parser

/-!
# The grammar of the shell

Lines as words and operators, the grammar of commands with the trees that it stands for, and that
`parsecmd` accepts exactly the lines of the grammar and returns their trees.
-/

namespace Espl.Shell

inductive Token where
  | word (span : Span)
  | bar | amp | semi | lt | gt | gtgt | lpar | rpar
  deriving DecidableEq, Repr

def ended (start : Option Nat) (pos : Nat) : List Token :=
  match start with
  | none => []
  | some q => [.word ⟨q, pos⟩]

def operator (c : UInt8) : Token :=
  if c = code '|' then .bar
  else if c = code '&' then .amp
  else if c = code ';' then .semi
  else if c = code '<' then .lt
  else if c = code '(' then .lpar
  else .rpar

/-- The tokens of a line from `pos` on, where a word may have started at `start`: words are the longest
runs of characters that are neither white space nor symbols. -/
def scan (pos : Nat) (start : Option Nat) : List Letter → List Token
  | [] => ended start pos
  | c :: rest =>
    if whitespace.contains c.val then ended start pos ++ scan (pos + 1) none rest
    else if c.val = code '>' then
      match rest with
      | [] => ended start pos ++ [.gt]
      | d :: rest' =>
        if d.val = code '>' then ended start pos ++ .gtgt :: scan (pos + 2) none rest'
        else ended start pos ++ .gt :: scan (pos + 1) none (d :: rest')
    else if symbols.contains c.val then ended start pos ++ operator c :: scan (pos + 1) none rest
    else scan (pos + 1) (some (start.getD pos)) rest

def Cursor.tokens (s : Cursor) : List Token := scan s.pos none s.rest

/-! ### The grammar -/

structure Redirection where
  file : Span
  mode : Nat
  fd : Nat

def Redirection.around (cmd : Cmd) (r : Redirection) : Cmd := .redir cmd r.file r.mode r.fd

/-- Redirections around a command, the first one innermost. -/
def wrap (rs : List Redirection) (cmd : Cmd) : Cmd := rs.foldl Redirection.around cmd

def backs : Nat → Cmd → Cmd
  | 0, cmd => cmd
  | n + 1, cmd => backs n (.back cmd)

/-- `redir ::= ('<' | '>' | '>>') word`. -/
inductive Redir : List Token → Redirection → Prop where
  | input (file : Span) : Redir [.lt, .word file] ⟨file, O_RDONLY, 0⟩
  | output (file : Span) : Redir [.gt, .word file] ⟨file, O_WRONLY ||| O_CREATE, 1⟩
  | append (file : Span) : Redir [.gtgt, .word file] ⟨file, O_WRONLY ||| O_CREATE, 1⟩

/-- `redir*`. -/
inductive Redirs : List Token → List Redirection → Prop where
  | nil : Redirs [] []
  | cons {toks toks' : List Token} {r : Redirection} {rs : List Redirection} :
      Redir toks r → Redirs toks' rs → Redirs (toks ++ toks') (r :: rs)

/-- `(word redir*)*`. -/
inductive Args : List Token → List Span → List Redirection → Prop where
  | nil : Args [] [] []
  | cons {toks toks' : List Token} {word : Span} {words : List Span} {rs rs' : List Redirection} :
      Redirs toks rs → Args toks' words rs' → Args (.word word :: (toks ++ toks')) (word :: words) (rs ++ rs')

inductive Nonterminal where
  | line | pipe | exec
  deriving DecidableEq

/-- `line ::= pipe '&'* [';' line]`, `pipe ::= exec ['|' pipe]` and
`exec ::= '(' line ')' redir* | redir* (word redir*)*` with fewer than `MAXARGS` words. -/
inductive Derives : Nonterminal → List Token → Cmd → Prop where
  | last {toks : List Token} {cmd : Cmd} (n : Nat) : Derives .pipe toks cmd →
      Derives .line (toks ++ List.replicate n .amp) (backs n cmd)
  | seq {toks toks' : List Token} {left right : Cmd} (n : Nat) : Derives .pipe toks left → Derives .line toks' right →
      Derives .line (toks ++ List.replicate n .amp ++ .semi :: toks') (.list (backs n left) right)
  | one {toks : List Token} {cmd : Cmd} : Derives .exec toks cmd → Derives .pipe toks cmd
  | bar {toks toks' : List Token} {left right : Cmd} : Derives .exec toks left → Derives .pipe toks' right →
      Derives .pipe (toks ++ .bar :: toks') (.pipe left right)
  | block {toks toks' : List Token} {cmd : Cmd} {rs : List Redirection} : Derives .line toks cmd → Redirs toks' rs →
      Derives .exec (.lpar :: (toks ++ .rpar :: toks')) (wrap rs cmd)
  | simple {toks toks' : List Token} {rs rs' : List Redirection} {words : List Span} : Redirs toks rs →
      Args toks' words rs' → words.length ≤ MAXARGS - 1 → Derives .exec (toks ++ toks') (wrap (rs ++ rs') (.exec words))

/-! ### Tokens and characters -/

def Token.ret : Token → UInt8
  | .word _ => code 'a'
  | .bar => code '|'
  | .amp => code '&'
  | .semi => code ';'
  | .lt => code '<'
  | .gt => code '>'
  | .gtgt => code '+'
  | .lpar => code '('
  | .rpar => code ')'

def Token.symbol : Token → Option UInt8
  | .word _ => none
  | .gtgt => some (code '>')
  | t => some t.ret

theorem scan_white {pos : Nat} {c : Letter} {rest : List Letter} (white : whitespace.contains c.val = true) :
    scan pos none (c :: rest) = scan (pos + 1) none rest := by
  cases rest with
  | nil | cons _ _ => simp only [scan, white, if_true, ended, List.nil_append]

theorem tokens_skip_white (pos : Nat) (l : List Letter) :
    (Cursor.skip (fun c => whitespace.contains c) pos l).tokens = scan pos none l := by
  induction l generalizing pos with
  | nil => rfl
  | cons c rest ih =>
    simp only [Cursor.skip]
    split
    · rename_i white
      rw [ih, scan_white white]
    · rfl

@[simp] theorem tokens_skipWhite (s : Cursor) : s.skipWhite.tokens = s.tokens := tokens_skip_white ..

theorem skip_stops (p : UInt8 → Bool) (pos : Nat) (l : List Letter) :
    (Cursor.skip p pos l).rest = [] ∨ ∃ c rest, (Cursor.skip p pos l).rest = c :: rest ∧ p c.val = false := by
  induction l generalizing pos with
  | nil => exact Or.inl rfl
  | cons c rest ih =>
    simp only [Cursor.skip]
    split
    · exact ih _
    · rename_i stops
      exact Or.inr ⟨c, rest, rfl, by simpa using stops⟩

def wordChar (c : UInt8) : Bool := !whitespace.contains c && !symbols.contains c

theorem scan_break {pos q : Nat} {c : Letter} {rest : List Letter} (breaks : wordChar c.val = false) :
    scan pos (some q) (c :: rest) = .word ⟨q, pos⟩ :: scan pos none (c :: rest) := by
  have cases : whitespace.contains c.val = true ∨ symbols.contains c.val = true := by
    simpa [wordChar, Classical.or_iff_not_imp_left] using breaks
  cases rest <;> unfold scan <;> grind [ended]

theorem scan_wordChar {pos : Nat} {start : Option Nat} {c : Letter} {rest : List Letter}
    (word : wordChar c.val = true) : scan pos start (c :: rest) = scan (pos + 1) (some (start.getD pos)) rest := by
  simp only [wordChar, Bool.and_eq_true, Bool.not_eq_true'] at word
  have other : c.val ≠ code '>' := by
    intro gt
    rw [gt] at word
    exact absurd word.2 (by decide)
  cases rest <;> simp only [scan, word.1, word.2, other, if_false, Bool.false_eq_true]

theorem scan_word (pos q : Nat) (l : List Letter) :
    scan pos (some q) l =
      .word ⟨q, (Cursor.skip wordChar pos l).pos⟩ :: (Cursor.skip wordChar pos l).tokens := by
  induction l generalizing pos with
  | nil => rfl
  | cons c rest ih =>
    simp only [Cursor.skip]
    split
    · rename_i word
      rw [scan_wordChar word, Option.getD_some, ih]
    · rename_i breaks
      exact scan_break (by simpa using breaks)

/-! ### Reading tokens -/

theorem ret_operator : ∀ c ∈ codes ['|', '(', ')', ';', '&', '<'],
    (operator c).ret = c ∧ (operator c).symbol = some c ∧ whitespace.contains c = false ∧ symbols.contains c = true ∧
    c ≠ code '>' := by
  simp only [codes, List.map_cons, List.map_nil, List.forall_mem_cons]
  refine ⟨by decide, by decide, by decide, by decide, by decide, by decide, ?_⟩
  simp

theorem operator_ne_word (c : UInt8) (w : Span) : operator c ≠ .word w := by
  unfold operator
  repeat' split
  all_goals simp

theorem symbols_cases {c : UInt8} (symbol : c ∈ symbols) : c = code '>' ∨ c ∈ codes ['|', '(', ')', ';', '&', '<'] := by
  simp only [symbols, codes, List.map_cons, List.map_nil, List.mem_cons, List.not_mem_nil, or_false] at symbol ⊢
  tauto

/-- `gettoken` reads the first token at `s`, which is not at white space. -/
def Reads (s : Cursor) : Prop :=
  ∃ t e, gettoken.token s = (t.ret, e) ∧ s.tokens = t :: e.tokens ∧ (∀ w, t = .word w → w = ⟨s.pos, e.pos⟩) ∧
    t.symbol = if s.head ∈ symbols then some s.head else none

theorem reads_operator {pos : Nat} {c : Letter} {rest : List Letter}
    (op : c.val ∈ codes ['|', '(', ')', ';', '&', '<']) : Reads ⟨pos, c :: rest⟩ := by
  obtain ⟨ret, own, black, symbol, other⟩ := ret_operator c.val op
  refine ⟨operator c.val, ⟨pos + 1, rest⟩, ?_, ?_, fun w word => absurd word (operator_ne_word _ _), ?_⟩
  · simp only [gettoken.token, Cursor.head, c.property, if_false, List.contains_iff_mem, op, if_true, ret, Cursor.next,
      List.tail_cons]
  · cases rest <;> simp only [Cursor.tokens, scan, black, symbol, other, if_true, if_false, Bool.false_eq_true, ended,
      List.nil_append]
  · rw [own]
    exact (if_pos (List.contains_iff_mem.mp symbol)).symm

theorem reads_gt {pos : Nat} {c : Letter} {rest : List Letter} (gt : c.val = code '>') : Reads ⟨pos, c :: rest⟩ := by
  have black : whitespace.contains (code '>') = false := by decide
  have symbol : (if c.val ∈ symbols then some c.val else none) = some (code '>') := by rw [gt]; decide
  have first : gettoken.token ⟨pos, c :: rest⟩ =
      if (Cursor.mk (pos + 1) rest).head = code '>' then (code '+', Cursor.next ⟨pos + 1, rest⟩)
      else (code '>', ⟨pos + 1, rest⟩) := by
    have other : ¬ (codes ['|', '(', ')', ';', '&', '<']).contains c.val = true := by rw [gt]; decide
    change (if c.val = 0 then _ else if (codes _).contains c.val = true then _ else if c.val = _ then _ else _) = _
    rw [if_neg c.property, if_neg other, if_pos gt]
    rfl
  cases rest with
  | nil =>
    refine ⟨.gt, ⟨pos + 1, []⟩, first, ?_, by simp, symbol.symm⟩
    simp only [Cursor.tokens, scan, black, gt, if_true, if_false, Bool.false_eq_true, ended, List.nil_append]
  | cons d rest =>
    by_cases second : d.val = code '>'
    · refine ⟨.gtgt, ⟨pos + 2, rest⟩, first.trans (if_pos second), ?_, by simp, symbol.symm⟩
      simp only [Cursor.tokens, scan, black, gt, second, if_true, if_false, Bool.false_eq_true, ended, List.nil_append]
    · refine ⟨.gt, ⟨pos + 1, d :: rest⟩, first.trans (if_neg second), ?_, by simp, symbol.symm⟩
      rw [Cursor.tokens, scan]
      simp only [black, gt, second, if_true, if_false, Bool.false_eq_true, ended, List.nil_append, Cursor.tokens]

theorem reads_word {pos : Nat} {c : Letter} {rest : List Letter} (word : wordChar c.val = true)
    (plain : c.val ∉ symbols) : Reads ⟨pos, c :: rest⟩ := by
  have op : c.val ∉ codes ['|', '(', ')', ';', '&', '<'] := by
    intro op
    exact plain (List.contains_iff_mem.mp (ret_operator c.val op).2.2.2.1)
  have gt : c.val ≠ code '>' := by
    intro gt
    rw [gt] at plain
    exact plain (by decide)
  have goes : Cursor.skipWord ⟨pos, c :: rest⟩ = Cursor.skip wordChar (pos + 1) rest := by
    change (if wordChar c.val = true then _ else _) = _
    rw [if_pos word]
    rfl
  refine ⟨.word ⟨pos, (Cursor.skip wordChar (pos + 1) rest).pos⟩, Cursor.skip wordChar (pos + 1) rest, ?_, ?_, by simp,
    (if_neg plain).symm⟩
  · simp only [gettoken.token, Cursor.head, c.property, if_false, List.contains_iff_mem, op, gt, goes, Token.ret]
  · rw [Cursor.tokens, scan_wordChar word, Option.getD_none, scan_word]

theorem reads {pos : Nat} {c : Letter} {rest : List Letter} (black : whitespace.contains c.val = false) :
    Reads ⟨pos, c :: rest⟩ := by
  by_cases symbol : c.val ∈ symbols
  · rcases symbols_cases symbol with gt | op
    · exact reads_gt gt
    · exact reads_operator op
  · have plain : symbols.contains c.val = false := by simpa using symbol
    exact reads_word (by simp only [wordChar, black, plain, Bool.not_false, Bool.and_self]) symbol

theorem skipWhite_cases (s : Cursor) : s.skipWhite.rest = [] ∨
    ∃ c rest, s.skipWhite.rest = c :: rest ∧ whitespace.contains c.val = false ∧ Reads s.skipWhite := by
  rcases skip_stops (fun c => whitespace.contains c) s.pos s.rest with stop | ⟨c, rest, stop, black⟩
  · exact Or.inl stop
  · refine Or.inr ⟨c, rest, stop, black, ?_⟩
    have here : s.skipWhite = ⟨s.skipWhite.pos, c :: rest⟩ := congrArg (Cursor.mk s.skipWhite.pos) stop
    rw [here]
    exact reads black

theorem gettoken_nil {s : Cursor} (none : s.tokens = []) :
    ∃ w s', gettoken s = (0, w, s') ∧ s'.tokens = [] := by
  rw [← tokens_skipWhite] at none
  rcases skipWhite_cases s with stop | ⟨c, rest, -, -, t, e, -, scanned, -, -⟩
  · have last : gettoken.token s.skipWhite = (0, s.skipWhite) := by
      simp only [gettoken.token, Cursor.head, stop, if_true]
    simp only [gettoken, last]
    exact ⟨_, _, rfl, by rw [tokens_skipWhite, none]⟩
  · rw [scanned] at none
    exact absurd none (List.cons_ne_nil _ _)

theorem gettoken_cons {s : Cursor} {t : Token} {toks : List Token} (some : s.tokens = t :: toks) :
    ∃ w s', gettoken s = (t.ret, w, s') ∧ s'.tokens = toks ∧ ∀ v, t = .word v → w = v := by
  rw [← tokens_skipWhite] at some
  rcases skipWhite_cases s with stop | ⟨c, rest, -, -, t', e, read, scanned, word, -⟩
  · rw [Cursor.tokens, stop] at some
    exact absurd some (by simp [scan, ended])
  · rw [scanned] at some
    obtain ⟨rfl, rfl⟩ := List.cons.inj some
    simp only [gettoken, read]
    exact ⟨_, _, rfl, tokens_skipWhite e, fun w is => (word w is).symm⟩

def Starts (chars : List UInt8) : List Token → Prop
  | [] => False
  | t :: _ => ∃ c ∈ chars, t.symbol = some c

theorem Starts.apart {chars chars' : List UInt8} {toks : List Token} (starts : Starts chars toks)
    (apart : chars.all (fun c => !chars'.contains c) = true) : ¬ Starts chars' toks := by
  intro starts'
  cases toks with
  | nil => exact starts
  | cons t toks =>
    obtain ⟨c, member, is⟩ := starts
    obtain ⟨c', member', is'⟩ := starts'
    rw [is, Option.some.injEq] at is'
    have none := List.all_eq_true.mp apart c member
    rw [is'] at none
    simp [member'] at none

theorem peek_cases (s : Cursor) {chars : List UInt8} (symbol : chars.all symbols.contains = true) :
    ∃ s', s'.tokens = s.tokens ∧
      (peek s chars = (true, s') ∧ Starts chars s.tokens ∨ peek s chars = (false, s') ∧ ¬ Starts chars s.tokens) := by
  refine ⟨s.skipWhite, tokens_skipWhite s, ?_⟩
  rw [← tokens_skipWhite s]
  rcases skipWhite_cases s with stop | ⟨c, rest, stop, -, t, e, -, scanned, -, own⟩
  · simp [peek, Cursor.head, Cursor.tokens, stop, scan, ended, Starts]
  · have nonzero : s.skipWhite.head ≠ 0 := by
      simp only [Cursor.head, stop]
      exact c.property
    rw [scanned]
    by_cases found : s.skipWhite.head ∈ chars
    · refine Or.inl ⟨by simp [peek, nonzero, found], _, found, ?_⟩
      rw [own, if_pos (List.contains_iff_mem.mp (List.all_eq_true.mp symbol _ found))]
    · refine Or.inr ⟨by simp [peek, nonzero, found], ?_⟩
      rintro ⟨c, member, is⟩
      rw [own] at is
      split at is
      · rw [Option.some.injEq] at is
        exact found (is ▸ member)
      · simp at is

end Espl.Shell
