import Espl.Shell.Grammar

/-!
# The parser accepts its grammar

Each function of the parser reads a piece of the tokens that the grammar derives, and reads every such
piece if what follows cannot belong to it.
-/

namespace Espl.Shell

/-! ### First tokens -/

theorem starts_redir {toks : List Token} (starts : Starts (codes ['<', '>']) toks) :
    ∃ t toks', toks = t :: toks' ∧ t ∈ [Token.lt, .gt, .gtgt] := by
  cases toks with
  | nil => exact starts.elim
  | cons t toks =>
    obtain ⟨c, member, is⟩ := starts
    refine ⟨t, toks, rfl, ?_⟩
    cases t with
    | word w => simp [Token.symbol] at is
    | _ =>
      obtain rfl := Option.some.inj is
      revert member
      decide

theorem starts_one {op : Token} {toks : List Token} (single : op ∈ [Token.bar, .amp, .semi, .lpar, .rpar]) :
    Starts [op.ret] toks ↔ ∃ toks', toks = op :: toks' := by
  have own : ∀ t : Token, t.symbol = some op.ret ↔ t = op := by
    simp only [List.mem_cons, List.not_mem_nil, or_false] at single
    rcases single with rfl | rfl | rfl | rfl | rfl <;> intro t <;> cases t <;> simp [Token.symbol, Token.ret] <;> decide
  cases toks with
  | nil => simp [Starts]
  | cons t toks => simp [Starts, own]

theorem peek_one (s : Cursor) (c : Char) (op : Token) (single : op ∈ [Token.bar, .amp, .semi, .lpar, .rpar])
    (own : code c = op.ret) :
    (∃ s₁ w s₂, peek s (codes [c]) = (true, s₁) ∧ s₁.tokens = s.tokens ∧ gettoken s₁ = (op.ret, w, s₂) ∧
      s.tokens = op :: s₂.tokens) ∨
    ∃ s₁, peek s (codes [c]) = (false, s₁) ∧ s₁.tokens = s.tokens ∧ ∀ toks, s.tokens ≠ op :: toks := by
  have one : codes [c] = [op.ret] := by rw [← own]; rfl
  have symbol : [op.ret].all symbols.contains = true := by
    clear one own
    revert op
    decide
  rw [one]
  obtain ⟨s₁, same, ⟨peeked, starts⟩ | ⟨peeked, other⟩⟩ := peek_cases s symbol
  · obtain ⟨toks, tokens⟩ := (starts_one single).mp starts
    obtain ⟨w, s₂, got, left, -⟩ := gettoken_cons (same.trans tokens)
    exact Or.inl ⟨s₁, w, s₂, peeked, same, got, by rw [tokens, left]⟩
  · refine Or.inr ⟨s₁, peeked, same, ?_⟩
    intro toks tokens
    exact other ((starts_one single).mpr ⟨toks, tokens⟩)

theorem redirected_spec {t : Token} (redir : t ∈ [Token.lt, .gt, .gtgt]) (file : Span) :
    ∃ r, Redir [t, .word file] r ∧ ∀ cmd, redirected t.ret cmd file = r.around cmd := by
  simp only [List.mem_cons, List.not_mem_nil, or_false] at redir
  rcases redir with rfl | rfl | rfl
  · exact ⟨_, .input file, fun cmd => rfl⟩
  · exact ⟨_, .output file, fun cmd => rfl⟩
  · exact ⟨_, .append file, fun cmd => rfl⟩

theorem Redir.tokens {toks : List Token} {r : Redirection} (redir : Redir toks r) :
    ∃ t file, toks = [t, .word file] ∧ t ∈ [Token.lt, .gt, .gtgt] ∧ ∀ cmd,
      redirected t.ret cmd file = r.around cmd := by
  cases redir with
  | input file => exact ⟨.lt, file, rfl, by decide, fun cmd => rfl⟩
  | output file => exact ⟨.gt, file, rfl, by decide, fun cmd => rfl⟩
  | append file => exact ⟨.gtgt, file, rfl, by decide, fun cmd => rfl⟩

theorem ret_of_word (w : Span) : (Token.word w).ret = code 'a' := rfl

theorem ret_word {t : Token} : t.ret = code 'a' ↔ ∃ w, t = .word w := by
  cases t <;> simp [Token.ret] <;> decide

theorem ret_ne_zero (t : Token) : t.ret ≠ 0 := by
  cases t <;> simp only [Token.ret] <;> decide

/-! ### Only the grammar is accepted -/

/-- A result for the tokens `before`: a piece of them with `P` is read, or the parser panics. -/
def Good (before : List Token) (P : List Token → Cmd → Prop) : Parse → Prop
  | .ok (cmd, s) => ∃ used, before = used ++ s.tokens ∧ P used cmd
  | .error e => ∃ p, e = .panic p

theorem Good.after {before rest : List Token} {P Q : List Token → Cmd → Prop} {r : Parse} (piece : List Token)
    (good : Good rest P r) (split : before = piece ++ rest) (adds : ∀ used cmd, P used cmd → Q (piece ++ used) cmd) :
    Good before Q r := by
  cases r with
  | error e => exact good
  | ok r =>
    obtain ⟨used, rfl, derived⟩ := good
    exact ⟨piece ++ used, by rw [split, List.append_assoc], adds used r.1 derived⟩

theorem Good.bind {before rest : List Token} {P Q : List Token → Cmd → Prop} {r : Parse} {f : Cmd × Cursor → Parse}
    (piece : List Token) (good : Good rest P r) (split : before = piece ++ rest)
    (next : ∀ used cmd s, before = piece ++ used ++ s.tokens → P used cmd → Good before Q (f (cmd, s))) :
    Good before Q (r >>= f) := by
  cases r with
  | error e => exact good
  | ok r =>
    obtain ⟨used, rfl, derived⟩ := good
    exact next used r.1 r.2 (by rw [split, List.append_assoc]) derived

theorem good_parseredirs {fuel : Nat} {cmd : Cmd} {s : Cursor} (enough : s.tokens.length < fuel) :
    Good s.tokens (fun used cmd' => ∃ rs, Redirs used rs ∧ cmd' = wrap rs cmd) (parseredirs fuel cmd s) := by
  induction fuel generalizing cmd s with
  | zero => exact absurd enough (Nat.not_lt_zero _)
  | succ fuel ih =>
    unfold parseredirs
    obtain ⟨s₁, same, ⟨peeked, starts⟩ | ⟨peeked, -⟩⟩ :=
      peek_cases s (show (codes ['<', '>']).all symbols.contains = true by decide)
    · obtain ⟨t, toks, tokens, redir⟩ := starts_redir starts
      obtain ⟨w, s₂, got, left, -⟩ := gettoken_cons (same.trans tokens)
      simp only [peeked, if_true, got]
      cases toks with
      | nil =>
        obtain ⟨w, s₃, got', -⟩ := gettoken_nil left
        simp only [got']
        exact ⟨.missingFile, rfl⟩
      | cons t' toks =>
        obtain ⟨file, s₃, got', left', word⟩ := gettoken_cons left
        simp only [got', ne_eq, ite_not]
        split
        · rename_i is
          obtain ⟨w, rfl⟩ := ret_word.mp is
          obtain rfl := word w rfl
          obtain ⟨r, derived, builds⟩ := redirected_spec redir file
          have shorter : s₃.tokens.length < fuel := by
            rw [tokens] at enough
            simp only [left', List.length_cons] at enough ⊢
            omega
          apply Good.after [t, .word file] (ih shorter)
          · rw [tokens, left']
            rfl
          · rintro used cmd' ⟨rs, derived', rfl⟩
            exact ⟨r :: rs, .cons derived derived', by rw [builds]; rfl⟩
        · exact ⟨.missingFile, rfl⟩
    · simp only [peeked]
      exact ⟨[], same.symm, [], .nil, rfl⟩

theorem addArg_wrap (rs : List Redirection) (words : List Span) (word : Span) :
    (wrap rs (.exec words)).addArg word = wrap rs (.exec (words ++ [word])) := by
  have inside : ∀ (rs : List Redirection) (cmd : Cmd),
      (∀ w, cmd.addArg word = w → (wrap rs cmd).addArg word = wrap rs w) := by
    intro rs
    induction rs with
    | nil => exact fun cmd w is => is
    | cons r rs ih =>
      intro cmd w is
      exact ih (r.around cmd) (r.around w) (by rw [← is]; rfl)
  exact inside rs _ _ rfl

theorem wrap_append (rs rs' : List Redirection) (cmd : Cmd) : wrap rs' (wrap rs cmd) = wrap (rs ++ rs') cmd :=
  List.foldl_append.symm

theorem good_parseexec_loop {fuel argc : Nat} {rs : List Redirection} {words : List Span} {s : Cursor}
    (enough : s.tokens.length < fuel) (fits : argc ≤ MAXARGS - 1) :
    Good s.tokens (fun used cmd => ∃ words' rs', Args used words' rs' ∧ argc + words'.length ≤ MAXARGS - 1 ∧
      cmd = wrap (rs ++ rs') (.exec (words ++ words'))) (parseexec.loop fuel (wrap rs (.exec words)) argc s) := by
  induction fuel generalizing argc rs words s with
  | zero => exact absurd enough (Nat.not_lt_zero _)
  | succ fuel ih =>
    have room : ¬ MAXARGS ≤ argc := Nat.not_le.mpr (Nat.lt_of_le_of_lt fits (by decide))
    -- nothing is read where the loop ends
    have done : ∀ s' : Cursor, s'.tokens = s.tokens → ∃ used, s.tokens = used ++ s'.tokens ∧
        ∃ words' rs', Args used words' rs' ∧ argc + words'.length ≤ MAXARGS - 1 ∧
          wrap rs (.exec words) = wrap (rs ++ rs') (.exec (words ++ words')) := fun s' same =>
      ⟨[], same.symm, [], [], .nil, fits, by rw [List.append_nil, List.append_nil]⟩
    unfold parseexec.loop
    obtain ⟨s₁, same, ⟨peeked, -⟩ | ⟨peeked, -⟩⟩ :=
      peek_cases s (show (codes ['|', ')', '&', ';']).all symbols.contains = true by decide)
    · simp only [peeked, if_true, room, if_false]
      exact done s₁ same
    · simp only [peeked, Bool.false_eq_true, if_false, room]
      cases tokens : s₁.tokens with
      | nil =>
        obtain ⟨w, s₂, got, left⟩ := gettoken_nil tokens
        simp only [got, if_true]
        exact done s₂ (by rw [left, ← same, tokens])
      | cons t toks =>
        obtain ⟨w, s₂, got, left, word⟩ := gettoken_cons tokens
        simp only [got, ret_ne_zero, if_false, ne_eq, ite_not]
        split
        · rename_i is
          obtain ⟨v, rfl⟩ := ret_word.mp is
          obtain rfl := word v rfl
          split
          · exact ⟨.tooManyArgs, rfl⟩
          · rename_i fewer
            have shorter : s₂.tokens.length < fuel := by
              rw [← same, tokens] at enough
              simp only [left, List.length_cons] at enough ⊢
              omega
            rw [addArg_wrap]
            have redirs := @good_parseredirs fuel (wrap rs (.exec (words ++ [w]))) s₂ shorter
            generalize parseredirs fuel (wrap rs (.exec (words ++ [w]))) s₂ = r at redirs ⊢
            cases r with
            | error e => exact redirs
            | ok r =>
              obtain ⟨cmd, s₃⟩ := r
              obtain ⟨used, split, rs', derived, rfl⟩ := redirs
              have shorter' : s₃.tokens.length < fuel := by
                rw [split, List.length_append] at shorter
                omega
              simp only [wrap_append]
              apply Good.after (.word w :: used) (ih shorter' (Nat.le_sub_one_of_lt (Nat.not_le.mp fewer)))
              · rw [← same, tokens, ← left, split]
                rfl
              · rintro used' cmd' ⟨words', rs'', derived', few, rfl⟩
                refine ⟨w :: words', rs' ++ rs'', .cons derived derived', ?_, ?_⟩
                · simp only [List.length_cons]
                  omega
                · rw [List.append_assoc, List.append_assoc]
                  rfl
        · exact ⟨.malformed, rfl⟩

theorem good_parseline_loop {fuel : Nat} {cmd : Cmd} {s : Cursor} (enough : s.tokens.length < fuel) :
    Good s.tokens (fun used cmd' => ∃ n, used = List.replicate n .amp ∧ cmd' = backs n cmd)
      (parseline.loop fuel cmd s) := by
  induction fuel generalizing cmd s with
  | zero => exact absurd enough (Nat.not_lt_zero _)
  | succ fuel ih =>
    unfold parseline.loop
    obtain ⟨s₁, w, s₂, peeked, -, got, tokens⟩ | ⟨s₁, peeked, same, -⟩ := peek_one s '&' .amp (by decide) rfl
    · simp only [peeked, if_true, got]
      have shorter : s₂.tokens.length < fuel := by
        rw [tokens, List.length_cons] at enough
        omega
      apply Good.after [.amp] (ih shorter) tokens
      rintro used cmd' ⟨n, rfl, rfl⟩
      exact ⟨n + 1, rfl, rfl⟩
    · simp only [peeked]
      exact ⟨[], same.symm, 0, rfl, rfl⟩

/-- What the fuel must be for each nonterminal, with `n` tokens left. -/
def Nonterminal.cost (n : Nat) : Nonterminal → Nat
  | .line => 4 * n + 4
  | .pipe => 4 * n + 3
  | .exec => 4 * n + 2

def Nonterminal.parse : Nonterminal → Nat → Cursor → Parse
  | .line => parseline
  | .pipe => parsepipe
  | .exec => parseexec

/-- With enough fuel the functions for all nonterminals read what the grammar derives. -/
def AllGood (fuel : Nat) : Prop :=
  ∀ (sym : Nonterminal) (s : Cursor), sym.cost s.tokens.length ≤ fuel → Good s.tokens (Derives sym) (sym.parse fuel s)

theorem good_parseline {fuel : Nat} {s : Cursor} (ih : AllGood fuel)
    (enough : Nonterminal.line.cost s.tokens.length ≤ fuel + 1) :
    Good s.tokens (Derives .line) (parseline (fuel + 1) s) := by
  simp only [Nonterminal.cost] at enough
  rw [parseline]
  apply Good.bind [] (ih .pipe s (by simp only [Nonterminal.cost]; omega)) (List.nil_append _).symm
  intro used cmd s₁ split derived
  rw [List.nil_append] at split
  have fewer : s₁.tokens.length ≤ s.tokens.length := by rw [split, List.length_append]; omega
  apply Good.bind used (good_parseline_loop (by omega)) split
  rintro amps cmd' s₂ split' ⟨n, rfl, rfl⟩
  obtain ⟨s₃, w, s₄, peeked, -, got, tokens⟩ | ⟨s₃, peeked, same, -⟩ := peek_one s₂ ';' .semi (by decide) rfl
  · simp only [peeked, if_true, got]
    rw [tokens] at split'
    have fewer : s₄.tokens.length + 1 ≤ s.tokens.length := by
      rw [split', List.length_append, List.length_cons]; omega
    apply Good.bind (used ++ List.replicate n .amp ++ [.semi]) (ih .line s₄ (by simp only [Nonterminal.cost]; omega))
    · rw [split', List.append_assoc _ [_]]
      rfl
    · intro used' right s₅ split'' derived'
      refine ⟨_, split'', ?_⟩
      rw [List.append_assoc _ [_]]
      exact .seq n derived derived'
  · simp only [peeked]
    exact ⟨used ++ List.replicate n .amp, by rw [same, split'], .last n derived⟩

theorem good_parsepipe {fuel : Nat} {s : Cursor} (ih : AllGood fuel)
    (enough : Nonterminal.pipe.cost s.tokens.length ≤ fuel + 1) :
    Good s.tokens (Derives .pipe) (parsepipe (fuel + 1) s) := by
  simp only [Nonterminal.cost] at enough
  rw [parsepipe]
  apply Good.bind [] (ih .exec s (by simp only [Nonterminal.cost]; omega)) (List.nil_append _).symm
  intro used cmd s₁ split derived
  rw [List.nil_append] at split
  obtain ⟨s₂, w, s₃, peeked, -, got, tokens⟩ | ⟨s₂, peeked, same, -⟩ := peek_one s₁ '|' .bar (by decide) rfl
  · simp only [peeked, if_true, got]
    rw [tokens] at split
    have fewer : s₃.tokens.length + 1 ≤ s.tokens.length := by
      rw [split, List.length_append, List.length_cons]; omega
    apply Good.bind (used ++ [.bar]) (ih .pipe s₃ (by simp only [Nonterminal.cost]; omega))
    · rw [split, List.append_assoc _ [_]]
      rfl
    · intro used' right s₄ split' derived'
      refine ⟨_, split', ?_⟩
      rw [List.append_assoc _ [_]]
      exact .bar derived derived'
  · simp only [peeked]
    exact ⟨used, by rw [same, split], .one derived⟩

theorem good_parseblock {fuel : Nat} {s : Cursor} (ih : AllGood fuel) (enough : 4 * s.tokens.length ≤ fuel) :
    Good s.tokens (Derives .exec) (parseblock (fuel + 1) s) := by
  rw [parseblock]
  obtain ⟨s₁, w, s₂, peeked, -, got, tokens⟩ | ⟨s₁, peeked, -⟩ := peek_one s '(' .lpar (by decide) rfl
  · simp only [peeked, Bool.not_true, Bool.false_eq_true, if_false, got]
    have fewer : s₂.tokens.length + 1 = s.tokens.length := by rw [tokens, List.length_cons]
    apply Good.bind [.lpar] (ih .line s₂ (by simp only [Nonterminal.cost]; omega)) tokens
    intro used cmd s₃ split derived
    obtain ⟨s₄, w', s₅, peeked', -, got', tokens'⟩ | ⟨s₄, peeked', -⟩ := peek_one s₃ ')' .rpar (by decide) rfl
    · simp only [peeked', Bool.not_true, Bool.false_eq_true, if_false, got']
      rw [tokens'] at split
      have fewer : s₅.tokens.length < s.tokens.length := by
        rw [split, List.length_append, List.length_cons]; omega
      apply Good.after (.lpar :: (used ++ [.rpar])) (good_parseredirs (by omega))
      · rw [split]
        simp
      · rintro used' cmd' ⟨rs, derived', rfl⟩
        have derived := Derives.block derived derived'
        rw [List.append_cons] at derived
        exact derived
    · simp only [peeked', Bool.not_false, if_true]
      exact ⟨.missingParen, rfl⟩
  · simp only [peeked, Bool.not_false, if_true]
    exact ⟨.parseblock, rfl⟩

theorem good_parseexec {fuel : Nat} {s : Cursor} (ih : AllGood (fuel - 1))
    (enough : Nonterminal.exec.cost s.tokens.length ≤ fuel + 1) :
    Good s.tokens (Derives .exec) (parseexec (fuel + 1) s) := by
  simp only [Nonterminal.cost] at enough
  rw [parseexec]
  obtain ⟨s₁, w, s₂, peeked, same, -, -⟩ | ⟨s₁, peeked, same, -⟩ := peek_one s '(' .lpar (by decide) rfl
  · simp only [peeked, if_true]
    obtain ⟨fuel, rfl⟩ := Nat.exists_eq_add_one.mpr (show 0 < fuel by omega)
    rw [← same] at enough ⊢
    exact good_parseblock (s := s₁) ih (by omega)
  · simp only [peeked]
    rw [← same] at enough ⊢
    apply Good.bind [] (good_parseredirs (by omega)) (List.nil_append _).symm
    rintro used cmd s₂ split ⟨rs, derived, rfl⟩
    have fewer : s₂.tokens.length ≤ s₁.tokens.length := by rw [split, List.length_append]; omega
    apply Good.after used (good_parseexec_loop (by omega) (Nat.zero_le _)) split
    rintro used' cmd' ⟨words, rs', derived', few, rfl⟩
    exact .simple derived derived' (by simpa using few)

theorem allGood (fuel : Nat) : AllGood fuel := by
  induction fuel using Nat.strongRecOn with
  | ind fuel ih =>
    intro sym s enough
    cases fuel with
    | zero => cases sym <;> simp [Nonterminal.cost] at enough
    | succ fuel =>
      cases sym with
      | line => exact good_parseline (ih fuel (Nat.lt_succ_self fuel)) enough
      | pipe => exact good_parsepipe (ih fuel (Nat.lt_succ_self fuel)) enough
      | exec => exact good_parseexec (ih (fuel - 1) (by omega)) enough

/-! ### All of the grammar is accepted -/

def Nonterminal.follow : Nonterminal → List UInt8
  | .line => codes [')']
  | .pipe => codes [')', '&', ';']
  | .exec => codes ['|', ')', '&', ';']

def Ends (sym : Nonterminal) (rest : List Token) : Prop := rest = [] ∨ Starts sym.follow rest

theorem Ends.apart {sym : Nonterminal} {rest : List Token} {chars : List UInt8} (ends : Ends sym rest)
    (apart : sym.follow.all (fun c => !chars.contains c) = true) : ¬ Starts chars rest := by
  rcases ends with rfl | starts
  · exact id
  · exact starts.apart apart

theorem Ends.mono {sym sym' : Nonterminal} {rest : List Token} (ends : Ends sym rest)
    (sub : sym.follow.all sym'.follow.contains = true) : Ends sym' rest := by
  rcases ends with rfl | starts
  · exact Or.inl rfl
  · cases rest with
    | nil => exact starts.elim
    | cons t toks =>
      obtain ⟨c, member, is⟩ := starts
      exact Or.inr ⟨c, List.contains_iff_mem.mp (List.all_eq_true.mp sub c member), is⟩

theorem exists_fuel {n fuel : Nat} (enough : n < fuel) : ∃ less, fuel = less + 1 :=
  Nat.exists_eq_add_one.mpr (Nat.zero_lt_of_lt enough)

theorem parseredirs_of_redirs {toks rest : List Token} {rs : List Redirection} (redirs : Redirs toks rs)
    {fuel : Nat} (cmd : Cmd) {s : Cursor} (tokens : s.tokens = toks ++ rest) (stop : ¬ Starts (codes ['<', '>']) rest)
    (enough : s.tokens.length < fuel) :
    ∃ s', parseredirs fuel cmd s = .ok (wrap rs cmd, s') ∧ s'.tokens = rest := by
  induction redirs generalizing fuel cmd s with
  | nil =>
    obtain ⟨fuel, rfl⟩ := exists_fuel enough
    unfold parseredirs
    obtain ⟨s₁, same, ⟨-, starts⟩ | ⟨peeked, -⟩⟩ :=
      peek_cases s (show (codes ['<', '>']).all symbols.contains = true by decide)
    · rw [tokens] at starts
      exact absurd starts stop
    · simp only [peeked]
      exact ⟨s₁, rfl, by rw [same, tokens]; rfl⟩
  | @cons toks toks' r rs redir _ ih =>
    obtain ⟨t, file, rfl, first, builds⟩ := redir.tokens
    change s.tokens = t :: .word file :: (toks' ++ rest) at tokens
    obtain ⟨fuel, rfl⟩ := exists_fuel enough
    have starts : Starts (codes ['<', '>']) s.tokens := by
      rw [tokens]
      simp only [List.mem_cons, List.not_mem_nil, or_false] at first
      rcases first with rfl | rfl | rfl
      · exact ⟨code '<', by decide, rfl⟩
      · exact ⟨code '>', by decide, rfl⟩
      · exact ⟨code '>', by decide, rfl⟩
    unfold parseredirs
    obtain ⟨s₁, same, ⟨peeked, -⟩ | ⟨-, other⟩⟩ :=
      peek_cases s (show (codes ['<', '>']).all symbols.contains = true by decide)
    · obtain ⟨w, s₂, got, left, -⟩ := gettoken_cons (same.trans tokens)
      obtain ⟨w', s₃, got', left', word⟩ := gettoken_cons left
      obtain rfl := word file rfl
      simp only [peeked, got, got', ret_of_word, ne_eq, not_true_eq_false, if_true, if_false]
      have shorter : s₃.tokens.length < fuel := by
        rw [tokens, ← left', List.length_cons, List.length_cons] at enough
        omega
      obtain ⟨s', read, rest⟩ := ih (redirected t.ret cmd w') left' shorter
      exact ⟨s', by rw [read, builds]; rfl, rest⟩
    · exact absurd starts other

theorem Redirs.not_starts {toks rest : List Token} {rs : List Redirection} {chars : List UInt8}
    (redirs : Redirs toks rs)
    (apart : (codes ['<', '>']).all (fun c => !chars.contains c) = true) (stop : ¬ Starts chars rest) :
    ¬ Starts chars (toks ++ rest) := by
  cases redirs with
  | nil => exact stop
  | @cons toks toks' r rs redir _ =>
    obtain ⟨t, file, rfl, first, -⟩ := redir.tokens
    refine Starts.apart ?_ apart
    simp only [List.mem_cons, List.not_mem_nil, or_false] at first
    rcases first with rfl | rfl | rfl
    · exact ⟨code '<', by decide, rfl⟩
    · exact ⟨code '>', by decide, rfl⟩
    · exact ⟨code '>', by decide, rfl⟩

theorem Args.not_starts {toks rest : List Token} {words : List Span} {rs : List Redirection} {chars : List UInt8}
    (args : Args toks words rs) (stop : ¬ Starts chars rest) : ¬ Starts chars (toks ++ rest) := by
  cases args with
  | nil => exact stop
  | cons => simp [Starts, Token.symbol]

theorem parseexec_loop_of_args {toks rest : List Token} {words : List Span} {rs : List Redirection}
    (args : Args toks words rs) {fuel : Nat} (argc : Nat) (words₀ : List Span) (rs₀ : List Redirection) {s : Cursor}
    (tokens : s.tokens = toks ++ rest) (ends : Ends .exec rest) (fits : argc + words.length ≤ MAXARGS - 1)
    (enough : s.tokens.length < fuel) :
    ∃ s', parseexec.loop fuel (wrap rs₀ (.exec words₀)) argc s = .ok (wrap (rs₀ ++ rs) (.exec (words₀ ++ words)), s') ∧
      s'.tokens = rest := by
  have symbol : (codes ['|', ')', '&', ';']).all symbols.contains = true := by decide
  induction args generalizing fuel argc words₀ rs₀ s with
  | nil =>
    obtain ⟨fuel, rfl⟩ := exists_fuel enough
    have room : ¬ MAXARGS ≤ argc := Nat.not_le.mpr (Nat.lt_of_le_of_lt fits (by decide))
    simp only [List.nil_append, List.append_nil] at tokens ⊢
    unfold parseexec.loop
    obtain ⟨s₁, same, ⟨peeked, -⟩ | ⟨peeked, other⟩⟩ := peek_cases s symbol
    · simp only [peeked, if_true, room, if_false]
      exact ⟨s₁, rfl, same.trans tokens⟩
    · rcases ends with rfl | starts
      · obtain ⟨w, s₂, got, left⟩ := gettoken_nil (same.trans tokens)
        simp only [peeked, got, if_true, room, if_false, Bool.false_eq_true]
        exact ⟨s₂, rfl, left⟩
      · rw [tokens] at other
        exact absurd starts other
  | @cons toks toks' word words rs rs' redirs args ih =>
    obtain ⟨fuel, rfl⟩ := exists_fuel enough
    change s.tokens = .word word :: (toks ++ toks' ++ rest) at tokens
    rw [List.append_assoc] at tokens
    simp only [List.length_cons] at fits
    unfold parseexec.loop
    obtain ⟨s₁, same, ⟨-, starts⟩ | ⟨peeked, -⟩⟩ := peek_cases s symbol
    · rw [tokens] at starts
      simp [Starts, Token.symbol] at starts
    · obtain ⟨w, s₂, got, left, is⟩ := gettoken_cons (same.trans tokens)
      obtain rfl := is word rfl
      have room : ¬ MAXARGS ≤ argc + 1 :=
        Nat.not_le.mpr (Nat.lt_of_le_of_lt (show argc + 1 ≤ MAXARGS - 1 by omega) (by decide))
      have room' : ¬ MAXARGS ≤ argc := by omega
      have shorter : s₂.tokens.length < fuel := by
        rw [tokens, ← left, List.length_cons] at enough
        omega
      obtain ⟨s₃, read, left'⟩ := parseredirs_of_redirs redirs (wrap rs₀ (.exec (words₀ ++ [w]))) left
        (args.not_starts (ends.apart (by decide))) shorter
      have shorter' : s₃.tokens.length < fuel := by
        rw [left, ← left', List.length_append] at shorter
        omega
      obtain ⟨s', read', rest⟩ := ih (argc + 1) (words₀ ++ [w]) (rs₀ ++ rs) left' (by omega) shorter'
      simp only [peeked, got, ret_of_word, ne_eq, not_true_eq_false, room, room', if_false, Bool.false_eq_true,
        addArg_wrap, read, wrap_append]
      rw [if_neg (by decide), read', List.append_assoc, List.append_assoc]
      exact ⟨s', rfl, rest⟩

theorem parseline_loop_of_amps {rest : List Token} (n : Nat) {fuel : Nat} (cmd : Cmd) {s : Cursor}
    (tokens : s.tokens = List.replicate n .amp ++ rest) (stop : ∀ toks, rest ≠ .amp :: toks)
    (enough : s.tokens.length < fuel) :
    ∃ s', parseline.loop fuel cmd s = .ok (backs n cmd, s') ∧ s'.tokens = rest := by
  induction n generalizing fuel cmd s with
  | zero =>
    obtain ⟨fuel, rfl⟩ := exists_fuel enough
    unfold parseline.loop
    obtain ⟨s₁, w, s₂, -, -, -, amp⟩ | ⟨s₁, peeked, same, -⟩ := peek_one s '&' .amp (by decide) rfl
    · exact absurd (tokens.symm.trans amp) (stop _)
    · simp only [peeked]
      exact ⟨s₁, rfl, same.trans tokens⟩
  | succ n ih =>
    obtain ⟨fuel, rfl⟩ := exists_fuel enough
    unfold parseline.loop
    obtain ⟨s₁, w, s₂, peeked, -, got, amp⟩ | ⟨s₁, -, -, other⟩ := peek_one s '&' .amp (by decide) rfl
    · simp only [peeked, got, if_true]
      have left := List.cons.inj (amp.symm.trans tokens)
      rw [amp, List.length_cons] at enough
      exact ih _ left.2 (by omega)
    · exact absurd tokens (other _)

/-- The function for the nonterminal reads the tokens as the command, if a phrase can end after them. -/
def Accepts (sym : Nonterminal) (toks : List Token) (cmd : Cmd) : Prop :=
  ∀ (fuel : Nat) (s : Cursor) (rest : List Token), s.tokens = toks ++ rest → Ends sym rest →
    sym.cost s.tokens.length ≤ fuel → ∃ s', sym.parse fuel s = .ok (cmd, s') ∧ s'.tokens = rest

theorem Ends.ne_cons {sym : Nonterminal} {rest : List Token} {op : Token} (ends : Ends sym rest)
    (single : op ∈ [Token.bar, .amp, .semi, .lpar, .rpar])
    (apart : sym.follow.all (fun c => !(List.contains [op.ret] c)) = true) (toks : List Token) : rest ≠ op :: toks :=
  fun is => ends.apart apart ((starts_one single).mpr ⟨toks, is⟩)

theorem ends_op {sym : Nonterminal} {op : Token} {toks : List Token} (single : op.symbol = some op.ret)
    (member : op.ret ∈ sym.follow) : Ends sym (op :: toks) :=
  Or.inr ⟨op.ret, member, single⟩

theorem accepts_line {toks : List Token} {cmd : Cmd} (n : Nat) (pipe : Accepts .pipe toks cmd) {fuel : Nat} {s : Cursor}
    {rest : List Token} (tokens : s.tokens = toks ++ (List.replicate n .amp ++ rest))
    (stop : ∀ toks, rest ≠ .amp :: toks) (ends : Ends .pipe rest)
    (enough : Nonterminal.line.cost s.tokens.length ≤ fuel + 1) :
    ∃ s₁ s₂, parsepipe fuel s = .ok (cmd, s₁) ∧ parseline.loop fuel cmd s₁ = .ok (backs n cmd, s₂) ∧
      s₂.tokens = rest := by
  simp only [Nonterminal.cost] at enough
  have ends' : Ends .pipe (List.replicate n .amp ++ rest) := by
    cases n with
    | zero => exact ends
    | succ n => exact ends_op rfl (by decide)
  obtain ⟨s₁, read, left⟩ := pipe fuel s _ tokens ends' (by simp only [Nonterminal.cost]; omega)
  have fewer : s₁.tokens.length ≤ s.tokens.length := by
    rw [tokens, ← left, List.length_append]
    omega
  obtain ⟨s₂, read', left'⟩ := parseline_loop_of_amps n cmd left stop (show s₁.tokens.length < fuel by omega)
  exact ⟨s₁, s₂, read, read', left'⟩

theorem accepts_last {toks : List Token} {cmd : Cmd} (n : Nat) (pipe : Accepts .pipe toks cmd) :
    Accepts .line (toks ++ List.replicate n .amp) (backs n cmd) := by
  intro fuel s rest tokens ends enough
  obtain ⟨fuel, rfl⟩ := exists_fuel enough
  rw [List.append_assoc] at tokens
  obtain ⟨s₁, s₂, read, read', left⟩ := accepts_line n pipe tokens (ends.ne_cons (by decide) (by decide))
    (ends.mono (by decide)) enough
  obtain ⟨s₃, w, s₄, -, -, -, semi⟩ | ⟨s₃, peeked, same, -⟩ := peek_one s₂ ';' .semi (by decide) rfl
  · exact absurd (left.symm.trans semi) (ends.ne_cons (by decide) (by decide) _)
  · rw [Nonterminal.parse, parseline]
    simp only [read, read', peeked, bind, Except.bind, pure, Except.pure]
    exact ⟨s₃, rfl, same.trans left⟩

theorem accepts_seq {toks toks' : List Token} {left right : Cmd} (n : Nat) (pipe : Accepts .pipe toks left)
    (line : Accepts .line toks' right) :
    Accepts .line (toks ++ List.replicate n .amp ++ .semi :: toks') (.list (backs n left) right) := by
  intro fuel s rest tokens ends enough
  obtain ⟨fuel, rfl⟩ := exists_fuel enough
  rw [List.append_assoc, List.append_assoc, List.cons_append] at tokens
  obtain ⟨s₁, s₂, read, read', left⟩ := accepts_line n pipe tokens (by simp) (ends_op rfl (by decide)) enough
  obtain ⟨s₃, w, s₄, peeked, -, got, semi⟩ | ⟨s₃, -, -, other⟩ := peek_one s₂ ';' .semi (by decide) rfl
  · have left' := (List.cons.inj (semi.symm.trans left)).2
    have fewer : s₄.tokens.length + 1 ≤ s.tokens.length := by
      rw [tokens, ← List.append_assoc, ← left', List.length_append, List.length_cons]
      omega
    simp only [Nonterminal.cost] at enough
    obtain ⟨s₅, read'', left''⟩ := line fuel s₄ rest left' ends (by simp only [Nonterminal.cost]; omega)
    rw [Nonterminal.parse, parseline]
    rw [Nonterminal.parse] at read''
    simp only [read, read', peeked, got, if_true, read'', bind, Except.bind, pure, Except.pure]
    exact ⟨s₅, rfl, left''⟩
  · exact absurd left (other _)

theorem accepts_one {toks : List Token} {cmd : Cmd} (exec : Accepts .exec toks cmd) : Accepts .pipe toks cmd := by
  intro fuel s rest tokens ends enough
  obtain ⟨fuel, rfl⟩ := exists_fuel enough
  simp only [Nonterminal.cost] at enough
  obtain ⟨s₁, read, left⟩ := exec fuel s rest tokens (ends.mono (by decide)) (by simp only [Nonterminal.cost]; omega)
  obtain ⟨s₂, w, s₃, -, -, -, bar⟩ | ⟨s₂, peeked, same, -⟩ := peek_one s₁ '|' .bar (by decide) rfl
  · exact absurd (left.symm.trans bar) (ends.ne_cons (by decide) (by decide) _)
  · simp only [Nonterminal.parse] at read ⊢
    rw [parsepipe]
    simp only [read, peeked, bind, Except.bind, pure, Except.pure]
    exact ⟨s₂, rfl, same.trans left⟩

theorem accepts_bar {toks toks' : List Token} {left right : Cmd} (exec : Accepts .exec toks left)
    (pipe : Accepts .pipe toks' right) : Accepts .pipe (toks ++ .bar :: toks') (.pipe left right) := by
  intro fuel s rest tokens ends enough
  obtain ⟨fuel, rfl⟩ := exists_fuel enough
  simp only [Nonterminal.cost] at enough
  rw [List.append_assoc, List.cons_append] at tokens
  obtain ⟨s₁, read, left⟩ := exec fuel s _ tokens (ends_op rfl (by decide)) (by simp only [Nonterminal.cost]; omega)
  obtain ⟨s₂, w, s₃, peeked, -, got, bar⟩ | ⟨s₂, -, -, other⟩ := peek_one s₁ '|' .bar (by decide) rfl
  · have left' := (List.cons.inj (bar.symm.trans left)).2
    have fewer : s₃.tokens.length + 1 ≤ s.tokens.length := by
      rw [tokens, ← left', List.length_append, List.length_cons]
      omega
    obtain ⟨s₄, read', left''⟩ := pipe fuel s₃ rest left' ends (by simp only [Nonterminal.cost]; omega)
    simp only [Nonterminal.parse] at read read' ⊢
    rw [parsepipe]
    simp only [read, peeked, got, if_true, read', bind, Except.bind, pure, Except.pure]
    exact ⟨s₄, rfl, left''⟩
  · exact absurd left (other _)

theorem accepts_block {toks toks' : List Token} {cmd : Cmd} {rs : List Redirection} (line : Accepts .line toks cmd)
    (redirs : Redirs toks' rs) : Accepts .exec (.lpar :: (toks ++ .rpar :: toks')) (wrap rs cmd) := by
  intro fuel s rest tokens ends enough
  simp only [Nonterminal.cost] at enough
  obtain ⟨fuel, rfl⟩ : ∃ n, fuel = n + 1 + 1 := ⟨fuel - 2, by omega⟩
  rw [List.cons_append, List.append_assoc, List.cons_append] at tokens
  rw [Nonterminal.parse, parseexec]
  obtain ⟨s₁, w, s₂, peeked, same, -, -⟩ | ⟨s₁, -, -, other⟩ := peek_one s '(' .lpar (by decide) rfl
  · simp only [peeked, if_true]
    rw [parseblock]
    obtain ⟨s₂, w, s₃, peeked', -, got, lpar⟩ | ⟨s₂, -, -, other⟩ := peek_one s₁ '(' .lpar (by decide) rfl
    · have left := (List.cons.inj ((same.trans tokens).symm.trans lpar)).2.symm
      have fewer : s₃.tokens.length + 1 = s.tokens.length := by rw [← same, lpar, List.length_cons]
      obtain ⟨s₄, read, left'⟩ := line fuel s₃ _ left (ends_op rfl (by decide)) (by simp only [Nonterminal.cost]; omega)
      rw [Nonterminal.parse] at read
      obtain ⟨s₅, w', s₆, peeked'', -, got', rpar⟩ | ⟨s₅, -, -, other⟩ := peek_one s₄ ')' .rpar (by decide) rfl
      · have left'' := (List.cons.inj (rpar.symm.trans left')).2
        have fewer' : s₆.tokens.length < s₃.tokens.length := by
          rw [left, ← left'', List.length_append, List.length_cons]
          omega
        obtain ⟨s₇, read', left₇⟩ := parseredirs_of_redirs redirs cmd left'' (ends.apart (by decide))
          (show s₆.tokens.length < fuel by omega)
        simp only [peeked', got, read, peeked'', got', read', bind, Except.bind, Bool.not_true,
          Bool.false_eq_true, if_false]
        exact ⟨s₇, rfl, left₇⟩
      · exact absurd left' (other _)
    · exact absurd (same.trans tokens) (other _)
  · exact absurd tokens (other _)

theorem accepts_simple {toks toks' : List Token} {rs rs' : List Redirection} {words : List Span}
    (redirs : Redirs toks rs) (args : Args toks' words rs') (few : words.length ≤ MAXARGS - 1) :
    Accepts .exec (toks ++ toks') (wrap (rs ++ rs') (.exec words)) := by
  intro fuel s rest tokens ends enough
  obtain ⟨fuel, rfl⟩ := exists_fuel enough
  simp only [Nonterminal.cost] at enough
  rw [List.append_assoc] at tokens
  rw [Nonterminal.parse, parseexec]
  obtain ⟨s₁, w, s₂, -, -, -, lpar⟩ | ⟨s₁, peeked, same, -⟩ := peek_one s '(' .lpar (by decide) rfl
  · -- neither a redirection, a word nor the end of a phrase is a parenthesis
    refine absurd ((starts_one (by decide)).mpr ⟨s₂.tokens, tokens.symm.trans lpar⟩) ?_
    exact redirs.not_starts (by decide) (args.not_starts (ends.apart (by decide)))
  · obtain ⟨s₂, read, left⟩ := parseredirs_of_redirs redirs (.exec []) (same.trans tokens)
      (args.not_starts (ends.apart (by decide))) (show s₁.tokens.length < fuel by rw [same]; omega)
    have fewer : s₂.tokens.length ≤ s.tokens.length := by
      rw [tokens, ← left, List.length_append]
      omega
    obtain ⟨s₃, read', left'⟩ := parseexec_loop_of_args args 0 [] rs left ends
      (by simpa using few) (show s₂.tokens.length < fuel by omega)
    simp only [peeked, read, bind, Except.bind]
    exact ⟨s₃, read', left'⟩

theorem accepts {sym : Nonterminal} {toks : List Token} {cmd : Cmd} (derived : Derives sym toks cmd) :
    Accepts sym toks cmd := by
  induction derived with
  | last n _ pipe => exact accepts_last n pipe
  | seq n _ _ pipe line => exact accepts_seq n pipe line
  | one _ exec => exact accepts_one exec
  | bar _ _ exec pipe => exact accepts_bar exec pipe
  | block _ redirs line => exact accepts_block line redirs
  | simple redirs args few => exact accepts_simple redirs args few

/-! ### Lines -/

theorem scan_length (pos : Nat) (start : Option Nat) (l : List Letter) :
    (scan pos start l).length ≤ l.length + (ended start pos).length := by
  have none : ∀ pos, (ended none pos).length = 0 := fun pos => rfl
  have some : ∀ q pos, (ended (some q) pos).length = 1 := fun q pos => rfl
  fun_induction scan pos start l with
  | case1 => simp
  | case7 pos start d rest white gt symbol ih =>
    rw [some] at ih
    rw [List.length_cons]
    omega
  | _ =>
    simp only [List.length_append, List.length_cons, List.length_nil, none] at *
    omega

theorem rest_nil_of_tokens {s : Cursor} (none : s.tokens = []) : s.skipWhite.rest = [] := by
  rcases skipWhite_cases s with stop | ⟨c, rest, -, -, t, e, -, scanned, -, -⟩
  · exact stop
  · rw [← tokens_skipWhite, scanned] at none
    exact absurd none (List.cons_ne_nil _ _)

theorem tokens_of_rest_nil {s : Cursor} (stop : s.skipWhite.rest = []) : s.tokens = [] := by
  rw [← tokens_skipWhite, Cursor.tokens, stop]
  rfl

def tokenize (buf : List UInt8) : List Token := scan 0 none (letters buf)

theorem cost_tokenize (buf : List UInt8) :
    Nonterminal.line.cost (tokenize buf).length ≤ 4 * (letters buf).length + 4 := by
  have bound := scan_length 0 none (letters buf)
  simp only [ended, List.length_nil, Nonterminal.cost, tokenize] at bound ⊢
  omega

theorem parsecmd_cases (buf : List UInt8) :
    (∃ cmd, parsecmd buf = .ok (cmd, nulterminate buf cmd) ∧ Derives .line (tokenize buf) cmd) ∨
    ∃ p, parsecmd buf = .error (.panic p) := by
  have good := allGood _ .line ⟨0, letters buf⟩ (cost_tokenize buf)
  simp only [Nonterminal.parse] at good
  simp only [parsecmd]
  generalize parseline (4 * (letters buf).length + 4) ⟨0, letters buf⟩ = r at good ⊢
  cases r with
  | error e =>
    obtain ⟨p, rfl⟩ := good
    exact Or.inr ⟨p, rfl⟩
  | ok r =>
    obtain ⟨cmd, s⟩ := r
    obtain ⟨used, split, derived⟩ := good
    by_cases stop : s.skipWhite.rest = []
    · refine Or.inl ⟨cmd, ?_, ?_⟩
      · simp only [bind, Except.bind, peek, stop, ne_eq, not_true_eq_false, if_false, pure, Except.pure]
      · rw [tokens_of_rest_nil stop, List.append_nil] at split
        rw [← split] at derived
        exact derived
    · refine Or.inr ⟨.malformed, ?_⟩
      simp only [bind, Except.bind, peek, stop, ne_eq, not_false_eq_true, if_true]

theorem parsecmd_of_derives {buf : List UInt8} {cmd : Cmd} (derived : Derives .line (tokenize buf) cmd) :
    parsecmd buf = .ok (cmd, nulterminate buf cmd) := by
  obtain ⟨s, read, left⟩ := accepts derived _ ⟨0, letters buf⟩ [] (List.append_nil _).symm (Or.inl rfl)
    (cost_tokenize buf)
  simp only [Nonterminal.parse] at read
  have stop := rest_nil_of_tokens left
  simp only [parsecmd, read, peek, stop, bind, Except.bind, pure, Except.pure, ne_eq, not_true_eq_false, if_false]

/-- `parsecmd` returns a command exactly for the lines of the grammar, the one of their derivation; on all other
lines it panics, so it neither goes on forever nor writes past the end of `argv`. -/
theorem parsecmd_iff_derives (buf : List UInt8) :
    (∀ cmd, (∃ buf', parsecmd buf = .ok (cmd, buf')) ↔ Derives .line (tokenize buf) cmd) ∧
    ∀ e, parsecmd buf = .error e → ∃ p, e = .panic p := by
  constructor
  · intro cmd
    constructor
    · rintro ⟨buf', read⟩
      rcases parsecmd_cases buf with ⟨cmd', read', derived⟩ | ⟨p, failed⟩
      · rw [read', Except.ok.injEq, Prod.mk.injEq] at read
        exact read.1 ▸ derived
      · rw [failed] at read
        exact absurd read (by simp)
    · intro derived
      exact ⟨_, parsecmd_of_derives derived⟩
  · intro e failed
    rcases parsecmd_cases buf with ⟨cmd, read, -⟩ | ⟨p, failed'⟩
    · rw [read] at failed
      exact absurd failed (by simp)
    · rw [failed', Except.error.injEq] at failed
      exact ⟨p, failed.symm⟩

example : (parsecmd (codes ['l', 's', ' ', '>', 'x', ';', 'p', '\n'])).map Prod.fst =
    .ok (.list (.redir (.exec [⟨0, 2⟩]) ⟨4, 5⟩ (O_WRONLY ||| O_CREATE) 1) (.exec [⟨6, 7⟩])) := by rfl

end Espl.Shell
