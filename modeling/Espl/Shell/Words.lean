import Espl.Shell.Accepts
import Mathlib.Data.List.Perm.Basic

/-!
# Words

`nulterminate` ends each word of the line where it stands, and changes no other word.
-/

namespace Espl.Shell

/-- The words in a command, in the order in which `nulterminate` comes to them. -/
def Cmd.words : Cmd → List Span
  | .exec argv => argv
  | .redir cmd file _ _ => cmd.words ++ [file]
  | .pipe left right => left.words ++ right.words
  | .list left right => left.words ++ right.words
  | .back cmd => cmd.words

def Token.span? : Token → Option Span
  | .word w => some w
  | _ => none

def string (buf : List UInt8) (p : Nat) : List UInt8 := (buf.drop p).takeWhile (· ≠ 0)

def Span.text (buf : List UInt8) (w : Span) : List UInt8 := (buf.drop w.q).take (w.eq - w.q)

/-! ### Words of the line -/

structure Span.Stands (input : List Letter) (w : Span) : Prop where
  nonempty : w.q < w.eq
  bound : w.eq ≤ input.length
  inside : ∀ i, w.q ≤ i → i < w.eq → ∃ c, input[i]? = some c ∧ wordChar c.val = true
  stops : ∀ c, input[w.eq]? = some c → wordChar c.val = false

variable {input : List Letter} {start : Option Nat} {w : Span} {pos : Nat}

def Begun (input : List Letter) (pos : Nat) (start : Option Nat) : Prop :=
  ∀ q, start = some q → q < pos ∧ ∀ i, q ≤ i → i < pos → ∃ c, input[i]? = some c ∧ wordChar c.val = true

theorem begun_none (input : List Letter) (pos : Nat) : Begun input pos none := by
  intro q some
  cases some

theorem Begun.letter {c : Letter} (begun : Begun input pos start) (here : input[pos]? = some c)
    (word : wordChar c.val = true) : Begun input (pos + 1) (some (start.getD pos)) := by
  intro q is
  obtain rfl := Option.some.inj is
  have low : start.getD pos ≤ pos := by
    cases start with
    | none => exact Nat.le.refl
    | some q => exact Nat.le_of_lt (begun q rfl).1
  refine ⟨by omega, fun i first last => ?_⟩
  by_cases here' : i = pos
  · exact ⟨c, here' ▸ here, word⟩
  · cases start with
    | none =>
      rw [Option.getD_none] at first
      omega
    | some q => exact (begun q rfl).2 i first (by omega)

theorem stands_ended (begun : Begun input pos start) (bound : pos ≤ input.length)
    (stops : ∀ c, input[pos]? = some c → wordChar c.val = false) (member : .word w ∈ ended start pos) :
    w.Stands input := by
  cases start with
  | none => cases member
  | some q =>
    obtain rfl : w = ⟨q, pos⟩ := by simpa [ended] using member
    exact ⟨(begun q rfl).1, bound, (begun q rfl).2, stops⟩

theorem drop_cons {c : Letter} {rest : List Letter} (here : input.drop pos = c :: rest) :
    input[pos]? = some c ∧ input.drop (pos + 1) = rest ∧ pos + 1 ≤ input.length := by
  have length := congrArg List.length here
  rw [List.length_drop, List.length_cons] at length
  refine ⟨?_, ?_, by omega⟩
  · have first := congrArg List.head? here
    rwa [List.head?_drop] at first
  · rw [← List.drop_drop, here]
    rfl

theorem stands_break {c : Letter} {rest : List Letter} (begun : Begun input pos start)
    (here : input.drop pos = c :: rest)
    (breaks : wordChar c.val = false) (member : .word w ∈ ended start pos) : w.Stands input := by
  obtain ⟨first, -, bound⟩ := drop_cons here
  refine stands_ended begun (Nat.le_of_succ_le bound) (fun d is => ?_) member
  rw [first, Option.some.injEq] at is
  rwa [← is]

theorem scan_stands {l : List Letter} (here : input.drop pos = l) (bound : pos ≤ input.length)
    (begun : Begun input pos start) (member : .word w ∈ scan pos start l) : w.Stands input := by
  fun_induction scan pos start l with
  | case1 pos start =>
    refine stands_ended begun bound (fun c is => ?_) member
    rw [List.getElem?_eq_none (List.drop_eq_nil_iff.mp here)] at is
    cases is
  | case2 pos start c rest white ih =>
    obtain ⟨-, next, bound⟩ := drop_cons here
    rcases List.mem_append.mp member with first | later
    · exact stands_break begun here (by simp only [wordChar, white, Bool.not_true, Bool.false_and]) first
    · exact ih next bound (begun_none _ _) later
  | case3 pos start c black gt =>
    rcases List.mem_append.mp member with first | later
    · exact stands_break begun here (gt ▸ by decide) first
    · simp at later
  | case4 pos start c black gt d rest gt' ih =>
    obtain ⟨-, next, -⟩ := drop_cons here
    obtain ⟨-, next, bound⟩ := drop_cons next
    rcases List.mem_append.mp member with first | later
    · exact stands_break begun here (gt ▸ by decide) first
    · exact ih next bound (begun_none _ _) (by simpa using later)
  | case5 pos start c black gt d rest other ih =>
    obtain ⟨-, next, bound⟩ := drop_cons here
    rcases List.mem_append.mp member with first | later
    · exact stands_break begun here (gt ▸ by decide) first
    · exact ih next bound (begun_none _ _) (by simpa using later)
  | case6 pos start c rest black other symbol ih =>
    obtain ⟨-, next, bound⟩ := drop_cons here
    rcases List.mem_append.mp member with first | later
    · exact stands_break begun here (by simp only [wordChar, symbol, Bool.not_true, Bool.and_false]) first
    · refine ih next bound (begun_none _ _) ((List.mem_cons.mp later).resolve_left fun op => ?_)
      exact operator_ne_word _ _ op.symm
  | case7 pos start c rest black other plain ih =>
    obtain ⟨first, next, bound⟩ := drop_cons here
    refine ih next bound (begun.letter first ?_) member
    simp only [wordChar, eq_false_of_ne_true black, eq_false_of_ne_true plain, Bool.not_false, Bool.and_self]

theorem tokenize_stands {buf : List UInt8} (member : .word w ∈ tokenize buf) : w.Stands (letters buf) :=
  scan_stands List.drop_zero (Nat.zero_le _) (begun_none _ _) member

/-! ### Words of the command -/

@[simp] theorem words_backs (n : Nat) (cmd : Cmd) : (backs n cmd).words = cmd.words := by
  induction n generalizing cmd with
  | zero => rfl
  | succ n ih => exact ih (.back cmd)

@[simp] theorem words_wrap (rs : List Redirection) (cmd : Cmd) :
    (wrap rs cmd).words = cmd.words ++ rs.map Redirection.file := by
  induction rs generalizing cmd with
  | nil => simp [wrap]
  | cons r rs ih =>
    have step : wrap (r :: rs) cmd = wrap rs (r.around cmd) := rfl
    rw [step, ih]
    simp [Redirection.around, Cmd.words]

theorem Redirs.files {toks : List Token} {rs : List Redirection} (h : Redirs toks rs) :
    toks.filterMap Token.span? = rs.map Redirection.file := by
  induction h with
  | nil => rfl
  | cons redir _ ih =>
    rw [List.filterMap_append, ih]
    cases redir <;> rfl

theorem Args.spans {toks : List Token} {words : List Span} {rs : List Redirection} (h : Args toks words rs) :
    (toks.filterMap Token.span?).Perm (words ++ rs.map Redirection.file) := by
  induction h with
  | nil => exact List.Perm.nil
  | @cons toks toks' word words rs rs' redirs _ ih =>
    refine List.Perm.cons word ?_
    rw [List.filterMap_append, redirs.files, List.map_append]
    calc rs.map Redirection.file ++ toks'.filterMap Token.span?
      _ |>.Perm (rs.map Redirection.file ++ (words ++ rs'.map Redirection.file)) := ih.append_left _
      _ |>.Perm (words ++ (rs.map Redirection.file ++ rs'.map Redirection.file)) := by
        rw [← List.append_assoc, ← List.append_assoc]
        exact List.perm_append_comm.append_right _

theorem Derives.spans {sym : Nonterminal} {toks : List Token} {cmd : Cmd} (h : Derives sym toks cmd) :
    cmd.words.Perm (toks.filterMap Token.span?) := by
  have amps : ∀ n, (List.replicate n Token.amp).filterMap Token.span? = [] := by
    intro n
    rw [List.filterMap_replicate_of_none rfl]
  induction h with
  | last n _ ih => simpa [amps] using ih
  | seq n _ _ left right =>
    rw [List.filterMap_append, List.filterMap_append, amps, List.append_nil, List.filterMap_cons_none rfl]
    simp only [Cmd.words, words_backs]
    exact left.append right
  | one _ ih => exact ih
  | bar _ _ left right =>
    rw [List.filterMap_append, List.filterMap_cons_none rfl]
    exact left.append right
  | block _ redirs ih =>
    rw [List.filterMap_cons_none rfl, List.filterMap_append, List.filterMap_cons_none rfl, redirs.files, words_wrap]
    exact ih.append_right _
  | simple redirs args _ =>
    rw [List.filterMap_append, redirs.files, words_wrap, List.map_append]
    simp only [Cmd.words]
    refine List.Perm.symm ((args.spans.append_left _).trans ?_)
    rw [← List.append_assoc, ← List.append_assoc]
    exact List.perm_append_comm.append_right _

/-! ### Termination -/

def terminate (words : List Span) (buf : List UInt8) : List UInt8 := words.foldl (fun buf word => buf.set word.eq 0) buf

theorem nulterminate_eq (buf : List UInt8) (cmd : Cmd) : nulterminate buf cmd = terminate cmd.words buf := by
  induction cmd generalizing buf with
  | exec argv => rfl
  | redir cmd file mode fd ih => simp only [nulterminate, ih, terminate, Cmd.words, List.foldl_append, List.foldl_cons,
      List.foldl_nil]
  | pipe _ _ ihl ihr | list _ _ ihl ihr => simp only [nulterminate, ihl, ihr, terminate, Cmd.words, List.foldl_append]
  | back cmd ih => exact ih buf

theorem terminate_other {words : List Span} {buf : List UInt8} {i : Nat} (other : ∀ w ∈ words, w.eq ≠ i) :
    (terminate words buf)[i]? = buf[i]? := by
  induction words generalizing buf with
  | nil => rfl
  | cons w words ih =>
    refine (ih fun v member => other v (List.mem_cons_of_mem _ member)).trans ?_
    exact List.getElem?_set_ne (other w List.mem_cons_self)

theorem terminate_zero {words : List Span} {buf : List UInt8} {i : Nat} (zero : ∀ c ∈ buf[i]?, c = 0) :
    ∀ c ∈ (terminate words buf)[i]?, c = 0 := by
  induction words generalizing buf with
  | nil => exact zero
  | cons w words ih =>
    refine ih fun c is => ?_
    rw [List.getElem?_set] at is
    split at is
    · split at is
      · exact (Option.some.inj is).symm
      · cases is
    · exact zero c is

theorem terminate_end {words : List Span} (buf : List UInt8) (member : w ∈ words) :
    ∀ c ∈ (terminate words buf)[w.eq]?, c = 0 := by
  obtain ⟨before, after, rfl⟩ := List.append_of_mem member
  have last : terminate (before ++ w :: after) buf = terminate after ((terminate before buf).set w.eq 0) := by
    simp only [terminate, List.foldl_append, List.foldl_cons]
  rw [last]
  refine terminate_zero fun c is => ?_
  rw [List.getElem?_set, if_pos rfl] at is
  split at is
  · exact (Option.some.inj is).symm
  · cases is

theorem letters_getElem? {buf : List UInt8} {i : Nat} {c : Letter} (here : (letters buf)[i]? = some c) :
    buf[i]? = some c.val := by
  induction buf generalizing i with
  | nil => simp [letters] at here
  | cons b buf ih =>
    rw [letters] at here
    split at here
    · cases i with
      | zero =>
        obtain rfl := Option.some.inj here
        rfl
      | succ i => exact ih here
    · cases here

section Terminate

variable {buf : List UInt8} {words : List Span}

theorem Span.Stands.apart {v : Span} (stands : w.Stands input) (other : v.Stands input) {i : Nat} (low : w.q ≤ i)
    (high : i < w.eq) : v.eq ≠ i := by
  rintro rfl
  obtain ⟨c, here, word⟩ := stands.inside _ low high
  rw [other.stops c here] at word
  cases word

theorem text_terminate (stands : ∀ v ∈ words, v.Stands (letters buf)) (here : w.Stands (letters buf)) :
    w.text (terminate words buf) = w.text buf := by
  refine List.ext_getElem? fun i => ?_
  simp only [Span.text, List.getElem?_take, List.getElem?_drop]
  split
  · exact terminate_other fun v member => here.apart (stands v member) (by omega) (by omega)
  · rfl

theorem nonzero_of_mem_text (here : w.Stands (letters buf)) {c : UInt8} (member : c ∈ w.text buf) : c ≠ 0 := by
  obtain ⟨i, is⟩ := List.mem_iff_getElem?.mp member
  simp only [Span.text, List.getElem?_take, List.getElem?_drop] at is
  split at is
  · obtain ⟨d, letter, -⟩ := here.inside (w.q + i) (by omega) (by omega)
    rw [letters_getElem? letter] at is
    obtain rfl := Option.some.inj is
    exact d.property
  · cases is

theorem string_terminate (stands : ∀ v ∈ words, v.Stands (letters buf)) (member : w ∈ words) :
    string (terminate words buf) w.q = w.text buf := by
  have here := stands w member
  have nonempty := here.nonempty
  -- the word, and a zero or the end of the buffer
  have split : (terminate words buf).drop w.q = w.text buf ++ (terminate words buf).drop w.eq := by
    rw [← text_terminate stands here, Span.text]
    conv_lhs => rw [← List.take_append_drop (w.eq - w.q) ((terminate words buf).drop w.q)]
    rw [List.drop_drop, Nat.add_sub_cancel' (Nat.le_of_lt nonempty)]
  have rest : ((terminate words buf).drop w.eq).takeWhile (· ≠ 0) = [] := by
    have zero := terminate_end buf member
    rw [← List.head?_drop] at zero
    cases tail : (terminate words buf).drop w.eq with
    | nil => rfl
    | cons c tail =>
      rw [tail] at zero
      rw [zero c rfl]
      rfl
  rw [string, split, List.takeWhile_append_of_pos, rest, List.append_nil]
  intro c inside
  simpa using nonzero_of_mem_text here inside

end Terminate

theorem Derives.stands {sym : Nonterminal} {buf : List UInt8} {cmd : Cmd} (h : Derives sym (tokenize buf) cmd) :
    ∀ w ∈ cmd.words, w.Stands (letters buf) := by
  intro w member
  obtain ⟨t, token, is⟩ := List.mem_filterMap.mp (h.spans.subset member)
  cases t with
  | word u =>
    obtain rfl := Option.some.inj is
    exact tokenize_stands token
  | _ => cases is

/-- The words of a command are those of the line; read from the buffer after `nulterminate` each is what it was in the
line, and no word of the line has changed. -/
theorem parsecmd_words {buf buf' : List UInt8} {cmd : Cmd} (read : parsecmd buf = .ok (cmd, buf')) :
    cmd.words.Perm ((tokenize buf).filterMap Token.span?) ∧ (∀ w ∈ cmd.words, string buf' w.q = w.text buf) ∧
    ∀ w, .word w ∈ tokenize buf → w.text buf' = w.text buf ∧ 0 ∉ w.text buf' := by
  rcases parsecmd_cases buf with ⟨cmd', read', derived⟩ | ⟨p, failed⟩
  · rw [read', Except.ok.injEq, Prod.mk.injEq] at read
    obtain ⟨rfl, rfl⟩ := read
    rw [nulterminate_eq]
    refine ⟨derived.spans, fun w member => string_terminate derived.stands member, fun w member => ?_⟩
    have here := tokenize_stands member
    have same := text_terminate derived.stands here
    exact ⟨same, fun zero => nonzero_of_mem_text here (same ▸ zero) rfl⟩
  · rw [failed] at read
    cases read

/-- Both NULs of `a>b` are written, one over the operator. -/
theorem parsecmd_words_redir :
    parsecmd (codes ['a', '>', 'b', '\x00']) =
      .ok (.redir (.exec [⟨0, 1⟩]) ⟨2, 3⟩ (O_WRONLY ||| O_CREATE) 1, codes ['a', '\x00', 'b', '\x00']) ∧
    ∀ w ∈ [(⟨0, 1⟩ : Span), ⟨2, 3⟩],
      string (codes ['a', '\x00', 'b', '\x00']) w.q = w.text (codes ['a', '>', 'b', '\x00']) := by
  have read : parsecmd (codes ['a', '>', 'b', '\x00']) =
      .ok (.redir (.exec [⟨0, 1⟩]) ⟨2, 3⟩ (O_WRONLY ||| O_CREATE) 1, codes ['a', '\x00', 'b', '\x00']) := by rfl
  exact ⟨read, (parsecmd_words read).2.1⟩

end Espl.Shell
