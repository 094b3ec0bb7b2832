import Espl.Libc.String
import Mathlib.Data.List.Forall2

/-!
# Words of a command line

`split_command` and `expand_args` of `esplsh.c`. The array `command` is a list of bytes and a
pointer into it an index. With the result comes the list of all bytes of the array that were read or written.
-/

namespace Espl.Esplsh

open Libc (string)

abbrev BUF_LEN : Nat := 1024

abbrev SPACE : UInt8 := 32
abbrev BACKSLASH : UInt8 := 92

structure Split where
  command : List UInt8
  argv : List Nat
  touched : List Nat

def quote (c : UInt8) : Bool := c == 34 || c == 39

def toggle (sep c : UInt8) : UInt8 := if sep = 0 then c else if sep = c then 0 else sep

/-- The loop of `split_command` from the byte `s` on, with the array from there; there is no result if it leaves
the array. -/
def splitCommand.loop (s : Nat) (sep : UInt8) (between : Bool) : List UInt8 → Option Split
  | [] => none
  | c :: rest =>
    if c = 0 then some ⟨c :: rest, [], [s]⟩
    else if c = BACKSLASH then
      match rest with
      | [] => none
      | d :: rest => (loop (s + 2) sep false rest).map fun r =>
        ⟨c :: d :: r.command, if between then (s + 1) :: r.argv else r.argv, s :: r.touched⟩
    else if c = SPACE ∧ sep = 0 then (loop (s + 1) sep true rest).map fun r => ⟨0 :: r.command, r.argv, s :: r.touched⟩
    else (loop (s + 1) (if quote c then toggle sep c else sep) false rest).map fun r =>
      ⟨c :: r.command, if between then s :: r.argv else r.argv, s :: r.touched⟩

def splitCommand (command : List UInt8) : Option Split := splitCommand.loop 0 0 true command

/-- The body of the loop of `expand_args` on the block that `strdup` makes of an argument; there is no result if
it writes outside of the block. -/
def expand (arg : List UInt8) : Option (List UInt8) :=
  let block := arg ++ [0]
  if quote (block.headD 0) then
    let block := (block.drop 1).take arg.length ++ block.drop arg.length
    let len := (string block).length
    if len = 0 then none else some (string (block.set (len - 1) 0))
  else some (string block)

/-- `expand_args`: the arguments, and the bytes of `command` that were read. -/
def expandArgs (command : List UInt8) : List Nat → Option (List (List UInt8) × List Nat)
  | [] => some ([], [])
  | a :: argv =>
    let arg := string (command.drop a)
    if a + arg.length < command.length then
      (expand arg).bind fun arg' =>
        (expandArgs command argv).map fun r => (arg' :: r.1, List.range' a (arg.length + 1) ++ r.2)
    else none

def arguments (command : List UInt8) : Option (List (List UInt8) × List Nat) :=
  (splitCommand command).bind fun r => (expandArgs r.command r.argv).map fun e => (e.1, r.touched ++ e.2)

structure Line where
  text : List UInt8
  plain : 0 ∉ text
  short : text.length < BUF_LEN

/-- Whatever is left behind the line, only the line and its NUL are read and written, and the arguments are the
same. -/
def Line.Safe (line : Line) : Prop :=
  ∃ args, ∀ stale, line.text.length + 1 + stale.length = BUF_LEN + 1 →
    ∃ touched, arguments (line.text ++ 0 :: stale) = some (args, touched) ∧ ∀ i ∈ touched, i ≤ line.text.length

/-- The rest of a word and the words after it, which end at spaces outside of quotes. A backslash takes the next byte
with it; there are no words if it has none to take. At the start of a word it does not belong to it. -/
def words (sep : UInt8) (between : Bool) : List UInt8 → Option (List UInt8 × List (List UInt8))
  | [] => some ([], [])
  | c :: text =>
    if c = BACKSLASH then
      match text with
      | [] => none
      | d :: text => (words sep false text).map fun r =>
          if between then ([], (d :: r.1) :: r.2) else (c :: d :: r.1, r.2)
    else if c = SPACE ∧ sep = 0 then (words sep true text).map fun r => ([], r.2)
    else (words (if quote c then toggle sep c else sep) false text).map fun r =>
      if between then ([], (c :: r.1) :: r.2) else (c :: r.1, r.2)

/-- The line does not end in an escape, and no word is a single quote. -/
def Line.Proper (line : Line) : Prop :=
  ∃ w ws, words 0 true line.text = some (w, ws) ∧ ∀ v ∈ ws, ∀ c, quote c = true → v ≠ [c]

/-! ### Splitting -/

/-- The pointers to words in the array from the byte `s` on, of which `n` bytes and a NUL belong to the line. -/
def Points (s n : Nat) (command : List UInt8) (a : Nat) (w : List UInt8) : Prop :=
  ∃ k, a = s + k ∧ string (command.drop k) = w ∧ k + w.length ≤ n

section

variable {s n m : Nat} {sep c d : UInt8} {between : Bool} {text stale command w : List UInt8} {ws : List (List UInt8)}
  {argv : List Nat} {a : Nat}

theorem Points.shift (front : List UInt8) (h : Points (s + front.length) n command a w) : Points s (n + front.length)
    (front ++ command) a w := by
  obtain ⟨k, rfl, same, le⟩ := h
  refine ⟨front.length + k, by omega, ?_, by omega⟩
  rwa [List.drop_append, List.drop_eq_nil_of_le (by omega), List.nil_append, Nat.add_sub_cancel_left]

structure Splits (s : Nat) (between : Bool) (text stale w : List UInt8) (ws : List (List UInt8))
    (r : Split) : Prop where
  length : r.command.length = text.length + 1 + stale.length
  touched : ∀ i ∈ r.touched, i ≤ s + text.length
  current : between = false → string r.command = w ∧ w.length ≤ text.length
  words : List.Forall₂ (Points s text.length r.command) r.argv ws

theorem loop_nul (s : Nat) (sep : UInt8) (between : Bool) (rest : List UInt8) :
    splitCommand.loop s sep between (0 :: rest) = some ⟨0 :: rest, [], [s]⟩ := by
  rw [splitCommand.loop.eq_def]
  exact if_pos rfl

theorem loop_escape (s : Nat) (sep : UInt8) (between : Bool) (d : UInt8) (rest : List UInt8) :
    splitCommand.loop s sep between (BACKSLASH :: d :: rest) = (splitCommand.loop (s + 2) sep false rest).map fun r =>
      ⟨BACKSLASH :: d :: r.command, if between then (s + 1) :: r.argv else r.argv, s :: r.touched⟩ := by
  rw [splitCommand.loop, if_neg (by decide), if_pos rfl]

theorem loop_space (s : Nat) (between : Bool) (rest : List UInt8) :
    splitCommand.loop s 0 between (SPACE :: rest) =
      (splitCommand.loop (s + 1) 0 true rest).map fun r => ⟨0 :: r.command, r.argv, s :: r.touched⟩ := by
  rw [splitCommand.loop.eq_def]
  exact (if_neg (by decide)).trans ((if_neg (by decide)).trans (if_pos ⟨rfl, rfl⟩))

theorem loop_other (nonzero : c ≠ 0) (plain : c ≠ BACKSLASH) (inside : ¬ (c = SPACE ∧ sep = 0)) (s : Nat)
    (between : Bool) (rest : List UInt8) :
    splitCommand.loop s sep between (c :: rest) =
      (splitCommand.loop (s + 1) (if quote c then toggle sep c else sep) false rest).map fun r =>
        ⟨c :: r.command, if between then s :: r.argv else r.argv, s :: r.touched⟩ := by
  rw [splitCommand.loop.eq_def]
  exact (if_neg nonzero).trans ((if_neg plain).trans (if_neg inside))

theorem Splits.word (front : List UInt8) {rest : List UInt8} {r : Split}
    (h : Splits (s + (front ++ [c]).length) false rest stale w ws r) (plain : 0 ∉ front ++ [c]) (between : Bool) :
    Splits s between (front ++ [c] ++ rest) stale (if between then [] else front ++ c :: w)
      (if between then (c :: w) :: ws else ws)
      ⟨front ++ [c] ++ r.command, if between then (s + front.length) :: r.argv else r.argv, s :: r.touched⟩ := by
  obtain ⟨current, le⟩ := h.current rfl
  have later : List.Forall₂ (Points s (front ++ [c] ++ rest).length (front ++ [c] ++ r.command)) r.argv ws := by
    refine h.words.imp fun a w points => ?_
    rw [List.length_append, Nat.add_comm]
    exact points.shift (front ++ [c])
  constructor
  · have := h.length
    simp only [List.length_append] at this ⊢
    omega
  · refine List.forall_mem_cons.mpr ⟨Nat.le_add_right _ _, fun i member => ?_⟩
    have := h.touched i member
    simp only [List.length_append] at this ⊢
    omega
  · intro inside
    subst inside
    refine ⟨?_, ?_⟩
    · rw [Libc.string_plain_append plain, current, List.append_assoc]
      rfl
    · simp only [Bool.false_eq_true, if_false, List.length_append, List.length_cons, List.length_nil]
      omega
  · cases between with
    | false => exact later
    | true =>
      refine List.Forall₂.cons ⟨front.length, rfl, ?_, ?_⟩ later
      · rw [List.append_assoc, List.drop_left,
          Libc.string_plain_append (fun zero => plain (List.mem_append_right _ zero)), current]
        rfl
      · simp only [List.length_append, List.length_cons, List.length_nil]
        omega

theorem Splits.space {rest : List UInt8} {r : Split} (h : Splits (s + 1) true rest stale w ws r) (between : Bool) :
    Splits s between (SPACE :: rest) stale [] ws ⟨0 :: r.command, r.argv, s :: r.touched⟩ where
  length := by simp [h.length]; omega
  touched := by
    refine List.forall_mem_cons.mpr ⟨Nat.le_add_right _ _, fun i member => ?_⟩
    have := h.touched i member
    rw [List.length_cons]
    omega
  current _ := ⟨by simp [string], Nat.zero_le _⟩
  words := h.words.imp fun _ _ points => points.shift [0]

theorem loop_words (split : words sep between text = some (w, ws)) (plain : 0 ∉ text) (s : Nat) (stale : List UInt8) :
    ∃ r, splitCommand.loop s sep between (text ++ 0 :: stale) = some r ∧ Splits s between text stale w ws r := by
  fun_induction words sep between text generalizing s w ws with
  | case1 sep between =>
    obtain ⟨rfl, rfl⟩ := Prod.mk.inj (Option.some.inj split)
    refine ⟨_, loop_nul s sep between stale, ?_, ?_, ?_, .nil⟩
    · exact Nat.add_comm _ _
    · simp
    · exact fun _ => ⟨by simp [string], Nat.le.refl⟩
  | case2 sep between => cases split
  | case3 sep between d rest ih =>
    obtain ⟨⟨w', ws'⟩, sub, same⟩ := Option.map_eq_some_iff.mp split
    simp only [List.mem_cons, not_or] at plain
    obtain ⟨r, run, splits⟩ := ih sub plain.2.2 (s + 2)
    have word := splits.word [BACKSLASH] (by simpa using ⟨plain.1, plain.2.1⟩) between
    refine ⟨_, by rw [List.cons_append, List.cons_append, loop_escape, run]; rfl, ?_⟩
    cases between <;> obtain ⟨rfl, rfl⟩ := Prod.mk.inj same <;> exact word
  | case4 sep between c rest _ space ih =>
    obtain ⟨⟨w', ws'⟩, sub, same⟩ := Option.map_eq_some_iff.mp split
    obtain ⟨rfl, rfl⟩ := Prod.mk.inj same
    obtain ⟨rfl, rfl⟩ := space
    obtain ⟨r, run, splits⟩ := ih sub (fun zero => plain (List.mem_cons_of_mem _ zero)) (s + 1)
    exact ⟨_, by rw [List.cons_append, loop_space, run]; rfl, splits.space between⟩
  | case5 sep between c rest escape space ih =>
    obtain ⟨⟨w', ws'⟩, sub, same⟩ := Option.map_eq_some_iff.mp split
    simp only [List.mem_cons, not_or] at plain
    obtain ⟨r, run, splits⟩ := ih sub plain.2 (s + 1)
    have word := splits.word [] (by simpa using plain.1) between
    refine ⟨_, by rw [List.cons_append, loop_other (Ne.symm plain.1) escape space, run]; rfl, ?_⟩
    cases between <;> obtain ⟨rfl, rfl⟩ := Prod.mk.inj same <;> exact word

theorem loop_touches {r : Split} (run : splitCommand.loop s sep between command = some r) : s ∈ r.touched := by
  rw [splitCommand.loop.eq_def] at run
  split at run
  · cases run
  · split at run
    · obtain rfl := Option.some.inj run
      exact List.mem_cons_self
    · split at run
      · split at run
        · cases run
        · obtain ⟨r', -, rfl⟩ := Option.map_eq_some_iff.mp run
          exact List.mem_cons_self
      · split at run <;> obtain ⟨r', -, rfl⟩ := Option.map_eq_some_iff.mp run <;> exact List.mem_cons_self

theorem loop_leaves (split : words sep between text = none) (plain : 0 ∉ text) (s : Nat) (stale : List UInt8) :
    ∀ r, splitCommand.loop s sep between (text ++ 0 :: stale) = some r → s + text.length + 1 ∈ r.touched := by
  fun_induction words sep between text generalizing s with
  | case1 sep between => cases split
  | case2 sep between =>
    intro r run
    rw [List.singleton_append, loop_escape] at run
    obtain ⟨r', run', rfl⟩ := Option.map_eq_some_iff.mp run
    exact List.mem_cons_of_mem _ (loop_touches run')
  | case3 sep between d rest ih =>
    intro r run
    rw [List.cons_append, List.cons_append, loop_escape] at run
    obtain ⟨r', run', rfl⟩ := Option.map_eq_some_iff.mp run
    simp only [List.mem_cons, not_or] at plain
    have member := ih (Option.map_eq_none_iff.mp split) plain.2.2 (s + 2) r' run'
    refine List.mem_cons_of_mem _ ?_
    rwa [List.length_cons, List.length_cons, show s + (rest.length + 1 + 1) + 1 = s + 2 + rest.length + 1 by omega]
  | case4 sep between c rest _ space ih =>
    intro r run
    obtain ⟨rfl, rfl⟩ := space
    rw [List.cons_append, loop_space] at run
    obtain ⟨r', run', rfl⟩ := Option.map_eq_some_iff.mp run
    have member := ih (Option.map_eq_none_iff.mp split) (fun zero => plain (List.mem_cons_of_mem _ zero))
      (s + 1) r' run'
    refine List.mem_cons_of_mem _ ?_
    rwa [List.length_cons, show s + (rest.length + 1) + 1 = s + 1 + rest.length + 1 by omega]
  | case5 sep between c rest escape space ih =>
    intro r run
    simp only [List.mem_cons, not_or] at plain
    rw [List.cons_append, loop_other (Ne.symm plain.1) escape space] at run
    obtain ⟨r', run', rfl⟩ := Option.map_eq_some_iff.mp run
    have member := ih (Option.map_eq_none_iff.mp split) plain.2 (s + 1) r' run'
    refine List.mem_cons_of_mem _ ?_
    rwa [List.length_cons, show s + (rest.length + 1) + 1 = s + 1 + rest.length + 1 by omega]

/-! ### Expanding -/

theorem words_plain (split : words sep between text = some (w, ws)) (plain : 0 ∉ text) : 0 ∉ w ∧ ∀ v ∈ ws,
    v ≠ [] ∧ 0 ∉ v := by
  fun_induction words sep between text generalizing w ws with
  | case1 sep between =>
    obtain ⟨rfl, rfl⟩ := Prod.mk.inj (Option.some.inj split)
    exact ⟨List.not_mem_nil, by simp⟩
  | case2 sep between => cases split
  | case3 sep between d rest ih =>
    obtain ⟨⟨w', ws'⟩, sub, same⟩ := Option.map_eq_some_iff.mp split
    simp only [List.mem_cons, not_or] at plain
    obtain ⟨first, others⟩ := ih sub plain.2.2
    cases between <;> obtain ⟨rfl, rfl⟩ := Prod.mk.inj same
    · refine ⟨?_, others⟩
      simp only [List.mem_cons, not_or]
      exact ⟨plain.1, plain.2.1, first⟩
    · exact ⟨List.not_mem_nil, List.forall_mem_cons.mpr ⟨⟨List.cons_ne_nil _ _, by simp [plain.2.1, first]⟩, others⟩⟩
  | case4 sep between c rest _ space ih =>
    obtain ⟨⟨w', ws'⟩, sub, same⟩ := Option.map_eq_some_iff.mp split
    obtain ⟨rfl, rfl⟩ := Prod.mk.inj same
    exact ⟨List.not_mem_nil, (ih sub fun zero => plain (List.mem_cons_of_mem _ zero)).2⟩
  | case5 sep between c rest escape space ih =>
    obtain ⟨⟨w', ws'⟩, sub, same⟩ := Option.map_eq_some_iff.mp split
    simp only [List.mem_cons, not_or] at plain
    obtain ⟨first, others⟩ := ih sub plain.2
    cases between <;> obtain ⟨rfl, rfl⟩ := Prod.mk.inj same
    · exact ⟨by simp [plain.1, first], others⟩
    · exact ⟨List.not_mem_nil, List.forall_mem_cons.mpr ⟨⟨List.cons_ne_nil _ _, by simp [plain.1, first]⟩, others⟩⟩

theorem expand_other (plain : 0 ∉ c :: w) (other : quote c = false) : expand (c :: w) = some (c :: w) := by
  have bare : quote (((c :: w) ++ [0]).headD 0) ≠ true := by simp [other]
  simp only [expand, if_neg bare]
  rw [Libc.string_append plain]

theorem expand_moved (plain : 0 ∉ w) (opens : quote c = true) :
    expand (c :: w) = if w.length = 0 then none else some (string ((w ++ [0, 0]).set (w.length - 1) 0)) := by
  have quoted : quote (((c :: w) ++ [0]).headD 0) = true := opens
  have moved : (((c :: w) ++ [0]).drop 1).take (c :: w).length ++ ((c :: w) ++ [0]).drop
    (c :: w).length = w ++ [0, 0] := by
    have whole : (w ++ [0]).take (w.length + 1) = w ++ [0] := List.take_of_length_le (by simp)
    simp [whole]
  simp only [expand, if_pos quoted, moved, Libc.string_append plain]

theorem expand_quoted (plain : 0 ∉ w) (opens : quote c = true) (nonzero : d ≠ 0) :
    expand (c :: (w ++ [d])) = some w := by
  have all : 0 ∉ w ++ [d] := by simp [plain, Ne.symm nonzero]
  rw [expand_moved all opens, if_neg (by simp)]
  simp [Libc.string_append plain]

theorem expand_lone (opens : quote c = true) : expand [c] = none := by
  rw [expand_moved List.not_mem_nil opens]
  rfl

theorem expand_eq_none_iff (some : w ≠ []) (plain : 0 ∉ w) : expand w = none ↔ ∃ c, quote c = true ∧ w = [c] := by
  obtain ⟨c, v, rfl⟩ := List.exists_cons_of_ne_nil some
  constructor
  · intro fails
    cases opens : quote c with
    | false =>
      rw [expand_other plain opens] at fails
      cases fails
    | true =>
      refine ⟨c, opens, ?_⟩
      rw [expand_moved (fun zero => plain (List.mem_cons_of_mem _ zero)) opens] at fails
      by_cases lone : v.length = 0
      · rw [List.length_eq_zero_iff.mp lone]
      · rw [if_neg lone] at fails
        cases fails
  · rintro ⟨e, opens, same⟩
    rw [same]
    exact expand_lone opens

theorem expandArgs_words (points : List.Forall₂ (Points 0 n command) argv ws) (size : n < command.length) :
    (expandArgs command argv).map Prod.fst = ws.mapM expand ∧ ∀ r, expandArgs command argv = some r →
    ∀ i ∈ r.2, i ≤ n := by
  induction points with
  | nil => exact ⟨rfl, fun r run => by cases run; simp⟩
  | cons here _ ih =>
    obtain ⟨k, rfl, rfl, le⟩ := here
    rw [Nat.zero_add] at *
    rw [expandArgs]
    simp only [if_pos (show k + (string (command.drop k)).length < command.length by omega)]
    rw [List.mapM_cons, ← ih.1]
    cases expand (string (command.drop k)) with
    | none => exact ⟨rfl, fun r run => by cases run⟩
    | some arg =>
      cases rest : expandArgs command _ with
      | none => exact ⟨rfl, fun r run => by cases run⟩
      | some r =>
        refine ⟨rfl, fun r' run i member => ?_⟩
        obtain rfl := Option.some.inj run
        rcases List.mem_append.mp member with here | later
        · have := List.mem_range'_1.mp here
          omega
        · exact ih.2 r rest i later

theorem arguments_words (split : words 0 true text = some (w, ws)) (plain : 0 ∉ text) (stale : List UInt8) :
    ∃ r, splitCommand (text ++ 0 :: stale) = some r ∧ r.argv.length = ws.length ∧
      (arguments (text ++ 0 :: stale)).map Prod.fst = ws.mapM expand ∧
      ∀ r, arguments (text ++ 0 :: stale) = some r → ∀ i ∈ r.2, i ≤ text.length := by
  obtain ⟨r, run, splits⟩ := loop_words split plain 0 stale
  have size : text.length < r.command.length := by
    rw [splits.length]
    omega
  obtain ⟨args, inside⟩ := expandArgs_words splits.words size
  refine ⟨r, run, splits.words.length_eq, ?_, ?_⟩
  · rw [arguments, splitCommand, run, Option.bind_some, Option.map_map]
    exact args
  · intro e done
    rw [arguments, splitCommand, run, Option.bind_some] at done
    obtain ⟨e', expanded, rfl⟩ := Option.map_eq_some_iff.mp done
    intro i member
    rcases List.mem_append.mp member with early | late
    · exact Nat.le_trans (splits.touched i early) (by omega)
    · exact inside e' expanded i late

theorem mapM_expand_eq_none (some : ∀ w ∈ ws, w ≠ [] ∧ 0 ∉ w) :
    ws.mapM expand = none ↔ ∃ w ∈ ws, ∃ c, quote c = true ∧ w = [c] := by
  induction ws with
  | nil => simp
  | cons w ws ih =>
    obtain ⟨⟨nonempty, plain⟩, others⟩ := List.forall_mem_cons.mp some
    rw [List.mapM_cons]
    simp only [List.mem_cons, exists_eq_or_imp, ← expand_eq_none_iff nonempty plain, ← ih others]
    cases expand w with
    | none => simp
    | some arg => cases ws.mapM expand <;> simp

end

/-- Splitting goes behind a line that ends in an escape, and expanding stores before a single quote. -/
theorem Line.Safe.proper {line : Line} (safe : line.Safe) : line.Proper := by
  obtain ⟨args, safe⟩ := safe
  have size : line.text.length + 1 + (List.replicate (BUF_LEN - line.text.length) (0 : UInt8)).length =
    BUF_LEN + 1 := by
    have := line.short
    rw [List.length_replicate]
    omega
  obtain ⟨touched, done, inside⟩ := safe _ size
  cases split : words 0 true line.text with
  | none =>
    obtain ⟨r, run, rest⟩ := Option.bind_eq_some_iff.mp done
    obtain ⟨e, -, same⟩ := Option.map_eq_some_iff.mp rest
    have past := loop_leaves split line.plain 0 _ r run
    have := inside _ ((Prod.mk.inj same).2 ▸ List.mem_append_left _ past)
    omega
  | some r =>
    obtain ⟨w, ws⟩ := r
    refine ⟨w, ws, split, fun v member c opens lone => ?_⟩
    obtain ⟨-, -, -, result, -⟩ := arguments_words split line.plain _
    rw [(mapM_expand_eq_none (words_plain split line.plain).2).mpr ⟨v, member, c, opens, lone⟩, done] at result
    cases result

theorem Line.Proper.safe {line : Line} (proper : line.Proper) : line.Safe := by
  obtain ⟨w, ws, split, proper⟩ := proper
  obtain ⟨-, plain⟩ := words_plain split line.plain
  cases expanded : ws.mapM expand with
  | none =>
    obtain ⟨v, member, c, opens, lone⟩ := (mapM_expand_eq_none plain).mp expanded
    exact absurd lone (proper v member c opens)
  | some args =>
    refine ⟨args, fun stale _ => ?_⟩
    obtain ⟨-, -, -, result, inside⟩ := arguments_words split line.plain stale
    rw [expanded] at result
    obtain ⟨⟨_, touched⟩, done, rfl⟩ := Option.map_eq_some_iff.mp result
    exact ⟨touched, done, inside _ done⟩

/-- The words of a line are found within it, whatever is left behind it, if and only if it is proper. -/
theorem line_safe_iff (line : Line) : line.Safe ↔ line.Proper := ⟨Line.Safe.proper, Line.Proper.safe⟩

/-- A line that ends in an escape, and one that is a single quote. -/
theorem line_unsafe :
    ¬ (⟨[97, SPACE, BACKSLASH], by decide, by decide⟩ : Line).Safe ∧ ¬ (⟨[34], by decide, by decide⟩ : Line).Safe := by
  constructor
  · intro safe
    obtain ⟨w, ws, split, -⟩ := safe.proper
    cases split
  · intro safe
    obtain ⟨w, ws, split, proper⟩ := safe.proper
    cases split
    exact proper [34] (List.mem_singleton.mpr rfl) 34 rfl rfl

end Espl.Esplsh
