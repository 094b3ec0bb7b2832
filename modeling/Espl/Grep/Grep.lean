import Mathlib.Data.List.Infix
import Espl.Grep.Match
import Espl.Program.Lines

/-!
# The loop of `grep`

`grep` of `grep.c`, with `strchr` and `memmove` of `ulib.c`. Addresses are indices into `buf`, and an
access outside it is an error. The input is a file of which a call of `read` returns as many bytes as
asked for, or fewer.
-/

namespace Espl.Grep

open Shell (code)

def nl : UInt8 := code '\n'

/-- How `grep` can go wrong; the model also stops when a loop is out of fuel. -/
inductive Fault where
  | outside
  | fuel
  deriving DecidableEq, Repr

/-- `strchr` from index `q` on, where the buffer holds the bytes of the list and then ends. -/
def strchr (c : UInt8) (q : Nat) : List UInt8 → Except Fault (Option Nat)
  | [] => .error .outside
  | b :: rest => if b = 0 then .ok none else if b = c then .ok (some q) else strchr c (q + 1) rest

def stringAt (buf : List UInt8) (p : Nat) : List UInt8 := (buf.drop p).takeWhile (· ≠ 0)

def memmove (buf : List UInt8) (dst src : Nat) : Nat → Except Fault (List UInt8)
  | 0 => .ok buf
  | n + 1 =>
    if src < buf.length ∧ dst < buf.length then memmove (buf.set dst (buf.getD src 0)) (dst + 1) (src + 1) n
    else .error .outside

/-- `m` is an `int`; `out` is what each call of `write` has written. -/
structure State where
  buf : List UInt8
  m : Int
  input : List UInt8
  out : List (List UInt8)
  deriving DecidableEq, Repr

/-- The loop over the lines in the buffer: the buffer, `p` and the output after it. -/
def lines (pattern : List UInt8) : Nat → List UInt8 → Nat → List (List UInt8) →
    Except Fault (List UInt8 × Nat × List (List UInt8))
  | 0, _, _, _ => .error .fuel
  | fuel + 1, buf, p, out => do
    match ← strchr nl p (buf.drop p) with
    | none => return (buf, p, out)
    | some q =>
      let cut := buf.set q 0
      if matchText pattern (stringAt cut p) then
        let whole := cut.set q nl
        lines pattern fuel whole (q + 1) (out ++ [(whole.drop p).take (q + 1 - p)])
      else lines pattern fuel cut (q + 1) out

def State.filled (s : State) (piece : List UInt8) : List UInt8 :=
  s.buf.take s.m.toNat ++ piece ++ s.buf.drop (s.m.toNat + piece.length)

def refill (pattern piece : List UInt8) (s : State) : Except Fault State :=
  if s.m < 0 then .error .outside
  else do
    let (buf, p, out) ← lines pattern ((s.filled piece).length + 1) (s.filled piece) 0 s.out
    let m := if p = 0 then 0 else s.m + piece.length
    let input := s.input.drop piece.length
    if 0 < m then
      let m := m - p
      let buf ← memmove buf 0 p m.toNat
      return ⟨buf, m, input, out⟩
    else return ⟨buf, m, input, out⟩

/-- What `read(fd, buf+m, sizeof(buf)-m)` returns if there are `size` bytes to be had at once. -/
def State.read (s : State) (size : Nat) : List UInt8 := s.input.take (min (s.buf.length - s.m).toNat size)

/-- The loop of `grep`, where the `i`th call of `read` finds `size i` bytes. -/
def loop (pattern : List UInt8) (size : Nat → Nat) : Nat → Nat → State → Except Fault State
  | 0, _, _ => .error .fuel
  | fuel + 1, i, s =>
    if s.read (size i) = [] then .ok s
    else do loop pattern size fuel (i + 1) (← refill pattern (s.read (size i)) s)

/-- `grep` on a file, from what an earlier call has left in `buf`: the writes it makes. -/
def grep (pattern : List UInt8) (size : Nat → Nat) (buf input : List UInt8) : Except Fault (List (List UInt8)) := do
  return (← loop pattern size (input.length + 1) 0 ⟨buf, 0, input, []⟩).out

section Scan

variable {l front back rest : List UInt8} {q : Nat}

theorem strchr_found (no_nul : 0 ∉ l) (no_nl : nl ∉ l) : strchr nl q (l ++ nl :: rest) = .ok (some (q + l.length)) := by
  induction l generalizing q with
  | nil => rfl
  | cons b l ih =>
    rw [List.mem_cons, not_or] at no_nul no_nl
    rw [List.cons_append, strchr, if_neg (Ne.symm no_nul.1), if_neg (Ne.symm no_nl.1), ih no_nul.2 no_nl.2,
      List.length_cons]
    congr 2
    omega

theorem strchr_none (no_nl : nl ∉ front) : strchr nl q (front ++ 0 :: back) = .ok none := by
  induction front generalizing q with
  | nil => rfl
  | cons b front ih =>
    rw [List.mem_cons, not_or] at no_nl
    rw [List.cons_append, strchr, if_neg (Ne.symm no_nl.1), ih no_nl.2, ite_self]

theorem strchr_some {found : Nat} (no_nl : nl ∉ l) (h : strchr nl q (l ++ rest) = .ok (some found)) :
    q + l.length ≤ found := by
  induction l generalizing q with
  | nil =>
    rw [List.nil_append] at h
    induction rest generalizing q with
    | nil => cases h
    | cons b rest ih =>
      rw [strchr] at h
      split at h
      · cases h
      · split at h
        · cases h
          exact Nat.le.refl
        · have := ih h
          simp only [List.length_nil] at this ⊢
          omega
  | cons b l ih =>
    rw [List.mem_cons, not_or] at no_nl
    rw [List.cons_append, strchr, if_neg (Ne.symm no_nl.1)] at h
    split at h
    · cases h
    · have := ih no_nl.2 h
      rw [List.length_cons]
      omega

theorem stringAt_eq (before : List UInt8) (no_nul : 0 ∉ l) :
    stringAt (before ++ (l ++ 0 :: rest)) before.length = l := by
  rw [stringAt, List.drop_left, List.takeWhile_append_of_pos]
  · simp
  · intro b mem
    have nonzero : b ≠ 0 := fun zero => no_nul (zero ▸ mem)
    simpa using nonzero

theorem memmove_eq (buf : List UInt8) {dst src : Nat} (n : Nat) (le : dst ≤ src) (fits : src + n ≤ buf.length) :
    ∃ buf', memmove buf dst src n = .ok buf' ∧ buf'.length = buf.length ∧
      ∀ i, buf'[i]? = if dst ≤ i ∧ i < dst + n then buf[src + (i - dst)]? else buf[i]? := by
  induction n generalizing buf dst src with
  | zero =>
    refine ⟨buf, rfl, rfl, fun i => ?_⟩
    rw [if_neg (by omega)]
  | succ n ih =>
    have first : buf[src]? = some (buf.getD src 0) := by
      rw [List.getD_eq_getElem?_getD, List.getElem?_eq_getElem (by omega)]
      rfl
    obtain ⟨buf', moved, length, bytes⟩ := ih (buf.set dst (buf.getD src 0)) (Nat.succ_le_succ le)
      (by rw [List.length_set]; omega)
    refine ⟨buf', ?_, by rw [length, List.length_set], fun i => ?_⟩
    · rw [memmove, if_pos ⟨by omega, by omega⟩, moved]
    · by_cases here : i = dst
      · subst here
        rw [bytes, if_neg (by omega), List.getElem?_set_self (by omega), if_pos (by omega), Nat.sub_self,
          Nat.add_zero, first]
      · by_cases inside : dst ≤ i ∧ i < dst + (n + 1)
        · rw [bytes, if_pos (by omega), if_pos inside, List.getElem?_set_ne (by omega)]
          congr 1
          omega
        · rw [bytes, if_neg (by omega), if_neg inside, List.getElem?_set_ne (Ne.symm here)]

end Scan

def printed (pattern : List UInt8) (ls : List (List UInt8)) : List (List UInt8) :=
  (ls.filter fun l => matchText pattern l).map (· ++ [nl])

def Stops (bytes : List UInt8) : Prop := ∃ front back, bytes = front ++ 0 :: back ∧ nl ∉ front

theorem Stops.pos {bytes : List UInt8} (h : Stops bytes) : bytes ≠ [] := by
  obtain ⟨front, back, rfl, _⟩ := h
  simp

theorem Stops.after {bytes part : List UInt8} (h : Stops bytes) (no_nl : nl ∉ part) : Stops (part ++ bytes) := by
  obtain ⟨front, back, rfl, more⟩ := h
  refine ⟨part ++ front, back, (List.append_assoc _ _ _).symm, ?_⟩
  rw [List.mem_append, not_or]
  exact ⟨no_nl, more⟩

theorem stops_of_strchr {bytes part : List UInt8} {q : Nat} (no_nul : 0 ∉ part)
    (h : strchr nl q (part ++ bytes) = .ok none) : Stops bytes := by
  induction part generalizing q with
  | nil =>
    rw [List.nil_append] at h
    induction bytes generalizing q with
    | nil => cases h
    | cons b bytes ih =>
      rw [strchr] at h
      split at h
      · rename_i zero
        exact ⟨[], bytes, by rw [zero, List.nil_append], List.not_mem_nil⟩
      · split at h
        · cases h
        · rename_i other
          have single : nl ∉ [b] := by simpa using Ne.symm other
          exact (ih h).after single
  | cons b part ih =>
    rw [List.mem_cons, not_or] at no_nul
    rw [List.cons_append, strchr, if_neg (Ne.symm no_nul.1)] at h
    split at h
    · cases h
    · exact ih no_nul.2 h

variable {pattern whole piece : List UInt8} {ls : List (List UInt8)} {s : State}

theorem set_after (before l rest : List UInt8) (b c : UInt8) :
    (before ++ (l ++ b :: rest)).set (before.length + l.length) c = before ++ (l ++ c :: rest) := by
  rw [List.set_append_right _ _ (by omega), List.set_append_right _ _ (by omega)]
  simp

theorem lines_end {before tail : List UInt8} (stops : Stops tail) (out : List (List UInt8)) (fuel : Nat) :
    lines pattern (fuel + 1) (before ++ tail) before.length out = .ok (before ++ tail, before.length, out) := by
  obtain ⟨front, back, rfl, no_nl⟩ := stops
  unfold lines
  rw [List.drop_left, strchr_none no_nl]
  rfl

theorem lines_line {l : List UInt8} (no_nul : 0 ∉ l) (no_nl : nl ∉ l) (before rest : List UInt8)
    (out : List (List UInt8)) (fuel : Nat) :
    lines pattern (fuel + 1) (before ++ (l ++ nl :: rest)) before.length out =
      if matchText pattern l then
        lines pattern fuel (before ++ (l ++ nl :: rest)) (before.length + l.length + 1) (out ++ [l ++ [nl]])
      else lines pattern fuel (before ++ (l ++ 0 :: rest)) (before.length + l.length + 1) out := by
  have written : ((before ++ (l ++ nl :: rest)).drop before.length).take
    (before.length + l.length + 1 - before.length) =
      l ++ [nl] := by
    rw [List.drop_left, show before.length + l.length + 1 - before.length = l.length + 1 by omega, List.take_append,
      List.take_of_length_le (by omega), Nat.add_sub_cancel_left, List.take_succ_cons, List.take_zero]
  rw [lines, List.drop_left, strchr_found no_nul no_nl]
  change (if matchText pattern (stringAt ((before ++ (l ++ nl :: rest)).set (before.length + l.length) 0)
    before.length) = true
    then _ else _) = _
  simp only [set_after, stringAt_eq before no_nul, written]

theorem lines_skip (pattern before tail : List UInt8) (out : List (List UInt8)) (fuel : Nat)
    (clean : ∀ l ∈ ls, 0 ∉ l ∧ nl ∉ l) :
    ∃ before', before'.length = before.length + (joined nl ls).length ∧
      lines pattern (ls.length + fuel) (before ++ (joined nl ls ++ tail)) before.length out =
        lines pattern fuel (before' ++ tail) before'.length (out ++ printed pattern ls) := by
  induction ls generalizing before out with
  | nil => exact ⟨before, rfl, by simp [printed]⟩
  | cons l ls ih =>
    obtain ⟨no_nul, no_nl⟩ := clean l List.mem_cons_self
    -- a newline that was overwritten stays so, but is never looked at again
    have later : ∀ (b : UInt8) (out' : List (List UInt8)), ∃ before',
        before'.length = before.length + (l ++ nl :: joined nl ls).length ∧
          lines pattern (ls.length + fuel) (before ++ (l ++ b :: (joined nl ls ++ tail)))
            (before.length + l.length + 1) out' =
            lines pattern fuel (before' ++ tail) before'.length (out' ++ printed pattern ls) := by
      intro b out'
      obtain ⟨before', length, run⟩ := ih (before ++ (l ++ [b])) out'
        fun k mem => clean k (List.mem_cons_of_mem _ mem)
      refine ⟨before', ?_, ?_⟩
      · rw [length]
        simp only [List.length_append, List.length_cons, List.length_nil]
        omega
      · simpa [Nat.add_assoc] using run
    rw [joined_cons, List.append_assoc, List.cons_append, List.length_cons, Nat.add_right_comm, lines_line no_nul no_nl]
    by_cases found : matchText pattern l = true
    · obtain ⟨before', length, run⟩ := later nl (out ++ [l ++ [nl]])
      refine ⟨before', length, ?_⟩
      rw [if_pos found, run]
      simp [printed, found]
    · obtain ⟨before', length, run⟩ := later 0 out
      refine ⟨before', length, ?_⟩
      rw [if_neg found, run]
      simp [printed, found]

/-- What the loop of `grep` needs when `read` has returned `piece`: the end of a line in it, and behind it
in the buffer a NUL before any newline. -/
def Meets (s : State) (piece : List UInt8) : Prop := nl ∈ piece ∧ Stops (s.buf.drop (s.m.toNat + piece.length))

/-- So far the lines of `whole` that match have been written, and the beginning of the next one is in the
buffer. -/
def Right (pattern whole : List UInt8) (s : State) : Prop :=
  ∃ seen ls part, whole = seen ++ s.input ∧ Cut nl seen ls part ∧ s.out = printed pattern ls ∧
    s.m = part.length ∧ part <+: s.buf ∧ part.length < s.buf.length

theorem cut_ne_nil {x t : List UInt8} (h : Cut nl x ls t) (mem : nl ∈ x) : ls ≠ [] := by
  rintro rfl
  rw [h.whole, joined_nil, List.nil_append] at mem
  exact h.rest mem

theorem lines_le {fuel p p' : Nat} {buf buf' : List UInt8} {out out' : List (List UInt8)}
    (h : lines pattern fuel buf p out = .ok (buf', p', out')) : p ≤ p' := by
  induction fuel generalizing buf p out with
  | zero => cases h
  | succ fuel ih =>
    rw [lines] at h
    cases found : strchr nl p (buf.drop p) with
    | error => rw [found] at h; cases h
    | ok q =>
      rw [found] at h
      cases q with
      | none =>
        cases h
        exact Nat.le.refl
      | some q =>
        have after := strchr_some (l := []) List.not_mem_nil found
        rw [List.length_nil] at after
        have later : ∀ {buf out}, lines pattern fuel buf (q + 1) out = .ok (buf', p', out') → p ≤ p' := fun h => by
          have := ih h
          omega
        change (if _ then _ else _) = _ at h
        split at h
        · exact later h
        · exact later h

section Refill

variable {part part' : List UInt8}

theorem refill_lines (pattern : List UInt8) (m : s.m = part.length) (held : part <+: s.buf)
    (cut : Cut nl (part ++ piece) ls part')
    (no_nul : 0 ∉ part ++ piece) : ∃ before fuel, before.length = (joined nl ls).length ∧
      lines pattern ((s.filled piece).length + 1) (s.filled piece) 0 s.out =
        lines pattern (fuel + 1) (before ++ (part' ++ s.buf.drop (s.m.toNat + piece.length))) before.length
          (s.out ++ printed pattern ls) := by
  have clean : ∀ l ∈ ls, 0 ∉ l ∧ nl ∉ l := by
    intro l mem
    refine ⟨fun zero => no_nul ?_, cut.lines l mem⟩
    rw [cut.whole]
    exact List.mem_append_left _ (List.mem_flatten.mpr ⟨l ++ [nl], List.mem_map_of_mem mem,
      List.mem_append_left _ zero⟩)
  have filled : s.filled piece = joined nl ls ++ (part' ++ s.buf.drop (s.m.toNat + piece.length)) := by
    have front : s.buf.take part.length = part := (List.prefix_iff_eq_take.mp held).symm
    rw [State.filled, m, Int.toNat_natCast, front, cut.whole, List.append_assoc]
  have count : ls.length ≤ (s.filled piece).length := by
    have := length_le_joined nl ls
    rw [filled, List.length_append]
    omega
  obtain ⟨before, length, run⟩ := lines_skip pattern [] (part' ++ s.buf.drop (s.m.toNat + piece.length)) s.out
    ((s.filled piece).length - ls.length + 1) clean
  rw [List.length_nil, Nat.zero_add] at length
  refine ⟨before, _, length, Eq.trans ?_ run⟩
  rw [filled, List.nil_append, List.length_nil, ← filled, ← Nat.add_assoc, Nat.add_sub_cancel' count]

theorem refill_spec (pattern : List UInt8) (m : s.m = part.length) (held : part <+: s.buf)
    (cut : Cut nl (part ++ piece) ls part') (no_nul : 0 ∉ part ++ piece) (meets : Meets s piece) :
    ∃ buf', refill pattern piece s = .ok ⟨buf', part'.length, s.input.drop piece.length, s.out ++ printed pattern ls⟩ ∧
      part' <+: buf' ∧ part'.length < buf'.length := by
  obtain ⟨ends, stops⟩ := meets
  obtain ⟨before, fuel, length, run⟩ := refill_lines pattern m held cut no_nul
  rw [lines_end (stops.after cut.rest)] at run
  generalize s.buf.drop (s.m.toNat + piece.length) = stale at stops run
  have room := List.length_pos_iff.mpr stops.pos
  have size := congrArg List.length cut.whole
  simp only [List.length_append] at size
  have nonempty : before.length ≠ 0 := by
    have := List.length_pos_iff.mpr (cut_ne_nil cut (List.mem_append_right _ ends))
    have := length_le_joined nl ls
    omega
  have left : s.m + piece.length - before.length = part'.length := by omega
  obtain ⟨buf', moved, same, bytes⟩ := memmove_eq (before ++ (part' ++ stale)) part'.length (Nat.zero_le before.length)
    (by simp only [List.length_append]; omega)
  simp only [List.length_append] at same
  refine ⟨buf', ?_, ?_, by omega⟩
  · rw [refill, if_neg (by omega), run]
    simp only [bind, Except.bind, if_neg nonempty, left, Int.toNat_natCast, moved]
    rw [if_pos (by omega)]
    rfl
  · refine List.prefix_iff_getElem?.mpr fun i lt => ?_
    rw [bytes, if_pos (by omega), Nat.sub_zero, List.getElem?_append_right (by omega), Nat.add_sub_cancel_left,
      List.getElem?_append_left lt, List.getElem?_eq_getElem lt]

theorem refill_ok {s' : State} (some : piece ≠ []) (step : refill pattern piece s = .ok s') :
    s'.input = s.input.drop piece.length ∧ ∃ buf p out,
      lines pattern ((s.filled piece).length + 1) (s.filled piece) 0 s.out = .ok (buf, p, out) ∧
        s'.m = if p = 0 then 0 else s.m + piece.length - p := by
  have pos := List.length_pos_iff.mpr some
  unfold refill at step
  split at step
  · cases step
  rename_i m
  cases run : lines pattern ((s.filled piece).length + 1) (s.filled piece) 0 s.out with
  | error => rw [run] at step; cases step
  | ok r =>
    obtain ⟨buf, p, out⟩ := r
    rw [run] at step
    by_cases zero : p = 0
    · simp only [bind, Except.bind, if_pos zero, lt_irrefl, if_false] at step
      cases step
      exact ⟨rfl, buf, p, out, rfl, (if_pos zero).symm⟩
    · simp only [bind, Except.bind, if_neg zero] at step
      rw [if_pos (by omega)] at step
      split at step
      · cases step
      · cases step
        exact ⟨rfl, buf, p, out, rfl, (if_neg zero).symm⟩

theorem refill_meets {s' : State} (m : s.m = part.length) (held : part <+: s.buf) (unfinished : nl ∉ part)
    (cut : Cut nl (part ++ piece) ls part') (no_nul : 0 ∉ part ++ piece) (some : piece ≠ [])
    (step : refill pattern piece s = .ok s') (kept : s'.m = part'.length) : Meets s piece := by
  have pos := List.length_pos_iff.mpr some
  have size := congrArg List.length cut.whole
  simp only [List.length_append] at size
  obtain ⟨before, fuel, length, run⟩ := refill_lines pattern m held cut no_nul
  obtain ⟨_, buf, p, out, ended, m'⟩ := refill_ok some step
  rw [run, lines, List.drop_left] at ended
  cases found : strchr nl before.length (part' ++ s.buf.drop (s.m.toNat + piece.length)) with
  | error => rw [found] at ended; cases ended
  | ok q =>
    rw [found] at ended
    cases q with
    | none =>
      cases ended
      refine ⟨?_, stops_of_strchr (fun zero => no_nul ?_) found⟩
      · cases ls with
        | nil =>
          rw [joined_nil, List.length_nil] at length size
          rw [if_pos length] at m'
          omega
        | cons l ls =>
          have ended : nl ∈ part ++ piece := by simp [cut.whole]
          exact (List.mem_append.mp ended).resolve_left unfinished
      · rw [cut.whole]
        exact List.mem_append_right _ zero
    | some q =>
      have after := strchr_some cut.rest found
      have later : ∀ {b o}, lines pattern fuel b (q + 1) o = .ok (buf, p, out) → False := fun h => by
        have := lines_le h
        rw [if_neg (by omega)] at m'
        omega
      change (if _ then _ else _) = _ at ended
      split at ended
      · exact (later ended).elim
      · exact (later ended).elim

end Refill

inductive Reaches (pattern : List UInt8) (size : Nat → Nat) (start : State) : Nat → State → Prop where
  | start : Reaches pattern size start 0 start
  | refill {i : Nat} {s s' : State} (before : Reaches pattern size start i s) (more : s.read (size i) ≠ [])
      (step : refill pattern (s.read (size i)) s = .ok s') : Reaches pattern size start (i + 1) s'

theorem State.read_append (s : State) (size : Nat) : s.read size ++ s.input.drop (s.read size).length = s.input :=
  List.prefix_iff_eq_append.mp (List.take_prefix _ _)

/-- One round keeps the loop right exactly when it meets what the loop needs. -/
theorem refill_right_iff {size : Nat} (right : Right pattern whole s) (no_nul : 0 ∉ whole) (some : s.read size ≠ []) :
    (∃ s', refill pattern (s.read size) s = .ok s' ∧ Right pattern whole s') ↔ Meets s (s.read size) := by
  obtain ⟨seen, ls, part, rfl, cut, out, m, held, room⟩ := right
  obtain ⟨ls', part', more⟩ := cut_exists nl (part ++ s.read size)
  have split := s.read_append size
  have clean : 0 ∉ part ++ s.read size := by
    rw [← split, cut.whole] at no_nul
    simp only [List.mem_append, not_or] at no_nul ⊢
    exact ⟨no_nul.1.2, no_nul.2.1⟩
  constructor
  · rintro ⟨s', step, seen', ls'', part'', same, cut', _, m', _⟩
    obtain ⟨input, _⟩ := refill_ok some step
    rw [input] at same
    nth_rewrite 1 [← split] at same
    rw [← List.append_assoc, List.append_cancel_right_eq] at same
    obtain ⟨_, rfl⟩ := (cut.append more).unique (same ▸ cut')
    exact refill_meets m held cut.rest more clean some step m'
  · intro meets
    obtain ⟨buf', step, held', room'⟩ := refill_spec pattern m held more clean meets
    refine ⟨_, step, seen ++ s.read size, ls ++ ls', part', ?_, cut.append more, ?_, rfl, held', room'⟩
    · rw [List.append_assoc, split]
    · simp [out, printed]

theorem Right.read_nil {size : Nat} (right : Right pattern whole s) (pos : 0 < size) (none : s.read size = []) :
    s.input = [] := by
  obtain ⟨_, _, part, _, _, _, m, _, room⟩ := right
  rcases List.take_eq_nil_iff.mp none with zero | empty
  · omega
  · exact empty

theorem loop_right {size : Nat → Nat} {start : State} {fuel i : Nat} (right : Right pattern whole s)
    (no_nul : 0 ∉ whole) (pos : ∀ i, 0 < size i) (reached : Reaches pattern size start i s)
    (meets : ∀ i s, Reaches pattern size start i s → s.read (size i) ≠ [] → Meets s (s.read (size i)))
    (enough : s.input.length < fuel) :
    ∃ s', loop pattern size fuel i s = .ok s' ∧ Right pattern whole s' ∧ s'.input = [] := by
  induction fuel generalizing i s with
  | zero => omega
  | succ fuel ih =>
    unfold loop
    by_cases last : s.read (size i) = []
    · rw [if_pos last]
      exact ⟨s, rfl, right, right.read_nil (pos i) last⟩
    · obtain ⟨s', step, right'⟩ := (refill_right_iff right no_nul last).mpr (meets i s reached last)
      have rest := (refill_ok last step).1
      have shorter := congrArg List.length (s.read_append (size i))
      rw [List.length_append, ← rest] at shorter
      have some := List.length_pos_iff.mpr last
      rw [if_neg last, step]
      exact ih right' (reached.refill last step) (by omega)

/-- `grep` writes the lines that match, as long as each read meets what its loop needs. -/
theorem grep_prints (pattern : List UInt8) (ls : List (List UInt8)) (clean : ∀ l ∈ ls, 0 ∉ l ∧ nl ∉ l)
    (size : Nat → Nat) (pos : ∀ i, 0 < size i) (buf : List UInt8) (sizeof : buf.length = 1024)
    (meets : ∀ i s, Reaches pattern size ⟨buf, 0, joined nl ls, []⟩ i s → s.read (size i) ≠ [] →
      Meets s (s.read (size i))) :
    grep pattern size buf (joined nl ls) = .ok (printed pattern ls) := by
  have no_nul : 0 ∉ joined nl ls := by
    intro zero
    obtain ⟨_, mem, zero⟩ := List.mem_flatten.mp zero
    obtain ⟨l, line, rfl⟩ := List.mem_map.mp mem
    rcases List.mem_append.mp zero with zero | zero
    · exact (clean l line).1 zero
    · exact absurd (List.mem_singleton.mp zero) (by decide)
  have cut : Cut nl (joined nl ls) ls [] := ⟨(List.append_nil _).symm, fun l mem => (clean l mem).2, List.not_mem_nil⟩
  have start : Right pattern (joined nl ls) ⟨buf, 0, joined nl ls, []⟩ :=
    ⟨[], [], [], rfl, ⟨rfl, fun _ mem => absurd mem List.not_mem_nil, List.not_mem_nil⟩, rfl, rfl, List.nil_prefix,
      by rw [sizeof]; decide⟩
  obtain ⟨s', run, ⟨seen, ls', part, whole, found, out, _⟩, none⟩ :=
    loop_right start no_nul pos .start meets (Nat.lt_succ_self _)
  rw [none, List.append_nil] at whole
  obtain ⟨rfl, _⟩ := found.unique (whole ▸ cut)
  rw [grep, run, ← out]
  rfl

theorem reaches_once {size : Nat → Nat} {start : State} {i : Nat} (all : start.read (size 0) = start.input)
    (reached : Reaches pattern size start i s) : i = 0 ∧ s = start ∨ s.input = [] := by
  induction reached with
  | start => exact Or.inl ⟨rfl, rfl⟩
  | refill before more step ih =>
    rw [(refill_ok more step).1]
    rcases ih with ⟨rfl, rfl⟩ | empty
    · rw [all, List.drop_length]
      exact Or.inr rfl
    · rw [empty, List.drop_nil]
      exact Or.inr rfl

theorem grep_prints_one : grep [97] (fun _ => 512) (List.replicate 1024 0)
    (joined nl [[97], [98]]) = .ok [[97, 10]] := by
  refine grep_prints [97] [[97], [98]] (by decide) (fun _ => 512) (fun _ => by decide) _ List.length_replicate ?_
  intro i s reached more
  rcases reaches_once (by decide +kernel) reached with ⟨rfl, rfl⟩ | empty
  · refine ⟨by decide +kernel, [], List.replicate 1019 0, by decide +kernel, List.not_mem_nil⟩
  · rw [State.read, empty] at more
    exact absurd List.take_nil more

/-- The beginning of a line that ends in a later piece is lost. -/
theorem grep_loses : grep [97] (fun _ => 1) (List.replicate 1024 0) (joined nl [[97]]) = .ok [] ∧
    printed [97] [[97]] = [[97, 10]] := by
  decide +kernel

/-- What was behind the unfinished line in the buffer is taken for more lines. -/
example : grep [97] (fun i => if i = 0 then 5 else 1) (List.replicate 1024 0) (joined nl [[97], [97], [98]]) =
    .ok [[97, 10], [97, 10], [97, 10]] := by
  decide +kernel

end Espl.Grep
