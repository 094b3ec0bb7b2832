import Espl.Libc.Ctype
import Espl.Libc.String
import Espl.Program.Scan

/-!
# The names in a stream

`fgetname.c`: the names in a stream one after the other, cut to the size of the buffer. A stream is the
bytes that are left in it.
-/

namespace Espl.Labs

open Computability
open Libc (string isalpha isalnum)

def fgetname.begins (ch : UInt8) : Bool := isalpha ch || ch == 95

def fgetname.continues (ch : UInt8) : Bool := isalnum ch || ch == 95

def fgetname.before : List UInt8 → Option (UInt8 × List UInt8)
  | [] => none
  | ch :: stream => if fgetname.begins ch then some (ch, stream) else fgetname.before stream

/-- `name[ich] = ch`. -/
def fgetname.put (name : List UInt8) (ich : Nat) (ch : UInt8) : Option (List UInt8) :=
  if ich < name.length then some (name.set ich ch) else none

/-- `if(ich!=size-1) name[ich++] = ch;` -/
def fgetname.add (size : Nat) (name : List UInt8) (ich : Nat) (ch : UInt8) : Option (List UInt8 × Nat) :=
  if ich ≠ size - 1 then (fgetname.put name ich ch).map fun name => (name, ich + 1) else some (name, ich)

def fgetname.reading (size : Nat) (name : List UInt8) (ich : Nat) (ch : UInt8) :
    List UInt8 → Option (List UInt8 × Nat × List UInt8)
  | [] => do
    let (name, ich) ← fgetname.add size name ich ch
    return (name, ich, [])
  | ch' :: stream => do
    let (name, ich) ← fgetname.add size name ich ch
    -- `ungetc` gives the character back.
    if !fgetname.continues ch' then return (name, ich, ch' :: stream)
    else fgetname.reading size name ich ch' stream

/-- `fgetname`: the buffer, or `none` for a null pointer, and the stream after it. A failed assertion or a store
outside the buffer is `none`. -/
def fgetname (name : List UInt8) (size : Nat) (stream : List UInt8) : Option (Option (List UInt8) × List UInt8) :=
  if 0 < size then
    match fgetname.before stream with
    | none => some (none, [])
    | some (ch, stream) => do
      let (name, ich, stream) ← fgetname.reading size name 0 ch stream
      if ich ≤ size - 1 then
        let name ← fgetname.put name ich 0
        return (some name, stream)
      else none
  else none

/-- `while(fgetname(name, size, stream))`, for at most `n` calls: what each of them leaves in the buffer. -/
def names (size : Nat) : Nat → List UInt8 → List UInt8 → Option (List (List UInt8))
  | 0, _, _ => none
  | n + 1, name, stream => do
    match ← fgetname name size stream with
    | (none, _) => return []
    | (some name, stream) => return name :: (← names size n name stream)

def identifier : Language UInt8 :=
  letters { c | (65 ≤ c ∧ c ≤ 90) ∨ (97 ≤ c ∧ c ≤ 122) ∨ c = 95 } *
    (letters { c | (65 ≤ c ∧ c ≤ 90) ∨ (97 ≤ c ∧ c ≤ 122) ∨ (48 ≤ c ∧ c ≤ 57) ∨ c = 95 })∗

section

variable {name junk all word rest stream before : List UInt8} {size ich : Nat} {ch : UInt8}

theorem begins_iff (ch : UInt8) : fgetname.begins ch = true ↔ (65 ≤ ch ∧ ch ≤ 90) ∨ (97 ≤ ch ∧ ch ≤ 122) ∨ ch = 95 := by
  simp [fgetname.begins, isalpha, Libc.isupper, Libc.islower, or_assoc]

theorem continues_iff (ch : UInt8) : fgetname.continues ch = true ↔
    (65 ≤ ch ∧ ch ≤ 90) ∨ (97 ≤ ch ∧ ch ≤ 122) ∨ (48 ≤ ch ∧ ch ≤ 57) ∨ ch = 95 := by
  simp [fgetname.continues, isalnum, isalpha, Libc.isupper, Libc.islower, Libc.isdigit, or_assoc]

/-! ### The two loops -/

structure Buffered (size : Nat) (all name : List UInt8) (ich : Nat) : Prop where
  length : name.length = size
  index : ich = (all.take (size - 1)).length
  text : name.take ich = all.take (size - 1)

theorem buffered_nil (length : name.length = size) : Buffered size [] name 0 := ⟨length, by simp, by simp⟩

theorem Buffered.add (h : Buffered size all name ich) (positive : 0 < size) (ch : UInt8) :
    ∃ name' ich', fgetname.add size name ich ch = some (name', ich') ∧ Buffered size (all ++ [ch]) name' ich' := by
  obtain ⟨length, index, text⟩ := h
  rw [List.length_take] at index
  by_cases full : ich = size - 1
  · refine ⟨name, ich, by rw [fgetname.add, if_neg (not_not.mpr full)], length, ?_, ?_⟩
    · rw [List.length_take, List.length_append]
      omega
    · rw [text, List.take_append_of_le_length (by omega)]
  · have inside : ich < name.length := by omega
    refine ⟨name.set ich ch, ich + 1, ?_, by rw [List.length_set, length], ?_, ?_⟩
    · rw [fgetname.add, if_pos full, fgetname.put, if_pos inside]
      rfl
    · rw [List.length_take, List.length_append, List.length_singleton]
      omega
    · have whole : (all ++ [ch]).take (size - 1) = all.take (size - 1) ++ [ch] := by
        rw [List.take_of_length_le (l := all) (by omega), List.take_of_length_le]
        rw [List.length_append, List.length_singleton]
        omega
      rw [List.take_add_one, List.take_set_of_le Nat.le.refl, text, List.getElem?_set_self inside, whole]
      rfl

theorem Buffered.reading (h : Buffered size all name ich) (ch : UInt8) (positive : 0 < size)
    (inside : ∀ c ∈ word, fgetname.continues c = true) (stop : ∀ c ∈ rest.head?, fgetname.continues c ≠ true) :
    ∃ name' ich', fgetname.reading size name ich ch (word ++ rest) = some (name', ich', rest) ∧
      Buffered size (all ++ ch :: word) name' ich' := by
  obtain ⟨name', ich', added, h'⟩ := h.add positive ch
  induction word generalizing all name ich ch name' ich' with
  | nil =>
    refine ⟨name', ich', ?_, h'⟩
    cases rest with
    | nil => simp [fgetname.reading, added]
    | cons c rest => simp [fgetname.reading, added, stop c rfl]
  | cons c word ih =>
    obtain ⟨name'', ich'', added', h''⟩ := h'.add positive c
    obtain ⟨name₂, ich₂, read, final⟩ :=
      ih h' c (fun d member => inside d (List.mem_cons_of_mem _ member)) _ _ added' h''
    refine ⟨name₂, ich₂, ?_, by simpa using final⟩
    rw [List.cons_append, fgetname.reading, added]
    simp [inside c List.mem_cons_self, read]

/-! ### One call -/

theorem fgetname_first (name : List UInt8) (positive : 0 < name.length) (out : ∀ c ∈ before, fgetname.begins c ≠ true)
    (starts : fgetname.begins ch = true) (inside : ∀ c ∈ word, fgetname.continues c = true)
    (stop : ∀ c ∈ rest.head?, fgetname.continues c ≠ true) :
    ∃ name', fgetname name name.length (before ++ ch :: (word ++ rest)) = some (some name', rest) ∧
      name'.length = name.length ∧ 0 ∈ name' ∧ string name' = (ch :: word).take (name.length - 1) := by
  have skipped : fgetname.before (before ++ ch :: (word ++ rest)) = some (ch, word ++ rest) := by
    clear inside stop
    induction before with
    | nil => simp [fgetname.before, starts]
    | cons c before ih =>
      rw [List.cons_append, fgetname.before, if_neg (out c List.mem_cons_self)]
      exact ih fun d member => out d (List.mem_cons_of_mem _ member)
  obtain ⟨name', ich, read, h⟩ := (buffered_nil rfl).reading ch positive inside stop
  rw [List.nil_append] at h
  obtain ⟨length, index, text⟩ := h
  rw [List.length_take] at index
  have space : ich < name'.length := by omega
  refine ⟨name'.set ich 0, ?_, by rw [List.length_set, length], List.mem_set space 0, ?_⟩
  · rw [fgetname, if_pos positive, skipped]
    simp [read, fgetname.put, space, show ich ≤ name.length - 1 by omega]
  · have plain : 0 ∉ (ch :: word).take (name.length - 1) := by
      intro zero
      rcases List.mem_cons.mp (List.mem_of_mem_take zero) with rfl | later
      · exact absurd starts (by decide)
      · exact absurd (inside 0 later) (by decide)
    rw [List.set_eq_take_append_cons_drop, if_pos space, text, Libc.string_append plain]

theorem fgetname_none (positive : 0 < size) (out : ∀ c ∈ stream, fgetname.begins c ≠ true) :
    fgetname name size stream = some (none, []) := by
  have skipped : fgetname.before stream = none := by
    induction stream with
    | nil => rfl
    | cons c stream ih =>
      rw [fgetname.before, if_neg (out c List.mem_cons_self)]
      exact ih fun d member => out d (List.mem_cons_of_mem _ member)
  rw [fgetname, if_pos positive, skipped]

theorem stream_cases (stream : List UInt8) : (∀ c ∈ stream, fgetname.begins c ≠ true) ∨
    ∃ before ch word rest, stream = before ++ ch :: (word ++ rest) ∧ (∀ c ∈ before, fgetname.begins c ≠ true) ∧
      fgetname.begins ch = true ∧ (∀ c ∈ word, fgetname.continues c = true) ∧
      ∀ c ∈ rest.head?, fgetname.continues c ≠ true := by
  induction stream with
  | nil => exact Or.inl fun c member => by cases member
  | cons c stream ih =>
    by_cases starts : fgetname.begins c = true
    · refine Or.inr ⟨[], c, stream.takeWhile fgetname.continues, stream.dropWhile fgetname.continues, ?_, ?_,
        starts, ?_, ?_⟩
      · simp
      · exact fun d member => by cases member
      · exact List.all_eq_true.mp List.all_takeWhile
      · intro d first
        have := List.head?_dropWhile_not fgetname.continues stream
        rw [Option.mem_def.mp first] at this
        simpa using this
    · rcases ih with none | ⟨before, ch, word, rest, rfl, out, name⟩
      · exact Or.inl (List.forall_mem_cons.mpr ⟨starts, none⟩)
      · exact Or.inr ⟨c :: before, ch, word, rest, rfl, List.forall_mem_cons.mpr ⟨starts, out⟩, name⟩

theorem matches_none (out : ∀ c ∈ stream, fgetname.begins c ≠ true) : Matches identifier stream [] :=
  .none (not_within_letters fun c member letter => out c member ((begins_iff c).mpr letter))

theorem matches_next {ms : List (List UInt8)} (out : ∀ c ∈ before, fgetname.begins c ≠ true)
    (starts : fgetname.begins ch = true) (inside : ∀ c ∈ word, fgetname.continues c = true)
    (stop : ∀ c ∈ rest.head?, fgetname.continues c ≠ true) (others : Matches identifier rest ms) :
    Matches identifier (before ++ ch :: (word ++ rest)) ((ch :: word) :: ms) :=
  .next (first_letters (fun c member letter => out c member ((begins_iff c).mpr letter)) ((begins_iff ch).mp starts)
    (fun c member => (continues_iff c).mp (inside c member)) fun c first letter =>
      stop c first ((continues_iff c).mpr letter)) others

/-! ### All calls -/

/-- What `buffers` hold, one after the other, when the names are `ms`. -/
structure Hold (size : Nat) (buffers ms : List (List UInt8)) : Prop where
  names : buffers.map string = ms.map (·.take (size - 1))
  within : ∀ b ∈ buffers, b.length = size ∧ 0 ∈ b

theorem names_spec (positive : 0 < size) (stream : List UInt8) (length : name.length = size) :
    ∃ ms, Matches identifier stream ms ∧ ∃ buffers, names size (ms.length + 1) name stream = some buffers ∧
      Hold size buffers ms := by
  induction left : stream.length using Nat.strong_induction_on generalizing stream name with
  | _ n ih =>
    rcases stream_cases stream with none | ⟨before, ch, word, rest, rfl, out, starts, inside, stop⟩
    · refine ⟨[], matches_none none, [], ?_, rfl, fun b member => by cases member⟩
      simp [names, fgetname_none positive none]
    · obtain ⟨name', call, length', ends, text⟩ := fgetname_first name (length ▸ positive) out starts inside stop
      rw [length] at call length' text
      obtain ⟨ms, others, buffers, run, hold⟩ := ih rest.length (by simp [← left]; omega) rest length' rfl
      refine ⟨(ch :: word) :: ms, matches_next out starts inside stop others, name' :: buffers, ?_, ?_, ?_⟩
      · rw [List.length_cons, names, call]
        simp [run]
      · rw [List.map_cons, List.map_cons, text, hold.names]
      · exact List.forall_mem_cons.mpr ⟨⟨length', ends⟩, hold.within⟩

end

/-- The calls yield the names of the stream, cut to the size of the buffer, and the one after the last yields none. -/
theorem names_enumerate (name stream : List UInt8) (positive : 0 < name.length) :
    ∃ ms, (∀ l, Matches identifier stream l ↔ l = ms) ∧
      ∃ buffers, names name.length (ms.length + 1) name stream = some buffers ∧
        buffers.map string = ms.map (·.take (name.length - 1)) ∧ ∀ b ∈ buffers, b.length = name.length ∧ 0 ∈ b := by
  obtain ⟨ms, found, buffers, run, hold⟩ := names_spec positive stream rfl
  refine ⟨ms, fun l => ⟨fun other => other.unique found, ?_⟩, buffers, run, hold.names, hold.within⟩
  rintro rfl
  exact found

/-- `a1 _` in a buffer of two bytes. -/
theorem names_enumerate_two : ∃ ms, (∀ l, Matches identifier [97, 49, 32, 95] l ↔ l = ms) ∧
    ∃ buffers, names 2 (ms.length + 1) [7, 7] [97, 49, 32, 95] = some buffers ∧
      buffers.map string = ms.map (·.take 1) ∧ ∀ b ∈ buffers, b.length = 2 ∧ 0 ∈ b :=
  names_enumerate [7, 7] [97, 49, 32, 95] (by decide)

example : names 2 3 [7, 7] [97, 49, 32, 95] = some [[97, 0], [95, 0]] := by decide

end Espl.Labs
