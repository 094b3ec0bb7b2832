import Mathlib.Data.List.Induction

/-!
# The keyboard

`kbdgetc` of `kbd.c` with the tables of `kbd.h`. The keyboard sends a make code when a key goes down and a
break code, with bit 7 set, when it goes up; for some keys an `E0` comes first.
-/

namespace Espl.Kernel.Kbd

abbrev KBS_DIB : Nat := 0x01

def SHIFT : BitVec 32 := BitVec.twoPow 32 0
def CTL : BitVec 32 := BitVec.twoPow 32 1
def ALT : BitVec 32 := BitVec.twoPow 32 2
def CAPSLOCK : BitVec 32 := BitVec.twoPow 32 3
def NUMLOCK : BitVec 32 := BitVec.twoPow 32 4
def SCROLLLOCK : BitVec 32 := BitVec.twoPow 32 5
def E0ESC : BitVec 32 := BitVec.twoPow 32 6

def shiftcode (data : Nat) : BitVec 32 :=
  if data = 0x1D then CTL
  else if data = 0x2A then SHIFT
  else if data = 0x36 then SHIFT
  else if data = 0x38 then ALT
  else if data = 0x9D then CTL
  else if data = 0xB8 then ALT
  else 0

def togglecode (data : Nat) : BitVec 32 :=
  if data = 0x3A then CAPSLOCK
  else if data = 0x45 then NUMLOCK
  else if data = 0x46 then SCROLLLOCK
  else 0

def C (x : Char) : Nat := (x.toNat + 256 - '@'.toNat) % 256

def row (s : String) : List Nat := s.toList.map Char.toNat

/-- The entries from `0x97` on that the three maps have, with their own for Enter and `/` of the keypad. -/
def keypad (enter div : Nat) : List (Nat × Nat) :=
  [(0x9C, enter), (0xB5, div), (0xC8, 0xE2), (0xD0, 0xE3), (0xC9, 0xE6), (0xD1, 0xE7), (0xCB, 0xE4), (0xCD, 0xE5),
    (0x97, 0xE0), (0xCF, 0xE1), (0xD2, 0xE8), (0xD3, 0xE9)]

/-- A table of 256 entries, given by its beginning and by single entries. -/
def table (first : List Nat) (rest : List (Nat × Nat)) (data : Nat) : Nat := (rest.lookup data).getD (first.getD data 0)

def normalmap : Nat → Nat :=
  table ([0, 0x1B] ++ row "1234567890-=" ++ [8, 9] ++ row "qwertyuiop[]" ++ [10, 0] ++ row "asdfghjkl;" ++
    [0x27, 0x60, 0, 0x5C] ++ row "zxcvbnm,./" ++ [0, 0x2A, 0, 0x20] ++ List.replicate 13 0 ++ row "789-456+1230.")
    (keypad 10 0x2F)

def shiftmap : Nat → Nat :=
  table ([0, 0x1B] ++ row "!@#$%^&*()_+" ++ [8, 9] ++ row "QWERTYUIOP" ++ [0x7B, 0x7D, 10, 0] ++ row "ASDFGHJKL:" ++
    [0x22, 0x7E, 0, 0x7C] ++ row "ZXCVBNM<>?" ++ [0, 0x2A, 0, 0x20] ++ List.replicate 13 0 ++ row "789-456+1230.")
    (keypad 10 0x2F)

def ctlmap : Nat → Nat :=
  table (List.replicate 16 0 ++ "QWERTYUIOP".toList.map C ++ [0, 0, 13, 0] ++ "ASDFGHJKL".toList.map
    C ++ [0, 0, 0, 0, C '\\'] ++
    "ZXCVBNM".toList.map C ++ [0, 0, C '/', 0, 0]) (keypad 13 (C '/'))

def charcode : List (Nat → Nat) := [normalmap, shiftmap, ctlmap, ctlmap]

def char (shift : BitVec 32) (data : Nat) : Nat :=
  let c := charcode.getD (shift &&& (CTL ||| SHIFT)).toNat ctlmap data
  if shift &&& CAPSLOCK ≠ 0 then
    if 'a'.toNat ≤ c ∧ c ≤ 'z'.toNat then c - 32
    else if 'A'.toNat ≤ c ∧ c ≤ 'Z'.toNat then c + 32
    else c
  else c

def press (data : Nat) (shift : BitVec 32) : Int × BitVec 32 :=
  let shift := (shift ||| shiftcode data) ^^^ togglecode data
  (char shift data, shift)

/-- `kbdgetc` with what the two ports return: its result and `shift` after it. -/
def kbdgetc (st data : Nat) (shift : BitVec 32) : Int × BitVec 32 :=
  if st &&& KBS_DIB = 0 then (-1, shift)
  else if data = 0xE0 then (0, shift ||| E0ESC)
  else if data &&& 0x80 ≠ 0 then
    let data := if shift &&& E0ESC ≠ 0 then data else data &&& 0x7F
    (0, shift &&& ~~~(shiftcode data ||| E0ESC))
  else if shift &&& E0ESC ≠ 0 then press (data ||| 0x80) (shift &&& ~~~E0ESC)
  else press data shift

def run (shift : BitVec 32) (bytes : List Nat) :
    BitVec 32 := bytes.foldl (fun shift data => (kbdgetc KBS_DIB data shift).2) shift

/-- A key, by its make code. A key whose break code would be `E0` there is none. -/
structure Key where
  extended : Bool
  code : Nat
  low : code < 0x80
  proper : code ≠ 0x60
  deriving DecidableEq

structure Event where
  key : Key
  make : Bool
  deriving DecidableEq

def Event.bytes (e : Event) : List Nat :=
  (if e.key.extended then [0xE0] else []) ++ [if e.make then e.key.code else e.key.code ||| 0x80]

def after (es : List Event) : BitVec 32 := run 0 (es.flatMap Event.bytes)

inductive Modifier where
  | shift | ctl | alt
  deriving DecidableEq

def Modifier.keys : Modifier → List Key
  | shift => [⟨false, 0x2A, by decide, by decide⟩, ⟨false, 0x36, by decide, by decide⟩]
  | ctl => [⟨false, 0x1D, by decide, by decide⟩, ⟨true, 0x1D, by decide, by decide⟩]
  | alt => [⟨false, 0x38, by decide, by decide⟩, ⟨true, 0x38, by decide, by decide⟩]

def Modifier.bit : Modifier → Nat
  | shift => 0
  | ctl => 1
  | alt => 2

def Modifier.mask : Modifier → BitVec 32
  | shift => SHIFT
  | ctl => CTL
  | alt => ALT

inductive Lock where
  | caps | num | scroll
  deriving DecidableEq

def Lock.key : Lock → Key
  | caps => ⟨false, 0x3A, by decide, by decide⟩
  | num => ⟨false, 0x45, by decide, by decide⟩
  | scroll => ⟨false, 0x46, by decide, by decide⟩

def Lock.bit : Lock → Nat
  | caps => 3
  | num => 4
  | scroll => 5

def Lock.mask : Lock → BitVec 32
  | caps => CAPSLOCK
  | num => NUMLOCK
  | scroll => SCROLLLOCK

def held (es : List Event) (k : Key) : Bool := es.foldl (fun down e => if e.key = k then e.make else down) false

def presses (es : List Event) (k : Key) : Nat := es.countP fun e => e.make && e.key = k

def last (c : Modifier) (es : List Event) : Option Event := es.reverse.find? fun e => e.key ∈ c.keys

/-- `shift` says which keys are down and how often the locks were pressed. -/
structure Tracks (es : List Event) : Prop where
  modifiers : ∀ c : Modifier, after es &&& c.mask ≠ 0 ↔ ∃ k ∈ c.keys, held es k = true
  locks : ∀ l : Lock, after es &&& l.mask ≠ 0 ↔ presses es l.key % 2 = 1

section Bytes

variable {shift : BitVec 32} {e : Event} {es : List Event} {k : Key}

theorem and_twoPow_ne_zero {i : Nat} (lt : i < 32) : shift &&& BitVec.twoPow 32 i ≠ 0 ↔ shift.getLsbD i = true := by
  rw [BitVec.and_twoPow]
  split
  · rename_i set
    simp only [set, iff_true]
    intro zero
    have bit := congrArg (fun x => x.getLsbD i) zero
    simp [lt] at bit
  · rename_i clear
    simp [clear]

theorem modifier_mask (c : Modifier) : shift &&& c.mask ≠ 0 ↔ shift.getLsbD c.bit = true := by
  cases c <;> exact and_twoPow_ne_zero (by decide)

theorem lock_mask (l : Lock) : shift &&& l.mask ≠ 0 ↔ shift.getLsbD l.bit = true := by
  cases l <;> exact and_twoPow_ne_zero (by decide)

def Key.index (k : Key) : Nat := if k.extended then k.code ||| 0x80 else k.code

def Event.apply (e : Event) (shift : BitVec 32) : BitVec 32 :=
  if e.make then (shift ||| shiftcode e.key.index) ^^^ togglecode e.key.index else shift &&& ~~~shiftcode e.key.index

theorem make_code : ∀ code < 0x80, code ≠ 0xE0 ∧ code &&& 0x80 = 0 ∧ code ||| 0x80 = code + 0x80 := by decide

theorem break_code : ∀ code < 0x80, (code ||| 0x80) &&& 0x80 ≠ 0 ∧ (code ||| 0x80) &&& 0x7F = code ∧
    (code ≠ 0x60 → code ||| 0x80 ≠ 0xE0) := by decide

theorem kbdgetc_make {code : Nat} (low : code < 0x80) : (kbdgetc KBS_DIB code shift).2 =
    if shift &&& E0ESC ≠ 0 then (shift &&& ~~~E0ESC ||| shiftcode (code ||| 0x80)) ^^^ togglecode (code ||| 0x80)
    else (shift ||| shiftcode code) ^^^ togglecode code := by
  obtain ⟨plain, clear, _⟩ := make_code code low
  rw [kbdgetc, if_neg (by decide), if_neg plain, if_neg (not_not_intro clear)]
  split <;> rfl

theorem kbdgetc_break {code : Nat} (low : code < 0x80) (proper : code ≠ 0x60) :
    (kbdgetc KBS_DIB (code ||| 0x80) shift).2 =
    if shift &&& E0ESC ≠ 0 then shift &&& ~~~(shiftcode (code ||| 0x80) ||| E0ESC)
    else shift &&& ~~~(shiftcode code ||| E0ESC) := by
  obtain ⟨set, same, plain⟩ := break_code code low
  rw [kbdgetc, if_neg (by decide), if_neg (plain proper), if_pos set]
  split
  · rfl
  · rw [same]

theorem run_event (clear : shift &&& E0ESC = 0) (e : Event) : run shift e.bytes = e.apply shift := by
  obtain ⟨⟨extended, code, low, proper⟩, make⟩ := e
  have bits : ∀ i, (shift.getLsbD i && E0ESC.getLsbD i) = false := fun i => by
    rw [← BitVec.getLsbD_and, clear]
    exact BitVec.getLsbD_zero
  have escaped : (shift ||| E0ESC) &&& E0ESC ≠ 0 := by
    rw [E0ESC, and_twoPow_ne_zero (by decide)]
    simp
  have off : ∀ m, shift &&& ~~~(m ||| E0ESC) = shift &&& ~~~m ∧
    (shift ||| E0ESC) &&& ~~~(m ||| E0ESC) = shift &&& ~~~m := by
    intro m
    constructor <;> refine BitVec.eq_of_getLsbD_eq fun i lt => ?_ <;>
    · have := bits i
      simp only [BitVec.getLsbD_and, BitVec.getLsbD_or, BitVec.getLsbD_not, lt, decide_true, Bool.true_and]
      revert this
      cases shift.getLsbD i <;> cases E0ESC.getLsbD i <;> cases m.getLsbD i <;> decide
  have back : (shift ||| E0ESC) &&& ~~~E0ESC = shift := by
    refine BitVec.eq_of_getLsbD_eq fun i lt => ?_
    have := bits i
    simp only [BitVec.getLsbD_and, BitVec.getLsbD_or, BitVec.getLsbD_not, lt, decide_true, Bool.true_and]
    revert this
    cases shift.getLsbD i <;> cases E0ESC.getLsbD i <;> decide
  have first : (kbdgetc KBS_DIB 0xE0 shift).2 = shift ||| E0ESC := rfl
  cases extended <;> cases make
  · change (kbdgetc KBS_DIB (code ||| 0x80) shift).2 = _
    rw [kbdgetc_break low proper, if_neg (not_not_intro clear), (off _).1]
    rfl
  · change (kbdgetc KBS_DIB code shift).2 = _
    rw [kbdgetc_make low, if_neg (not_not_intro clear)]
    rfl
  · change (kbdgetc KBS_DIB (code ||| 0x80) (kbdgetc KBS_DIB 0xE0 shift).2).2 = _
    rw [first, kbdgetc_break low proper, if_pos escaped, (off _).2]
    rfl
  · change (kbdgetc KBS_DIB code (kbdgetc KBS_DIB 0xE0 shift).2).2 = _
    rw [first, kbdgetc_make low, if_pos escaped, back]
    rfl

theorem Key.ext_iff' {k k' : Key} : k = k' ↔ (k.extended, k.code) = (k'.extended, k'.code) := by
  cases k
  cases k'
  simp

theorem shiftcode_bit (c : Modifier) (k : Key) : (shiftcode k.index).getLsbD c.bit = decide (k ∈ c.keys) := by
  have entries : ∀ extended : Bool, ∀ code < 0x80,
    (shiftcode (if extended then code ||| 0x80 else code)).getLsbD c.bit =
      decide ((extended, code) ∈ c.keys.map fun k => (k.extended, k.code)) := by
    cases c <;> decide +kernel
  rw [Key.index, entries k.extended k.code k.low, decide_eq_decide, List.mem_map]
  constructor
  · rintro ⟨k', mem, same⟩
    rwa [Key.ext_iff'.mpr same.symm]
  · exact fun mem => ⟨k, mem, rfl⟩

theorem togglecode_bit (l : Lock) (k : Key) : (togglecode k.index).getLsbD l.bit = decide (k = l.key) := by
  have entries : ∀ extended : Bool, ∀ code < 0x80,
    (togglecode (if extended then code ||| 0x80 else code)).getLsbD l.bit =
      decide ((extended, code) = (l.key.extended, l.key.code)) := by
    cases l <;> decide +kernel
  rw [Key.index, entries k.extended k.code k.low, decide_eq_decide, Key.ext_iff']

theorem shiftcode_low (data : Nat) {i : Nat} (le : 3 ≤ i) : (shiftcode data).getLsbD i = false := by
  unfold shiftcode SHIFT CTL ALT
  split_ifs <;> simp <;> omega

theorem togglecode_high (data : Nat) {i : Nat} (out : i < 3 ∨ 5 < i) : (togglecode data).getLsbD i = false := by
  unfold togglecode CAPSLOCK NUMLOCK SCROLLLOCK
  split_ifs <;> simp <;> omega

end Bytes

section Events

variable {e : Event} {es : List Event} {k : Key}

theorem apply_bit (shift : BitVec 32) {i : Nat} (lt : i < 32) : (e.apply shift).getLsbD i =
    if e.make then (shift.getLsbD i || (shiftcode e.key.index).getLsbD i) ^^ (togglecode e.key.index).getLsbD i
    else shift.getLsbD i && !(shiftcode e.key.index).getLsbD i := by
  unfold Event.apply
  split
  · simp only [BitVec.getLsbD_xor, BitVec.getLsbD_or]
  · simp only [BitVec.getLsbD_and, BitVec.getLsbD_not, lt, decide_true, Bool.true_and]

theorem apply_modifier (c : Modifier) (shift : BitVec 32) :
    (e.apply shift).getLsbD c.bit = if e.key ∈ c.keys then e.make else shift.getLsbD c.bit := by
  have small : c.bit < 3 := by cases c <;> decide
  rw [apply_bit _ (by omega), shiftcode_bit, togglecode_high _ (Or.inl small)]
  cases e.make <;> by_cases mem : e.key ∈ c.keys <;> simp [mem]

theorem apply_lock (l : Lock) (shift : BitVec 32) :
    (e.apply shift).getLsbD l.bit = (shift.getLsbD l.bit ^^ (e.make && decide (e.key = l.key))) := by
  have range : 3 ≤ l.bit ∧ l.bit < 32 := by cases l <;> decide
  rw [apply_bit _ range.2, shiftcode_low _ range.1, togglecode_bit]
  cases e.make <;> simp

theorem apply_clear {shift : BitVec 32} (clear : shift &&& E0ESC = 0) : e.apply shift &&& E0ESC = 0 := by
  by_contra set
  have before : shift.getLsbD 6 = false := by
    by_contra one
    exact (and_twoPow_ne_zero (by decide)).mpr (by simpa using one) clear
  have after := (and_twoPow_ne_zero (by decide)).mp set
  rw [apply_bit _ (by decide), shiftcode_low _ (by decide), togglecode_high _ (by decide), before] at after
  simp at after

theorem run_events {shift : BitVec 32} (clear : shift &&& E0ESC = 0) (es : List Event) :
    run shift (es.flatMap Event.bytes) = es.foldl (fun shift e => e.apply shift) shift := by
  induction es generalizing shift with
  | nil => rfl
  | cons e es ih =>
    rw [List.flatMap_cons, run, List.foldl_append]
    change run (run shift e.bytes) _ = _
    rw [run_event clear, ih (apply_clear clear)]
    rfl

theorem after_concat (es : List Event) (e : Event) : after (es ++ [e]) = e.apply (after es) := by
  have clear : (0 : BitVec 32) &&& E0ESC = 0 := by decide
  rw [after, after, run_events clear, run_events clear, List.foldl_append]
  rfl

theorem held_concat (es : List Event) (e : Event) (k : Key) :
    held (es ++ [e]) k = if e.key = k then e.make else held es k := by
  rw [held, List.foldl_append]
  rfl

theorem last_concat (c : Modifier) (es : List Event) (e : Event) :
    last c (es ++ [e]) = if e.key ∈ c.keys then some e else last c es := by
  rw [last, List.reverse_append, List.reverse_singleton, List.singleton_append, List.find?_cons]
  split <;> rename_i mem
  · rw [if_pos (by simpa using mem)]
  · rw [if_neg (by simpa using mem)]
    rfl

/-- The bit of a modifier says whether the last event of its keys was a press. -/
theorem modifier_last (c : Modifier) (es : List Event) :
    (after es).getLsbD c.bit = ((last c es).map Event.make).getD false := by
  induction es using List.reverseRecOn with
  | nil => exact BitVec.getLsbD_zero
  | append_singleton es e ih =>
    rw [after_concat, apply_modifier, last_concat, ih]
    split <;> rfl

theorem lock_presses (l : Lock) (es : List Event) : (after es).getLsbD l.bit = decide (presses es l.key % 2 = 1) := by
  induction es using List.reverseRecOn with
  | nil => exact BitVec.getLsbD_zero
  | append_singleton es e ih =>
    rw [after_concat, apply_lock, ih, presses, presses, List.countP_append, List.countP_singleton]
    split
    · rename_i press
      rw [press, Bool.xor_true, ← decide_not, decide_eq_decide]
      omega
    · rename_i other
      rw [Bool.eq_false_iff.mpr other, Bool.xor_false, Nat.add_zero]

theorem held_last (c : Modifier) (es : List Event) :
    (∀ e, last c es = some e → e.key ∈ c.keys ∧ held es e.key = e.make) ∧
      (last c es = none → ∀ k ∈ c.keys, held es k = false) := by
  induction es using List.reverseRecOn with
  | nil => exact ⟨fun _ found => (Option.some_ne_none _ found.symm).elim, fun _ _ _ => rfl⟩
  | append_singleton es e ih =>
    rw [last_concat]
    split
    · rename_i mem
      refine ⟨fun e' same => ?_, fun missing => (Option.some_ne_none _ missing).elim⟩
      cases same
      exact ⟨mem, by rw [held_concat, if_pos rfl]⟩
    · rename_i out
      have other : ∀ k ∈ c.keys, held (es ++ [e]) k = held es k := fun k mem => by
        rw [held_concat, if_neg]
        rintro rfl
        exact out mem
      refine ⟨fun e' found => ?_, fun missing k mem => ?_⟩
      · obtain ⟨mem, down⟩ := ih.1 e' found
        exact ⟨mem, (other _ mem).trans down⟩
      · exact (other k mem).trans (ih.2 missing k mem)

end Events

/-- The bits are right after any events, except while one of the two keys of a class is down and the last
that was heard of the class was that the other one went up. -/
theorem tracks_iff (es : List Event) :
    Tracks es ↔ ∀ c e, last c es = some e → e.make = false → ∀ k ∈ c.keys, held es k = false := by
  have bit : ∀ c : Modifier, after es &&& c.mask ≠ 0 ↔ ∃ e, last c es = some e ∧ e.make = true := by
    intro c
    rw [modifier_mask, modifier_last]
    cases last c es with
    | none => simp
    | some e => simp
  constructor
  · intro tracks c e found released k mem
    by_contra down
    have down : held es k = true := by simpa using down
    obtain ⟨e', found', pressed⟩ := (bit c).mp ((tracks.modifiers c).mpr ⟨k, mem, down⟩)
    rw [found, Option.some.injEq] at found'
    rw [← found', released] at pressed
    cases pressed
  · intro alone
    refine ⟨fun c => ?_, fun l => ?_⟩
    · obtain ⟨some_last, none_last⟩ := held_last c es
      rw [bit]
      constructor
      · rintro ⟨e, found, pressed⟩
        obtain ⟨mem, down⟩ := some_last e found
        exact ⟨e.key, mem, down.trans pressed⟩
      · rintro ⟨k, mem, down⟩
        cases found : last c es with
        | none =>
          rw [none_last found k mem] at down
          cases down
        | some e =>
          refine ⟨e, rfl, ?_⟩
          by_contra released
          rw [alone c e found (by simpa using released) k mem] at down
          cases down
    · rw [lock_mask, lock_presses, decide_eq_true_iff]

def lshift : Key := ⟨false, 0x2A, by decide, by decide⟩

def rshift : Key := ⟨false, 0x36, by decide, by decide⟩

/-- Both shift keys go down and the left one goes up again. -/
theorem shift_released : ¬ Tracks [⟨lshift, true⟩, ⟨rshift, true⟩, ⟨lshift, false⟩] := by
  intro tracks
  have set := (tracks.modifiers .shift).mpr ⟨rshift, by decide, by decide⟩
  exact set (by decide)

end Espl.Kernel.Kbd
