import Espl.Libc.String
import Espl.Program.Tally
import Mathlib.Algebra.Ring.Nat

/-!
# Name statistics

`namelist.c`: an array of names and their counts that doubles when it is full. An `int` has 32 bits, a
`size_t` 64, and `malloc` gives every block that the address space has room for.
-/

namespace Espl.Labs

open Libc (int int_eq int_high string strcmp strcpy)

abbrev NAMELEN : Nat := 64
abbrev INITIAL_CAPACITY : Nat := 16

abbrev NAMESTAT : Nat := NAMELEN + 4

structure Namestat where
  name : List UInt8
  count : Int

/-- `struct namelist`; `names` is the block, with as many entries as fit into it. -/
structure Namelist where
  capacity : Int
  size : Int
  names : List Namestat

/-- What is in memory that was never written. -/
structure Junk where
  entry : Nat → Namestat
  length : ∀ i, (entry i).name.length = NAMELEN

/-- The entries of a block of `bytes` that starts with `old`; an address of none is a null pointer. -/
def realloc (junk : Junk) (old : List Namestat) (bytes : Nat) : List Namestat :=
  if bytes < 2 ^ 63 then
    old.take (bytes / NAMESTAT) ++ (List.range (bytes / NAMESTAT - old.length)).map fun i => junk.entry (old.length + i)
  else []

def blockSize (capacity : Int) : Nat := (capacity * NAMESTAT % 2 ^ 64).toNat

def makeNamelist (junk : Junk) : Namelist := ⟨INITIAL_CAPACITY, 0, realloc junk [] (blockSize INITIAL_CAPACITY)⟩

def expandNamelist (junk : Junk) (nl : Namelist) : Option Namelist := do
  let capacity ← int (nl.capacity * 2)
  return { nl with capacity, names := realloc junk nl.names (blockSize capacity) }

/-- The loop of `add_name` from `i` on, `k` rounds of it: where it stops. -/
def addName.find (name : List UInt8) (names : List Namestat) (i : Nat) : Nat → Option Nat
  | 0 => some i
  | k + 1 => do
    let e ← names[i]?
    if strcmp name e.name = 0 then some i else addName.find name names (i + 1) k

/-- `add_name`, unless it goes outside the block or a number overflows. -/
def addName (junk : Junk) (nl : Namelist) (name : List UInt8) : Option Namelist := do
  let i ← addName.find name nl.names 0 nl.size.toNat
  if i ≠ nl.size then
    let e ← nl.names[i]?
    let count ← int (e.count + 1)
    return { nl with names := nl.names.set i { e with count } }
  else
    let nl ← (if nl.size = nl.capacity then expandNamelist junk nl else some nl)
    let e ← nl.names[i]?
    let text ← strcpy e.name name
    let size ← int (nl.size + 1)
    return { nl with names := nl.names.set i ⟨text, 1⟩, size }

def addAll (junk : Junk) (l : List (List UInt8)) : Option Namelist := l.foldlM (addName junk) (makeNamelist junk)

def Namelist.stats (nl : Namelist) : List (List UInt8 × Int) :=
  (nl.names.take nl.size.toNat).map fun e => (string e.name, e.count)

/-- The list has the names of `l`, each once, in the order of their first occurrences, and their counts. -/
structure Exact (nl : Namelist) (l : List (List UInt8)) : Prop where
  size : nl.size ≤ nl.capacity
  distinct : (nl.stats.map Prod.fst).Nodup
  names : nl.stats.map Prod.fst = l.eraseDups
  counts : ∀ s ∈ nl.stats, s.2 = l.count s.1

/-! ### The block -/

structure Holds (nl : Namelist) (l : List (List UInt8)) (k : Nat) : Prop where
  level : k ≤ 26
  capacity : nl.capacity = (INITIAL_CAPACITY * 2 ^ k : Nat)
  block : nl.names.length = INITIAL_CAPACITY * 2 ^ k
  arrays : ∀ e ∈ nl.names, e.name.length = NAMELEN
  size : nl.size = l.eraseDups.length
  fits : l.eraseDups.length ≤ INITIAL_CAPACITY * 2 ^ k
  stats : nl.stats = (tally l).map fun s => (s.1, (s.2 : Int))

/-- An `int` can count the names and the calls with each of them. -/
def Small (l : List (List UInt8)) : Prop := l.eraseDups.length ≤ 2 ^ 30 ∧ ∀ name, l.count name < 2 ^ 31

section

variable {junk : Junk} {nl : Namelist} {l : List (List UInt8)} {name : List UInt8} {k n : Nat} {old : List Namestat}

theorem blockSize_eq (small : n * NAMESTAT < 2 ^ 63) : blockSize (n : Int) = n * NAMESTAT := by
  have product : (n : Int) * NAMESTAT = (n * NAMESTAT : Nat) := (Int.natCast_mul n NAMESTAT).symm
  have below : ((n * NAMESTAT : Nat) : Int) < 2 ^ 64 := by
    generalize n * NAMESTAT = bytes at small
    omega
  rw [blockSize, product, Int.emod_eq_of_lt (Int.natCast_nonneg _) below, Int.toNat_natCast]

theorem realloc_eq (le : old.length ≤ n) (small : n * NAMESTAT < 2 ^ 63) :
    realloc junk old (n * NAMESTAT) = old ++ (List.range (n - old.length)).map fun i =>
      junk.entry (old.length + i) := by
  rw [realloc, if_pos small, Nat.mul_div_cancel _ (by decide), List.take_of_length_le le]

theorem realloc_arrays (le : old.length ≤ n) (small : n * NAMESTAT < 2 ^ 63)
    (arrays : ∀ e ∈ old, e.name.length = NAMELEN) : ∀ e ∈ realloc junk old (n * NAMESTAT), e.name.length = NAMELEN := by
  rw [realloc_eq le small]
  intro e member
  rcases List.mem_append.mp member with before | new
  · exact arrays e before
  · obtain ⟨i, -, rfl⟩ := List.mem_map.mp new
    exact junk.length _

theorem level_small (le : k ≤ 26) : INITIAL_CAPACITY * 2 ^ k * NAMESTAT < 2 ^ 63 := by
  have bound : 2 ^ k ≤ 2 ^ 26 := Nat.pow_le_pow_right (by decide) le
  simp only [INITIAL_CAPACITY, NAMESTAT, NAMELEN]
  omega

theorem holds_make (junk : Junk) : Holds (makeNamelist junk) [] 0 := by
  have size : blockSize INITIAL_CAPACITY = INITIAL_CAPACITY * NAMESTAT := blockSize_eq (by decide)
  have block : (makeNamelist junk).names = realloc junk [] (INITIAL_CAPACITY * NAMESTAT) := by
    rw [makeNamelist, size]
  refine ⟨Nat.zero_le _, rfl, ?_, ?_, rfl, Nat.zero_le _, ?_⟩
  · rw [block, realloc_eq (Nat.zero_le _) (by decide)]
    simp
  · rw [block]
    exact realloc_arrays (Nat.zero_le _) (by decide) (fun e member => by cases member)
  · rw [Namelist.stats, show (makeNamelist junk).size = 0 from rfl]
    rfl

theorem Holds.expand (junk : Junk) (h : Holds nl l k) (less : k < 26) :
    ∃ nl', expandNamelist junk nl = some nl' ∧ Holds nl' l (k + 1) := by
  have grows : INITIAL_CAPACITY * 2 ^ (k + 1) = INITIAL_CAPACITY * 2 ^ k * 2 := by rw [Nat.pow_succ, Nat.mul_assoc]
  have double : int (nl.capacity * 2) = some ((INITIAL_CAPACITY * 2 ^ (k + 1) : Nat) : Int) := by
    have bound : 2 ^ (k + 1) ≤ 2 ^ 26 := Nat.pow_le_pow_right (by decide) less
    have product : nl.capacity * 2 = (INITIAL_CAPACITY * 2 ^ (k + 1) : Nat) := by
      rw [h.capacity, grows]
      exact (Int.natCast_mul _ 2).symm
    rw [product]
    generalize 2 ^ (k + 1) = x at bound ⊢
    unfold INITIAL_CAPACITY
    exact int_eq (by omega) (by omega)
  have le : nl.names.length ≤ INITIAL_CAPACITY * 2 ^ (k + 1) := by
    rw [h.block, grows]
    omega
  have expanded : expandNamelist junk nl =
      some ⟨(INITIAL_CAPACITY * 2 ^ (k + 1) : Nat), nl.size,
        realloc junk nl.names (INITIAL_CAPACITY * 2 ^ (k + 1) * NAMESTAT)⟩ := by
    rw [expandNamelist, double, ← blockSize_eq (level_small less)]
    rfl
  refine ⟨_, expanded, less, rfl, ?_, realloc_arrays le (level_small less) h.arrays, h.size, ?_, ?_⟩
  · rw [realloc_eq le (level_small less), List.length_append, List.length_map, List.length_range]
    omega
  · rw [grows]
    have := h.fits
    omega
  · rw [← h.stats, Namelist.stats, realloc_eq le (level_small less), List.take_append_of_le_length, Namelist.stats]
    rw [h.size, h.block, Int.toNat_natCast]
    exact h.fits

theorem Holds.overflow (junk : Junk) (h : Holds nl l 26) : expandNamelist junk nl = none := by
  rw [expandNamelist, h.capacity]
  rfl

/-! ### The loop -/

theorem find_eq (plain : 0 ∉ name) {names : List Namestat} {i : Nat} (inside : i + n ≤ names.length) :
    addName.find name names i n = some (i + (((names.drop i).take n).map fun e => string e.name).idxOf name) := by
  induction n generalizing i with
  | zero => rfl
  | succ n ih =>
    have lt : i < names.length := by omega
    rw [addName.find, List.getElem?_eq_getElem lt, List.drop_eq_getElem_cons lt, List.take_succ_cons, List.map_cons,
      List.idxOf_cons]
    by_cases same : string names[i].name = name
    · have equal : strcmp name names[i].name = 0 :=
        (Libc.strcmp_eq_zero _ _).mpr ((Libc.string_plain plain).trans same.symm)
      simp [equal, same]
    · have apart : strcmp name names[i].name ≠ 0 := fun zero =>
        same (((Libc.strcmp_eq_zero _ _).mp zero).symm.trans (Libc.string_plain plain))
      have next := ih (i := i + 1) (by omega)
      simp only [Option.bind_eq_bind, Option.bind_some, if_neg apart, next, beq_eq_false_iff_ne.mpr same, cond_false]
      congr 1
      omega

theorem Holds.strings (h : Holds nl l k) :
    (nl.names.take l.eraseDups.length).map (fun e => string e.name) = l.eraseDups := by
  have names := congrArg (List.map Prod.fst) h.stats
  rw [Namelist.stats, h.size, Int.toNat_natCast, List.map_map, List.map_map] at names
  exact names.trans (tally_fst l)

theorem Holds.find (h : Holds nl l k) (plain : 0 ∉ name) :
    addName.find name nl.names 0 nl.size.toNat = some (l.eraseDups.idxOf name) := by
  have inside := h.fits
  rw [h.size, Int.toNat_natCast, find_eq plain (by rw [h.block]; omega), List.drop_zero, h.strings, Nat.zero_add]

/-! ### One call -/

theorem Holds.again (junk : Junk) (h : Holds nl l k) (plain : 0 ∉ name) (member : name ∈ l) :
    (l.count name + 1 < 2 ^ 31 → ∃ nl', addName junk nl name = some nl' ∧ Holds nl' (l ++ [name]) k) ∧
    (2 ^ 31 ≤ l.count name + 1 → addName junk nl name = none) := by
  have lt : l.eraseDups.idxOf name < l.eraseDups.length := List.idxOf_lt_length_of_mem (List.mem_eraseDups.mpr member)
  have inside : l.eraseDups.idxOf name < nl.names.length := by
    rw [h.block]
    exact Nat.lt_of_lt_of_le lt h.fits
  have other : ((l.eraseDups.idxOf name : Nat) : Int) ≠ nl.size := by
    rw [h.size]
    omega
  generalize place : l.eraseDups.idxOf name = i at lt inside other
  -- The entry at that place is the one that the tally has for the name.
  have entry : (string nl.names[i].name, nl.names[i].count) = (name, (l.count name : Int)) := by
    have here : nl.stats[i]? = some (string nl.names[i].name, nl.names[i].count) := by
      rw [Namelist.stats, List.getElem?_map, List.getElem?_take_of_lt (by rw [h.size]; exact lt),
        List.getElem?_eq_getElem inside]
      rfl
    have there : (tally l)[i]? = some (name, l.count name) := by
      subst place
      rw [tally, List.getElem?_map, List.getElem?_eq_getElem lt, List.getElem_idxOf lt]
      rfl
    rw [h.stats, List.getElem?_map, there] at here
    exact (Option.some.inj here).symm
  obtain ⟨text, count⟩ := Prod.mk.inj entry
  have run : addName junk nl name =
      (int (l.count name + 1)).map fun count => { nl with names := nl.names.set i { nl.names[i] with count } } := by
    rw [addName, h.find plain, place]
    simp only [Option.bind_eq_bind, Option.bind_some, ne_eq, other, not_false_eq_true, if_true,
      List.getElem?_eq_getElem inside, count]
    cases int (l.count name + 1) <;> rfl
  refine ⟨fun few => ?_, fun many => by rw [run, int_high (by omega)]; rfl⟩
  rw [run, int_eq (by omega) (by omega)]
  have same := eraseDups_concat_mem member
  refine ⟨_, rfl, h.level, h.capacity, (List.length_set ..).trans h.block, fun e found => ?_,
    by rw [same]; exact h.size, by rw [same]; exact h.fits, ?_⟩
  · rcases List.mem_or_eq_of_mem_set found with old | rfl
    · exact h.arrays e old
    · exact h.arrays nl.names[i] (List.getElem_mem inside)
  · rw [tally_concat_mem member, List.map_set, ← h.stats, place]
    change ((nl.names.set i _).take nl.size.toNat).map _ = _
    rw [List.take_set, List.map_set, text, Namelist.stats]
    rfl

theorem Holds.room (junk : Junk) (h : Holds nl l k) (few : l.eraseDups.length < 2 ^ 30) :
    ∃ nl' k', (if nl.size = nl.capacity then expandNamelist junk nl else some nl) = some nl' ∧ Holds nl' l k' ∧
      l.eraseDups.length < INITIAL_CAPACITY * 2 ^ k' := by
  have fits := h.fits
  by_cases full : nl.size = nl.capacity
  · rw [if_pos full]
    have same : l.eraseDups.length = INITIAL_CAPACITY * 2 ^ k := by
      have := h.size.symm.trans (full.trans h.capacity)
      exact_mod_cast this
    have less : k < 26 := by
      by_contra many
      have : 2 ^ 26 ≤ 2 ^ k := Nat.pow_le_pow_right (by decide) (Nat.not_lt.mp many)
      simp only [INITIAL_CAPACITY] at same
      omega
    obtain ⟨nl', expanded, h'⟩ := h.expand junk less
    refine ⟨nl', k + 1, expanded, h', ?_⟩
    have positive := Nat.two_pow_pos k
    rw [same, Nat.pow_succ]
    simp only [INITIAL_CAPACITY]
    omega
  · rw [if_neg full]
    refine ⟨nl, k, rfl, h, Nat.lt_of_le_of_ne fits fun same => full ?_⟩
    rw [h.size, h.capacity, same]

theorem Holds.store (h : Holds nl l k) (plain : 0 ∉ name) (short : name.length < NAMELEN) (new : name ∉ l)
    (few : l.eraseDups.length < 2 ^ 30) (room : l.eraseDups.length < INITIAL_CAPACITY * 2 ^ k) :
    ∃ e text size, nl.names[l.eraseDups.length]? = some e ∧ strcpy e.name name = some text ∧
      int (nl.size + 1) = some size ∧
      Holds { nl with names := nl.names.set l.eraseDups.length ⟨text, 1⟩, size } (l ++ [name]) k := by
  have inside : l.eraseDups.length < nl.names.length := by
    rw [h.block]
    exact room
  have array := h.arrays _ (List.getElem_mem inside)
  have same := eraseDups_concat_new new
  have size : int (nl.size + 1) = some ((l.eraseDups.length + 1 : Nat) : Int) := by
    rw [h.size]
    exact int_eq (by omega) (by omega)
  refine ⟨_, name ++ 0 :: nl.names[l.eraseDups.length].name.drop (name.length + 1), _,
    List.getElem?_eq_getElem inside, ?_, size, ?_⟩
  · rw [strcpy, Libc.string_plain plain, if_pos (by rw [array]; exact short)]
  · refine ⟨h.level, h.capacity, (List.length_set ..).trans h.block, fun e found => ?_, ?_, ?_, ?_⟩
    · rcases List.mem_or_eq_of_mem_set found with old | rfl
      · exact h.arrays e old
      · rw [List.length_append, List.length_cons, List.length_drop, array]
        omega
    · rw [same, List.length_append, List.length_singleton]
    · rw [same, List.length_append]
      exact room
    · rw [tally_concat_new new, List.map_append, ← h.stats]
      change ((nl.names.set l.eraseDups.length _).take (l.eraseDups.length + 1)).map _ = _
      rw [List.take_add_one, List.getElem?_set_self inside,
        List.take_set_of_le Nat.le.refl, List.map_append, Namelist.stats, h.size]
      simp only [Int.toNat_natCast, Option.toList_some, List.map_singleton, Libc.string_append plain]
      rfl

theorem Holds.new (h : Holds nl l k) (plain : 0 ∉ name) (short : name.length < NAMELEN) (new : name ∉ l)
    (few : l.eraseDups.length < 2 ^ 30) : ∃ nl' k', addName junk nl name = some nl' ∧ Holds nl' (l ++ [name]) k' := by
  have absent := List.idxOf_eq_length (mt List.mem_eraseDups.mp new)
  obtain ⟨nl', k', grown, h', room⟩ := h.room junk few
  obtain ⟨e, text, size, entry, copied, next, stored⟩ := h'.store plain short new few room
  refine ⟨_, k', ?_, stored⟩
  rw [addName, h.find plain, absent]
  simp only [Option.bind_eq_bind, Option.bind_some, ← h.size, ne_eq, not_true_eq_false, if_false, grown]
  simp only [entry, copied, next, Option.bind_some]
  rfl

theorem Holds.full (h : Holds nl l k) (plain : 0 ∉ name) (new : name ∉ l) (many : l.eraseDups.length = 2 ^ 30) :
    addName junk nl name = none := by
  have top : k = 26 := by
    have fits := h.fits
    by_contra less
    have : 2 ^ k ≤ 2 ^ 25 := Nat.pow_le_pow_right (by decide) (by have := h.level; omega)
    simp only [INITIAL_CAPACITY] at fits
    omega
  subst top
  have absent := List.idxOf_eq_length (mt List.mem_eraseDups.mp new)
  have at_end : nl.size = nl.capacity := by
    rw [h.size, h.capacity, many]
    decide
  rw [addName, h.find plain, absent]
  simp only [Option.bind_eq_bind, Option.bind_some, ← h.size, ne_eq, not_true_eq_false, if_false]
  rw [if_pos at_end, h.overflow junk]
  rfl

/-! ### All calls -/

theorem Small.before (small : Small (l ++ [name])) : Small l := by
  refine ⟨?_, fun n => Nat.lt_of_le_of_lt ?_ (small.2 n)⟩
  · by_cases member : name ∈ l
    · exact eraseDups_concat_mem member ▸ small.1
    · have few := small.1
      rw [eraseDups_concat_new member, List.length_append] at few
      omega
  · rw [List.count_append]
    exact Nat.le_add_right _ _

theorem small_concat_mem (small : Small l) (member : name ∈ l) : Small (l ++ [name]) ↔ l.count name + 1 < 2 ^ 31 := by
  refine ⟨fun more => by simpa using more.2 name, fun few => ⟨eraseDups_concat_mem member ▸ small.1, fun n => ?_⟩⟩
  by_cases same : n = name
  · subst same
    simpa using few
  · rw [List.count_append, List.count_singleton, if_neg (by simpa using Ne.symm same)]
    exact small.2 n

theorem small_concat_new (small : Small l) (new : name ∉ l) : Small (l ++ [name]) ↔ l.eraseDups.length < 2 ^ 30 := by
  rw [Small, eraseDups_concat_new new, List.length_append, List.length_singleton]
  refine ⟨fun more => more.1, fun few => ⟨few, fun n => ?_⟩⟩
  by_cases same : n = name
  · subst same
    rw [List.count_append, List.count_eq_zero.mpr new]
    simp
  · rw [List.count_append, List.count_singleton, if_neg (by simpa using Ne.symm same)]
    exact small.2 n

theorem addAll_concat (junk : Junk) (l : List (List UInt8)) (name : List UInt8) :
    addAll junk (l ++ [name]) = (addAll junk l).bind fun nl => addName junk nl name := by
  unfold addAll
  rw [List.foldlM_append]
  simp

theorem addAll_spec (junk : Junk) (names : ∀ name ∈ l, 0 ∉ name ∧ name.length < NAMELEN) :
    (Small l → ∃ nl k, addAll junk l = some nl ∧ Holds nl l k) ∧ (¬ Small l → addAll junk l = none) := by
  induction l using List.reverseRecOn with
  | nil => exact ⟨fun _ => ⟨_, 0, rfl, holds_make junk⟩, fun large =>
      absurd ⟨by decide, fun _ => Nat.two_pow_pos 31⟩ large⟩
  | append_singleton l name ih =>
    obtain ⟨works, fails⟩ := ih fun n member => names n (List.mem_append_left _ member)
    obtain ⟨plain, short⟩ := names name (by simp)
    rw [addAll_concat]
    by_cases small : Small l
    · obtain ⟨nl, k, run, h⟩ := works small
      rw [run, Option.bind_some]
      by_cases member : name ∈ l
      · obtain ⟨counted, overflows⟩ := h.again junk plain member
        rw [small_concat_mem small member]
        refine ⟨fun few => ?_, fun many => overflows (Nat.not_lt.mp many)⟩
        obtain ⟨nl', added, h'⟩ := counted few
        exact ⟨nl', k, added, h'⟩
      · rw [small_concat_new small member]
        exact ⟨h.new plain short member, fun many => h.full plain member (Nat.le_antisymm small.1 (Nat.not_lt.mp many))⟩
    · rw [fails small]
      exact ⟨fun more => absurd more.before small, fun _ => rfl⟩

theorem Holds.exact (h : Holds nl l k) : Exact nl l := by
  have names : nl.stats.map Prod.fst = l.eraseDups := by
    rw [h.stats, List.map_map]
    exact tally_fst l
  refine ⟨?_, ?_, names, fun s listed => ?_⟩
  · rw [h.size, h.capacity]
    exact_mod_cast h.fits
  · rw [names]
    exact nodup_eraseDups l
  · rw [h.stats] at listed
    obtain ⟨t, counted, rfl⟩ := List.mem_map.mp listed
    obtain ⟨name, -, rfl⟩ := List.mem_map.mp counted
    rfl

/-- The statistics are exact as long as no count reaches `2 ^ 31` and there are no more than `2 ^ 30` names. -/
theorem addAll_exact_iff (junk : Junk) (l : List (List UInt8)) (names : ∀ name ∈ l, 0 ∉ name ∧ name.length < NAMELEN) :
    (∃ nl, addAll junk l = some nl ∧ Exact nl l) ↔ l.eraseDups.length ≤ 2 ^ 30 ∧ ∀ name, l.count name < 2 ^ 31 := by
  obtain ⟨works, fails⟩ := addAll_spec junk names
  constructor
  · rintro ⟨nl, run, -⟩
    by_contra large
    rw [fails large] at run
    cases run
  · intro small
    obtain ⟨nl, k, run, h⟩ := works small
    exact ⟨nl, run, h.exact⟩

end

def zeros : Junk := ⟨fun _ => ⟨List.replicate NAMELEN 0, 0⟩, fun _ => List.length_replicate⟩

theorem addAll_exact_twice :
    ∃ nl, addAll zeros [[102], [98], [102]] = some nl ∧ Exact nl [[102], [98], [102]] :=
  (addAll_exact_iff zeros _ (by decide)).mpr ⟨by decide, fun _ => List.count_le_length.trans_lt (by decide)⟩

/-- The count of a name that has been added `2 ^ 31 - 1` times overflows when it is added again. -/
theorem addAll_overflows :
    (∃ nl, addAll zeros (List.replicate (2 ^ 31 - 1) [97]) = some nl ∧ nl.stats = [([97], 2 ^ 31 - 1)] ∧
      addName zeros nl [97] = none) ∧
    addAll zeros (List.replicate (2 ^ 31 - 1) [97] ++ [[97]]) = none := by
  have names : ∀ name ∈ List.replicate (2 ^ 31 - 1) [(97 : UInt8)], 0 ∉ name ∧ name.length < NAMELEN := by
    intro name member
    rw [List.eq_of_mem_replicate member]
    decide
  have counts := tally_replicate [(97 : UInt8)] (2 ^ 31 - 2)
  have count := List.count_replicate_self (a := [(97 : UInt8)]) (n := 2 ^ 31 - 1)
  rw [show 2 ^ 31 - 2 + 1 = 2 ^ 31 - 1 from rfl] at counts
  have few : ∀ name, (List.replicate (2 ^ 31 - 1) [(97 : UInt8)]).count name < 2 ^ 31 := fun name =>
    Nat.lt_of_le_of_lt List.count_le_length (by rw [List.length_replicate]; decide)
  generalize List.replicate (2 ^ 31 - 1) [(97 : UInt8)] = l at names counts count few ⊢
  have one : l.eraseDups.length ≤ 2 ^ 30 := by
    rw [← tally_fst, counts]
    decide
  have member : [97] ∈ l := List.count_pos_iff.mp (by rw [count]; decide)
  obtain ⟨nl, k, run, h⟩ := (addAll_spec zeros names).1 ⟨one, few⟩
  have bursts : addName zeros nl [97] = none := (h.again zeros (by decide) member).2 (by rw [count]; decide)
  refine ⟨⟨nl, run, ?_, bursts⟩, ?_⟩
  · rw [h.stats, counts]
    rfl
  · rw [addAll_concat, run]
    exact bursts

end Espl.Labs
