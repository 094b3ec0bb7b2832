import Espl.Disk.Node
import Mathlib.Algebra.BigOperators.Group.Finset.Basic

/-!
# Directories

The contents of a directory as a list of entries, and what the entries of all directories say about the
link counts of the inodes they name.
-/

namespace Espl

/-! ### Names -/

theorem strncpy_length (t : List UInt8) (n : Nat) : (strncpy t n).length = n := by
  simp only [strncpy, List.length_append, List.length_replicate, List.length_take]
  omega

def cstr (t : List UInt8) (n : Nat) : List UInt8 := (t.takeWhile (· ≠ 0)).take n

theorem strncmp_eq_zero (p q : List UInt8) (n : Nat) : strncmp p q n = 0 ↔ cstr p n = cstr q n := by
  induction n generalizing p q with
  | zero => simp [strncmp, cstr]
  | succ n ih =>
    have diff : ∀ {a b : UInt8}, a ≠ b → (a.toNat : Int) - b.toNat ≠ 0 := by
      intro a b ne eq
      exact ne (UInt8.toNat_inj.mp (by omega))
    rw [strncmp]
    cases p with
    | nil =>
      cases q with
      | nil => simp [cstr]
      | cons b q =>
        by_cases hb : b = 0
        · simp [cstr, hb]
        · simpa [cstr, hb] using diff (Ne.symm hb)
    | cons a p =>
      cases q with
      | nil =>
        by_cases ha : a = 0
        · simp [cstr, ha]
        · simpa [cstr, ha] using diff ha
      | cons b q =>
        by_cases ha : a = 0
        · by_cases hb : b = 0
          · simp [cstr, ha, hb]
          · simpa [cstr, ha, hb] using diff (Ne.symm hb)
        · by_cases same : a = b
          · subst same
            simpa [cstr, ha] using ih p q
          · by_cases hb : b = 0
            · simpa [cstr, ha, hb] using diff ha
            · simpa [cstr, ha, hb, same] using diff same

theorem namecmp_eq_zero {s t : List UInt8} : namecmp s t = 0 ↔ cstr s DIRSIZ = cstr t DIRSIZ :=
  strncmp_eq_zero s t DIRSIZ

theorem cstr_strncpy (t : List UInt8) (n : Nat) : cstr (strncpy t n) n = cstr t n := by
  have plain : ∀ b ∈ (t.takeWhile (· ≠ 0)).take n, b ≠ 0 := by
    intro b member
    simpa using List.all_eq_true.mp List.all_takeWhile b (List.mem_of_mem_take member)
  unfold cstr strncpy
  rw [List.takeWhile_append_of_pos (by simpa using plain)]
  cases n - ((t.takeWhile (· ≠ 0)).take n).length with
  | zero => simp
  | succ k => simp [List.replicate_succ]

/-! ### Entries -/

namespace Dirent

/-- An entry as it is stored: a 16-bit number and `DIRSIZ` bytes. -/
structure Stored (de : Dirent) : Prop where
  inum : de.inum < 2 ^ 16
  name : de.name.length = DIRSIZ

theorem stored_strncpy {inum : Nat} (small : inum < 2 ^ 16) (name : List UInt8) :
    Stored ⟨inum, strncpy name DIRSIZ⟩ := ⟨small, strncpy_length _ _⟩

theorem stored_zero : Stored zero := ⟨by decide, by decide⟩

theorem Stored.length {de : Dirent} (h : de.Stored) : de.toBytes.length = DESIZE := by
  simp [toBytes, h.name]

theorem Stored.ofBytes_toBytes {de : Dirent} (h : de.Stored) : ofBytes de.toBytes = de := by
  have inum : le16 (fun j => de.toBytes.getD j 0) = de.inum := by
    rw [le16_leByte (x := de.inum), Nat.mod_eq_of_lt h.inum]
    intro j hj
    match j, hj with
    | 0, _ => rfl
    | 1, _ => rfl
  have name : de.toBytes.drop 2 = de.name := rfl
  rw [ofBytes, inum, name]

end Dirent

def dirents (l : List UInt8) : List Dirent :=
  (List.range (l.length / DESIZE)).map fun k => Dirent.ofBytes ((l.drop (k * DESIZE)).take DESIZE)

@[simp] theorem dirents_length (l : List UInt8) : (dirents l).length = l.length / DESIZE := by simp [dirents]

theorem dirents_getElem? {l : List UInt8} {k : Nat} (lt : (k + 1) * DESIZE ≤ l.length) :
    (dirents l)[k]? = some (Dirent.ofBytes ((l.drop (k * DESIZE)).take DESIZE)) := by
  have : k < l.length / DESIZE := by
    simp only [DESIZE] at *
    omega
  simp [dirents, this]

theorem dirents_append {l : List UInt8} {de : Dirent} (whole : l.length % DESIZE = 0) (stored : de.Stored) :
    dirents (l ++ de.toBytes) = dirents l ++ [de] := by
  have length := stored.length
  have count : (l.length + de.toBytes.length) / DESIZE = l.length / DESIZE + 1 := by
    rw [length]
    simp only [DESIZE] at *
    omega
  have last : l.length / DESIZE * DESIZE = l.length := by
    simp only [DESIZE] at *
    omega
  rw [dirents, List.length_append, count, List.range_succ, List.map_append, dirents]
  congr 1
  · apply List.map_congr_left
    intro k member
    have lt := List.mem_range.mp member
    have fits : k * DESIZE + DESIZE ≤ l.length := by
      simp only [DESIZE] at *
      omega
    rw [List.drop_append_of_le_length (by omega), List.take_append_of_le_length (by rw [List.length_drop]; omega)]
  · rw [List.map_singleton, last, List.drop_left, ← length, List.take_length, stored.ofBytes_toBytes]

theorem dirents_flatMap {des : List Dirent} (stored : ∀ de ∈ des, de.Stored) :
    (des.flatMap Dirent.toBytes).length = DESIZE * des.length ∧ dirents (des.flatMap Dirent.toBytes) = des := by
  induction des using List.reverseRecOn with
  | nil => exact ⟨rfl, rfl⟩
  | append_singleton des de ih =>
    obtain ⟨length, same⟩ := ih fun e member => stored e (by simp [member])
    have last := stored de (by simp)
    rw [List.flatMap_append, List.flatMap_singleton]
    refine ⟨by rw [List.length_append, length, last.length, List.length_append, List.length_singleton, Nat.mul_succ],
      ?_⟩
    rw [dirents_append (by rw [length]; simp) last, same]

theorem dirents_overwrite {l : List UInt8} {de : Dirent} {k : Nat} (lt : (k + 1) * DESIZE ≤ l.length)
    (stored : de.Stored) : dirents (overwrite l (k * DESIZE) de.toBytes) = (dirents l).set k de := by
  have length := stored.length
  have le : k * DESIZE ≤ l.length := by
    simp only [DESIZE] at *
    omega
  have same : (overwrite l (k * DESIZE) de.toBytes).length = l.length := by
    rw [overwrite_length _ _ le, length]
    simp only [DESIZE] at *
    omega
  apply List.ext_getElem?
  intro j
  by_cases inside : (j + 1) * DESIZE ≤ l.length
  · rw [dirents_getElem? (by rwa [same])]
    by_cases eq : j = k
    · subst eq
      rw [List.getElem?_set_self (by rw [dirents_length]; simp only [DESIZE] at *; omega)]
      have block : (overwrite l (j * DESIZE) de.toBytes).drop (j * DESIZE) =
          de.toBytes ++ l.drop (j * DESIZE + de.toBytes.length) := by
        rw [overwrite, List.append_assoc, List.drop_left' (by rw [List.length_take]; omega)]
      rw [block, ← length, List.take_left, stored.ofBytes_toBytes]
    · rw [List.getElem?_set_ne (Ne.symm eq), dirents_getElem? inside]
      congr 2
      apply List.ext_getElem
      · simp only [List.length_take, List.length_drop, same]
      · intro m hm hm'
        simp only [List.length_take, List.length_drop] at hm
        simp only [List.getElem_take, List.getElem_drop]
        rw [← List.getD_eq_getElem _ 0, overwrite_getD _ _ le, if_neg, List.getD_eq_getElem]
        rw [length]
        simp only [DESIZE] at *
        omega
  · rw [List.getElem?_eq_none (by rw [dirents_length, same]; simp only [DESIZE] at *; omega),
      List.getElem?_eq_none (by rw [List.length_set, dirents_length]; simp only [DESIZE] at *; omega)]

end Espl
