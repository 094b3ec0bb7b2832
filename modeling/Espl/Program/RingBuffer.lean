import Mathlib.Data.Nat.ModEq
import Mathlib.Logic.Function.Basic

/-!
# Ring buffers with free-running counters

A ring of `N` entries, where `N` divides `2 ^ 32`, with 32-bit counters that are never reduced modulo
`N`. Counters wrap around at `2 ^ 32`; an entry is found by its counter modulo `N`.
-/

namespace Espl.RingBuffer

variable {α : Type} {N : Nat} {data : Nat → α} {r w e : UInt32}

def gap (r w : UInt32) : Nat := (w - r).toNat

def between (N : Nat) (data : Nat → α) (r w : UInt32) : List α :=
  (List.range (gap r w)).map fun i => data ((r.toNat + i) % N)

theorem gap_eq (r w : UInt32) : gap r w = (2 ^ 32 - r.toNat + w.toNat) % 2 ^ 32 := UInt32.toNat_sub ..

@[simp] theorem gap_self (r : UInt32) : gap r r = 0 := by simp [gap]

theorem gap_eq_zero : gap r w = 0 ↔ r = w := by
  constructor
  · intro zero
    have lt := r.toNat_lt
    have lt' := w.toNat_lt
    rw [gap_eq] at zero
    apply UInt32.toNat_inj.mp
    omega
  · rintro rfl
    exact gap_self r

theorem gap_succ_right (small : gap r w + 1 < 2 ^ 32) : gap r (w + 1) = gap r w + 1 := by
  have lt := r.toNat_lt
  have lt' := w.toNat_lt
  rw [gap_eq] at small
  rw [gap_eq, gap_eq, UInt32.toNat_add]
  simp only [UInt32.toNat_one]
  omega

theorem gap_succ_left (ne : r ≠ w) : gap (r + 1) w + 1 = gap r w := by
  have lt := r.toNat_lt
  have lt' := w.toNat_lt
  have ne' : r.toNat ≠ w.toNat := fun same => ne (UInt32.toNat_inj.mp same)
  rw [gap_eq, gap_eq, UInt32.toNat_add]
  simp only [UInt32.toNat_one]
  omega

theorem gap_pred_right (ne : r ≠ e) : gap r (e - 1) + 1 = gap r e := by
  have lt := r.toNat_lt
  have lt' := e.toNat_lt
  have ne' : r.toNat ≠ e.toNat := fun same => ne (UInt32.toNat_inj.mp same)
  rw [gap_eq, gap_eq, UInt32.toNat_sub]
  simp only [UInt32.toNat_one]
  omega

theorem gap_add (small : gap r w + gap w e < 2 ^ 32) : gap r e = gap r w + gap w e := by
  have lt := r.toNat_lt
  have lt' := w.toNat_lt
  have lt'' := e.toNat_lt
  rw [gap_eq, gap_eq] at small
  rw [gap_eq, gap_eq, gap_eq]
  omega

@[simp] theorem length_between : (between N data r w).length = gap r w := by simp [between]

@[simp] theorem between_self : between N data r r = [] := by simp [between]

theorem place_gap (dvd : N ∣ 2 ^ 32) (r w : UInt32) : (r.toNat + gap r w) % N = w.toNat % N := by
  have lt := r.toNat_lt
  have whole : (r.toNat + gap r w) % 2 ^ 32 = w.toNat := by
    have lt' := w.toNat_lt
    rw [gap_eq]
    omega
  rw [← Nat.mod_mod_of_dvd (r.toNat + gap r w) dvd, whole]

theorem place_inj {a i j : Nat} (lt : i < N) (lt' : j < N) (same : (a + i) % N = (a + j) % N) : i = j := by
  have modEq : a + i ≡ a + j [MOD N] := same
  have modEq' := Nat.ModEq.add_left_cancel' a modEq
  rwa [Nat.ModEq, Nat.mod_eq_of_lt lt, Nat.mod_eq_of_lt lt'] at modEq'

theorem between_succ (dvd : N ∣ 2 ^ 32) (small : gap r w + 1 < 2 ^ 32) :
    between N data r (w + 1) = between N data r w ++ [data (w.toNat % N)] := by
  rw [between, gap_succ_right small, List.range_succ, List.map_append, ← between, List.map_cons, List.map_nil,
    place_gap dvd]

theorem between_update (dvd : N ∣ 2 ^ 32) (before : gap r w ≤ gap r e) (room : gap r e < N) (b : α) :
    between N (Function.update data (e.toNat % N) b) r w = between N data r w := by
  apply List.map_congr_left
  intro i member
  have lt : i < gap r e := (List.mem_range.mp member).trans_le before
  rw [Function.update_of_ne]
  intro same
  rw [← place_gap dvd r e] at same
  exact absurd (place_inj (lt.trans room) room same) (Nat.ne_of_lt lt)

theorem between_push (dvd : N ∣ 2 ^ 32) (room : gap r w < N) (small : gap r w + 1 < 2 ^ 32) (b : α) :
    between N (Function.update data (w.toNat % N) b) r (w + 1) = between N data r w ++ [b] := by
  rw [between_succ dvd small, between_update dvd le_rfl room, Function.update_self]

theorem between_pop (dvd : N ∣ 2 ^ 32) (ne : r ≠ w) :
    between N data r w = data (r.toNat % N) :: between N data (r + 1) w := by
  have lt := r.toNat_lt
  rw [between, ← gap_succ_left ne, List.range_succ_eq_map, List.map_cons, Nat.add_zero, List.map_map, between]
  congr 1
  apply List.map_congr_left
  intro i _
  simp only [Function.comp_apply, UInt32.toNat_add, UInt32.toNat_one]
  rw [Nat.add_mod ((r.toNat + 1) % 2 ^ 32), Nat.mod_mod_of_dvd _ dvd, ← Nat.add_mod]
  congr 2
  omega

theorem between_pred (dvd : N ∣ 2 ^ 32) (ne : r ≠ e) :
    between N data r e = between N data r (e - 1) ++ [data ((e - 1).toNat % N)] := by
  have next : e - 1 + 1 = e := UInt32.sub_add_cancel e 1
  have small : gap r (e - 1) + 1 < 2 ^ 32 := by
    rw [gap_pred_right ne]
    exact (e - r).toNat_lt
  rw [← between_succ dvd small, next]

theorem between_append (dvd : N ∣ 2 ^ 32) (small : gap r w + gap w e < 2 ^ 32) :
    between N data r e = between N data r w ++ between N data w e := by
  rw [between, gap_add small, List.range_add, List.map_append, ← between, List.map_map, between, between]
  congr 1
  apply List.map_congr_left
  intro i _
  simp only [Function.comp_apply]
  rw [← Nat.add_assoc, Nat.add_mod, place_gap dvd, ← Nat.add_mod]

end Espl.RingBuffer
