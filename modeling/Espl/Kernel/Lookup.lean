import Espl.Kernel.Blocks
import Espl.Disk.Directory

/-!
# Looking up a name

The loop of `dirlookup` over entries that `readi` returns one by one.
-/

namespace Espl.Kernel

def Matches (name : List UInt8) (de : Dirent) : Prop := de.inum ≠ 0 ∧ namecmp name de.name = 0

instance (name : List UInt8) (de : Dirent) : Decidable (Matches name de) :=
  inferInstanceAs (Decidable (de.inum ≠ 0 ∧ namecmp name de.name = 0))

/-- In `s`, `readi` returns the entries `des` of directory `dp`, from `off` on. -/
def Lists (T : Terms signature State Panic) (dp : Nat) (s : State) (off : Nat) (des : List Dirent) : Prop :=
  ∀ k de, des[k]? = some de → ∀ R : Int × List UInt8 → State → Prop,
    (∀ bs, Dirent.ofBytes bs = de → R (DESIZE, bs) s) → machine.wp T (readi dp (off + k * DESIZE) DESIZE) s R

section

variable {T : Terms signature State Panic} {s : State} {dp off k : Nat} {name : List UInt8} {de : Dirent}
  {des : List Dirent} {Q : Option (Nat × Nat) → State → Prop}

theorem Lists.tail (h : Lists T dp s off (de :: des)) : Lists T dp s (off + DESIZE) des := by
  intro k e member R post
  have later := h (k + 1) e member R post
  rwa [Nat.succ_mul, Nat.add_comm (k * DESIZE), ← Nat.add_assoc] at later

theorem Lists.head (h : Lists T dp s off (de :: des)) {R : Int × List UInt8 → State → Prop}
    (post : ∀ bs, Dirent.ofBytes bs = de → R (DESIZE, bs) s) : machine.wp T (readi dp off DESIZE) s R := by
  have read := h 0 de rfl R post
  rwa [Nat.zero_mul, Nat.add_zero] at read

theorem lists_open {g : Geometry} {A : Volume} {c : Dinode} {i v : Nat} (here : T.point s) (disk : OnDisk g s A)
    (din : (s.icache dp).din = c) (now_open : Open g A i c v) (file : c.type ≠ T_DEV) (le : v ≤ c.size) :
    Lists T dp s 0 (dirents (contents A.data { c with size := v })) := by
  intro k e member R post
  have lt := (List.getElem?_eq_some_iff.mp member).1
  rw [dirents_length, contents_length] at lt
  have inside : k * DESIZE + DESIZE ≤ v := by
    simp only [DESIZE] at lt ⊢
    omega
  have slice := contents_slice A.data { c with size := v } (k * DESIZE) DESIZE
  rw [Nat.min_eq_left (by change _ ≤ v - _; omega)] at slice
  rw [dirents_getElem? (by rw [contents_length, Nat.succ_mul]; exact inside), slice] at member
  rw [Nat.zero_add]
  exact wp_readi_part here disk din now_open file inside le (post _ (Option.some.inj member))

theorem wp_lookup_round (lists : Lists T dp s off (de :: des))
    (hit : Matches name de → machine.wp T (iget de.inum) s fun ip t => Q (some (ip, off)) t)
    (miss : ¬ Matches name de → machine.wp T (dirlookup.loop dp name (off + DESIZE) k) s Q) :
    machine.wp T (dirlookup.loop dp name off (k + 1)) s Q := by
  rw [dirlookup.loop]
  refine Machine.wp_then (lists.head fun bs same => ?_)
  simp only [same, Program.bind_eq, ne_eq, not_true_eq_false, if_false]
  by_cases empty : de.inum = 0
  · rw [if_pos empty]
    exact miss fun found => found.1 empty
  rw [if_neg empty]
  by_cases equal : namecmp name de.name = 0
  · rw [if_pos equal]
    exact Machine.wp_then (hit ⟨empty, equal⟩)
  · rw [if_neg equal]
    exact miss fun found => equal found.2

theorem wp_lookup_skip {rest : List Dirent} (lists : Lists T dp s off (des ++ rest))
    (none : ∀ e ∈ des, ¬ Matches name e)
    (post : Lists T dp s (off + des.length * DESIZE) rest →
      machine.wp T (dirlookup.loop dp name (off + des.length * DESIZE) k) s Q) :
    machine.wp T (dirlookup.loop dp name off (des.length + k)) s Q := by
  induction des generalizing off with
  | nil =>
    simp only [List.length_nil, Nat.zero_mul, Nat.add_zero, Nat.zero_add] at post ⊢
    exact post lists
  | cons e des ih =>
    rw [List.length_cons, Nat.succ_mul, Nat.add_comm (des.length * DESIZE), ← Nat.add_assoc] at post
    rw [List.length_cons, Nat.add_right_comm]
    refine wp_lookup_round lists (fun found => absurd found (none e List.mem_cons_self)) fun _ => ?_
    exact ih lists.tail (fun e' member => none e' (List.mem_cons_of_mem _ member)) post

theorem wp_dirlookup_found {rest : List Dirent} (here : T.point s) (dir : (s.icache dp).din.type = T_DIR)
    (lists : Lists T dp s 0 (des ++ de :: rest)) (long : (des.length + 1) * DESIZE ≤ (s.icache dp).din.size)
    (none : ∀ e ∈ des, ¬ Matches name e) (found : Matches name de)
    (post : machine.wp T (iget de.inum) s fun ip t => Q (some (ip, des.length * DESIZE)) t) :
    machine.wp T (dirlookup dp name) s Q := by
  rw [dirlookup]
  refine Machine.wp_returns here rfl ?_
  simp only [Program.done_bind, dir, ne_eq, not_true_eq_false, if_false]
  obtain ⟨k, rounds⟩ : ∃ k, ((s.icache dp).din.size + DESIZE - 1) / DESIZE = des.length + (k + 1) := by
    refine ⟨((s.icache dp).din.size + DESIZE - 1) / DESIZE - (des.length + 1), ?_⟩
    simp only [DESIZE] at long ⊢
    omega
  rw [rounds]
  refine wp_lookup_skip lists none fun lists' => ?_
  rw [Nat.zero_add] at lists' ⊢
  exact wp_lookup_round lists' (fun _ => post) fun missed => absurd found missed

theorem wp_dirlookup_missing (here : T.point s) (dir : (s.icache dp).din.type = T_DIR) (lists : Lists T dp s 0 des)
    (size : (s.icache dp).din.size = des.length * DESIZE) (absent : ∀ e ∈ des, ¬ Matches name e) (post : Q none s) :
    machine.wp T (dirlookup dp name) s Q := by
  rw [dirlookup]
  refine Machine.wp_returns here rfl ?_
  simp only [Program.done_bind, dir, ne_eq, not_true_eq_false, if_false]
  have rounds : ((s.icache dp).din.size + DESIZE - 1) / DESIZE = des.length + 0 := by
    rw [size]
    simp only [DESIZE]
    omega
  rw [← List.append_nil des] at lists
  rw [rounds]
  exact wp_lookup_skip lists absent fun _ => post

theorem wp_dirlookup (here : T.point s) (dir : (s.icache dp).din.type = T_DIR) (lists : Lists T dp s 0 des)
    (size : (s.icache dp).din.size = des.length * DESIZE)
    (hit : ∀ pre de rest, des = pre ++ de :: rest → (∀ e ∈ pre, ¬ Matches name e) → Matches name de →
      machine.wp T (iget de.inum) s fun ip t => Q (some (ip, pre.length * DESIZE)) t)
    (miss : (∀ e ∈ des, ¬ Matches name e) → Q none s) : machine.wp T (dirlookup dp name) s Q := by
  cases first : des.find? fun e => decide (Matches name e) with
  | none =>
    have absent : ∀ e ∈ des, ¬ Matches name e := fun e member => by simpa using List.find?_eq_none.mp first e member
    exact wp_dirlookup_missing here dir lists size absent (miss absent)
  | some de =>
    obtain ⟨found, pre, rest, rfl, none⟩ := List.find?_eq_some_iff_append.mp first
    have none : ∀ e ∈ pre, ¬ Matches name e := fun e member => by simpa using none e member
    refine wp_dirlookup_found here dir lists ?_ none (of_decide_eq_true found)
      (hit pre de rest rfl none (of_decide_eq_true found))
    rw [size, List.length_append, List.length_cons]
    simp only [DESIZE]
    omega

end

end Espl.Kernel
