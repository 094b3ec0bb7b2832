import Espl.Kernel.Deallocuvm
import Espl.Kernel.ExecArgs

/-!
# `register_handler`

The frame that `proc.c` opens for a signal handler on the user's stack. The kernel finds the page of
`esp` and writes through its own mapping of it, in which the next page is the next one of memory.
-/

namespace Espl.Kernel.Vm

open Exec (wordBytes wordBytes_length wordBytes_getD)

structure Trapframe where
  eip : Nat
  esp : Nat
  deriving DecidableEq, Repr

def storeInt (page off x : Nat) : V Unit := do
  step (.store page off ((wordBytes x).take (PGSIZE - off)))
  if PGSIZE < off + 4 then
    if (page + 1) * PGSIZE < PHYSTOP then
      step (.store (page + 1) 0 ((wordBytes x).drop (PGSIZE - off)))
    else
      panic .trap

/-- `register_handler` of a process with page directory `pgdir` and trap frame `tf`. An error is the text
of its panic. -/
def registerHandler (pgdir : Nat) (tf : Trapframe) (sighandler : Nat) : V (Except String Trapframe) := do
  let addr ← uva2ka pgdir tf.esp
  if tf.esp % PGSIZE = 0 then
    return .error "esp_offset == 0"
  else
    match addr with
    | none => panic .trap
    | some page => do
      storeInt page ((tf.esp + 2 ^ 32 - 4) % PGSIZE) tf.eip
      return .ok ⟨sighandler, (tf.esp + 2 ^ 32 - 4) % 2 ^ 32⟩

def userByte (m : Mem) (d a : Nat) : UInt8 := m.byte (entryAt m d (a / PGSIZE)).page (a % PGSIZE)

def ret (m : Mem) (d : Nat) (tf : Trapframe) : Trapframe := ⟨le32 fun j => userByte m d (tf.esp + j), tf.esp + 4⟩

def Below (m : Mem) (d esp : Nat) : Prop := 4 ≤ esp ∧ esp < 2 ^ 32 ∧ ∀ a, esp ≤ a + 4 → a < esp →
    accessible m d (a / PGSIZE) = true

/-- The handler is called as if from the old `eip`: that is what the four bytes below the old `esp` hold,
nothing else has changed, and the handler's return goes back to it. -/
def Called (d : Nat) (tf : Trapframe) (sighandler : Nat) (m : Mem) : Prop :=
  ∃ m', machine.run (registerHandler d tf sighandler) m = .returned (.ok ⟨sighandler, tf.esp - 4⟩) m' ∧
    m' = { m with byte := poke (fun v => (entryAt m d v).page) (tf.esp - 4) (wordBytes tf.eip) m.byte } ∧
    ret m' d ⟨sighandler, tf.esp - 4⟩ = tf

variable {m m' : Mem} {d esp eip sighandler : Nat}

theorem run_uva2ka {va : Nat} (lt : va < 2 ^ 32) (ok : accessible m d (va / PGSIZE) = true) :
    machine.run (uva2ka d va) m = .returned (some (entryAt m d (va / PGSIZE)).page) m := by
  have dir : pdx va = va / PGSIZE / 1024 := by
    simp only [pdx, PGSIZE, NPDENTRIES]
    omega
  have idx : ptx va = va / PGSIZE % 1024 := by
    simp only [ptx, PGSIZE, NPTENTRIES]
    omega
  simp only [accessible, hasTable, entryAt, Bool.and_eq_true] at ok
  obtain ⟨⟨table, present⟩, user⟩ := ok
  simp [uva2ka, walkpgdir, step, Machine.run, act, dir, idx, table, present, user, entryAt]

theorem run_registerHandler (below : Below m d esp) (inside : 4 ≤ esp % PGSIZE) :
    machine.run (registerHandler d ⟨eip, esp⟩ sighandler) m = .returned (.ok ⟨sighandler, esp - 4⟩)
      { m with byte := poke (fun v => (entryAt m d v).page) (esp - 4) (wordBytes eip) m.byte } := by
  obtain ⟨four, lt, user⟩ := below
  have page : (esp - 4) / PGSIZE = esp / PGSIZE := by
    simp only [PGSIZE] at *
    omega
  have off : (esp + 2 ^ 32 - 4) % PGSIZE = (esp - 4) % PGSIZE := by
    simp only [PGSIZE] at *
    omega
  have room : (esp - 4) % PGSIZE + 4 ≤ PGSIZE := by
    simp only [PGSIZE] at *
    omega
  have new : (esp + 2 ^ 32 - 4) % 2 ^ 32 = esp - 4 := by omega
  have ok := user (esp - 4) (by omega) (by omega)
  rw [page] at ok
  have fits : (esp - 4) % PGSIZE + (wordBytes eip).length ≤ PGSIZE := by rwa [wordBytes_length]
  have stored := poke_store (fun v => (entryAt m d v).page) (by omega) m.byte fits
  rw [registerHandler, Program.bind_eq, Machine.run_bind, run_uva2ka lt ok]
  simp only [if_neg (show ¬ esp % PGSIZE = 0 by omega), off, new]
  rw [Program.bind_eq, Machine.run_bind, storeInt, if_neg (by omega),
    List.take_of_length_le (by rw [wordBytes_length]; omega), stored, page]
  rfl

theorem userByte_byte (m : Mem) (byte : Nat → Nat → UInt8) (d a : Nat) :
    userByte { m with byte := byte } d a = byte (entryAt m d (a / PGSIZE)).page (a % PGSIZE) := rfl

theorem userByte_poke (eip : Nat) (below : Below m d esp) (inside : 4 ≤ esp % PGSIZE) {i : Nat} (lt : i < 4) :
    userByte { m with byte := poke (fun v => (entryAt m d v).page) (esp - 4) (wordBytes eip) m.byte } d
      (esp - 4 + i) = leByte eip i := by
  obtain ⟨four, small, _⟩ := below
  have room : (esp - 4) % PGSIZE + 4 ≤ PGSIZE := by
    simp only [PGSIZE] at *
    omega
  have page : (esp - 4 + i) / PGSIZE = (esp - 4) / PGSIZE := by
    simp only [PGSIZE] at *
    omega
  have off : (esp - 4 + i) % PGSIZE = (esp - 4) % PGSIZE + i := by
    simp only [PGSIZE] at *
    omega
  rw [userByte_byte, poke_store (fun v => (entryAt m d v).page) (by omega) m.byte
    (by rw [wordBytes_length]; exact room), page, off,
    upd_same, if_pos ⟨by omega, by rw [wordBytes_length]; omega⟩, Nat.add_sub_cancel_left, wordBytes_getD lt]

theorem run_storeInt {page off x : Nat} (run : machine.run (storeInt page off x) m = .returned () m') :
    m'.entry = m.entry ∧ ∀ k < off, m'.byte page k = m.byte page k := by
  unfold storeInt at run
  have first : ∀ k < off, upd m.byte page (fun k =>
      if off ≤ k ∧ k < off + ((wordBytes x).take (PGSIZE - off)).length then
        ((wordBytes x).take (PGSIZE - off)).getD (k - off) 0
      else m.byte page k) page k = m.byte page k := by
    intro k lt
    rw [upd_same, if_neg (by omega)]
  split at run
  · split at run
    · cases run
      exact ⟨rfl, fun k lt => (congrFun (upd_ne _ _ (Nat.succ_ne_self page).symm) k).trans (first k lt)⟩
    · cases run
  · cases run
    exact ⟨rfl, first⟩

theorem run_registerHandler_edge (below : Below m d esp) (edge : esp % PGSIZE < 4) {tf : Trapframe}
    (run : machine.run (registerHandler d ⟨eip, esp⟩ sighandler) m = .returned (.ok tf) m') :
    userByte m' d (esp - 1) = userByte m d (esp - 1) := by
  obtain ⟨four, lt, user⟩ := below
  rw [registerHandler, Program.bind_eq, Machine.run_bind] at run
  by_cases zero : esp % PGSIZE = 0
  · simp only [if_pos zero] at run
    split at run <;> cases run
  · have page : (esp - 1) / PGSIZE = esp / PGSIZE := by
      simp only [PGSIZE] at *
      omega
    have ok := user (esp - 1) (by omega) (by omega)
    rw [page] at ok
    have off : (esp + 2 ^ 32 - 4) % PGSIZE = PGSIZE - 4 + esp % PGSIZE := by
      simp only [PGSIZE] at *
      omega
    have before : (esp - 1) % PGSIZE < PGSIZE - 4 + esp % PGSIZE := by
      simp only [PGSIZE] at *
      omega
    rw [run_uva2ka lt ok] at run
    simp only [if_neg zero, off] at run
    rw [Program.bind_eq, Machine.run_bind] at run
    cases stored : machine.run (storeInt (entryAt m d (esp / PGSIZE)).page (PGSIZE - 4 + esp % PGSIZE) eip) m with
    | returned _ m₁ =>
      rw [stored] at run
      cases run
      obtain ⟨entry, byte⟩ := run_storeInt stored
      unfold userByte
      rw [page, ← byte _ before, entryAt, entry]
      rfl
    | panicked | waiting => rw [stored] at run; cases run

/-- The handler is called as it should be, whatever `eip` was, exactly when `esp` is not in the first four
bytes of its page. -/
theorem registerHandler_called (below : Below m d esp) :
    (∀ eip < 2 ^ 32, ∀ sighandler, Called d ⟨eip, esp⟩ sighandler m) ↔ 4 ≤ esp % PGSIZE := by
  constructor
  · intro called
    by_contra edge
    have bound := (userByte m d (esp - 1)).toNat_lt
    -- some other value for the byte below `esp`
    obtain ⟨m', run, _, back⟩ := called (((userByte m d (esp - 1)).toNat + 1) % 256 * 2 ^ 24) (by omega) 0
    have same := run_registerHandler_edge below (by omega) run
    have four := below.1
    have eip := congrArg Trapframe.eip back
    simp only [ret, le32, show esp - 4 + 3 = esp - 1 by omega, same] at eip
    have b0 := (userByte m' d (esp - 4 + 0)).toNat_lt
    have b1 := (userByte m' d (esp - 4 + 1)).toNat_lt
    have b2 := (userByte m' d (esp - 4 + 2)).toNat_lt
    omega
  · intro inside eip small sighandler
    refine ⟨_, run_registerHandler below inside, rfl, ?_⟩
    have four := below.1
    have word := le32_leByte fun i lt => userByte_poke eip below inside lt
    rw [Nat.mod_eq_of_lt small] at word
    have top : esp - 4 + 4 = esp := by omega
    rw [ret, Trapframe.mk.injEq]
    exact ⟨word, top⟩

theorem below_second {esp : Nat} (lo : 1024 * PGSIZE + 4 ≤ esp) (hi : esp ≤ 1025 * PGSIZE) :
    Below Mem.second 0x300 esp := by
  simp only [PGSIZE] at lo hi
  refine ⟨by omega, by omega, fun a first last => ?_⟩
  have page : a / PGSIZE = 1024 := by
    simp only [PGSIZE]
    omega
  rw [page, accessible_eq holds_second (by decide), Space.second, Space.set_pte_same]
  rfl

theorem registerHandler_called_second :
    (∀ eip < 2 ^ 32, ∀ sighandler, Called 0x300 ⟨eip, 1024 * PGSIZE + 8⟩ sighandler Mem.second) ↔
    4 ≤ (1024 * PGSIZE + 8) % PGSIZE :=
  registerHandler_called (below_second (by decide) (by decide))

/-- `esp` is at the end of the page, as it is for an empty stack. -/
theorem registerHandler_panics : Below Mem.second 0x300 (1025 * PGSIZE) ∧
    machine.run (registerHandler 0x300 ⟨0, 1025 * PGSIZE⟩ 0) Mem.second = .returned (.error "esp_offset == 0")
      Mem.second := by
  refine ⟨below_second (by decide) (by decide), ?_⟩
  rfl

end Espl.Kernel.Vm
