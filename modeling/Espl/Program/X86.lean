import Espl.Disk.Block

/-!
# A 32-bit machine

Registers, memory in bytes and the few instructions that hand-written code uses. Code runs until its `ret`.
-/

namespace Espl.X86

inductive Reg where
  | eax | ebx | ecx | edx | esp | ebp
  deriving DecidableEq, Repr

structure State where
  reg : Reg → UInt32
  mem : UInt32 → UInt8
  zf : Bool
  pc : Nat

/-- Operands are in the order of the assembler; a jump goes to an index in the code. -/
inductive Instr where
  | push (r : Reg)
  | pop (r : Reg)
  | mov (d s : Reg)
  | movImm (d : Reg) (n : UInt32)
  | movLoad (d base : Reg) (disp : UInt32)
  | movzxLow (d s : Reg)
  | testLow (r : Reg)
  | mul (r : Reg)
  | add (d s : Reg)
  | subImm (d : Reg) (n : UInt32)
  | addMem (base : Reg) (disp n : UInt32)
  | je (target : Nat)
  | jmp (target : Nat)
  | ret
  deriving DecidableEq, Repr

/-! ### Memory -/

def load (m : UInt32 → UInt8) (a : UInt32) : UInt32 := UInt32.ofNat (le32 fun j => m (a + UInt32.ofNat j))

def store (m : UInt32 → UInt8) (a v : UInt32) : UInt32 → UInt8 :=
  fun x => if (x - a).toNat < 4 then leByte v.toNat (x - a).toNat else m x

section Memory

variable {m : UInt32 → UInt8} {a v x : UInt32}

theorem load_store : load (store m a v) a = v := by
  unfold load
  rw [le32_leByte (x := v.toNat)]
  · rw [Nat.mod_eq_of_lt v.toNat_lt, UInt32.ofNat_toNat]
  · intro j lt
    have offset : (a + UInt32.ofNat j - a).toNat = j := by
      rw [UInt32.add_comm, UInt32.add_sub_cancel, UInt32.toNat_ofNat_of_lt' (Nat.lt_trans lt (by decide))]
    rw [store, offset, if_pos lt]

theorem store_apart (apart : 4 ≤ (x - a).toNat) : store m a v x = m x := if_neg (by omega)

theorem load_apart (apart : ∀ j < 4, 4 ≤ (x + UInt32.ofNat j - a).toNat) : load (store m a v) x = load m x := by
  unfold load
  rw [le32_congr fun j lt => store_apart (apart j lt)]

theorem low_load : (load m a).toUInt8 = m a := by
  apply UInt8.toNat_inj.mp
  have first : m (a + UInt32.ofNat 0) = m a := by
    rw [show UInt32.ofNat 0 = 0 from rfl, UInt32.add_zero]
  have byte := (m a).toNat_lt
  rw [UInt32.toNat_toUInt8, load, UInt32.toNat_ofNat_of_lt' (le32_lt _), le32, first]
  omega

end Memory

/-! ### Code -/

def State.set (s : State) (r : Reg) (v : UInt32) : State := { s with reg := fun r' => if r' = r then v else s.reg r' }

def State.next (s : State) : State := { s with pc := s.pc + 1 }

/-- The effect of an instruction; `ret` ends the code and has none here. -/
def exec (i : Instr) (s : State) : State :=
  match i with
  | .push r =>
    { s with mem := store s.mem (s.reg .esp - 4) (s.reg r) }.set .esp (s.reg .esp - 4) |>.next
  | .pop r => ((s.set .esp (s.reg .esp + 4)).set r (load s.mem (s.reg .esp))).next
  | .mov d r => (s.set d (s.reg r)).next
  | .movImm d n => (s.set d n).next
  | .movLoad d base disp => (s.set d (load s.mem (s.reg base + disp))).next
  | .movzxLow d r => (s.set d (s.reg r).toUInt8.toUInt32).next
  | .testLow r => { s with zf := (s.reg r).toUInt8 == 0 }.next
  | .mul r =>
    ((s.set .edx (UInt32.ofNat ((s.reg .eax).toNat * (s.reg r).toNat / 2 ^ 32))).set .eax (s.reg .eax * s.reg r)).next
  | .add d r => { s.set d (s.reg d + s.reg r) with zf := s.reg d + s.reg r == 0 }.next
  | .subImm d n => { s.set d (s.reg d - n) with zf := s.reg d - n == 0 }.next
  | .addMem base disp n =>
    { s with
      mem := store s.mem (s.reg base + disp) (load s.mem (s.reg base + disp) + n)
      zf := load s.mem (s.reg base + disp) + n == 0 }.next
  | .je target => if s.zf then { s with pc := target } else s.next
  | .jmp target => { s with pc := target }
  | .ret => s

def run (code : List Instr) : Nat → State → Option State
  | 0, _ => none
  | n + 1, s =>
    match code[s.pc]? with
    | none => none
    | some .ret => some s
    | some i => run code n (exec i s)

section Run

variable {code block rest : List Instr} {i : Instr} {n k : Nat} {s t u : State}

theorem run_ret (at_pc : code[s.pc]? = some .ret) : run code (n + 1) s = some s := by
  rw [run, at_pc]

theorem run_step (at_pc : code[s.pc]? = some i) (goes : i ≠ .ret) : run code (n + 1) s = run code n (exec i s) := by
  rw [run, at_pc]
  cases i with
  | ret => exact absurd rfl goes
  | _ => rfl

/-! ### Instructions in a row -/

def straight : Instr → Bool
  | .je _ | .jmp _ | .ret => false
  | _ => true

def execs (block : List Instr) (s : State) : State := block.foldl (fun s i => exec i s) s

theorem exec_pc (h : straight i = true) : (exec i s).pc = s.pc + 1 := by
  cases i with
  | je | jmp | ret => cases h
  | _ => rfl

theorem run_block (here : code.drop s.pc = block ++ rest) (all : ∀ i ∈ block, straight i = true) :
    run code (n + block.length) s = run code n (execs block s) ∧ (execs block s).pc = s.pc + block.length := by
  induction block generalizing s with
  | nil => exact ⟨rfl, rfl⟩
  | cons i block ih =>
    have first := all i List.mem_cons_self
    have at_pc : code[s.pc]? = some i := by
      rw [← List.head?_drop, here]
      rfl
    have next : code.drop (exec i s).pc = block ++ rest := by
      rw [exec_pc first, ← List.drop_drop, here]
      rfl
    obtain ⟨runs, pc⟩ := ih next fun i' member => all i' (List.mem_cons_of_mem _ member)
    refine ⟨?_, ?_⟩
    · rw [List.length_cons, ← Nat.add_assoc, run_step at_pc (by rintro rfl; cases first), runs]
      rfl
    · refine pc.trans ?_
      rw [exec_pc first, List.length_cons]
      omega

/-! ### The end -/

theorem run_succ (h : run code n s = some t) : run code (n + 1) s = some t := by
  induction n generalizing s with
  | zero => cases h
  | succ n ih =>
    rw [run] at h ⊢
    cases at_pc : code[s.pc]? with
    | none =>
      rw [at_pc] at h
      cases h
    | some i =>
      rw [at_pc] at h
      cases i with
      | ret => exact h
      | _ => exact ih h

theorem run_le (h : run code n s = some t) (le : n ≤ k) : run code k s = some t := by
  induction le with
  | refl => exact h
  | step _ ih => exact run_succ ih

theorem run_unique (h : run code n s = some t) (h' : run code k s = some u) : t = u := by
  have first := run_le h (Nat.le_max_left n k)
  have second := run_le h' (Nat.le_max_right n k)
  exact Option.some.inj (first.symm.trans second)

end Run

end Espl.X86
