import Espl.Program.X86
import Mathlib.Data.List.GetD
import Mathlib.Data.List.Induction
import Mathlib.Data.Nat.Digits.Defs

/-!
# `atod`

The number that a string denotes, by `atod.c` and by `atod.asm`. The assembly extends each byte with zeros,
a `char` of the C code has a sign.
-/

namespace Espl.Calc

open X86

/-! ### `atod.c` -/

def signed (c : UInt8) : UInt32 := if c < 128 then c.toUInt32 else c.toUInt32 - 256

/-- The `int` with the bits of the `size_t` that `strlen` returns. -/
def intLength (a : List UInt8) : Int :=
  if a.length % 2 ^ 32 < 2 ^ 31 then (a.length % 2 ^ 32 : Nat) else (a.length % 2 ^ 32 : Nat) - 2 ^ 32

def atod.loop (a : List UInt8) (i : Nat) (ans : UInt32) : Nat → UInt32
  | 0 => ans
  | k + 1 => atod.loop a (i + 1) (ans * 10 + signed (a.getD i 0) - 48) k

def atod (a : List UInt8) : UInt32 := atod.loop a 0 0 (intLength a).toNat

/-! ### `atod.asm` -/

def code : List Instr :=
  [.push .ebp,
   .mov .ebp .esp,
   .movImm .eax 0,
   .movImm .ecx 10,
   .movLoad .ebx .ebp 8,
   .movLoad .ebx .ebx 0,
   .movzxLow .ebx .ebx,
   .testLow .ebx,
   .je 14,
   .mul .ecx,
   .add .eax .ebx,
   .subImm .eax 48,
   .addMem .ebp 8 1,
   .jmp 4,
   .pop .ebp,
   .ret]

structure StringAt (mem : UInt32 → UInt8) (p : UInt32) (a : List UInt8) : Prop where
  bytes : ∀ i c, a[i]? = some c → mem (p + UInt32.ofNat i) = c
  ends : mem (p + UInt32.ofNat a.length) = 0

def Apart (x p : UInt32) (a : List UInt8) : Prop := ∀ i ≤ a.length, 4 ≤ (p + UInt32.ofNat i - x).toNat

/-- `atod` is called for the string `a`: its address is above the return address, and it lies outside the
two doublewords that the code writes. -/
structure Called (s : State) (a : List UInt8) : Prop where
  pc : s.pc = 0
  plain : 0 ∉ a
  string : StringAt s.mem (load s.mem (s.reg .esp + 4)) a
  frame : Apart (s.reg .esp - 4) (load s.mem (s.reg .esp + 4)) a
  slot : Apart (s.reg .esp + 4) (load s.mem (s.reg .esp + 4)) a

/-! ### The string in memory -/

section String

variable {mem : UInt32 → UInt8} {p x v : UInt32} {c : UInt8} {a : List UInt8}

theorem ofNat_succ (p : UInt32) (i : Nat) : p + UInt32.ofNat (i + 1) = p + 1 + UInt32.ofNat i := by
  rw [UInt32.ofNat_add, UInt32.add_comm (UInt32.ofNat i), UInt32.add_assoc]
  rfl

theorem StringAt.head (h : StringAt mem p (c :: a)) : mem p = c := by
  have first := h.bytes 0 c rfl
  rwa [show UInt32.ofNat 0 = 0 from rfl, UInt32.add_zero] at first

theorem StringAt.nil (h : StringAt mem p []) : mem p = 0 := by
  have last := h.ends
  rwa [List.length_nil, show UInt32.ofNat 0 = 0 from rfl, UInt32.add_zero] at last

theorem StringAt.tail (h : StringAt mem p (c :: a)) : StringAt mem (p + 1) a := by
  refine ⟨fun i c' is => ?_, ?_⟩
  · rw [← ofNat_succ]
    exact h.bytes (i + 1) c' is
  · rw [← ofNat_succ]
    exact h.ends

theorem Apart.tail (h : Apart x p (c :: a)) : Apart x (p + 1) a := by
  intro i le
  rw [← ofNat_succ]
  exact h (i + 1) (Nat.succ_le_succ le)

theorem StringAt.store (h : StringAt mem p a) (apart : Apart x p a) : StringAt (X86.store mem x v) p a := by
  refine ⟨fun i c is => ?_, ?_⟩
  · have lt := (List.getElem?_eq_some_iff.mp is).1
    rw [store_apart (apart i (Nat.le_of_lt lt))]
    exact h.bytes i c is
  · rw [store_apart (apart _ Nat.le.refl)]
    exact h.ends

end String

/-! ### The loop -/

structure AtLoop (s : State) (b p : UInt32) (a : List UInt8) : Prop where
  pc : s.pc = 4
  ebp : s.reg .ebp = b
  esp : s.reg .esp = b
  ecx : s.reg .ecx = 10
  slot : load s.mem (b + 8) = p
  string : StringAt s.mem p a
  apart : Apart (b + 8) p a

/-- What the loops make of `a`, when they have `v` so far and read a byte as `f`. -/
def convert (f : UInt8 → UInt32) (v : UInt32) (a : List UInt8) : UInt32 := a.foldl (fun v c => v * 10 + f c - 48) v

section Loop

variable {s : State} {b p : UInt32} {c : UInt8} {a : List UInt8}

def fetch : List Instr := [.movLoad .ebx .ebp 8, .movLoad .ebx .ebx 0, .movzxLow .ebx .ebx, .testLow .ebx]

def accumulate : List Instr := [.mul .ecx, .add .eax .ebx, .subImm .eax 48, .addMem .ebp 8 1]

theorem fetch_spec (h : AtLoop s b p a) :
    ∃ t, (∀ n, run code (n + 4) s = run code n t) ∧ AtLoop { t with pc := 4 } b p a ∧ t.pc = 8 ∧ t.zf = (s.mem p == 0) ∧
      t.reg .ebx = (s.mem p).toUInt32 ∧ t.reg .eax = s.reg .eax := by
  have byte : (load s.mem p).toUInt8 = s.mem p := low_load
  have here : code.drop s.pc = fetch ++ code.drop 8 := by
    rw [h.pc]
    rfl
  refine ⟨_, fun n => (run_block here (by decide)).1, ⟨rfl, ?_, ?_, ?_, ?_, ?_, h.apart⟩, ?_, ?_, ?_, ?_⟩
  all_goals simp only [fetch, execs, List.foldl_cons, List.foldl_nil, exec, State.set, State.next,
    UInt32.add_zero, h.pc, h.ebp,
    h.esp, h.ecx, h.slot, h.string, byte, UInt8.toUInt8_toUInt32, reduceCtorEq, if_true, if_false]

theorem accumulate_spec (h : AtLoop { s with pc := 4 } b p (c :: a)) (pc : s.pc = 9) :
    ∃ t, (∀ n, run code (n + 5) s = run code n t) ∧ AtLoop t b (p + 1) a ∧
      t.reg .eax = s.reg .eax * 10 + s.reg .ebx - 48 := by
  have here : code.drop s.pc = accumulate ++ code.drop 13 := by
    rw [pc]
    rfl
  have jump : code[(execs accumulate s).pc]? = some (.jmp 4) := by
    rw [(run_block (n := 0) here (by decide)).2, pc]
    rfl
  have string := (h.string.store (v := p + 1) h.apart).tail
  have slot : load s.mem (b + 8) = p := h.slot
  have ebp : s.reg .ebp = b := h.ebp
  have ecx : s.reg .ecx = 10 := h.ecx
  have esp : s.reg .esp = b := h.esp
  refine ⟨_, fun n => (run_block here (by decide)).1.trans (run_step jump (by decide)),
    ⟨rfl, ?_, ?_, ?_, ?_, ?_, h.apart.tail⟩, ?_⟩
  all_goals simp only [accumulate, execs, List.foldl_cons, List.foldl_nil, exec, State.set, State.next, ebp, esp, ecx,
    slot, load_store, reduceCtorEq, if_true, if_false]
  exact string

theorem loop_spec (h : AtLoop s b p a) (plain : 0 ∉ a) :
    ∃ n t, run code n s = some t ∧ t.reg .eax = convert UInt8.toUInt32 (s.reg .eax) a ∧ t.reg .esp = b + 4 := by
  induction a generalizing s p with
  | nil =>
    obtain ⟨t, fetched, at_loop, pc, zf, -, eax⟩ := fetch_spec h
    rw [h.string.nil] at zf
    have je : code[t.pc]? = some (.je 14) := by
      rw [pc]
      rfl
    have pop : code[(exec (.je 14) t).pc]? = some (.pop .ebp) := by
      rw [exec, zf]
      rfl
    have ret : code[(exec (.pop .ebp) (exec (.je 14) t)).pc]? = some .ret := by
      rw [exec, exec, zf]
      rfl
    refine ⟨7, _, (fetched 3).trans ((run_step je (by decide)).trans ((run_step pop (by decide)).trans (run_ret ret))),
      ?_, ?_⟩
    · simp only [exec, zf, State.set, State.next, beq_self_eq_true, if_true, reduceCtorEq, if_false]
      exact eax
    · have esp : t.reg .esp = b := at_loop.esp
      simp only [exec, zf, State.set, State.next, beq_self_eq_true, if_true, reduceCtorEq, if_false, esp]
  | cons c a ih =>
    rw [List.mem_cons, not_or] at plain
    have head := h.string.head
    obtain ⟨t, fetched, at_loop, pc, zf, ebx, eax⟩ := fetch_spec h
    rw [head, beq_eq_false_iff_ne.mpr (Ne.symm plain.1)] at zf
    have je : code[t.pc]? = some (.je 14) := by
      rw [pc]
      rfl
    have stays : exec (.je 14) t = { t with pc := 9 } := by
      rw [exec, if_neg (by rw [zf]; decide), State.next, pc]
    obtain ⟨u, round, again, value⟩ := accumulate_spec (s := { t with pc := 9 }) at_loop rfl
    obtain ⟨n, v, ends, result, esp⟩ := ih again plain.2
    refine ⟨n + 5 + 1 + 4, v, ?_, ?_, esp⟩
    · rw [fetched, run_step je (by decide), stays, round, ends]
    · rw [result, value, eax, ebx, head]
      rfl

end Loop

/-! ### The call -/

def enter : List Instr := [.push .ebp, .mov .ebp .esp, .movImm .eax 0, .movImm .ecx 10]

theorem slot_eq (x : UInt32) : x - 4 + 8 = x + 4 := by
  rw [UInt32.sub_eq_add_neg, UInt32.add_assoc]
  rfl

theorem called_spec {s : State} {a : List UInt8} (h : Called s a) :
    ∃ n t, run code n s = some t ∧ t.reg .eax = convert UInt8.toUInt32 0 a ∧ t.reg .esp = s.reg .esp := by
  have here : code.drop s.pc = enter ++ code.drop 4 := by
    rw [h.pc]
    rfl
  have away : ∀ j < 4, 4 ≤ (s.reg .esp + 4 + UInt32.ofNat j - (s.reg .esp - 4)).toNat := by
    intro j lt
    have bound := (s.reg .esp).toNat_lt
    have small : (UInt32.ofNat j).toNat = j := UInt32.toNat_ofNat_of_lt' (Nat.lt_trans lt (by decide))
    rw [UInt32.toNat_sub, UInt32.toNat_sub, UInt32.toNat_add, UInt32.toNat_add, small,
      show (4 : UInt32).toNat = 4 from rfl]
    omega
  have at_loop : AtLoop (execs enter s) (s.reg .esp - 4) (load s.mem (s.reg .esp + 4)) a := by
    refine ⟨?_, ?_, ?_, ?_, ?_, ?_, ?_⟩
    all_goals simp only [enter, execs, List.foldl_cons, List.foldl_nil, exec, State.set, State.next, h.pc, slot_eq,
      reduceCtorEq, if_true, if_false]
    · exact load_apart away
    · exact h.string.store h.frame
    · exact h.slot
  obtain ⟨n, t, ends, result, esp⟩ := loop_spec at_loop h.plain
  refine ⟨n + 4, t, ?_, result, ?_⟩
  · exact (run_block here (by decide)).1.trans ends
  · rw [esp, UInt32.sub_add_cancel]

theorem Called.length_lt {s : State} {a : List UInt8} (h : Called s a) : a.length < 2 ^ 32 := by
  by_contra long
  have lt : a.length - 2 ^ 32 < a.length := by omega
  have byte := h.string.bytes (a.length - 2 ^ 32) _ (List.getElem?_eq_getElem lt)
  have same : UInt32.ofNat (a.length - 2 ^ 32) = UInt32.ofNat a.length := by
    apply UInt32.toNat_inj.mp
    rw [UInt32.toNat_ofNat', UInt32.toNat_ofNat']
    omega
  rw [same, h.string.ends] at byte
  exact h.plain (byte ▸ List.getElem_mem lt)

/-! ### The numbers -/

/-- The number that `a` spells when a byte stands for `g` less `'0'`, after a number `v`. -/
def spell (g : UInt8 → Int) (v : Int) (a : List UInt8) : Int := a.foldl (fun v c => v * 10 + g c - 48) v

/-- The number with a digit 1 for each byte that is negative as a `char`, and 0 for the others. -/
def highs (a : List UInt8) : Nat := a.foldl (fun w c => w * 10 + if c < 128 then 0 else 1) 0

def charValue (c : UInt8) : Int := if c < 128 then c.toNat else c.toNat - 256

def Digits (a : List UInt8) : Prop := ∀ c ∈ a, 48 ≤ c ∧ c ≤ 57

def denoted (a : List UInt8) : Nat := Nat.ofDigits 10 (a.map fun c => c.toNat - 48).reverse

section Numbers

variable {a : List UInt8}

theorem convert_toNat {f : UInt8 → UInt32} {g : UInt8 → Int} (same : ∀ c, ((f c).toNat : Int) % 2 ^ 32 = g c % 2 ^ 32)
    {v : UInt32} {w : Int} (start : (v.toNat : Int) % 2 ^ 32 = w % 2 ^ 32) :
    ((convert f v a).toNat : Int) = spell g w a % 2 ^ 32 := by
  induction a generalizing v w with
  | nil =>
    have lt := v.toNat_lt
    change (v.toNat : Int) = w % 2 ^ 32
    omega
  | cons c a ih =>
    refine ih ?_
    have byte := same c
    have lt := (f c).toNat_lt
    beta_reduce
    rw [UInt32.toNat_sub, UInt32.toNat_add, UInt32.toNat_mul, show (48 : UInt32).toNat = 48 from rfl,
      show (10 : UInt32).toNat = 10 from rfl]
    omega

theorem toNat_signed (c : UInt8) : ((signed c).toNat : Int) % 2 ^ 32 = charValue c % 2 ^ 32 := by
  have lt := c.toNat_lt
  unfold signed charValue
  split
  · rw [UInt8.toNat_toUInt32]
  · rw [UInt32.toNat_sub, UInt8.toNat_toUInt32, show (256 : UInt32).toNat = 256 from rfl]
    omega

theorem spell_sub (v w : Int) (h : Nat) (apart : v - w = 256 * h) :
    spell (fun c => (c.toNat : Int)) v a - spell charValue w a =
      256 * (a.foldl (fun w c => w * 10 + if c < 128 then 0 else 1) h : Nat) := by
  induction a generalizing v w h with
  | nil => exact apart
  | cons c a ih =>
    refine ih _ _ _ ?_
    beta_reduce
    unfold charValue
    split
    · push_cast
      omega
    · push_cast
      omega

theorem spell_denoted (digits : Digits a) : spell (fun c => (c.toNat : Int)) 0 a = denoted a := by
  induction a using List.reverseRecOn with
  | nil => rfl
  | append_singleton a c ih =>
    have here : 48 ≤ c ∧ c ≤ 57 := digits c (by simp)
    have low : 48 ≤ c.toNat := here.1
    have before := ih fun d member => digits d (by simp [member])
    unfold spell at before ⊢
    rw [List.foldl_append, List.foldl_cons, List.foldl_nil, before]
    unfold denoted
    rw [List.map_append, List.reverse_append, List.map_singleton, List.reverse_singleton, List.singleton_append,
      Nat.ofDigits_cons]
    push_cast
    omega

theorem atod_loop_eq (i k : Nat) (ans : UInt32) (le : i + k ≤ a.length) :
    atod.loop a i ans k = convert signed ans ((a.drop i).take k) := by
  induction k generalizing i ans with
  | zero => rw [List.take_zero]; rfl
  | succ k ih =>
    have lt : i < a.length := by omega
    rw [atod.loop, ih (i + 1) _ (by omega), List.drop_eq_getElem_cons lt, List.take_succ_cons,
      List.getD_eq_getElem _ _ lt]
    rfl

theorem atod_eq (short : a.length < 2 ^ 31) : atod a = convert signed 0 a := by
  have length : intLength a = a.length := by
    unfold intLength
    rw [Nat.mod_eq_of_lt (by omega), if_pos short]
  rw [atod, length, Int.toNat_natCast, atod_loop_eq 0 _ 0 (by omega), List.drop_zero, List.take_length]

theorem atod_long (long : 2 ^ 31 ≤ a.length) (lt : a.length < 2 ^ 32) : atod a = 0 := by
  have length : (intLength a).toNat = 0 := by
    unfold intLength
    rw [Nat.mod_eq_of_lt lt, if_neg (by omega)]
    omega
  rw [atod, length]
  rfl

end Numbers

def Agrees (s : State) (a : List UInt8) : Prop :=
  ∃ n t, run code n s = some t ∧ t.reg .eax = atod a ∧ (Digits a → (t.reg .eax).toNat = denoted a % 2 ^ 32)

theorem agrees_iff {s : State} {a : List UInt8} (called : Called s a) :
    Agrees s a ↔ convert UInt8.toUInt32 0 a = atod a := by
  obtain ⟨n, t, ends, result, -⟩ := called_spec called
  constructor
  · rintro ⟨k, u, ends', same, -⟩
    rw [← result, run_unique ends ends', same]
  · intro same
    refine ⟨n, t, ends, result.trans same, fun digits => ?_⟩
    have value := convert_toNat (a := a) (f := UInt8.toUInt32) (fun c => by rw [UInt8.toNat_toUInt32])
      (v := 0) (w := 0) rfl
    rw [spell_denoted digits, ← result] at value
    exact_mod_cast value

/-- The two agree on a string exactly when its bytes from 128 on stand where they make no difference of less than
`2 ^ 32`; a string too long for an `int` must spell a multiple of `2 ^ 32`. -/
theorem atod_agree_iff {s : State} {a : List UInt8} (called : Called s a) :
    Agrees s a ↔ if a.length < 2 ^ 31 then 2 ^ 24 ∣ highs a else (2 ^ 32 : Int) ∣ spell
      (fun c => (c.toNat : Int)) 0 a := by
  have value : ((convert UInt8.toUInt32 0 a).toNat : Int) = spell (fun c => (c.toNat : Int)) 0 a % 2 ^ 32 :=
    convert_toNat (fun c => by rw [UInt8.toNat_toUInt32]) rfl
  rw [agrees_iff called, ← UInt32.toNat_inj]
  split
  · rename_i short
    have other : ((atod a).toNat : Int) = spell charValue 0 a % 2 ^ 32 := by
      rw [atod_eq short]
      exact convert_toNat toNat_signed rfl
    have apart := spell_sub (a := a) 0 0 0 rfl
    change _ = 256 * (highs a : Int) at apart
    omega
  · rename_i long
    rw [atod_long (by omega) called.length_lt]
    change (convert UInt8.toUInt32 0 a).toNat = 0 ↔ _
    omega

/-- The string `a` at address 0x1000, and a stack from 0x8000 on. -/
def frame (a : List UInt8) : State where
  reg := fun r => if r = .esp then 0x8000 else 0
  mem := store (fun x => a.getD (x.toNat - 0x1000) 0) 0x8004 0x1000
  zf := false
  pc := 0

theorem called_frame {a : List UInt8} (plain : 0 ∉ a) (short : a.length < 0x1000) : Called (frame a) a := by
  have memory : (frame a).mem = store (fun x => a.getD (x.toNat - 0x1000) 0) 0x8004 0x1000 := rfl
  have argument : load (frame a).mem ((frame a).reg .esp + 4) = 0x1000 := load_store
  have address : ∀ i ≤ a.length, ((0x1000 : UInt32) + UInt32.ofNat i).toNat = 0x1000 + i := by
    intro i le
    rw [UInt32.toNat_add, UInt32.toNat_ofNat', show (0x1000 : UInt32).toNat = 0x1000 from rfl]
    omega
  have away : ∀ x : UInt32, 0x2000 ≤ x.toNat → Apart x 0x1000 a := by
    intro x low i le
    have bound := x.toNat_lt
    rw [UInt32.toNat_sub, address i le]
    omega
  have byte : ∀ i ≤ a.length, (frame a).mem (0x1000 + UInt32.ofNat i) = a.getD i 0 := by
    intro i le
    rw [memory, store_apart (away 0x8004 (by decide) i le), address i le, Nat.add_sub_cancel_left]
  refine ⟨rfl, plain, ⟨fun i c is => ?_, ?_⟩, ?_, ?_⟩ <;> rw [argument]
  · rw [byte i (Nat.le_of_lt (List.getElem?_eq_some_iff.mp is).1), List.getD_eq_getElem?_getD, is]
    rfl
  · rw [byte _ Nat.le.refl, List.getD_eq_default _ _ Nat.le.refl]
  · exact away (0x8000 - 4) (by decide)
  · exact away (0x8000 + 4) (by decide)

theorem atod_agree_digits : Called (frame [52, 48, 55]) [52, 48, 55] ∧ Agrees (frame [52, 48, 55]) [52, 48, 55] := by
  have called : Called (frame [52, 48, 55]) [52, 48, 55] := called_frame (by decide) (by decide)
  exact ⟨called, (atod_agree_iff called).mpr (by decide)⟩

/-- The byte 128 is 80 for the assembly and -176 for the C code. -/
theorem atod_differ : Called (frame [128]) [128] ∧ ¬ Agrees (frame [128]) [128] := by
  have called : Called (frame [128]) [128] := called_frame (by decide) (by decide)
  refine ⟨called, fun agrees => ?_⟩
  exact absurd ((agrees_iff called).mp agrees) (by decide)

end Espl.Calc
