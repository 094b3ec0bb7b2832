import Espl.Kernel.Copyout
import Espl.Kernel.ExecHost

/-!
# The arguments of `exec`

`exec` copies the argument strings and the vector of pointers to the top of the new stack. Only the
page below the stack, which the user cannot reach, keeps it from going further.
-/

namespace Espl.Kernel.Vm

def pushAt (sp n : Nat) : Nat := (sp + 2 ^ 32 - n % 2 ^ 32) % 2 ^ 32 / 4 * 4

def words (n : Nat) : Nat := (n + 3) / 4 * 4

section Push

variable {g sp n : Nat}

theorem pushAt_fits (le : sp ≤ KERNBASE) (aligned : sp % 4 = 0) (fits : n ≤ sp) : pushAt sp n = sp - words n := by
  simp only [pushAt, words, KERNBASE] at *
  omega

theorem pushAt_guard (le : sp ≤ KERNBASE) (pos : 0 < n) (lo : (g + 1) * PGSIZE ≤ sp) (aligned : sp % 4 = 0)
    (far : sp < (g + 1) * PGSIZE + n) : g ∈ span (pushAt sp n) n := by
  simp only [KERNBASE, PGSIZE] at *
  obtain ⟨k, wrap⟩ : ∃ k, (sp + 2 ^ 32 - n % 2 ^ 32) % 2 ^ 32 + n = sp + k * 2 ^ 32 := by
    refine ⟨((sp + 2 ^ 32 - n % 2 ^ 32) % 2 ^ 32 + n - sp) / 2 ^ 32, ?_⟩
    omega
  have round : pushAt sp n = (sp + 2 ^ 32 - n % 2 ^ 32) % 2 ^ 32 / 4 * 4 := rfl
  generalize (sp + 2 ^ 32 - n % 2 ^ 32) % 2 ^ 32 = q at wrap round
  by_cases full : sp = (g + 1) * 4096
  · have page : (pushAt sp n + n - 1) / PGSIZE % 2 ^ 20 = g := by
      simp only [PGSIZE]
      omega
    rw [← page]
    exact mem_span (by omega) (by omega)
  · have page : (g * 4096 + 4095 + k * 2 ^ 32) / PGSIZE % 2 ^ 20 = g := by
      simp only [PGSIZE]
      omega
    rw [← page]
    exact mem_span (by omega) (by omega)

end Push

/-! ### The addresses that `exec` copies to -/

/-- The directory that `exec` has built when it pushes the arguments: the pages of the image, one that the
user cannot reach, the stack, and the kernel with the tables that `kmap` needs. -/
structure Ready (m : Mem) (d g : Nat) : Prop where
  image : ∀ v < g, accessible m d v = true
  guard : hasTable m d g = true
  stack : accessible m d (g + 1) = true
  kernel : ∀ v, 2 ^ 19 ≤ v → v < 2 ^ 20 → accessible m d v = false ∧
    (hasTable m d v = true ↔ v * PGSIZE < KERNBASE + PHYSTOP ∨ DEVSPACE ≤ v * PGSIZE)

/-- `n` bytes go below `sp`, an address in the stack page or its end. -/
structure Pushes (g sp n : Nat) : Prop where
  lo : (g + 1) * PGSIZE ≤ sp
  hi : sp ≤ (g + 2) * PGSIZE
  aligned : sp % 4 = 0
  top : sp ≤ KERNBASE
  some : 0 < n
  fits : n ≤ KERNBASE

theorem Ready.guarded_iff {m : Mem} {d g sp n : Nat} (ready : Ready m d g) (push : Pushes g sp n) :
    Guarded m d (pushAt sp n) n ↔ ¬ (KERNBASE + PHYSTOP ≤ pushAt sp n ∧ pushAt sp n < DEVSPACE) := by
  obtain ⟨lo, hi, aligned, top, some, fits⟩ := push
  by_cases inside : n ≤ sp
  · -- the pages end in the stack, and below it only the guard is out of reach
    have at_ := pushAt_fits top aligned inside
    rw [at_]
    simp only [KERNBASE, PHYSTOP, DEVSPACE, PGSIZE, words] at *
    refine iff_of_true (fun v found => ?_) (by omega)
    have out := List.find?_some found
    have member := List.mem_of_find?_eq_some found
    rw [span, if_neg (by omega), List.mem_map] at member
    obtain ⟨i, bound, rfl⟩ := member
    simp only [PGSIZE, List.mem_range] at bound out ⊢
    rcases Nat.lt_trichotomy ((sp - (n + 3) / 4 * 4) / 4096 + i) g with less | same | more
    · rw [Nat.mod_eq_of_lt (by omega), ready.image _ less] at out
      cases out
    · rw [Nat.mod_eq_of_lt (by omega), same]
      exact ready.guard
    · rw [Nat.mod_eq_of_lt (by omega), show (sp - (n + 3) / 4 * 4) / 4096 + i = g + 1 by omega, ready.stack] at out
      cases out
  · have high : KERNBASE ≤ pushAt sp n ∧ pushAt sp n < 2 ^ 32 := by
      simp only [pushAt, KERNBASE] at *
      omega
    have page : 2 ^ 19 ≤ pushAt sp n / PGSIZE ∧ pushAt sp n / PGSIZE < 2 ^ 20 := by
      simp only [KERNBASE, PGSIZE] at *
      omega
    obtain ⟨out, tables⟩ := ready.kernel _ page.1 page.2
    rw [guarded_here some high.2 out, tables]
    simp only [KERNBASE, PHYSTOP, DEVSPACE, PGSIZE]
    omega

/-- `copyout` is safe exactly where the range is guarded. What `exec` pushes is, unless it starts where there
are neither tables of the kernel nor of the devices. -/
theorem copyout_copies (w : Option Pte) (m : Mem) (l : Answers) (d : Nat) {va : Nat} (lt : va < 2 ^ 32)
    (p : List UInt8) : ((∃ r m', (reading w).run (copyout d va p) (m, l) = .returned r (m', l) ∧
      .null ∉ (reading w).steps (copyout d va p) (m, l) ∧ CopiesOut d va p m r m') ↔ Guarded m d va p.length) ∧
    ∀ g sp n, Ready m d g → Pushes g sp n →
      (Guarded m d (pushAt sp n) n ↔ ¬ (KERNBASE + PHYSTOP ≤ pushAt sp n ∧ pushAt sp n < DEVSPACE)) :=
  ⟨run_copyout_iff w m l d lt p, fun _ _ _ ready push => ready.guarded_iff push⟩

/-- One page of a program, the guard, a stack page and the kernel. -/
def onePage : Mem :=
  { Mem.bare with
    entry := fun page i =>
      if page = 0x300 then
        if i = 0 then ⟨0x301, true, true, true⟩
        else if i < 512 ∨ 568 ≤ i ∧ i < 1016 then Pte.zero
        else ⟨0x400 + i, true, true, true⟩
      else if page = 0x301 then if i ≤ 2 then ⟨0x302 + i, true, true, i ≠ 1⟩ else Pte.zero
      else ⟨page, true, true, false⟩ }

theorem ready_onePage : Ready onePage 0x300 1 where
  image v lt := by
    obtain rfl : v = 0 := by omega
    decide
  guard := by decide
  stack := by decide
  kernel v lo hi := by
    have upper : ¬ v / 1024 = 0 := by omega
    simp only [accessible, hasTable, entryAt, onePage, if_true, if_neg upper, KERNBASE, PHYSTOP, DEVSPACE, PGSIZE]
    split
    · simp only [Pte.zero]
      refine ⟨rfl, iff_of_false Bool.false_ne_true ?_⟩
      omega
    · have apart : ¬ 0x400 + v / 1024 = 0x300 ∧ ¬ 0x400 + v / 1024 = 0x301 := by omega
      simp only [if_neg apart.1, if_neg apart.2]
      refine ⟨rfl, iff_of_true trivial ?_⟩
      omega

/-- The first argument of five bytes. -/
theorem copyout_copies_argument :
    Ready onePage 0x300 1 ∧ Pushes 1 0x3000 5 ∧ pushAt 0x3000 5 = 0x2FF8 ∧
    ∃ m', (reading none).run (copyout 0x300 0x2FF8 [0x68, 0x65, 0x6C, 0x6C, 0x6F])
      (onePage, []) = .returned 0 (m', []) ∧
      (List.range 8).map (fun i => m'.byte 0x304 (0xFF8 + i)) = [0x68, 0x65, 0x6C, 0x6C, 0x6F, 0, 0, 0] := by
  have push : Pushes 1 0x3000 5 := ⟨by decide, by decide, by decide, by decide, by decide, by decide⟩
  have small : 0x2FF8 < 2 ^ 32 := by decide
  have spec := copyout_copies none onePage [] 0x300 small [0x68, 0x65, 0x6C, 0x6C, 0x6F]
  obtain ⟨r, m', run, -, copies⟩ := spec.1.mpr ((spec.2 1 0x3000 5 ready_onePage push).mpr (by decide))
  obtain ⟨rfl, -, rfl⟩ | ⟨-, ⟨v, member, out⟩, -⟩ := copies
  · exact ⟨ready_onePage, push, by decide, _, run, by decide⟩
  · rw [show span 0x2FF8 _ = [2] by decide] at member
    cases List.mem_singleton.mp member
    cases out

/-- A string that reaches down to `0xFC000000`, where there is no table. If nothing is at address 0 the
kernel faults; if the caller's word there is `0x305007`, the string goes to page `0x305`. -/
theorem copyout_null_entry :
    Pushes 1 0x3000 0x4003000 ∧ pushAt 0x3000 0x4003000 = 0xFC000000 ∧ accessible onePage 0x300 0xFC000 = false ∧
    (reading none).run (copyout 0x300 0xFC000000 [7]) (onePage, []) = .panicked .trap ∧
    ∃ m', (reading (some ⟨0x305, true, true, true⟩)).run (copyout 0x300 0xFC000000 [7])
      (onePage, []) = .returned 0 (m', []) ∧
      onePage.byte 0x305 0 = 0 ∧ m'.byte 0x305 0 = 7 :=
  ⟨⟨by decide, by decide, by decide, by decide, by decide, by decide⟩, by decide, by decide, rfl, _, rfl, rfl, rfl⟩

def overlay (b : Nat → UInt8) (off : Nat) (src : List UInt8) (k : Nat) : UInt8 :=
  if off ≤ k ∧ k < off + src.length then src.getD (k - off) 0 else b k

def withPage (m : Mem) (page : Nat) (b : Nat → UInt8) : Mem := { m with byte := upd m.byte page b }

def Space.Stacked (x : Space) (g : Nat) : Prop := (x.pte (g + 1)).present = true ∧ (x.pte (g + 1)).user = true

theorem does_push {d g base sp : Nat} {x : Space} {m : Mem} {l : Answers} {F : Panic → Prop} (holds : Holds m d x)
    (guard : (x.pte g).user = false) (base_eq : base = (g + 1) * PGSIZE) (top : base + PGSIZE ≤ KERNBASE)
    (lo : base ≤ sp) (hi : sp ≤ base + PGSIZE) (aligned : sp % 4 = 0) {bs : List UInt8} (pos : 0 < bs.length)
    {Q : Int → Mem × Answers → Prop}
    (pushed : x.Stacked g → base + bs.length ≤ sp →
      Q 0 (withPage m (x.pte (g + 1)).page
        (overlay (m.byte (x.pte (g + 1)).page) (sp - words bs.length - base) bs), l))
    (failed : ¬ (x.Stacked g ∧ base + bs.length ≤ sp) → (∀ q, F q) ∧ ∀ s, Q (-1) s) :
    Does F (copyout d (pushAt sp bs.length) bs) (m, l) Q := by
  have small : pushAt sp bs.length < 2 ^ 32 := by
    unfold pushAt
    omega
  have spec := does_copyout (m := m) (l := l) (d := d) small bs
  have low : g + 1 < 2 ^ 20 := by
    simp only [PGSIZE, KERNBASE] at top base_eq
    omega
  have stack : accessible m d (g + 1) = true ↔ x.Stacked g := by
    rw [accessible_eq holds low, Bool.and_eq_true]
    rfl
  by_cases ok : x.Stacked g ∧ base + bs.length ≤ sp
  · obtain ⟨there, fits⟩ := ok
    have at_ := pushAt_fits (by omega) aligned (Nat.le_of_add_left_le fits)
    have page : (sp - words bs.length) / PGSIZE = g + 1 := by
      simp only [words, PGSIZE] at *
      omega
    have off : (sp - words bs.length) % PGSIZE = sp - words bs.length - base := by
      simp only [words, PGSIZE] at *
      omega
    have inside : (sp - words bs.length) % PGSIZE + bs.length ≤ PGSIZE := by
      simp only [words, PGSIZE] at *
      omega
    rw [at_] at spec small ⊢
    have one : span (sp - words bs.length) bs.length = [g + 1] := by rw [span_inside pos small inside, page]
    have all : ∀ v ∈ span (sp - words bs.length) bs.length, accessible m d v = true := by
      intro v mem
      rw [one, List.mem_singleton] at mem
      rw [mem]
      exact stack.mpr there
    have guarded : Guarded m d (sp - words bs.length) bs.length := by
      intro v found
      have out := List.find?_some found
      rw [all v (List.mem_of_find?_eq_some found)] at out
      cases out
    have stored : withPage m (x.pte (g + 1)).page
        (overlay (m.byte (x.pte (g + 1)).page) (sp - words bs.length - base) bs) =
        { m with byte := poke (fun v => (entryAt m d v).page) (sp - words bs.length) bs m.byte } := by
      rw [poke_store _ small _ inside, page, off, entryAt_accessible holds low (stack.mpr there)]
      rfl
    refine does_mono (Machine.wp_tolerates spec fun q trap => absurd guarded trap.2) fun r s post => ?_
    obtain ⟨m', l'⟩ := s
    obtain ⟨-, rfl, ⟨rfl, -, rfl⟩ | ⟨-, ⟨v, mem, bad⟩, -⟩⟩ := post
    · rw [← stored]
      exact pushed there fits
    · rw [all v mem] at bad
      cases bad
  · obtain ⟨fault, fails⟩ := failed ok
    have bad : ∃ v ∈ span (pushAt sp bs.length) bs.length, accessible m d v = false := by
      by_cases fits : base + bs.length ≤ sp
      · have at_ := pushAt_fits (by omega) aligned (Nat.le_of_add_left_le fits)
        have page : (sp - words bs.length) / PGSIZE % 2 ^ 20 = g + 1 := by
          simp only [words, PGSIZE, KERNBASE] at *
          omega
        refine ⟨g + 1, ?_, ?_⟩
        · rw [← page, at_]
          exact mem_span Nat.le.refl (by omega)
        · by_contra there
          exact ok ⟨stack.mp (by simpa using there), fits⟩
      · refine ⟨g, pushAt_guard (by omega) pos (base_eq ▸ lo) aligned (by rw [← base_eq]; omega), ?_⟩
        rw [accessible_eq holds (by omega), guard, Bool.and_false]
    obtain ⟨v, mem, out⟩ := bad
    refine does_mono (Machine.wp_tolerates spec fun q _ => fault q) fun r s post => ?_
    obtain ⟨-, -, ⟨-, all, -⟩ | ⟨rfl, -⟩⟩ := post
    · rw [all v mem] at out
      cases out
    · exact fails s

theorem holds_withPage {d page : Nat} {x : Space} {m : Mem} {b : Nat → UInt8} (h : Holds m d x) :
    Holds (withPage m page b) d x :=
  h.congr rfl fun _ _ _ _ => rfl

theorem Maps.withPage {K : Nat → Prop} {d page : Nat} {x : Space} {m : Mem} {l : Answers} {b : Nat → UInt8}
    (h : Maps K d x (m, l)) : Maps K d x (withPage m page b, l) := ⟨holds_withPage h.holds, h.spare, h.apart⟩

theorem kept_withPage {K : Nat → Prop} {page : Nat} {m : Mem} {b : Nat → UInt8} (free : ¬ K page) :
    Kept K m (withPage m page b) :=
  ⟨rfl, fun _ _ => rfl, fun _ k => upd_ne _ _ fun eq => free (eq ▸ k)⟩

theorem withPage_withPage (m : Mem) (page : Nat)
    (b c : Nat → UInt8) : withPage (withPage m page b) page c = withPage m page c := by
  simp only [withPage, upd_upd]

@[simp] theorem withPage_byte (m : Mem) (page : Nat) (b : Nat → UInt8) : (withPage m page b).byte page = b :=
  upd_same _ _ _

theorem overlay_inside {b : Nat → UInt8} {off j : Nat} {src : List UInt8} (lt : j < src.length) :
    overlay b off src (off + j) = src.getD j 0 := by
  rw [overlay, if_pos (by omega), Nat.add_sub_cancel_left]

theorem overlay_outside {b : Nat → UInt8} {off k : Nat} {src : List UInt8} (out : k < off ∨ off + src.length ≤ k) :
    overlay b off src k = b k := if_neg (by omega)

end Espl.Kernel.Vm

namespace Espl.Kernel.Exec

open Machine
open Vm (Space words withPage overlay pushAt)

def need : List (List UInt8) → Nat
  | [] => 0
  | arg :: rest => words (arg.length + 1) + need rest

/-- The stack page at `base` has the bytes `b`, with the strings of `args` one below the other from `sp`
down to `top` at the addresses `addrs`. -/
inductive Pushed (b : Nat → UInt8) (base : Nat) : Nat → List (List UInt8) → List Nat → Nat → Prop where
  | nil (sp : Nat) : Pushed b base sp [] [] sp
  | cons {sp top : Nat} {arg : List UInt8} {rest : List (List UInt8)} {addrs : List Nat}
      (room : base + words (arg.length + 1) ≤ sp)
      (bytes : ∀ j, j < arg.length + 1 → b (sp - words (arg.length + 1) - base + j) = (arg ++ [0]).getD j 0)
      (below : Pushed b base (sp - words (arg.length + 1)) rest addrs top) :
      Pushed b base sp (arg :: rest) ((sp - words (arg.length + 1)) :: addrs) top

variable {S P R : Type} {T : Terms signature S P}

theorem wp_pushArgs (H : Host S P R) (point : ∀ s, T.point s) {d g base : Nat} {x : Space} {l : Vm.Answers}
    (guard : (x.pte g).user = false) (base_eq : base = (g + 1) * PGSIZE) (top : base + PGSIZE ≤ KERNBASE)
    (args : List (List UInt8)) {argc sp : Nat} {m : Mem}
    {s : S} (few : argc + args.length ≤ MAXARG) (lo : base ≤ sp) (hi : sp ≤ base + PGSIZE) (aligned : sp % 4 = 0)
    (mem : H.mem s = (m, l)) (holds : Vm.Holds m d x) {Q : Option (Nat × List Nat) → S → Prop}
    (pushed : ∀ b addrs sp' s', H.mem s' = (withPage m (x.pte (g + 1)).page b, l) → H.rest s' = H.rest s →
      Pushed b (base) sp args addrs sp' →
      (∀ k, sp - base ≤ k → b k = m.byte (x.pte (g + 1)).page k) → Q (some (sp', addrs)) s')
    (failed : ¬ (x.Stacked g ∧ base + need args ≤ sp) → (∀ q, T.fault q) ∧ ∀ s', Q none s') :
    H.machine.wp T (pushArgs d sp argc args) s Q := by
  induction args generalizing argc sp m s Q with
  | nil =>
    refine pushed (m.byte (x.pte (g + 1)).page) [] sp s ?_ rfl (Pushed.nil sp) fun _ _ => rfl
    rw [mem, withPage, upd_self]
  | cons arg rest ih =>
    rw [List.length_cons] at few
    unfold pushArgs
    rw [if_neg (by omega)]
    have len : (arg ++ [0]).length = arg.length + 1 := by simp
    have wide : arg.length + 1 ≤ words (arg.length + 1) := by
      unfold words
      omega
    have whole : words (arg.length + 1) % 4 = 0 := by
      unfold words
      omega
    have fits_iff : base + (arg ++ [0]).length ≤ sp ↔ base + words (arg.length + 1) ≤ sp := by
      rw [len]
      simp only [words, PGSIZE] at *
      omega
    have total : need (arg :: rest) = words (arg.length + 1) + need rest := rfl
    have target : (sp + 2 ^ 32 - (arg.length + 1) % 2 ^ 32) % 2 ^ 32 / 4 * 4 = pushAt sp (arg ++ [0]).length :=
      by rw [len]; rfl
    rw [target]
    have short : ¬ (x.Stacked g ∧ base + (arg ++ [0]).length ≤ sp) →
        ¬ (x.Stacked g ∧ base + need (arg :: rest) ≤ sp) := by
      rw [fits_iff, total]
      exact fun out all => out ⟨all.1, by omega⟩
    refine H.wp_vm (F := fun _ => ∀ q, T.fault q) point (fun _ fault => fault) ?_
    rw [mem]
    refine Vm.does_push holds guard base_eq top lo hi aligned (by omega)
      (fun there fits s₁ mem₁ rest₁ => ?_) fun out => ?_
    · rw [if_neg (by decide)]
      have room := fits_iff.mp fits
      have addr : pushAt sp (arg ++ [0]).length = sp - words (arg.length + 1) := by
        rw [len]
        exact Vm.pushAt_fits (by omega) aligned (by omega)
      rw [len] at mem₁
      rw [addr]
      refine wp_then (ih (by omega) ?_ ?_ ?_ mem₁ (Vm.holds_withPage holds)
        (fun b addrs sp' s' mem' rest' below above => ?_)
        fun out => ?_)
      · omega
      · omega
      · omega
      · rw [Vm.withPage_withPage] at mem'
        refine pushed b _ sp' s' mem' (rest'.trans rest₁) ?_ fun k le => ?_
        · refine Pushed.cons room (fun j lt => ?_) below
          rw [above _ (by omega), Vm.withPage_byte]
          exact Vm.overlay_inside (by rw [len]; exact lt)
        · rw [above k (by omega), Vm.withPage_byte]
          exact Vm.overlay_outside (Or.inr (by rw [len]; omega))
      · obtain ⟨fault, fails⟩ := failed fun all => out ⟨all.1, by omega⟩
        exact ⟨fault, fun s' => fails s'⟩
    · obtain ⟨fault, fails⟩ := failed (short out)
      refine ⟨fun _ => fault, fun t s' _ _ => ?_⟩
      rw [if_pos (by decide)]
      exact fails s'

theorem Pushed.length {b : Nat → UInt8} {base sp top : Nat} {args : List (List UInt8)} {addrs : List Nat}
    (h : Pushed b base sp args addrs top) : addrs.length = args.length := by
  induction h with
  | nil => rfl
  | cons _ _ _ ih => simp only [List.length_cons, ih]

theorem Pushed.top_eq {b : Nat → UInt8} {base sp top : Nat} {args : List (List UInt8)} {addrs : List Nat}
    (h : Pushed b base sp args addrs top) (lo : base ≤ sp) : top + need args = sp ∧ base ≤ top := by
  induction h with
  | nil => exact ⟨rfl, lo⟩
  | @cons sp top arg rest addrs room _ _ ih =>
    obtain ⟨sum, low⟩ := ih (by omega)
    have total : need (arg :: rest) = words (arg.length + 1) + need rest := rfl
    exact ⟨by omega, low⟩

theorem Pushed.top_aligned {b : Nat → UInt8} {base sp top : Nat} {args : List (List UInt8)} {addrs : List Nat}
    (h : Pushed b base sp args addrs top) (aligned : sp % 4 = 0) : top % 4 = 0 := by
  induction h with
  | nil => exact aligned
  | @cons sp top arg rest addrs room _ _ ih =>
    apply ih
    simp only [words] at *
    omega

theorem wordBytes_length (n : Nat) : (wordBytes n).length = 4 := by simp [wordBytes]

theorem wordBytes_getD {n j : Nat} (lt : j < 4) : (wordBytes n).getD j 0 = leByte n j := by
  rw [wordBytes, List.getD_eq_getElem _ _ (by simpa using lt)]
  simp

theorem vector_length (us : List Nat) : (us.flatMap wordBytes).length = 4 * us.length := by
  induction us with
  | nil => rfl
  | cons u us ih =>
    rw [List.flatMap_cons, List.length_append, wordBytes_length, ih, List.length_cons]
    omega

theorem vector_getD {us : List Nat} {i j : Nat} (lt : i < us.length) (small : j < 4) :
    (us.flatMap wordBytes).getD (4 * i + j) 0 = leByte (us.getD i 0) j := by
  induction us generalizing i with
  | nil => cases lt
  | cons u us ih =>
    rw [List.flatMap_cons]
    cases i with
    | zero =>
      rw [Nat.mul_zero, Nat.zero_add, List.getD_append _ _ _ _ (by rw [wordBytes_length]; exact small),
        wordBytes_getD small]
      rfl
    | succ i =>
      rw [List.length_cons] at lt
      rw [List.getD_append_right _ _ _ _ (by rw [wordBytes_length]; omega), wordBytes_length,
        show 4 * (i + 1) + j - 4 = 4 * i + j by omega, ih (by omega)]
      rfl

def peek (m : Mem) (y : Space) (va : Nat) : UInt8 := m.byte (y.pte (va / PGSIZE)).page (va % PGSIZE)

def peekWord (m : Mem) (y : Space) (va : Nat) : Nat := le32 fun j => peek m y (va + j)

/-- The stack of a process of `sz` bytes that starts with the arguments `argv`, at the addresses `ptrs`. -/
structure Passed (m : Mem) (y : Space) (sz esp : Nat) (argv : List (List UInt8)) (ptrs : List Nat) : Prop where
  aligned : esp % 4 = 0
  stack : (y.pte (sz / PGSIZE - 1)).present = true ∧ (y.pte (sz / PGSIZE - 1)).user = true
  guard : (y.pte (sz / PGSIZE - 2)).user = false
  inside : sz - PGSIZE ≤ esp
  pc : peekWord m y esp = 0xffffffff
  argc : peekWord m y (esp + 4) = argv.length
  vector : peekWord m y (esp + 8) = esp + 12
  length : ptrs.length = argv.length
  ptr : ∀ i < argv.length, peekWord m y (esp + 12 + 4 * i) = ptrs.getD i 0
  null : peekWord m y (esp + 12 + 4 * argv.length) = 0
  string : ∀ i < argv.length, ∀ j < (argv.getD i []).length + 1,
    peek m y (ptrs.getD i 0 + j) = (argv.getD i [] ++ [0]).getD j 0
  above : ∀ i < argv.length, esp + 4 * (argv.length + 4) ≤ ptrs.getD i 0
  below : ∀ i < argv.length, ptrs.getD i 0 + (argv.getD i []).length + 1 ≤ sz
  apart : ∀ i < argv.length, ∀ j < i, ptrs.getD i 0 + (argv.getD i []).length + 1 ≤ ptrs.getD j 0

section Passed

variable {b : Nat → UInt8} {base sp top : Nat} {args : List (List UInt8)} {addrs : List Nat}

theorem Pushed.get (h : Pushed b base sp args addrs top) (lo : base ≤ sp) {i : Nat} (lt : i < args.length) :
    top ≤ addrs.getD i 0 ∧ addrs.getD i 0 + (args.getD i []).length + 1 ≤ sp ∧
      ∀ j < (args.getD i []).length + 1, b (addrs.getD i 0 - base + j) = (args.getD i [] ++ [0]).getD j 0 := by
  induction h generalizing i with
  | nil => cases lt
  | @cons sp top arg rest addrs room bytes below ih =>
    have wide : arg.length + 1 ≤ words (arg.length + 1) := by
      unfold words
      omega
    cases i with
    | zero =>
      have low := (below.top_eq (by omega)).1
      refine ⟨?_, ?_, bytes⟩
      · change top ≤ sp - words (arg.length + 1)
        omega
      · change sp - words (arg.length + 1) + arg.length + 1 ≤ sp
        omega
    | succ i =>
      obtain ⟨low, high, same⟩ := ih (by omega) (Nat.lt_of_succ_lt_succ lt)
      exact ⟨low, Nat.le_trans high (Nat.sub_le _ _), same⟩

theorem Pushed.apart (h : Pushed b base sp args addrs top) (lo : base ≤ sp) {i j : Nat} (lt : i < args.length)
    (before : j < i) : addrs.getD i 0 + (args.getD i []).length + 1 ≤ addrs.getD j 0 := by
  induction h generalizing i j with
  | nil => cases lt
  | @cons sp top arg rest addrs room bytes below ih =>
    obtain ⟨i, rfl⟩ : ∃ k, i = k + 1 := ⟨i - 1, by omega⟩
    have lt := Nat.lt_of_succ_lt_succ lt
    cases j with
    | zero => exact (below.get (by omega) lt).2.1
    | succ j => exact ih (by omega) lt (by omega)

theorem passed_of_pushed {g esp : Nat} {y : Space} {m : Mem} (base_eq : base = (g + 1) * PGSIZE)
    (small : base + PGSIZE ≤ KERNBASE)
    (there : y.Stacked g) (guard : (y.pte g).user = false) (h : Pushed b base (base + PGSIZE) args addrs top)
    (few : args.length ≤ MAXARG) (room : base + 4 * (args.length + 4) ≤ top) (aligned : top % 4 = 0)
    (esp_eq : esp = top - 4 * (args.length + 4))
    (byte : m.byte (y.pte (g + 1)).page = overlay b (esp - base)
      (([0xffffffff, args.length, esp + 12] ++ addrs ++ [0]).flatMap wordBytes)) :
    Passed m y (base + PGSIZE) esp args addrs := by
  have len := h.length
  obtain ⟨sum, low⟩ := h.top_eq (Nat.le_add_right _ _)
  have view : ∀ va, base ≤ va → va < base + PGSIZE → peek m y va = m.byte (y.pte (g + 1)).page (va - base) := by
    intro va lo hi
    have page : va / PGSIZE = g + 1 := by
      simp only [PGSIZE] at *
      omega
    have off : va % PGSIZE = va - base := by
      simp only [PGSIZE] at *
      omega
    rw [peek, page, off]
  have last : (base + PGSIZE) / PGSIZE = g + 2 := by
    simp only [PGSIZE] at *
    omega
  have vec_len : (([0xffffffff, args.length, esp + 12] ++ addrs ++ [0]).flatMap wordBytes).length = 4 *
    (args.length + 4) := by
    rw [vector_length]
    simp only [List.length_append, List.length_cons, List.length_nil, len]
    omega
  have word : ∀ i < args.length + 4, peekWord m y (esp + 4 * i) =
      ([0xffffffff, args.length, esp + 12] ++ addrs ++ [0]).getD i 0 % 2 ^ 32 := by
    intro i lt
    refine le32_leByte fun j small => ?_
    rw [view _ (by omega) (by omega), byte, show esp + 4 * i + j - base = esp - base + (4 * i + j) by omega,
      Vm.overlay_inside (by omega),
        vector_getD (by simp only [List.length_append, List.length_cons, List.length_nil, len]; omega) small]
  have kernel : base + PGSIZE < 2 ^ 32 := by
    simp only [KERNBASE, PGSIZE] at *
    omega
  have string : ∀ i < args.length, ∀ j < (args.getD i []).length + 1,
      peek m y (addrs.getD i 0 + j) = (args.getD i [] ++ [0]).getD j 0 := by
    intro i lt j lj
    obtain ⟨from_top, to_end, same⟩ := h.get (Nat.le_add_right _ _) lt
    rw [view _ (by omega) (by omega), byte, show addrs.getD i 0 + j - base = addrs.getD i 0 - base + j by omega,
      Vm.overlay_outside (Or.inr (by omega))]
    exact same j lj
  refine ⟨by omega, ?_, ?_, by omega, ?_, ?_, ?_, len, fun i lt => ?_, ?_, string, fun i lt => ?_, fun i lt => ?_,
    fun i lt j before => ?_⟩
  · rw [last]
    exact there
  · rw [last]
    exact guard
  · exact word 0 (by omega)
  · rw [word 1 (by omega)]
    exact Nat.mod_eq_of_lt (by simp only [MAXARG] at few; change args.length < _; omega)
  · rw [show esp + 8 = esp + 4 * 2 by omega, word 2 (by omega)]
    exact Nat.mod_eq_of_lt (by change esp + 12 < _; omega)
  · have bound := (h.get (Nat.le_add_right _ _) lt).2.1
    have entry : ([0xffffffff, args.length, esp + 12] ++ addrs ++ [0]).getD (3 + i) 0 = addrs.getD i 0 := by
      rw [List.getD_append _ _ _ _ (by simp only [List.length_append, List.length_cons, List.length_nil, len]; omega),
        List.getD_append_right _ _ _ _ (by simp)]
      congr 1
      simp
    rw [show esp + 12 + 4 * i = esp + 4 * (3 + i) by omega, word _ (by omega), entry]
    exact Nat.mod_eq_of_lt (by omega)
  · have entry : ([0xffffffff, args.length, esp + 12] ++ addrs ++ [0]).getD (3 + args.length) 0 = 0 := by
      rw [List.getD_append_right _ _ _ _
        (by simp only [List.length_append, List.length_cons, List.length_nil, len]; omega)]
      simp [len]
    rw [show esp + 12 + 4 * args.length = esp + 4 * (3 + args.length) by omega, word _ (by omega), entry, Nat.zero_mod]
  · have := (h.get (Nat.le_add_right _ _) lt).1
    omega
  · exact (h.get (Nat.le_add_right _ _) lt).2.1
  · exact h.apart (Nat.le_add_right _ _) lt before

end Passed

/-- The old memory of the process, on frames, where the allocator finds none. -/
structure Old (old sz : Nat) (x : Space) (m : Mem) (l : Vm.Answers) : Prop where
  image : Vm.Image old x sz (m, l)
  dir : Vm.Frame m.link old
  tables : ∀ i < 1024, ∀ t, x.table i = some t → Vm.Frame m.link t

theorem Old.does_freevm {old sz d : Nat} {x y : Space} {m m' : Mem} {l l' : Vm.Answers} {K : Nat → Prop}
    {F : Vm.Panic → Prop}
    (h : Old old sz x m l) (covers : ∀ page, x.Occupies old sz page → K page) (kept : Vm.Kept K m m')
    (maps : Vm.Maps K d y (m', l')) :
    Vm.Does F (Vm.freevm old) (m', l') fun _ s => s.2 = l' ∧
      Vm.Kept (fun page => ¬ x.Occupies old sz page ∧ some page ∉ l') m' s.1 := by
  have image := h.image
  have occupies : ∀ {page}, x.Occupies old sz page → ¬ (¬ x.Occupies old sz page ∧ some page ∉ l') := fun o n => n.1 o
  have held : Vm.Holds m' old x := image.maps.holds.kept kept (covers _ (Or.inl rfl))
    fun i lt t some => covers t (Or.inr (Or.inl ⟨i, lt, some⟩))
  have apart : ∀ page, ¬ x.Occupies old sz page → x.Apart old page :=
    fun page free => ⟨fun eq => free (Or.inl eq), fun i lt some => free (Or.inr (Or.inl ⟨i, lt, some⟩))⟩
  have spare := maps.spare
  refine Vm.does_freevm (x := x) ⟨held, ⟨⟨spare.distinct, spare.frame, fun page mem n => n.2 mem⟩,
    fun page mem => apart page fun o => spare.kept page mem (covers page o)⟩, fun page n => apart page n.1⟩
    ?_ (occupies (Or.inl rfl)) (fun i lt t some => ?_) fun v lt present => ?_
  · rw [kept.link]
    exact h.dir
  · rw [kept.link]
    exact h.tables i lt t some
  · have inside := (image.present v lt).mp present
    rw [kept.link]
    exact ⟨image.frame v inside, image.maps.apart _ ⟨v, inside, rfl⟩, occupies (Or.inr (Or.inr ⟨v, inside, rfl⟩))⟩

theorem wp_commit (H : Host S P R) (point : ∀ s, T.point s) {old sz₀ d sz eip esp : Nat}
    {name : List UInt8} {x y : Space} {m m' : Mem} {l l' : Vm.Answers} {K : Nat → Prop} {s : S} (h : Old old sz₀ x m l)
    (covers : ∀ page, x.Occupies old sz₀ page → K page) (kept : Vm.Kept K m m') (maps : Vm.Maps K d y (m', l'))
    (mem : H.mem s = (m', l')) (image : (H.image (H.rest s)).1 = old) {Q : Int → S → Prop}
    (post : ∀ s' m'', H.mem s' = (m'', l') → H.image (H.rest s') = (d, sz, esp) →
      Vm.Kept (fun page => ¬ x.Occupies old sz₀ page ∧ some page ∉ l') m' m'' → Q 0 s') :
    H.machine.wp T (do
      let oldpgdir ← step (.commit d sz eip esp name)
      vm (Vm.freevm oldpgdir)
      return 0) s Q := by
  obtain ⟨s₁, act, mem₁, image₁⟩ := H.commit d sz eip esp name s
  rw [image] at act
  refine wp_returns (point s) act ?_
  refine H.wp_vm_sure point ?_
  rw [mem₁, mem]
  refine Vm.does_mono (h.does_freevm covers kept maps) fun _ t freed s' mem' rest' => ?_
  obtain ⟨m'', l''⟩ := t
  obtain ⟨rfl, kept'⟩ := freed
  exact post s' m'' mem' (by rw [rest', image₁]) kept'

theorem wp_bad_vm (H : Host S P R) (point : ∀ s, T.point s) (fault : ∀ q, T.fault q) (d : Nat) (s : S)
    {Q : Int → S → Prop} (post : ∀ s', Q (-1) s') : H.machine.wp T (bad (some d) none) s Q := by
  refine H.wp_vm (F := fun _ => True) point (fun _ _ => fault) ?_
  exact Vm.does_mono (Vm.does_anything (fun _ => trivial) _ _) fun _ _ _ s' _ _ => post s'

def Fits (argv : List (List UInt8)) : Prop := need argv + 4 * (argv.length + 4) ≤ PGSIZE

theorem wp_stack (H : Host S P R) (point : ∀ s, T.point s) {old sz₀ d g base : Nat} {x₀ y : Space} {m m₁ : Mem}
    {l l₁ : Vm.Answers} {K : Nat → Prop} {s : S} {path : List UInt8} {argv : List (List UInt8)} {elf : Elfhdr}
    (h : Old old sz₀ x₀ m l) (covers : ∀ page, x₀.Occupies old sz₀ page → K page) (kept : Vm.Kept K m m₁)
    (maps : Vm.Maps K d y (m₁, l₁)) (mem : H.mem s = (m₁, l₁)) (image : (H.image (H.rest s)).1 = old)
    (base_eq : base = (g + 1) * PGSIZE) (top : base + PGSIZE ≤ KERNBASE) (guard : (y.pte g).user = false)
    (mine : y.Stacked g → ¬ K (y.pte (g + 1)).page) (few : argv.length ≤ MAXARG) {Q : Int → S → Prop}
    (done : ∀ m₂ m' s' esp ptrs b, Vm.Kept K m₁ m₂ → m₂ = withPage m₁ (y.pte (g + 1)).page b → H.mem s' = (m', l₁) →
      H.image (H.rest s') = (d, base + PGSIZE, esp) →
      Vm.Kept (fun page => ¬ x₀.Occupies old sz₀ page ∧ some page ∉ l₁) m₂ m' →
      (∀ z m'', z.pte g = y.pte g → z.pte (g + 1) = y.pte (g + 1) → m''.byte (y.pte (g + 1)).page = b →
        Passed m'' z (base + PGSIZE) esp argv ptrs) → y.Stacked g → Fits argv → Q 0 s')
    (failed : ¬ (y.Stacked g ∧ Fits argv) → (∀ q, T.fault q) ∧ ∀ s', Q (-1) s') :
    H.machine.wp T (do
      match ← pushArgs d (base + PGSIZE) 0 argv with
      | none => bad (some d) none
      | some (sp, addrs) => do
        let argc := argv.length
        let ustack := [0xffffffff, argc, (sp + 2 ^ 32 - (argc + 1) * 4) % 2 ^ 32] ++ addrs ++ [0]
        let sp := (sp + 2 ^ 32 - (3 + argc + 1) * 4) % 2 ^ 32
        if (← vm (Vm.copyout d sp (ustack.flatMap wordBytes))) < 0 then
          bad (some d) none
        else
          let oldpgdir ← step (.commit d (base + PGSIZE) elf.entry sp (progName path))
          vm (Vm.freevm oldpgdir)
          return 0) s Q := by
  have page_aligned : (base + PGSIZE) % 4 = 0 := by
    simp only [PGSIZE] at *
    omega
  have size : PGSIZE = 4096 := rfl
  have fail : ¬ (y.Stacked g ∧ Fits argv) → ∀ s', H.machine.wp T (bad (some d) none) s' Q := fun out s' =>
    wp_bad_vm H point (failed out).1 d s' (failed out).2
  refine wp_then (wp_pushArgs H point guard base_eq top argv (by omega) (Nat.le_add_right _ _) Nat.le.refl
    page_aligned mem maps.holds (fun b addrs sp s₁ mem₁ rest₁ pushed above => ?_) fun out => ?_)
  · obtain ⟨sum, low⟩ := pushed.top_eq (Nat.le_add_right _ _)
    have len := pushed.length
    simp only [MAXARG] at few
    have vec_len : (([0xffffffff, argv.length, (sp + 2 ^ 32 - (argv.length + 1) * 4) % 2 ^ 32] ++ addrs ++ [0]).flatMap
        wordBytes).length = 4 * (argv.length + 4) := by
      rw [vector_length]
      simp only [List.length_append, List.length_cons, List.length_nil, len]
      omega
    have sp_aligned := pushed.top_aligned page_aligned
    have sp_eq : (sp + 2 ^ 32 - (3 + argv.length + 1) * 4) % 2 ^ 32 = pushAt sp (4 * (argv.length + 4)) := by
      unfold pushAt
      simp only [KERNBASE] at top
      omega
    simp only [sp_eq]
    have room_iff : base + 4 * (argv.length + 4) ≤ sp ↔ Fits argv := by
      unfold Fits
      omega
    refine H.wp_vm (F := fun _ => ∀ q, T.fault q) point (fun _ fault => fault) ?_
    rw [mem₁]
    rw [← vec_len]
    refine Vm.does_push (Vm.holds_withPage maps.holds) guard base_eq top low (by omega) sp_aligned (by omega)
      (fun there fits s₂ mem₂ rest₂ => ?_) fun out => ?_
    · rw [if_neg (by decide)]
      rw [vec_len] at fits
      have esp_eq : pushAt sp (4 * (argv.length + 4)) = sp - 4 * (argv.length + 4) := by
        rw [Vm.pushAt_fits (by omega) sp_aligned (by omega)]
        unfold words
        omega
      have vector : (sp + 2 ^ 32 - (argv.length + 1) * 4) % 2 ^ 32 = sp - 4 * (argv.length + 4) + 12 := by
        simp only [KERNBASE] at top
        omega
      have words_eq : words (4 * (argv.length + 4)) = 4 * (argv.length + 4) := by
        unfold words
        omega
      rw [Vm.withPage_withPage, Vm.withPage_byte, vec_len, words_eq, vector] at mem₂
      rw [sp_eq, esp_eq]
      have free := mine there
      refine wp_commit H point h covers (kept.trans (Vm.kept_withPage free)) (maps.withPage) mem₂
        (by rw [rest₂, rest₁, image]) fun s' m' mem' image' kept' => ?_
      refine done _ m' s' _ addrs _ (Vm.kept_withPage free) rfl mem' image' kept'
        (fun z m'' same_g same byte => ?_) there
        (room_iff.mp fits)
      refine passed_of_pushed base_eq top ?_ ?_ pushed (by simp only [MAXARG]; omega) fits sp_aligned rfl ?_
      · unfold Vm.Space.Stacked
        rw [same]
        exact there
      · rw [same_g]
        exact guard
      · rw [same]
        exact byte
    · rw [vec_len, room_iff] at out
      exact ⟨fun _ => (failed out).1, fun t s' _ _ => fail out s'⟩
  · have short : ¬ (y.Stacked g ∧ Fits argv) := by
      unfold Fits
      exact fun ok => out ⟨ok.1, by omega⟩
    exact ⟨(failed short).1, fail short⟩

theorem pages_mul (n : Nat) : Vm.pages (n * PGSIZE) = n := by
  simp only [Vm.pages, PGSIZE]
  omega

theorem newPages_stack (n : Nat) : Vm.newPages (n * PGSIZE) ((n + 2) * PGSIZE) = [n, n + 1] := by
  unfold Vm.newPages
  rw [pages_mul, pages_mul, Nat.add_sub_cancel_left]
  rfl

/-- What `exec` needs after the program is loaded: room below the kernel, memory for the stack and its
page table, and arguments that fit. -/
def Suffices (n : Nat) (x : Space) (l : Vm.Answers) (argv : List (List UInt8)) : Prop :=
  (n + 2) * PGSIZE < KERNBASE ∧ (Space.fill [n, n + 1] x l).out = false ∧
    (Space.fill [n, n + 1] x l).short = false ∧ Fits argv

theorem wp_finish (H : Host S P R) (point : ∀ s, T.point s) {old sz₀ d sz n : Nat} {x₀ x : Space} {m : Mem}
    {l : Vm.Answers} {K : Nat → Prop} {s : S} {path : List UInt8} {argv : List (List UInt8)} {elf : Elfhdr}
    (h : Old old sz₀ x₀ m l) (covers : ∀ page, x₀.Occupies old sz₀ page → K page) (maps : Vm.Maps K d x (m, l))
    (size : sz ≤ KERNBASE) (n_eq : n = Vm.pages sz) (absent : ∀ v, n ≤ v → v < 2 ^ 19 → (x.pte v).present = false)
    (mem : H.mem s = (m, l)) (image : (H.image (H.rest s)).1 = old) (few : argv.length ≤ MAXARG) {Q : Int → S → Prop}
    (done : ∀ y m' l' s' esp ptrs, H.mem s' = (m', l') → H.image (H.rest s') = (d, (n + 2) * PGSIZE, esp) →
      Vm.Holds m' d y →
      (∀ v, v ≠ n → v ≠ n + 1 → y.pte v = x.pte v) →
        (∀ page, K page → ¬ x₀.Occupies old sz₀ page → m'.byte page = m.byte page) →
      Passed m' y ((n + 2) * PGSIZE) esp argv ptrs → Fits argv → Q 0 s')
    (failed : ¬ Suffices n x l argv → (∀ q, T.fault q) ∧ ∀ s', Q (-1) s') :
    H.machine.wp T (finish path argv elf d sz) s Q := by
  have bound := Vm.pages_le size
  rw [← n_eq] at bound
  have start : pgRoundUp sz = n * PGSIZE := by rw [Vm.pgRoundUp_eq size, n_eq]
  have stop : (n * PGSIZE + 2 * PGSIZE) % 2 ^ 32 = (n + 2) * PGSIZE := by
    simp only [PGSIZE]
    omega
  have fail : ¬ Suffices n x l argv → ∀ s', H.machine.wp T (bad (some d) none) s' Q := fun out s' =>
    wp_bad_vm H point (failed out).1 d s' (failed out).2
  unfold finish
  rw [start, stop]
  refine H.wp_vm (F := fun _ => ∀ q, T.fault q) point (fun _ fault => fault) ?_
  rw [mem]
  by_cases room : (n + 2) * PGSIZE < KERNBASE
  case neg =>
    unfold Vm.allocuvm
    rw [if_pos (by omega)]
    intro s₁ _ _
    rw [if_pos rfl]
    exact fail (fun ok => room ok.1) s₁
  have le : n * PGSIZE ≤ (n + 2) * PGSIZE := Nat.mul_le_mul_right _ (by omega)
  have small : n + 2 < 2 ^ 19 := by
    simp only [PGSIZE, KERNBASE] at room
    omega
  have new := newPages_stack n
  refine Vm.does_allocuvm le room maps (fun v mem => ?_) (f := Space.fill [n, n + 1] x l) (by rw [new])
    (fun fine m₁ maps₁ kept₁ backs s₁ mem₁ rest₁ => ?_) fun out m₁ _ _ s₁ mem₁ rest₁ => ?_
  · rw [new] at mem
    simp only [List.mem_cons, List.not_mem_nil, or_false] at mem
    exact absent v (by omega) (by omega)
  · have pos : (n + 2) * PGSIZE ≠ 0 := by
      simp only [PGSIZE]
      omega
    have guard_at : (n + 2) * PGSIZE - 2 * PGSIZE = n * PGSIZE := by
      simp only [PGSIZE]
      omega
    rw [if_neg pos, guard_at]
    rw [new] at maps₁ backs
    refine H.wp_vm (F := fun _ => ∀ q, T.fault q) point (fun _ fault => fault) ?_
    rw [mem₁]
    have away : ∀ {v}, v ≠ n → v ≠ n + 1 → v ∉ [n, n + 1] := fun ne ne' mem => by
      simp only [List.mem_cons, List.not_mem_nil, or_false] at mem
      omega
    refine Vm.does_clearpteu (by omega) maps₁ (fun none => (failed fun ok => ?_).1)
      fun m₂ maps₂ kept₂ s₂ mem₂ rest₂ => ?_
    · have there := Space.fill_present ok.2.1 ok.2.2.1 (v := n) (by simp)
      rw [maps₁.holds.zero n (by omega) none] at there
      cases there
    -- From here on the pages of the stack are in use as well.
    · have stack : (Space.set (Space.fill [n, n + 1] x l).space n
          { (Space.fill [n, n + 1] x l).space.pte n with user := false }).pte (n + 1) =
          (Space.fill [n, n + 1] x l).space.pte (n + 1) := Space.set_pte_ne _ _ (by omega)
      have end_eq : (n + 1) * PGSIZE + PGSIZE = (n + 2) * PGSIZE := (Nat.succ_mul (n + 1) PGSIZE).symm
      have kept := kept₁.trans (kept₂.mono fun _ => Or.inl)
      rw [← end_eq]
      refine wp_stack H point h covers kept (maps₂.mono fun _ => Or.inl) mem₂ (by rw [rest₂, rest₁, image]) rfl ?_
        (by simp) ?_ few
        (fun m₃ m' s' esp ptrs b kept₃ m₃_eq mem' image' freed passed there fits => ?_) fun out => failed fun ok => ?_
      · rw [end_eq]
        exact Nat.le_of_lt room
      · intro there
        rw [stack]
        unfold Vm.Space.Stacked at there
        rw [stack] at there
        exact (backs.owned (n + 1) (by simp) there.1).2.2
      · have there : ((Space.fill [n, n + 1] x l).space.pte (n + 1)).present = true := stack ▸ there.1
        have free := (backs.owned (n + 1) (by simp) there).2.2
        have unused : ∀ page, ¬ Space.Apart (Space.set (Space.fill [n, n + 1] x l).space n
            { (Space.fill [n, n + 1] x l).space.pte n with user := false }) d page →
            ¬ x₀.Occupies old sz₀ page ∧ some page ∉ (Space.fill [n, n + 1] x l).rest := fun page used =>
          ⟨fun o => used (maps₂.apart page (Or.inl (covers page o))), fun mem => used (maps₂.spare.apart page mem)⟩
        have byte : m'.byte ((Space.fill [n, n + 1] x l).space.pte (n + 1)).page = b := by
          rw [freed.byte _ ⟨fun o => free (covers _ o), fun mem =>
            maps₂.spare.kept _ mem (Or.inr ⟨n + 1, by simp, there, rfl⟩)⟩, m₃_eq, stack]
          exact Vm.withPage_byte _ _ _
        refine done _ m' _ s' esp ptrs mem' (by rw [image', end_eq]) ?_ (fun v ne ne' => ?_) (fun page k free => ?_)
          (end_eq ▸ passed _ m' rfl rfl (stack.symm ▸ byte)) fits
        · refine Vm.Holds.kept ?_ freed (unused d fun apart => apart.1 rfl) fun i lt t some => unused t fun apart =>
            apart.2 i lt some
          rw [m₃_eq]
          exact Vm.holds_withPage maps₂.holds
        · rw [Space.set_pte_ne _ _ ne]
          exact Space.fill_pte (away ne ne') x l
        · rw [freed.byte page ⟨free, fun mem => maps₂.spare.kept page mem (Or.inl k)⟩, kept₃.byte page k,
            kept.byte page k]
      · refine out ⟨?_, ok.2.2.2⟩
        have there := Space.fill_present ok.2.1 ok.2.2.1 (v := n + 1) (by simp)
        unfold Vm.Space.Stacked
        rw [stack]
        exact ⟨there, backs.user (n + 1) (by simp) there⟩
  · rw [if_pos rfl]
    exact fail (fun ok => by rw [ok.2.1] at out; cases out) s₁

end Espl.Kernel.Exec
