import Espl.Kernel.ExecArgs
import Espl.Kernel.FileBytes

/-!
# Loading a program

The new space of `exec` grows from page 0 on, so what it holds after some program headers is what one
loop over all its pages would have filled, with the bytes of the segments stored there.
-/

namespace Espl.Kernel.Vm

variable {K : Nat → Prop} {d : Nat} {x x₀ : Space} {m m' m₀ : Mem} {l l₀ : Answers} {F : Panic → Prop}

structure SameTables (m m' : Mem) : Prop where
  link : m'.link = m.link
  entry : m'.entry = m.entry

theorem sameTables_withPage (m : Mem) (page : Nat) (b : Nat → UInt8) : SameTables m (withPage m page b) := ⟨rfl, rfl⟩

theorem SameTables.refl (m : Mem) : SameTables m m := ⟨rfl, rfl⟩

theorem SameTables.trans {m₁ m₂ m₃ : Mem} (h : SameTables m₁ m₂) (h' : SameTables m₂ m₃) : SameTables m₁ m₃ :=
  ⟨h'.link.trans h.link, h'.entry.trans h.entry⟩

theorem Maps.bytes (h : Maps K d x (m, l)) (same : SameTables m m') : Maps K d x (m', l) :=
  ⟨h.holds.congr (by rw [same.entry]) fun _ _ _ _ => by rw [same.entry], by
    change Spare K d x m'.link l
    rw [same.link]
    exact h.spare, h.apart⟩

theorem Space.fill_append (vs ws : List Nat) (x : Space) (l : Answers) (fine : (fill vs x l).out = false) :
    fill (vs ++ ws) x l = { fill ws (fill vs x l).space (fill vs x l).rest with
      short := (fill vs x l).short || (fill ws (fill vs x l).space (fill vs x l).rest).short } := by
  fun_induction Space.fill vs x l with
  | case1 => simp
  | case2 v vs x mem l t y rest provided ih => rw [List.cons_append, fill_mapped provided, ih fine]
  | case3 v vs x mem l y rest provided _ ih =>
    have same : y = x := by
      unfold Space.provide at provided
      split at provided <;> cases provided
      rfl
    subst same
    rw [List.cons_append, fill_short provided, ih fine]
    rfl
  | case4 => cases fine

theorem Space.fill_pte_absent {vs : List Nat} {v : Nat} (absent : ((fill vs x l).space.pte v).present = false) :
    (fill vs x l).space.pte v = x.pte v := by
  fun_induction Space.fill vs x l with
  | case1 => rfl
  | case2 u vs x mem l t y rest provided ih =>
    have same := ih absent
    by_cases eq : v = u
    · subst eq
      rw [same, Space.set_pte_same] at absent
      cases absent
    · rw [same, Space.set_pte_ne _ _ eq]
      unfold Space.provide at provided
      split at provided <;> cases provided <;> rfl
  | case3 u vs x mem l y rest provided _ ih =>
    rw [ih absent]
    unfold Space.provide at provided
    split at provided <;> cases provided
    rfl
  | case4 => rfl

theorem Backs.append {y : Space} {vs ws : List Nat} {c : Nat → Nat → UInt8} (old : Backs K d x m c vs)
    (same : ∀ v ∈ vs, y.pte v = x.pte v) (kept : Kept (fun page => K page ∨ x.Backed vs page) m m')
    (apart : ∀ page, x.Backed vs page → y.Apart d page)
    (new : Backs (fun page => K page ∨ x.Backed vs page) d y m' c ws) : Backs K d y m' c (vs ++ ws) := by
  have other : ∀ v ∈ vs, ∀ w ∈ ws, (y.pte v).present = true → (y.pte w).present = true →
    (y.pte w).page ≠ (y.pte v).page := by
    intro v mem w mem' present present' eq
    rw [same v mem] at present eq
    exact (new.owned w mem' present').2.2 (Or.inr ⟨v, mem, present, eq.symm⟩)
  refine ⟨fun v mem present => ?_, fun v mem present => ?_, fun v mem present => ?_, fun v mem present => ?_,
    fun v mem w mem' present present' eq => ?_⟩
  · rcases List.mem_append.mp mem with mem | mem
    · rw [same v mem] at present ⊢
      exact old.writable v mem present
    · exact new.writable v mem present
  · rcases List.mem_append.mp mem with mem | mem
    · rw [same v mem] at present ⊢
      exact old.user v mem present
    · exact new.user v mem present
  · rcases List.mem_append.mp mem with mem | mem
    · rw [same v mem] at present ⊢
      obtain ⟨frame, _, free⟩ := old.owned v mem present
      exact ⟨kept.link ▸ frame, apart _ ⟨v, mem, present, rfl⟩, free⟩
    · obtain ⟨frame, apart, free⟩ := new.owned v mem present
      exact ⟨frame, apart, fun k => free (Or.inl k)⟩
  · rcases List.mem_append.mp mem with mem | mem
    · rw [same v mem] at present ⊢
      rw [kept.byte _ (Or.inr ⟨v, mem, present, rfl⟩)]
      exact old.byte v mem present
    · exact new.byte v mem present
  · rcases List.mem_append.mp mem with mem | mem <;> rcases List.mem_append.mp mem' with mem' | mem'
    · rw [same v mem] at present eq
      rw [same w mem'] at present' eq
      exact old.inj v mem w mem' present present' eq
    · exact absurd eq.symm (other v mem w mem' present present')
    · exact absurd eq (other w mem' v mem present' present)
    · exact new.inj v mem w mem' present present' eq

theorem range_pages {sz sz' : Nat} (le : sz ≤ sz') :
    List.range (pages sz') = List.range (pages sz) ++ newPages sz sz' := by
  have mono := pages_mono le
  have split := List.range'_append_1 (s := 0) (m := pages sz) (n := pages sz' - pages sz)
  rw [Nat.zero_add, Nat.add_sub_cancel' mono] at split
  rw [List.range_eq_range', List.range_eq_range', split]

@[irreducible] def Space.upTo (x₀ : Space) (l₀ : Answers) (sz : Nat) : Filled :=
  Space.fill (List.range (pages sz)) x₀ l₀

theorem Space.upTo_zero (x₀ : Space) (l₀ : Answers) : x₀.upTo l₀ 0 = ⟨x₀, l₀, false, false⟩ := by
  rw [Space.upTo]
  rfl

theorem Space.upTo_more {sz new : Nat} (le : sz ≤ new) (fine : (x₀.upTo l₀ sz).out = false) :
    x₀.upTo l₀ new = { Space.fill (newPages sz new) (x₀.upTo l₀ sz).space (x₀.upTo l₀ sz).rest with
      short := (x₀.upTo l₀ sz).short ||
        (Space.fill (newPages sz new) (x₀.upTo l₀ sz).space (x₀.upTo l₀ sz).rest).short } := by
  simp only [Space.upTo] at *
  rw [range_pages le, Space.fill_append _ _ _ _ fine]

theorem Space.upTo_pte_absent {sz v : Nat} (absent : ((x₀.upTo l₀ sz).space.pte v).present = false) :
    (x₀.upTo l₀ sz).space.pte v = x₀.pte v := by
  simp only [Space.upTo] at *
  exact Space.fill_pte_absent absent

/-- The new space `d` has grown to `sz` and has the contents `c`; nothing else has changed but bytes. -/
structure Built (K : Nat → Prop) (d : Nat) (x₀ : Space) (m₀ : Mem) (l₀ : Answers) (sz : Nat) (c : Nat → Nat → UInt8)
    (s : Mem × Answers) : Prop where
  size : sz < KERNBASE
  fine : (x₀.upTo l₀ sz).out = false
  rest : s.2 = (x₀.upTo l₀ sz).rest
  maps : Maps (fun page => K page ∨ (x₀.upTo l₀ sz).space.Backed (List.range (pages sz)) page) d (x₀.upTo l₀ sz).space s
  backs : Backs K d (x₀.upTo l₀ sz).space s.1 c (List.range (pages sz))
  zero : ∀ v, pages sz ≤ v → c v = fun _ => 0
  link : s.1.link = m₀.link
  entry : ∀ page, K page → s.1.entry page = m₀.entry page

section Built

variable {sz : Nat} {c : Nat → Nat → UInt8}

theorem built_start (h : Maps K d x₀ (m₀, l₀)) : Built K d x₀ m₀ l₀ 0 (fun _ _ => 0) (m₀, l₀) where
  size := by decide
  fine := by rw [Space.upTo_zero]
  rest := by rw [Space.upTo_zero]
  maps := by
    rw [Space.upTo_zero]
    refine h.mono fun page mine => mine.elim id fun backed => ?_
    obtain ⟨v, mem, _⟩ := backed
    cases mem
  backs := Backs.of_absent fun _ mem => by cases mem
  zero _ _ := rfl
  link := rfl
  entry _ _ := rfl

theorem Built.bytes (h : Built K d x₀ m₀ l₀ sz c (m, l)) (same : SameTables m m') {c' : Nat → Nat → UInt8}
    (byte : ∀ v < pages sz, ((x₀.upTo l₀ sz).space.pte v).present = true →
      m'.byte ((x₀.upTo l₀ sz).space.pte v).page = c' v)
    (zero : ∀ v, pages sz ≤ v → c' v = fun _ => 0) : Built K d x₀ m₀ l₀ sz c' (m', l) where
  size := h.size
  fine := h.fine
  rest := h.rest
  maps := h.maps.bytes same
  backs := { h.backs with
    owned := fun v mem => by
      change Space.Owned _ K d m'.link v
      rw [same.link]
      exact h.backs.owned v mem
    byte := fun v mem present => byte v (List.mem_range.mp mem) present }
  zero := zero
  link := same.link.trans h.link
  entry page k := by
    change m'.entry page = _
    rw [same.entry]
    exact h.entry page k

theorem Built.any_bytes (h : Built K d x₀ m₀ l₀ sz c (m, l)) (same : SameTables m m') :
    ∃ c', Built K d x₀ m₀ l₀ sz c' (m', l) := by
  refine ⟨fun v => if v < pages sz then m'.byte ((x₀.upTo l₀ sz).space.pte v).page else fun _ => 0,
    h.bytes same (fun v lt _ => (if_pos lt).symm) fun v ge => if_neg (by omega)⟩

theorem Space.upTo_absent (setup : x₀.Setup) {v : Nat} (ge : pages sz ≤ v) (lt : v < 2 ^ 19) :
    ((x₀.upTo l₀ sz).space.pte v).present = false := by
  rw [Space.upTo, Space.fill_pte (by simpa using ge), setup.low v lt]
  rfl

theorem Built.does_allocuvm (h : Built K d x₀ m₀ l₀ sz c (m, l)) (setup : x₀.Setup) {new : Nat}
    {Q : Nat → Mem × Answers → Prop}
    (grown : ∀ s, Built K d x₀ m₀ l₀ (max sz new) c s → Q (max sz new) s)
    (out : ¬ (new < KERNBASE ∧ (x₀.upTo l₀ (max sz new)).out = false) → ∀ s, Q 0 s) :
    Does F (allocuvm d sz new) (m, l) Q := by
  by_cases high : new < KERNBASE
  case neg =>
    unfold allocuvm
    rw [if_pos (by omega)]
    exact out (fun ok => high ok.1) _
  by_cases less : new < sz
  · rw [Nat.max_eq_left (by omega)] at grown
    unfold allocuvm
    rw [if_neg (by omega), if_pos less]
    exact grown _ h
  have le : sz ≤ new := by omega
  rw [Nat.max_eq_right le] at grown out
  have join := Space.upTo_more le h.fine
  have away : ∀ v ∈ List.range (pages sz), v ∉ newPages sz new := fun v mem new => by
    have := mem_newPages.mp new
    have := List.mem_range.mp mem
    omega
  have bound := pages_le (Nat.le_of_lt high)
  have rest := h.rest
  change l = _ at rest
  subst rest
  refine Vm.does_allocuvm le high h.maps (f := Space.fill (newPages sz new) (x₀.upTo l₀ sz).space (x₀.upTo l₀ sz).rest)
    (fun v mem => ?_) rfl (fun fine m' maps kept backs => grown _ ?_) fun failed m' maps kept => out (fun ok => ?_) _
  · have new := mem_newPages.mp mem
    exact Space.upTo_absent setup new.1 (by omega)
  · have same : ∀ v ∈ List.range (pages sz), (x₀.upTo l₀ new).space.pte v = (x₀.upTo l₀ sz).space.pte v := by
      intro v mem
      rw [join]
      exact Space.fill_pte (away v mem) _ _
    have maps : Maps (fun page => (K page ∨ (x₀.upTo l₀ sz).space.Backed (List.range (pages sz)) page) ∨
        (x₀.upTo l₀ new).space.Backed (newPages sz new) page) d (x₀.upTo l₀ new).space (m', (x₀.upTo l₀ new).rest) := by
      simp only [join]
      exact maps
    have backs : Backs (fun page => K page ∨ (x₀.upTo l₀ sz).space.Backed (List.range (pages sz)) page) d
        (x₀.upTo l₀ new).space m' (fun _ _ => 0) (newPages sz new) := by
      simp only [join]
      exact backs
    have last : (Space.fill (newPages sz new) (x₀.upTo l₀ sz).space (x₀.upTo l₀ sz).rest).rest =
      (x₀.upTo l₀ new).rest := by
      simp only [join]
    rw [last]
    refine ⟨high, ?_, rfl, maps.mono fun page mine => ?_, ?_, fun v ge => h.zero v (Nat.le_trans (pages_mono le) ge),
      kept.link.trans h.link, fun page k => (kept.entry page (Or.inl k)).trans (h.entry page k)⟩
    · rw [join]
      exact fine
    · rcases mine with k | ⟨v, mem, present, eq⟩
      · exact Or.inl (Or.inl k)
      · rw [range_pages le] at mem
        rcases List.mem_append.mp mem with mem | mem
        · rw [same v mem] at present eq
          exact Or.inl (Or.inr ⟨v, mem, present, eq⟩)
        · exact Or.inr ⟨v, mem, present, eq⟩
    · rw [range_pages le]
      refine h.backs.append same kept (fun page backed => maps.apart page (Or.inl (Or.inr backed)))
        { backs with byte := fun v mem present => ?_ }
      rw [backs.byte v mem present, h.zero v (mem_newPages.mp mem).1]
  · have fine := ok.2
    rw [join] at fine
    exact absurd (failed.symm.trans fine) (by decide)

theorem Space.fill_table {vs : List Nat} {i : Nat} (out : ∀ v ∈ vs, v / 1024 ≠ i) (x : Space) (l : Answers) :
    (fill vs x l).space.table i = x.table i := by
  fun_induction Space.fill vs x l with
  | case1 | case4 => rfl
  | case2 _ _ _ _ _ _ _ _ provided ih | case3 _ _ _ _ _ _ _ provided _ ih =>
    obtain ⟨here, later⟩ := List.forall_mem_cons.mp out
    have same := Space.provide_elsewhere provided (Ne.symm here)
    exact (ih later).trans same

/-- The stack that `exec` adds to an image of `n` pages makes the directory ready for the arguments. -/
theorem Built.does_ready {n : Nat} {f : Filled} (h : Built K d x₀ m₀ l₀ (n * PGSIZE) c (m, l)) (setup : x₀.Setup)
    (room : (n + 2) * PGSIZE < KERNBASE) (all : x₀.upTo l₀ ((n + 2) * PGSIZE) = f) (fine : f.out = false)
    (full : f.short = false) :
    Does F (do
      let sz ← allocuvm d (n * PGSIZE) ((n + 2) * PGSIZE)
      clearpteu d (sz - 2 * PGSIZE)) (m, l) fun _ s => Ready s.1 d n := by
  have top : max (n * PGSIZE) ((n + 2) * PGSIZE) = (n + 2) * PGSIZE :=
    Nat.max_eq_right (Nat.mul_le_mul_right _ (by omega))
  have guard : (n + 2) * PGSIZE - 2 * PGSIZE = n * PGSIZE := by
    simp only [PGSIZE]
    omega
  have small : n + 2 < 2 ^ 19 := by
    simp only [PGSIZE, KERNBASE] at room
    omega
  have low : ∀ v ∈ List.range (n + 2), v < 2 ^ 19 := fun v mem => Nat.lt_trans (List.mem_range.mp mem) small
  refine does_bind (h.does_allocuvm setup (fun s built => ?_) fun failed => ?_)
  case refine_2 =>
    rw [top, all] at failed
    exact absurd ⟨room, fine⟩ failed
  obtain ⟨-, -, -, maps, backs, -⟩ := built
  rw [top, all, Exec.pages_mul] at maps backs
  rw [top, guard]
  rw [Space.upTo, Exec.pages_mul] at all
  have there : ∀ v < n + 2, (f.space.pte v).present = true ∧ (f.space.pte v).user = true := by
    subst all
    intro v lt
    have present := Space.fill_present fine full (List.mem_range.mpr lt)
    exact ⟨present, backs.user v (List.mem_range.mpr lt) present⟩
  have mapped : f.space.table (n / 1024) ≠ none := by
    intro none
    have zero := (there n (by omega)).1
    rw [maps.holds.zero n (by omega) none] at zero
    cases zero
  refine does_clearpteu (by omega) maps (fun none => absurd none mapped) fun m' maps _ => ?_
  have reached : ∀ v < n + 2, v ≠ n → accessible m' d v = true := fun v lt ne => by
    rw [accessible_eq maps.holds (by omega), Space.set_pte_ne _ _ ne, (there v lt).1, (there v lt).2]
    rfl
  refine ⟨fun v lt => reached v (by omega) (by omega), ?_, reached _ (by omega) (by omega), fun v lo hi => ?_⟩
  · rw [hasTable_eq maps.holds (by omega), Space.set_table]
    exact Option.isSome_iff_ne_none.mpr mapped
  · rw [accessible_eq maps.holds hi, hasTable_eq maps.holds hi, Space.set_pte_ne _ _ (by omega), Space.set_table, ← all,
      Space.fill_table (fun w mem => by have := low w mem; omega),
      Space.fill_pte (fun mem => by have := low v mem; omega), setup.user, Option.isSome_iff_ne_none,
      setup.table _ (by omega)]
    simp only [Bool.and_false, KERNBASE, PHYSTOP, DEVSPACE, PGSIZE, true_and]
    omega

end Built

def paste (c : Nat → Nat → UInt8) (va : Nat) (src : List UInt8) (v o : Nat) : UInt8 :=
  if o < PGSIZE ∧ va ≤ v * PGSIZE + o ∧
    v * PGSIZE + o < va + src.length then src.getD (v * PGSIZE + o - va) 0 else c v o

section Paste

variable {c : Nat → Nat → UInt8} {va v w : Nat} {src : List UInt8}

theorem paste_nil (c : Nat → Nat → UInt8) (va : Nat) : paste c va [] = c := by
  funext v o
  exact if_neg (by simp only [List.length_nil]; omega)

theorem paste_append (c : Nat → Nat → UInt8) (va : Nat) (src src' : List UInt8) :
    paste (paste c va src) (va + src.length) src' = paste c va (src ++ src') := by
  funext v o
  simp only [paste, List.length_append]
  generalize v * PGSIZE + o = a
  by_cases second : o < PGSIZE ∧ va + src.length ≤ a ∧ a < va + src.length + src'.length
  · rw [if_pos second, if_pos (by omega), List.getD_append_right _ _ _ _ (by omega), Nat.sub_sub]
  · rw [if_neg second]
    by_cases first : o < PGSIZE ∧ va ≤ a ∧ a < va + src.length
    · rw [if_pos first, if_pos (by omega), List.getD_append _ _ _ _ (by omega)]
    · rw [if_neg first, if_neg (by omega)]

theorem paste_page (fits : src.length ≤ PGSIZE) : paste c (v * PGSIZE) src v = overlay (c v) 0 src := by
  funext o
  simp only [paste, overlay, Nat.add_sub_cancel_left, Nat.sub_zero]
  by_cases small : o < src.length
  · rw [if_pos (by omega), if_pos (by omega)]
  · rw [if_neg (by omega), if_neg (by omega)]

theorem paste_elsewhere (fits : src.length ≤ PGSIZE) (ne : w ≠ v) : paste c (v * PGSIZE) src w = c w := by
  funext o
  refine if_neg fun inside => ?_
  simp only [PGSIZE] at *
  omega

theorem Built.store {sz : Nat} (h : Built K d x₀ m₀ l₀ sz c (m, l)) (setup : x₀.Setup)
    (lt : v < pages sz) (fits : src.length ≤ PGSIZE) :
    Built K d x₀ m₀ l₀ sz (paste c (v * PGSIZE) src) (withPage m ((x₀.upTo l₀ sz).space.pte v).page
      (overlay (m.byte ((x₀.upTo l₀ sz).space.pte v).page) 0 src), l) := by
  have bound := pages_le (Nat.le_of_lt h.size)
  refine h.bytes (sameTables_withPage _ _ _) (fun w lw present => ?_) fun w ge => ?_
  · by_cases eq : w = v
    · subst eq
      rw [withPage_byte, paste_page fits, h.backs.byte w (List.mem_range.mpr lw) present]
    · have other : ((x₀.upTo l₀ sz).space.pte w).page ≠ ((x₀.upTo l₀ sz).space.pte v).page := by
        intro same
        cases there : ((x₀.upTo l₀ sz).space.pte v).present with
        | true => exact eq (h.backs.inj w (List.mem_range.mpr lw) v (List.mem_range.mpr lt) present there same)
        | false =>
          rw [Space.upTo_pte_absent there, setup.low v (by omega)] at same
          exact (h.backs.owned w (List.mem_range.mpr lw) present).1.ne_zero same
      rw [paste_elsewhere fits eq]
      exact (upd_ne _ _ other).trans (h.backs.byte w (List.mem_range.mpr lw) present)
  · rw [paste_elsewhere fits (by omega)]
    exact h.zero w ge

end Paste

end Espl.Kernel.Vm

namespace Espl.Kernel.Exec

open Machine
open Vm (Space Built paste)

variable {S P R : Type} {T : Terms signature S P}

/-- The inode `ip` of `H` is a file with the bytes `file`, as long as `Good` holds. -/
structure Reads (H : Host S P R) (ip : Nat) (file : List UInt8) (Good : S → Prop) : Prop where
  size : file.length < 2 ^ 32
  readi : ∀ {s : S} (off : Nat) {n : Nat}, n < 2 ^ 32 → Good s → ∃ s',
    H.machine.act (.readi ip off n) s = .returned (readResult file off n) s' ∧ H.mem s' = H.mem s ∧
      H.image (H.rest s') = H.image (H.rest s) ∧ Good s'
  keeps : ∀ {s s' : S}, Good s → H.rest s' = H.rest s → Good s'

theorem readResult_inside {file : List UInt8} {off n : Nat} (le : off + n ≤ file.length)
    (small : file.length < 2 ^ 32) : readResult file off n = ((n : Int), (file.drop off).take n) := by
  unfold readResult
  rw [if_neg (by omega), Nat.min_eq_left (by omega)]

theorem Host.wp_vm_panic {α : Type} (H : Host S P R) {q : Vm.Panic} {s : S} {Q : α → S → Prop} (point : T.point s)
    (fault : ∀ q, T.fault q) : H.machine.wp T (vm (Vm.panic q : V α)) s Q := by
  obtain ⟨q', act⟩ := H.panicked (e := .panic q) (s := s) rfl
  exact wp_panics point act (fault q')

theorem paste_segment (c : Nat → Nat → UInt8) (file : List UInt8) (va : Nat) {off n : Nat}
    (inFile : off + n ≤ file.length) :
    paste (paste c va ((file.drop off).take (min n PGSIZE))) (va + PGSIZE)
      ((file.drop (off + PGSIZE)).take (n - PGSIZE)) =
      paste c va ((file.drop off).take n) := by
  by_cases last : n ≤ PGSIZE
  · rw [Nat.sub_eq_zero_of_le last, List.take_zero, Vm.paste_nil, Nat.min_eq_left last]
  · have len : ((file.drop off).take PGSIZE).length = PGSIZE := by
      rw [List.length_take, List.length_drop]
      omega
    have whole : n = PGSIZE + (n - PGSIZE) := by omega
    have join := Vm.paste_append c va ((file.drop off).take PGSIZE) ((file.drop (off + PGSIZE)).take (n - PGSIZE))
    rw [len, ← List.drop_drop, ← List.take_add, ← whole] at join
    rw [Nat.min_eq_right (by omega), ← List.drop_drop]
    exact join

section Loaduvm

variable {K : Nat → Prop} {d ip sz : Nat} {x₀ : Space} {m₀ : Mem} {l₀ l : Vm.Answers} {file : List UInt8}
    {Good : S → Prop}

theorem wp_loaduvm_loop (H : Host S P R) (point : ∀ s, T.point s) (reads : Reads H ip file Good)
    (setup : x₀.Setup) {addr offset filesz : Nat} (inside : addr + filesz ≤ sz)
    (inFile : offset + filesz ≤ file.length) (k : Nat) {i v : Nat} {c : Nat → Nat → UInt8} {m : Mem} {s : S}
    (place : addr + i = v * PGSIZE) (rounds : k = Vm.pages (filesz - i)) (good : Good s) (mem : H.mem s = (m, l))
    (grown : Built K d x₀ m₀ l₀ sz c (m, l))
    (missing : ∀ u, v ≤ u → u < v + k → (x₀.upTo l₀ sz).space.table (u / 1024) = none → ∀ q, T.fault q)
    {Q : Bool → S → Prop}
    (post : ∀ s' m', Good s' → H.image (H.rest s') = H.image (H.rest s) → H.mem s' = (m', l) →
      Built K d x₀ m₀ l₀ sz (paste c (addr + i) ((file.drop (offset + i)).take (filesz - i))) (m', l) → Q true s') :
    H.machine.wp T (loaduvm.loop d addr ip offset filesz i k) s Q := by
  induction k generalizing i v c m s with
  | zero =>
    have none : filesz - i = 0 := by
      simp only [Vm.pages, PGSIZE] at rounds
      omega
    rw [none, List.take_zero, Vm.paste_nil] at post
    exact post s m good rfl mem grown
  | succ k ih =>
    have top := grown.size
    have bound := Vm.pages_le (Nat.le_of_lt top)
    have more : i < filesz := by
      simp only [Vm.pages, PGSIZE] at rounds
      omega
    have lt : v < Vm.pages sz := Vm.page_lt_iff.mp (by omega)
    have va : (addr + i) % 2 ^ 32 = v * PGSIZE := by
      rw [place, Nat.mod_eq_of_lt]
      simp only [PGSIZE, KERNBASE] at *
      omega
    have from_ : (offset + i) % 2 ^ 32 = offset + i := Nat.mod_eq_of_lt (by have := reads.size; omega)
    unfold loaduvm.loop
    rw [va, from_]
    refine H.wp_vm (F := fun _ => ∀ q, T.fault q) point (fun _ fault => fault) ?_
    rw [mem]
    refine Vm.does_walkpgdir (by omega) grown.maps.holds (fun t table s₁ mem₁ rest₁ => ?_) fun none s₁ mem₁ rest₁ => ?_
    · refine H.wp_vm_sure point ?_
      rw [mem₁]
      refine wp_returns trivial rfl fun s₂ mem₂ rest₂ => ?_
      have entry := grown.maps.holds.entry v (by omega) t table
      have full : offset + i + min (filesz - i) PGSIZE ≤ file.length := by omega
      obtain ⟨s₃, act, mem₃, image₃, good₃⟩ := reads.readi (s := s₂) (offset + i) (n := min (filesz - i) PGSIZE)
        (by have := reads.size; omega) (reads.keeps good (rest₂.trans rest₁))
      rw [readResult_inside full reads.size] at act
      refine wp_returns (point _) act ?_
      refine H.wp_vm_sure point ?_
      rw [mem₃, mem₂]
      refine wp_returns trivial rfl fun s₄ mem₄ rest₄ => ?_
      rw [if_neg (by simp)]
      have short : ((file.drop (offset + i)).take (min (filesz - i) PGSIZE)).length ≤ PGSIZE := by
        rw [List.length_take]
        omega
      have next := grown.store setup lt short
      rw [← entry] at next
      refine ih (by rw [← Nat.add_assoc, place, Nat.succ_mul]) ?_ (reads.keeps good₃ rest₄) mem₄ next
        (fun u lo hi => missing u (by omega) (by omega)) fun s' m' good' image' mem' grown' => ?_
      · simp only [Vm.pages, PGSIZE] at rounds ⊢
        omega
      · have join := paste_segment c file (addr + i) (by omega : offset + i + (filesz - i) ≤ file.length)
        rw [← place, ← Nat.add_assoc, ← Nat.add_assoc, ← Nat.sub_sub, join] at grown'
        exact post s' m' good' (image'.trans (by rw [rest₄, image₃, rest₂, rest₁])) mem' grown'
    · exact H.wp_vm_panic (point _) (missing v Nat.le.refl (by omega) none)

theorem wp_loaduvm (H : Host S P R) (point : ∀ s, T.point s) (reads : Reads H ip file Good)
    (setup : x₀.Setup) {addr offset filesz : Nat} (aligned : addr % PGSIZE = 0)
    (inside : addr + filesz ≤ sz) (inFile : offset + filesz ≤ file.length) {c : Nat → Nat → UInt8} {m : Mem} {s : S}
    (good : Good s) (mem : H.mem s = (m, l)) (built : Built K d x₀ m₀ l₀ sz c (m, l))
    (missing : ∀ u, addr / PGSIZE ≤ u → u < addr / PGSIZE + Vm.pages filesz →
      (x₀.upTo l₀ sz).space.table (u / 1024) = none → ∀ q, T.fault q) {Q : Bool → S → Prop}
    (post : ∀ s' m', Good s' → H.image (H.rest s') = H.image (H.rest s) → H.mem s' = (m', l) →
      Built K d x₀ m₀ l₀ sz (paste c addr ((file.drop offset).take filesz)) (m', l) → Q true s') :
    H.machine.wp T (loaduvm d addr ip offset filesz) s Q := by
  unfold loaduvm
  rw [if_neg (by omega)]
  refine wp_loaduvm_loop H point reads setup inside inFile _ (i := 0) ?_ rfl good mem built missing post
  rw [Nat.add_zero]
  exact (Nat.div_mul_cancel (Nat.dvd_of_mod_eq_zero aligned)).symm

theorem does_walkpgdir_finds (pgdir va : Nat) (s : Mem × Vm.Answers) :
    Vm.Does (fun _ => False) (Vm.walkpgdir pgdir va false) s fun _ t => t = s := by
  unfold Vm.walkpgdir
  refine Vm.does_step rfl ?_
  split
  · rfl
  · rfl

theorem wp_loaduvm_lax (H : Host S P R) (addr offset filesz : Nat) {m : Mem} {s : S} (mem : H.mem s = (m, l)) :
    H.machine.wp lax (loaduvm d addr ip offset filesz) s fun _ s' =>
      H.image (H.rest s') = H.image (H.rest s) ∧ ∃ m', H.mem s' = (m', l) ∧ Vm.SameTables m m' := by
  have panics : ∀ (q : Vm.Panic) (s' : S) {Q : Bool → S → Prop}, H.machine.wp lax (vm (Vm.panic q)) s' Q :=
    fun q s' Q => H.wp_vm_panic trivial fun _ => trivial
  unfold loaduvm
  split
  · exact panics _ s
  generalize (filesz + PGSIZE - 1) / PGSIZE = k
  generalize 0 = i
  induction k generalizing i m s with
  | zero => exact ⟨rfl, m, mem, Vm.SameTables.refl m⟩
  | succ k ih =>
    unfold loaduvm.loop
    refine H.wp_vm_sure (fun _ => trivial) ?_
    rw [mem]
    refine Vm.does_mono (does_walkpgdir_finds _ _ _) fun r t same s₁ mem₁ rest₁ => ?_
    subst same
    cases r with
    | none => exact panics _ s₁
    | some found =>
      obtain ⟨pgtab, j⟩ := found
      refine H.wp_vm_sure (fun _ => trivial) ?_
      rw [mem₁]
      refine wp_returns trivial rfl fun s₂ mem₂ rest₂ => ?_
      refine H.wp_files rfl fun a s₃ _ mem₃ image₃ => ?_
      obtain ⟨r, bs⟩ := a
      refine H.wp_vm_sure (fun _ => trivial) ?_
      rw [mem₃, mem₂]
      refine wp_returns trivial rfl fun s₄ mem₄ rest₄ => ?_
      have image : H.image (H.rest s₄) = H.image (H.rest s) := by rw [rest₄, image₃, rest₂, rest₁]
      have same := Vm.sameTables_withPage m (m.entry pgtab j).page (Vm.overlay (m.byte (m.entry pgtab j).page) 0 bs)
      split
      · exact ⟨image, _, mem₄, same⟩
      · refine wp_mono (ih mem₄ _) fun _ s' post => ?_
        obtain ⟨image', m', mem', same'⟩ := post
        exact ⟨image'.trans image, m', mem', same.trans same'⟩

end Loaduvm

section Load

variable {K : Nat → Prop} {d ip phoff phnum : Nat} {x₀ : Space} {m₀ : Mem} {l₀ : Vm.Answers}

/-- The end of the segment that `ph` describes, as `exec` computes it. -/
abbrev stop (ph : Proghdr) : Nat := (ph.vaddr + ph.memsz) % 2 ^ 32

def headerAt (phoff : Nat) : Nat → Nat
  | 0 => phoff
  | i + 1 => (headerAt phoff i + PHSIZE) % 2 ^ 32

/-- What the loop over the program headers relies on: the replies `Reply` to its reads while `Good`
holds, and for each header, read as the reply `a`, what it does to the size and the contents `J`. -/
structure Follows (H : Host S P R) (K : Nat → Prop) (d ip phoff phnum : Nat) (x₀ : Space) (m₀ : Mem) (l₀ : Vm.Answers)
    (Good : S → Prop) (Reply : Nat → Int × List UInt8 → Prop) (J : Nat → Nat → (Nat → Nat → UInt8) → Prop) : Prop where
  read : ∀ {s : S} (off : Nat), Good s → H.machine.wp lax (readi ip off PHSIZE) s fun a s' =>
    H.mem s' = H.mem s ∧ H.image (H.rest s') = H.image (H.rest s) ∧ Good s' ∧ Reply off a
  keeps : ∀ {s s' : S}, Good s → H.rest s' = H.rest s → Good s'
  skip : ∀ {i sz c a}, i < phnum → J i sz c → Reply (headerAt phoff i) a → a.1 = PHSIZE →
    (Proghdr.ofBytes a.2).type ≠ ELF_PROG_LOAD → J (i + 1) sz c
  segment : ∀ {i sz c a ph s m l}, i < phnum → ph = Proghdr.ofBytes a.2 → J i sz c → Reply (headerAt phoff i) a →
    a.1 = PHSIZE → ph.type = ELF_PROG_LOAD → ph.filesz ≤ ph.memsz → Good s → H.mem s = (m, l) →
    Built K d x₀ m₀ l₀ (max sz (stop ph)) c (m, l) →
    H.machine.wp lax (loaduvm d ph.vaddr ip ph.off ph.filesz) s fun ok s' => ok = true → Good s' ∧
      H.image (H.rest s') = H.image (H.rest s) ∧ ∃ m' c', H.mem s' = (m', l) ∧
        Built K d x₀ m₀ l₀ (max sz (stop ph)) c' (m', l) ∧ J (i + 1) (max sz (stop ph)) c'

theorem follows_any (H : Host S P R) :
    Follows H K d ip phoff phnum x₀ m₀ l₀ (fun _ => True) (fun _ _ => True) (fun _ _ _ => True) where
  read off _ := H.wp_files (e := .readi ip off PHSIZE) (f := Program.done) rfl fun _ _ _ mem image =>
    ⟨mem, image, trivial, trivial⟩
  keeps _ _ := trivial
  skip _ _ _ _ _ := trivial
  segment _ _ _ _ _ _ _ _ mem built := wp_mono (wp_loaduvm_lax H _ _ _ mem) fun _ _ post _ => by
    obtain ⟨image, m', mem', same⟩ := post
    obtain ⟨c', built'⟩ := built.any_bytes same
    exact ⟨trivial, image, m', c', mem', built', trivial⟩

theorem wp_load (H : Host S P R) {Good : S → Prop} {Reply : Nat → Int × List UInt8 → Prop}
    {J : Nat → Nat → (Nat → Nat → UInt8) → Prop} (follows : Follows H K d ip phoff phnum x₀ m₀ l₀ Good Reply J)
    (setup : x₀.Setup) (k : Nat) {i off sz : Nat} {c : Nat → Nat → UInt8}
    {t : Mem × Vm.Answers} {s : S}
    (bound : i + k ≤ phnum) (place : off = headerAt phoff i) (good : Good s) (mem : H.mem s = t)
    (built : Built K d x₀ m₀ l₀ sz c t) (so_far : J i sz c) {Q : Option Nat → S → Prop} (failed : ∀ s', Q none s')
    (post : ∀ s' sz' c' t', H.image (H.rest s') = H.image (H.rest s) → H.mem s' = t' →
      Built K d x₀ m₀ l₀ sz' c' t' → J (i + k) sz' c' → Q (some sz') s') :
    H.machine.wp lax (load d ip sz off k) s Q := by
  induction k generalizing i off sz c t s with
  | zero => exact post s sz c t rfl mem built so_far
  | succ k ih =>
    have next : (off + PHSIZE) % 2 ^ 32 = headerAt phoff (i + 1) := by
      rw [place, headerAt]
    have count : i + (k + 1) = i + 1 + k := by omega
    rw [count] at post
    unfold load
    refine wp_seq (follows.read off good) fun a s₁ read => ?_
    obtain ⟨mem₁, image₁, good₁, reply⟩ := read
    obtain ⟨r, bs⟩ := a
    rw [place] at reply
    simp only
    split
    · exact failed s₁
    rename_i whole
    have whole : r = PHSIZE := by omega
    split
    · rename_i other
      refine ih (by omega) next good₁ (mem₁.trans mem) built (follows.skip (by omega) so_far reply whole other)
        fun s' sz' c' t' image => ?_
      exact post s' sz' c' t' (image.trans image₁)
    rename_i seg
    split
    · exact failed s₁
    rename_i le
    refine H.wp_vm_sure (fun _ => trivial) ?_
    rw [mem₁, mem]
    obtain ⟨m, l⟩ := t
    refine built.does_allocuvm setup (fun t₂ built₂ s₂ mem₂ rest₂ => ?_) fun _ t₂ s₂ _ _ => ?_
    · split
      · exact failed s₂
      · obtain ⟨m₂, l₂⟩ := t₂
        refine wp_seq (follows.segment (by omega) rfl so_far reply whole (by omega) (by omega)
          (follows.keeps good₁ rest₂) mem₂ built₂)
          fun ok s₃ loaded => ?_
        cases ok with
        | false => exact failed s₃
        | true =>
          obtain ⟨good₃, image₃, m₃, c₃, mem₃, built₃, so_far₃⟩ := loaded rfl
          refine ih (by omega) next good₃ mem₃ built₃ so_far₃ fun s' sz' c' t' image => ?_
          exact post s' sz' c' t' (image.trans (by rw [image₃, rest₂, image₁]))
    · rw [if_pos rfl]
      exact failed s₂

end Load

theorem Old.moved {old sz : Nat} {x : Space} {m m' : Mem} {l l' : Vm.Answers} (h : Old old sz x m l)
    (link : m'.link = m.link) (entry : ∀ page, x.Occupies old sz page → m'.entry page = m.entry page)
    (fresh : Vm.Fresh (x.Occupies old sz) m'.link l') : Old old sz x m' l' := by
  have maps := h.image.maps
  have spare : Vm.Spare (x.Uses sz) old x m'.link l' := ⟨{ fresh with
    kept := fun page mem uses => fresh.kept page mem (Or.inr (Or.inr uses)) }, fun page mem =>
      ⟨fun eq => fresh.kept page mem (Or.inl eq), fun i lt some => fresh.kept page mem (Or.inr (Or.inl ⟨i, lt, some⟩))⟩⟩
  have holds : Vm.Holds m' old x := maps.holds.congr (entry old (Or.inl rfl)) fun i lt t some =>
    entry t (Or.inr (Or.inl ⟨i, lt, some⟩))
  refine ⟨⟨⟨holds, spare, maps.apart⟩, h.image.size, h.image.present, fun v lt => ?_, h.image.inj⟩, ?_,
    fun i lt t some => ?_⟩
  · change Vm.Frame m'.link _
    rw [link]
    exact h.image.frame v lt
  · rw [link]
    exact h.dir
  · rw [link]
    exact h.tables i lt t some

section Exec

variable {old sz₀ : Nat} {x₀ : Space} {m : Mem} {l : Vm.Answers} {s : S} {elf : Elfhdr} {path : List UInt8}
    {argv : List (List UInt8)}

abbrev headerOf (elf : Elfhdr) (a : Int × List UInt8) : Elfhdr := if a.1 < 0 then elf else Elfhdr.ofBytes a.2

theorem wp_bad (H : Host S P R) (pgdir ip : Option Nat) {Q : Int → S → Prop} (failed : ∀ s', Q (-1) s') (s' : S) :
    H.machine.wp lax (bad pgdir ip) s' Q := by
  have unlock : ∀ s₁, H.machine.wp lax (bad none ip) s₁ Q := by
    intro s₁
    cases ip with
    | none => exact failed s₁
    | some ip => exact wp_seq (wp_lax H (step (.iunlockput ip)) s₁) fun _ s₂ _ => failed s₂
  cases pgdir with
  | none => exact unlock s'
  | some pgdir => exact wp_seq (wp_lax H (vm (Vm.freevm pgdir)) s') fun _ s₁ _ => unlock s₁

theorem wp_exec_open (H : Host S P R) (h : Old old sz₀ x₀ m l) (mem : H.mem s = (m, l)) {G : Nat → Elfhdr → S → Prop}
    (opens : ∀ {ip s₁ s₂ s₃ a}, H.machine.act (.namei path) s = .returned (some ip) s₁ →
      H.machine.act (.ilock ip) s₁ = .returned () s₂ → H.machine.act (.readi ip 0 ELFSIZE) s₂ = .returned a s₃ →
      ¬ (0 ≤ a.1 ∧ a.1 < ELFSIZE) → G ip (headerOf elf a) s₃)
    {Q : Int → S → Prop} (failed : ∀ s', Q (-1) s')
    (load : ∀ ip elf' s₃ s' d y t, G ip elf' s₃ → H.rest s' = H.rest s₃ → H.image (H.rest s') = H.image (H.rest s) →
      H.mem s' = t → Vm.answering.run Vm.setupkvm (m, l) = .returned (some d) t → y.Setup →
      Vm.Maps (x₀.Occupies old sz₀) d y t → Vm.Kept (x₀.Occupies old sz₀) m t.1 →
      H.machine.wp lax (do
        match ← load d ip 0 elf'.phoff elf'.phnum with
        | none => bad (some d) (some ip)
        | some sz => do
          step (.iunlockput ip)
          finish path argv elf' d sz) s' Q) :
    H.machine.wp lax (exec elf path argv) s Q := by
  unfold exec
  refine H.wp_files rfl fun r s₁ act₁ mem₁ image₁ => ?_
  cases r with
  | none => exact failed s₁
  | some ip =>
    refine H.wp_files rfl fun _ s₂ act₂ mem₂ image₂ => ?_
    refine H.wp_files rfl fun a s₃ act₃ mem₃ image₃ => ?_
    obtain ⟨r, bs⟩ := a
    simp only
    split
    · exact wp_bad H _ _ failed _
    · rename_i read
      have good := opens act₁ act₂ act₃ read
      simp only [headerOf] at good
      generalize (if r < 0 then elf else Elfhdr.ofBytes bs) = elf' at good
      split
      · exact wp_bad H _ _ failed _
      · refine H.wp_vm_sure (fun _ => trivial) ?_
        rw [mem₃, mem₂, mem₁, mem]
        refine Vm.does_mono (wp_self (Vm.does_setupkvm h.image.fresh
          (Q := fun r t => ∀ d, r = some d → ∃ y, y.Setup ∧
            Vm.Maps (x₀.Occupies old sz₀) d y t ∧ Vm.Kept (x₀.Occupies old sz₀) m t.1)
              (fun d y rest m' _ setup maps kept _ d' eq => ?_) fun _ _ d none => ?_))
          fun r t made s' mem' rest' => ?_
        · cases eq
          exact ⟨y, setup, maps, kept⟩
        · cases none
        · cases r with
          | none => exact wp_bad H _ _ failed _
          | some d =>
            obtain ⟨y, setup, maps, kept⟩ := made.2 d rfl
            exact load ip elf' s₃ s' d y t good rest' (by rw [rest', image₃, image₂, image₁]) mem' made.1 setup
              maps kept

-- Otherwise a goal about `finish` would be evaluated as far as its first comparison of addresses.
attribute [local irreducible] finish

/-- What `exec` has done when it returns 0: the program headers have been followed as `J` says, the
pages have the contents `c`, and the arguments are on the stack. -/
structure Executed (H : Host S P R) (m : Mem) (l : Vm.Answers) (argv : List (List UInt8))
    (J : Nat → Nat → (Nat → Nat → UInt8) → Prop) (phnum : Nat) (s' : S) (d sz esp : Nat) (y z : Space)
    (c : Nat → Nat → UInt8) (l₁ : Vm.Answers) (ptrs : List Nat) : Prop where
  setup : ∃ m₁, Vm.answering.run Vm.setupkvm (m, l) = .returned (some d) (m₁, l₁) ∧ Vm.Holds m₁ d y
  image : H.image (H.rest s') = (d, (Vm.pages sz + 2) * PGSIZE, esp)
  holds : Vm.Holds (H.mem s').1 d z
  followed : J phnum sz c
  size : sz < KERNBASE
  fine : (y.upTo l₁ sz).out = false
  pte : ∀ v < Vm.pages sz, z.pte v = (y.upTo l₁ sz).space.pte v
  user : ∀ v < Vm.pages sz, (z.pte v).present = true → (z.pte v).user = true
  byte : ∀ v < Vm.pages sz, (z.pte v).present = true → (H.mem s').1.byte (z.pte v).page = c v
  passed : Passed (H.mem s').1 z ((Vm.pages sz + 2) * PGSIZE) esp argv ptrs
  fits : Fits argv

theorem wp_exec (H : Host S P R) (h : Old old sz₀ x₀ m l) (mem : H.mem s = (m, l))
    (image : (H.image (H.rest s)).1 = old) (few : argv.length ≤ MAXARG) {G : Nat → Elfhdr → S → Prop}
    (opens : ∀ {ip s₁ s₂ s₃ a}, H.machine.act (.namei path) s = .returned (some ip) s₁ →
      H.machine.act (.ilock ip) s₁ = .returned () s₂ → H.machine.act (.readi ip 0 ELFSIZE) s₂ = .returned a s₃ →
      ¬ (0 ≤ a.1 ∧ a.1 < ELFSIZE) → G ip (headerOf elf a) s₃)
    {Reply : Nat → Int × List UInt8 → Prop} {J : Elfhdr → Nat → Nat → (Nat → Nat → UInt8) → Prop}
    (follows : ∀ {ip elf' d y m₁ l₁}, y.Setup →
      Follows H (x₀.Occupies old sz₀) d ip elf'.phoff elf'.phnum y m₁ l₁ (G ip elf') Reply (J elf'))
    (start : ∀ {ip elf' s'}, G ip elf' s' → J elf' 0 0 fun _ _ => 0) {Q : Int → S → Prop} (failed : ∀ s', Q (-1) s')
    (done : ∀ elf' s' d sz esp y z c l₁ ptrs, y.Setup →
      Executed H m l argv (J elf') elf'.phnum s' d sz esp y z c l₁ ptrs → Q 0 s') :
    H.machine.wp lax (exec elf path argv) s Q := by
  refine wp_exec_open H h mem opens failed fun ip elf' s₃ s₄ d y t good rest₄ image₄ mem₄ run setup maps kept => ?_
  obtain ⟨m₁, l₁⟩ := t
  have follows : Follows H (x₀.Occupies old sz₀) d ip elf'.phoff elf'.phnum y m₁ l₁ (G ip elf') Reply
    (J elf') := follows setup
  refine wp_then (wp_load H follows setup _ (Nat.zero_add _).le rfl (follows.keeps good rest₄) mem₄
    (Vm.built_start maps) (start good)
    (fun s' => wp_bad H _ _ failed s') fun s₅ sz c t' image₅ mem₅ built followed => ?_)
  rw [Nat.zero_add] at followed
  refine H.wp_files rfl fun _ s₆ _ mem₆ image₆ => ?_
  obtain ⟨m₂, l₂⟩ := t'
  have rest := built.rest
  change l₂ = _ at rest
  have old₂ : Old old sz₀ x₀ m₂ l₂ := h.moved (built.link.trans kept.link)
    (fun page o => (built.entry page o).trans (kept.entry page o))
    { built.maps.spare.toFresh with kept := fun page mem o => built.maps.spare.kept page mem (Or.inl o) }
  refine wp_finish H (fun _ => trivial) old₂ (fun page o => Or.inl o) built.maps (Nat.le_of_lt built.size) rfl
    (fun v ge lt => Vm.Space.upTo_absent setup ge lt) (mem₆.trans mem₅) (by rw [image₆, image₅, image₄, image]) few
    (fun z m' l' s' esp ptrs mem' image' holds pte byte passed fits => ?_) fun _ => ⟨fun _ => trivial, failed⟩
  have same : ∀ v < Vm.pages sz, z.pte v = (y.upTo l₁ sz).space.pte v := fun v lt => pte v (by omega) (by omega)
  have m'_eq : (H.mem s').1 = m' := by rw [mem']
  refine done elf' s' d sz esp y z c l₁ ptrs setup ⟨⟨m₁, run, maps.holds⟩, image', m'_eq ▸ holds, followed,
    built.size, built.fine, same, fun v lt present => ?_, fun v lt present => ?_, m'_eq ▸ passed, fits⟩
  · rw [same v lt] at present ⊢
    exact built.backs.user v (List.mem_range.mpr lt) present
  · rw [m'_eq]
    rw [same v lt] at present ⊢
    have free := (built.backs.owned v (List.mem_range.mpr lt) present).2.2
    rw [byte _ (Or.inr ⟨v, List.mem_range.mpr lt, present, rfl⟩) free]
    exact built.backs.byte v (List.mem_range.mpr lt) present

end Exec

end Espl.Kernel.Exec
