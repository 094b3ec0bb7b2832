import Espl.Kernel.Uvm

/-!
# What `deallocuvm` leaves mapped

The loop goes from page to page, but at a missing page table it goes 1024 pages on. If it met the gap
in the middle of a table it comes out in the middle of a later one.
-/

namespace Espl.Kernel.Vm

variable {d : Nat} {x : Space} {m m' : Mem} {l l' : Answers}

theorem Space.sweep_nodup (top v fuel : Nat) : (x.sweep top v fuel).Nodup := by
  induction fuel generalizing v with
  | zero => exact List.nodup_nil
  | succ fuel ih =>
    unfold Space.sweep
    split
    · split
      · exact ih _
      · refine List.nodup_cons.mpr ⟨fun mem => ?_, ih _⟩
        have := Space.sweep_bounds mem
        omega
    · exact List.nodup_nil

theorem Space.mem_given {vs : List Nat} {page : Nat} :
    page ∈ x.given vs ↔ ∃ v ∈ vs, (x.pte v).present = true ∧ (x.pte v).page = page := by
  simp only [Space.given, List.mem_reverse, List.mem_map, List.mem_filter, and_assoc]

theorem Space.given_nodup {vs : List Nat} (nodup : vs.Nodup)
    (once : ∀ v ∈ vs, ∀ w ∈ vs, (x.pte v).present = true → (x.pte w).present = true →
      (x.pte v).page = (x.pte w).page → v = w) :
    (x.given vs).Nodup := by
  refine List.nodup_reverse.mpr ((nodup.filter _).map_on fun v hv w hw same => ?_)
  obtain ⟨mem_v, present_v⟩ := List.mem_filter.mp hv
  obtain ⟨mem_w, present_w⟩ := List.mem_filter.mp hw
  exact once v mem_v w mem_w present_v present_w same

/-- The range from `newsz` to `oldsz` of `x` is empty in `y`, with its pages and no others given to
`kfree`, and the rest of `x` is still there. -/
structure Emptied (x y : Space) (given : List Nat) (newsz oldsz : Nat) : Prop where
  absent : ∀ v ∈ newPages newsz oldsz, (y.pte v).present = false
  once : ∀ v ∈ newPages newsz oldsz, (x.pte v).present = true → given.count (x.pte v).page = 1
  only : ∀ page ∈ given, ∃ v ∈ newPages newsz oldsz, (x.pte v).present = true ∧ (x.pte v).page = page
  table : y.table = x.table
  others : ∀ v, v ∉ newPages newsz oldsz → y.pte v = x.pte v

theorem Holds.table_of_present (h : Holds m d x) {v : Nat} (lt : v < 2 ^ 20) (present : (x.pte v).present = true) :
    x.table (v / 1024) ≠ none := by
  intro missing
  rw [h.zero v lt missing] at present
  cases present

section Run

variable {α : Type} {p : V α} {a : α}

theorem run_of_answering (never : p.All fun e => e ≠ Step.kalloc)
    (run : answering.run p (m, l) = .returned a (m', l')) : machine.run p m = .returned a m' := by
  induction p generalizing m l with
  | done =>
    cases run
    rfl
  | step e next ih =>
    obtain ⟨other, never⟩ := never
    unfold Machine.run at run ⊢
    dsimp only [machine] at run ⊢
    cases done : act e m with
    | returned r t =>
      have same : answer e (m, l) = .returned r (t, l) := by
        cases e with
        | kalloc => exact absurd rfl other
        | _ => simp only [answer, done]
      rw [same] at run
      exact ih r (never r) run
    | panicked q =>
      have same : answer e (m, l) = .panicked q := by
        cases e with
        | kalloc => exact absurd rfl other
        | _ => simp only [answer, done]
      rw [same] at run
      cases run
    | waiting =>
      have same : answer e (m, l) = .waiting := by
        cases e with
        | kalloc => exact absurd rfl other
        | _ => simp only [answer, done]
      rw [same] at run
      cases run

theorem walkpgdir_never (pgdir va : Nat) : (walkpgdir pgdir va false).All fun e => e ≠ Step.kalloc := by
  unfold walkpgdir
  refine Program.all_step (by simp) fun pde => ?_
  split
  · trivial
  · rw [if_pos rfl]
    trivial

theorem deallocuvm_loop_never (pgdir oldsz : Nat) (fuel a : Nat) :
    (deallocuvm.loop pgdir oldsz a fuel).All fun e => e ≠ Step.kalloc := by
  induction fuel generalizing a with
  | zero => trivial
  | succ fuel ih =>
    unfold deallocuvm.loop
    refine Program.all_ite (fun _ => ?_) fun _ => trivial
    refine Program.all_bind (walkpgdir_never pgdir a) fun found => ?_
    cases found with
    | none => exact ih _
    | some place =>
      refine Program.all_step (by simp) fun pte => ?_
      refine Program.all_ite (fun _ => Program.all_ite (fun _ => ?_) fun _ => ?_) fun _ => ih _
      · exact ⟨by simp, fun r => r.elim⟩
      · exact ⟨by simp, fun _ => ⟨by simp, fun _ => ih _⟩⟩

theorem deallocuvm_never (pgdir oldsz newsz : Nat) : (deallocuvm pgdir oldsz newsz).All fun e => e ≠ Step.kalloc := by
  unfold deallocuvm
  exact Program.all_ite (fun _ => trivial) fun _ => Program.all_bind (deallocuvm_loop_never _ _ _ _) fun _ => trivial

end Run

variable {oldsz newsz : Nat}

theorem run_deallocuvm (h : Holds m d x) (lt : newsz < oldsz) (le : oldsz ≤ KERNBASE)
    (own : ∀ v < 2 ^ 19, x.Owned (fun _ => False) d m.link v) {vs : List Nat}
    (swept : x.sweep (pages oldsz) (pages newsz) (pages oldsz) = vs) :
    ∃ m', machine.run (deallocuvm d oldsz newsz) m = .returned newsz m' ∧ Holds m' d (x.clear vs) ∧
      m'.freelist = x.given vs ++ m.freelist := by
  have top := pages_le le
  have maps : Maps (fun _ => False) d x (m, []) :=
    ⟨h, ⟨⟨List.Pairwise.nil, fun _ mem => absurd mem List.not_mem_nil, fun _ mem => absurd mem List.not_mem_nil⟩,
      fun _ mem => absurd mem List.not_mem_nil⟩, fun _ never => never.elim⟩
  obtain ⟨r, ⟨m', rest⟩, run, rfl, holds, list⟩ := Machine.wp_returned
    (Q := fun r s => r = newsz ∧ Holds s.1 d (x.clear vs) ∧ s.1.freelist = x.given vs ++ m.freelist)
    (does_deallocuvm lt le maps (fun w _ hi => own w (by omega)) fun m' maps _ list =>
      ⟨rfl, swept ▸ maps.holds, swept ▸ list⟩)
  exact ⟨m', run_of_answering (deallocuvm_never _ _ _) run, holds, list⟩

/-- `deallocuvm` returns, and has emptied the range exactly when its loop reached each page there. -/
theorem deallocuvm_empties (h : Holds m d x) (lt : newsz < oldsz) (le : oldsz ≤ KERNBASE)
    (own : ∀ v < 2 ^ 19, x.Owned (fun _ => False) d m.link v)
    (once : ∀ v < 2 ^ 19, ∀ w < 2 ^ 19, (x.pte v).present = true → (x.pte w).present = true →
      (x.pte v).page = (x.pte w).page → v = w) :
    ∃ m' y given, machine.run (deallocuvm d oldsz newsz) m = .returned newsz m' ∧ Holds m' d y ∧
      m'.freelist = given ++ m.freelist ∧
      (Emptied x y given newsz oldsz ↔
        ∀ w ∈ newPages newsz oldsz, (x.pte w).present = true → x.Reached (pages newsz) w) := by
  have top := pages_le le
  generalize swept : x.sweep (pages oldsz) (pages newsz) (pages oldsz) = vs
  obtain ⟨m', run, holds, list⟩ := run_deallocuvm h lt le own swept
  have mem_iff : ∀ w, (x.pte w).present = true → (w ∈ vs ↔ w ∈ newPages newsz oldsz ∧ x.Reached (pages newsz) w) := by
    intro w present
    rw [← swept, Space.mem_sweep_iff (by omega), mem_newPages]
    constructor
    · exact fun ⟨lo, hi, _, reached⟩ => ⟨⟨lo, hi⟩, reached⟩
    · exact fun ⟨⟨lo, hi⟩, reached⟩ => ⟨lo, hi, h.table_of_present (by omega) present, reached⟩
  refine ⟨m', _, _, run, holds, list, fun emptied w mem present => ?_, fun reached => ?_⟩
  · by_contra missed
    have still : ((x.clear vs).pte w).present = true :=
      Space.clear_present.mpr ⟨present, fun looked => missed ((mem_iff w present).mp looked).2⟩
    rw [emptied.absent w mem] at still
    cases still
  · have inside : ∀ v ∈ vs, v ∈ newPages newsz oldsz := fun v mem => mem_newPages.mpr (Space.sweep_bounds (swept ▸ mem))
    have small : ∀ v ∈ vs, v < 2 ^ 19 := fun v mem => by have := mem_newPages.mp (inside v mem); omega
    refine ⟨fun v mem => ?_, fun v mem present => ?_, fun page mem => ?_, rfl, fun v out => ?_⟩
    · by_contra there
      obtain ⟨present, missed⟩ := Space.clear_present.mp (by simpa using there)
      exact missed ((mem_iff v present).mpr ⟨mem, reached v mem present⟩)
    · have nodup : (x.given vs).Nodup := Space.given_nodup (swept ▸ Space.sweep_nodup _ _ _) fun u hu w hw =>
        once u (small u hu) w (small w hw)
      exact List.count_eq_one_of_mem nodup
        (Space.mem_given.mpr ⟨v, (mem_iff v present).mpr ⟨mem, reached v mem present⟩, present, rfl⟩)
    · obtain ⟨v, mem, present, same⟩ := Space.mem_given.mp mem
      exact ⟨v, inside v mem, present, same⟩
    · exact Space.clear_not_mem fun mem => out (inside v mem)

/-- Memory with one page mapped, at the beginning of the second page table, and no first page table. -/
def Mem.second : Mem where
  link := Mem.bare.link
  freelist := []
  entry := upd (upd Mem.bare.entry 0x300 (upd (Mem.bare.entry 0x300) 1 ⟨0x301, true, true, true⟩)) 0x301
    (upd (Mem.bare.entry 0x301) 0 ⟨0x302, true, true, true⟩)
  byte := Mem.bare.byte

def Space.second : Space := (Space.empty.grow 1 0x301).set 1024 ⟨0x302, true, true, true⟩

theorem holds_second : Holds Mem.second 0x300 Space.second := by
  have apart : Space.empty.Apart 0x300 0x301 := ⟨by decide, fun _ _ => by simp [Space.empty]⟩
  have other : 0x301 ≠ 0x300 := by decide
  have grown : ∀ dir, dir = upd (Mem.bare.entry 0x300) 1 ⟨0x301, true, true, true⟩ →
      Holds ⟨Mem.bare.link, [], upd Mem.bare.entry 0x300 dir, Mem.bare.byte⟩ 0x300 (Space.empty.grow 1 0x301) := by
    intro dir eq
    exact (holds_bare 0x300).grow (by decide) rfl apart rfl rfl ((upd_same Mem.bare.entry 0x300 dir).trans eq)
      (upd_ne Mem.bare.entry dir other) fun p ne _ => upd_ne Mem.bare.entry dir ne
  exact (grown _ rfl).set (by decide) rfl rfl

theorem second_present {v : Nat} (present : (Space.second.pte v).present = true) : v = 1024 := by
  by_contra ne
  rw [Space.second, Space.set_pte_ne _ _ ne] at present
  cases present

theorem owned_second (v : Nat) : Space.second.Owned (fun _ => False) 0x300 Mem.second.link v := by
  intro present
  obtain rfl := second_present present
  have page : (Space.second.pte 1024).page = 0x302 := congrArg Pte.page (Space.set_pte_same _ _ _)
  rw [page]
  refine ⟨⟨by decide, by decide⟩, ⟨by decide, fun i _ => ?_⟩, not_false⟩
  simp only [Space.second, Space.set_table, Space.grow, upd]
  split <;> simp [Space.empty]

theorem deallocuvm_empties_second : ∃ m' y given,
    machine.run (deallocuvm 0x300 (1025 * PGSIZE) 1) Mem.second = .returned 1 m' ∧ Holds m' 0x300 y ∧
      m'.freelist = given ++ [] ∧
      (Emptied Space.second y given 1 (1025 * PGSIZE) ↔
        ∀ w ∈ newPages 1 (1025 * PGSIZE), (Space.second.pte w).present = true → Space.second.Reached (pages 1) w) :=
  deallocuvm_empties holds_second (by decide) (by decide) (fun v _ => owned_second v)
    fun v _ w _ pv pw _ => (second_present pv).trans (second_present pw).symm

theorem sweep_second : Space.second.sweep (pages (1025 * PGSIZE)) (pages 1) (pages (1025 * PGSIZE)) = [] := by
  have last : pages (1025 * PGSIZE) = 1025 := by decide
  have first : pages 1 = 1 := by decide
  rw [last, first]
  rfl

/-- From page 1 on, where there is no page table, the loop goes to page 1025. -/
theorem deallocuvm_skips : ∃ m', machine.run (deallocuvm 0x300 (1025 * PGSIZE) 1) Mem.second = .returned 1 m' ∧
    ∀ y given, Holds m' 0x300 y → ¬ Emptied Space.second y given 1 (1025 * PGSIZE) := by
  obtain ⟨m', run, holds, _⟩ :=
    run_deallocuvm holds_second (by decide) (by decide) (fun v _ => owned_second v) sweep_second
  refine ⟨m', run, fun y given found emptied => ?_⟩
  have still : (y.pte 1024).present = true := by
    rw [Space.clear_nil] at holds
    rw [found.pte_eq (by decide), ← holds.pte_eq (by decide)]
    exact congrArg Pte.present (Space.set_pte_same _ _ _)
  have range : 1024 ∈ newPages 1 (1025 * PGSIZE) := by
    rw [mem_newPages]
    decide
  rw [emptied.absent 1024 range] at still
  cases still

end Espl.Kernel.Vm
