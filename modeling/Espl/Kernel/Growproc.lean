import Espl.Kernel.Proc
import Espl.Kernel.Uvm

/-!
# `growproc`

`sbrk` adds to or takes from the end of a process. The kernel runs with an allocator that may fail at
any call.
-/

namespace Espl.Kernel

/-- The effect of each step, with an allocator that answers as told. -/
def answer : (e : Step) → State × Vm.Answers → Outcome (State × Vm.Answers) Panic (Answer e)
  | .mem e, (s, l) =>
    match Vm.answer e (s.mem, l) with
    | .returned r (m, rest) => .returned r ({ s with mem := m }, rest)
    | .panicked p => .panicked (.vm p)
    | .waiting => .waiting
  | e, (s, l) =>
    match act e s with
    | .returned r s' => .returned r (s', l)
    | .panicked p => .panicked p
    | .waiting => .waiting

abbrev answering : Machine signature (State × Vm.Answers) Panic := ⟨answer⟩

/-- Every run of the kernel is one with such an allocator. -/
theorem exists_answers {α : Type} (p : K α) {s s' : State} {a : α} (run : machine.run p s = .returned a s') :
    ∃ l, answering.run p (s, l) = .returned a (s', []) := by
  induction p generalizing s with
  | done =>
    cases run
    exact ⟨[], rfl⟩
  | step e next ih =>
    unfold Machine.run at run ⊢
    cases done : machine.act e s with
    | panicked | waiting => rw [done] at run; cases run
    | returned r s₁ =>
      rw [done] at run
      obtain ⟨l, rest⟩ := ih r run
      suffices ∃ before, answer e (s, before) = .returned r (s₁, l) by
        obtain ⟨before, first⟩ := this
        exact ⟨before, by simp only [first, rest]⟩
      change act e s = .returned r s₁ at done
      cases e with
      | mem e =>
        simp only [act] at done
        cases inner : Vm.act e s.mem with
        | panicked | waiting => rw [inner] at done; cases done
        | returned r' m =>
          rw [inner] at done
          cases done
          obtain ⟨before, first⟩ := Vm.exists_answer inner l
          exact ⟨before, by simp only [answer, first]⟩
      | _ => exact ⟨l, by simp only [answer, done]⟩

variable {F : Panic → Prop} {α : Type}

theorem wp_vm {p : V α} {s : State} {l : Vm.Answers} {Q : α → State × Vm.Answers → Prop}
    (h : Vm.Does (fun v => F (.vm v)) p (s.mem, l) fun a t => Q a ({ s with mem := t.1 }, t.2)) :
    answering.wp (Machine.strict (fun _ => True) F) (vm p) (s, l) Q := by
  induction p generalizing s l with
  | done => exact h
  | step e next ih =>
    have h := h.2 trivial
    cases first : Vm.answering.act e (s.mem, l) with
    | returned r t =>
      rw [first] at h
      have same : answer (.mem e) (s, l) = .returned r ({ s with mem := t.1 }, t.2) := by
        change Vm.answer e (s.mem, l) = _ at first
        simp only [answer, first]
      exact Machine.wp_returns trivial same (ih r h)
    | panicked v =>
      rw [first] at h
      have same : answer (.mem e) (s, l) = .panicked (.vm v) := by
        change Vm.answer e (s.mem, l) = _ at first
        simp only [answer, first]
      exact Machine.wp_panics trivial same h
    | waiting =>
      rw [first] at h
      exact h.elim

namespace Vm

def Space.Uses (x : Space) (sz page : Nat) : Prop := ∃ v < pages sz, (x.pte v).page = page

/-- The memory of a process: the user pages that are mapped are those below `sz`, each a page of its
own that `kalloc` will not hand out. -/
structure Image (d : Nat) (x : Space) (sz : Nat) (s : Mem × Answers) : Prop where
  maps : Maps (x.Uses sz) d x s
  size : sz ≤ KERNBASE
  present : ∀ v < 2 ^ 19, (x.pte v).present = true ↔ v < pages sz
  frame : ∀ v < pages sz, Frame s.1.link (x.pte v).page
  inj : ∀ v < pages sz, ∀ w < pages sz, (x.pte v).page = (x.pte w).page → v = w

def Space.Occupies (x : Space) (d sz page : Nat) : Prop :=
  page = d ∨ (∃ i < 1024, x.table i = some page) ∨ x.Uses sz page

/-- From `x` in `m` with `sz` bytes to `y` in `m'` with `sz'`: what both have is kept, what is new is zero. -/
structure Resized (m m' : Mem) (x y : Space) (sz sz' : Nat) : Prop where
  size : sz' ≤ KERNBASE
  present : ∀ v < 2 ^ 19, (y.pte v).present = true ↔ v < pages sz'
  kept : ∀ v < pages sz, v < pages sz' → y.pte v = x.pte v ∧ m'.byte (x.pte v).page = m.byte (x.pte v).page
  zero : ∀ v, pages sz ≤ v → v < pages sz' → ∀ i, m'.byte (y.pte v).page i = 0

variable {d sz newsz : Nat} {x y : Space} {m m' : Mem} {l : Answers}

theorem old_pages (kept : Kept (x.Uses sz) m m')
    (same : ∀ v, v ∉ newPages sz newsz → y.pte v = x.pte v) {v : Nat} (lt : v < pages sz) :
    y.pte v = x.pte v ∧ m'.byte (x.pte v).page = m.byte (x.pte v).page :=
  ⟨same v fun mem => absurd (mem_newPages.mp mem).1 (by omega), kept.byte _ ⟨v, lt, rfl⟩⟩

theorem Filled.undone_pte {f : Filled} {v : Nat} (out : v ∉ newPages sz newsz) :
    (f.undone sz newsz).pte v = f.space.pte v :=
  Space.clear_not_mem fun mem => out (mem_newPages.mpr (Space.sweep_bounds mem))

variable (h : Image d x sz (m, l))

include h

theorem Image.bound : pages sz ≤ 2 ^ 19 := pages_le h.size

theorem Image.fresh : Fresh (x.Occupies d sz) m.link l :=
  { h.maps.spare.toFresh with
    kept := fun page mem occupied => by
      have apart := h.maps.spare.apart page mem
      rcases occupied with rfl | ⟨i, lt, table⟩ | uses
      · exact apart.1 rfl
      · exact apart.2 i lt table
      · exact h.maps.spare.kept page mem uses }

theorem Image.table {v : Nat} (lt : v < pages sz) : x.table (v / 1024) ≠ none := by
  intro missing
  have bound := h.bound
  have there := (h.present v (by omega)).mpr lt
  rw [h.maps.holds.zero v (by omega) missing] at there
  cases there

theorem Image.absent (lt : newsz < KERNBASE) {v : Nat} (mem : v ∈ newPages sz newsz) :
    (x.pte v).present = false := by
  have bound := pages_le (Nat.le_of_lt lt)
  obtain ⟨lo, hi⟩ := mem_newPages.mp mem
  by_contra there
  have := (h.present v (by omega)).mp (by simpa using there)
  omega

theorem Image.resized_same : Resized m m x x sz sz :=
  ⟨h.size, h.present, fun _ _ _ => ⟨rfl, rfl⟩, fun _ lo hi => absurd hi (by omega)⟩

theorem Image.resized_grown (le : sz ≤ newsz) (lt : newsz < KERNBASE)
    (kept : Kept (x.Uses sz) m m')
    (same : ∀ v, v ∉ newPages sz newsz → y.pte v = x.pte v)
    (backs : Backs (x.Uses sz) d y m' (fun _ _ => 0) (newPages sz newsz)) :
    Resized m m' x y sz newsz ↔ ∀ v ∈ newPages sz newsz, (y.pte v).present = true := by
  have mono := pages_mono le
  have bound := pages_le (Nat.le_of_lt lt)
  constructor
  · intro resized v mem
    have hi := (mem_newPages.mp mem).2
    exact (resized.present v (by omega)).mpr hi
  · intro there
    refine ⟨Nat.le_of_lt lt, fun v small => ?_, fun v old _ => old_pages kept same old, fun v lo hi => ?_⟩
    · by_cases mem : v ∈ newPages sz newsz
      · simp only [there v mem, (mem_newPages.mp mem).2]
      · rw [same v mem, h.present v small]
        rw [mem_newPages] at mem
        omega
    · have mem := mem_newPages.mpr ⟨lo, hi⟩
      rw [backs.byte v mem (there v mem)]
      exact fun _ => rfl

theorem Image.resized_undone (lt : newsz < KERNBASE) (kept : Kept (x.Uses sz) m m')
    (same : ∀ v, v ∉ newPages sz newsz → y.pte v = x.pte v) :
    Resized m m' x y sz sz ↔ ∀ v ∈ newPages sz newsz, (y.pte v).present = false := by
  have bound := pages_le (Nat.le_of_lt lt)
  constructor
  · intro resized v mem
    obtain ⟨lo, hi⟩ := mem_newPages.mp mem
    by_contra there
    have := (resized.present v (by omega)).mp (by simpa using there)
    omega
  · intro none_there
    refine ⟨h.size, fun v small => ?_, fun v old _ => old_pages kept same old, fun v lo hi => absurd hi (by omega)⟩
    by_cases mem : v ∈ newPages sz newsz
    · have lo := (mem_newPages.mp mem).1
      simp only [none_there v mem, Bool.false_eq_true, false_iff, not_lt]
      exact lo
    · rw [same v mem]
      exact h.present v small

theorem Image.does_deallocuvm {F : Panic → Prop} (lt : newsz < sz)
    {Q : Nat → Mem × Answers → Prop} (post : ∀ m' y, Holds m' d y → Resized m m' x y sz newsz → Q newsz (m', l)) :
    Does F (deallocuvm d sz newsz) (m, l) Q := by
  have bound := h.bound
  have mono := pages_mono (Nat.le_of_lt lt)
  have sub : ∀ page, x.Uses newsz page → x.Uses sz page := fun page ⟨v, lt, eq⟩ => ⟨v, by omega, eq⟩
  have size := h.size
  refine Vm.does_deallocuvm lt h.size (h.maps.mono sub) (fun w lo hi present => ?_) fun m' maps kept _ => ?_
  · refine ⟨h.frame w hi, h.maps.apart _ ⟨w, hi, rfl⟩, fun ⟨v, lt, eq⟩ => ?_⟩
    have := h.inj v (by omega) w hi eq
    omega
  · have swept : ∀ v, v ∈ x.sweep (pages sz) (pages newsz) (pages sz) ↔ pages newsz ≤ v ∧ v < pages sz := by
      intro v
      refine ⟨Space.sweep_bounds, fun ⟨lo, hi⟩ => ?_⟩
      exact (Space.mem_sweep_iff (by omega)).mpr ⟨lo, hi, h.table (by omega),
        Space.reached_of_table lo (h.table (by omega))⟩
    refine post m' _ maps.holds ⟨by omega, fun v small => ?_, fun v _ new => ⟨?_, ?_⟩, fun v lo hi =>
      absurd hi (by omega)⟩
    · rw [Space.clear_present, h.present v small, swept]
      omega
    · exact Space.clear_not_mem fun mem => absurd ((swept v).mp mem).1 (by omega)
    · exact kept.byte _ ⟨v, new, rfl⟩

theorem Image.does_allocuvm {F : Panic → Prop} (le : sz ≤ newsz)
    (lt : newsz < KERNBASE) {f : Filled}
    (fill : f = Space.fill (newPages sz newsz) x l) {Q : Nat → Mem × Answers → Prop}
    (done : ∀ m' y, Holds m' d y → (Resized m m' x y sz newsz ↔ f.Enough sz newsz) → Q newsz (m', f.rest))
    (out : ∀ m' y, Holds m' d y → (Resized m m' x y sz sz ↔ f.Enough sz newsz) → Q 0 (m', f.rest)) :
    Does F (allocuvm d sz newsz) (m, l) Q := by
  have absent : ∀ v ∈ newPages sz newsz, (x.pte v).present = false := fun v mem => h.absent lt mem
  have same : ∀ v, v ∉ newPages sz newsz → f.space.pte v = x.pte v := fun v mem => by rw [fill, Space.fill_pte mem]
  refine Vm.does_allocuvm le lt h.maps absent fill (fun fine m' maps kept backs => ?_) fun failed m' maps kept => ?_
  · refine done m' _ maps.holds ?_
    rw [h.resized_grown le lt kept same backs, enough_done absent fill fine]
  · refine out m' _ maps.holds ?_
    rw [h.resized_undone lt kept fun v mem => (Filled.undone_pte mem).trans (same v mem),
      enough_out lt failed maps.holds]

end Vm

/-- What `growproc(n)` should do to process `p` with image `x`. -/
def Grows (p : Nat) (n : Int) (s s' : State) (x y : Vm.Space) (r : Int) : Prop :=
  (r = 0 → ∃ sz : Nat, ((s.procs p).sz + n : Int) = sz ∧ (s'.procs p).sz = sz ∧
    Vm.Resized s.mem s'.mem x y (s.procs p).sz sz) ∧
  (r ≠ 0 → r = -1 ∧ (s'.procs p).sz = (s.procs p).sz ∧ Vm.Resized s.mem s'.mem x y (s.procs p).sz (s.procs p).sz)

/-- `n` takes away less than all there is, and memory for what it adds does not run out for a page table. -/
def CanGrow (x : Vm.Space) (l : Vm.Answers) (sz : Nat) (n : Int) : Prop :=
  (n < 0 → sz = 0 ∨ 0 < sz + n) ∧
  (0 < n → sz + n < KERNBASE →
    (Vm.Space.fill (Vm.newPages sz (sz + n).toNat) x l).Enough sz (sz + n).toNat)

theorem addInt_eq {sz : Nat} {n : Int} (lo : 0 ≤ sz + n) (hi : sz + n < 2 ^ 32) : addInt sz n = (sz + n).toNat := by
  unfold addInt
  omega

abbrev Ends (p : K α) (s : State × Vm.Answers) (Q : α → State × Vm.Answers → Prop) : Prop :=
  answering.wp (Machine.strict (fun _ => True) fun _ => False) p s Q

def Grown (p : Nat) (n : Int) (s : State) (l : Vm.Answers) (x : Vm.Space) (r : Int) (t : State × Vm.Answers) : Prop :=
  ∃ y, (t.1.procs p).pgdir = (s.procs p).pgdir ∧ Vm.Holds t.1.mem (s.procs p).pgdir y ∧
    (Grows p n s t.1 x y r ↔ CanGrow x l (s.procs p).sz n)

section

variable {p sz : Nat} {n : Int} {s : State} {l rest : Vm.Answers} {x y : Vm.Space} {m : Mem}

theorem ends_set {Q : Int → State × Vm.Answers → Prop} (zero : sz = 0 → Q (-1) (s, l))
    (set : sz ≠ 0 → ∀ s', s'.mem = s.mem → s'.procs p = { s.procs p with sz := sz } → Q 0 (s', l)) :
    Ends (growproc.set p sz) (s, l) Q := by
  unfold growproc.set
  split
  · exact zero ‹_›
  · exact Machine.wp_returns trivial rfl (set ‹_› _ rfl (upd_same _ _ _))

theorem grown_fails (holds : Vm.Holds m (s.procs p).pgdir y)
    (iff : Vm.Resized s.mem m x y (s.procs p).sz (s.procs p).sz ↔ CanGrow x l (s.procs p).sz n) :
    Grown p n s l x (-1) ({ s with mem := m }, rest) := by
  refine ⟨y, rfl, holds, ?_⟩
  rw [← iff]
  exact ⟨fun grows => (grows.2 (by decide)).2.2, fun same =>
    ⟨fun zero => absurd zero (by decide), fun _ => ⟨rfl, rfl, same⟩⟩⟩

theorem grown_sets {s' : State} (mem : s'.mem = m) (holds : Vm.Holds m (s.procs p).pgdir y)
    (proc : s'.procs p = { s.procs p with sz := sz }) (size : ((s.procs p).sz + n : Int) = sz)
    (iff : Vm.Resized s.mem m x y (s.procs p).sz sz ↔ CanGrow x l (s.procs p).sz n) :
    Grown p n s l x 0 (s', rest) := by
  subst mem
  refine ⟨y, by rw [proc], holds, ?_⟩
  rw [← iff]
  constructor
  · intro grows
    obtain ⟨sz', size', -, resized⟩ := grows.1 rfl
    have eq : sz' = sz := by omega
    exact eq ▸ resized
  · exact fun resized => ⟨fun _ => ⟨sz, size, by rw [proc], resized⟩, fun ne => absurd rfl ne⟩

variable (h : Vm.Image (s.procs p).pgdir x (s.procs p).sz (s.mem, l))

include h

theorem ends_grow (pos : 0 < n)
    (lt : (s.procs p).sz + n < KERNBASE) :
    Ends (vm (Vm.allocuvm (s.procs p).pgdir (s.procs p).sz (addInt (s.procs p).sz n)) >>= growproc.set p) (s, l)
      (Grown p n s l x) := by
  have size : ((s.procs p).sz + n : Int) = ((s.procs p).sz + n).toNat := by omega
  rw [addInt_eq (by omega) (by simp only [KERNBASE] at lt; omega)]
  have can : ∀ P : Prop, (P ↔ (Vm.Space.fill (Vm.newPages (s.procs p).sz ((s.procs p).sz + n).toNat) x l).Enough
      (s.procs p).sz ((s.procs p).sz + n).toNat) → (P ↔ CanGrow x l (s.procs p).sz n) := by
    intro P iff
    rw [iff]
    exact ⟨fun enough => ⟨fun neg => by omega, fun _ _ => enough⟩, fun can => can.2 pos lt⟩
  refine Machine.wp_then
    (wp_vm (h.does_allocuvm (by omega) (by omega) rfl (fun m y holds iff => ?_) fun m y holds iff => ?_))
  · refine ends_set (fun zero => by omega) fun _ s' mem proc => ?_
    exact grown_sets mem holds proc size (can _ iff)
  · exact ends_set (fun _ => grown_fails holds (can _ iff)) fun ne => absurd rfl ne

theorem ends_grow_far (pos : 0 < n) (hi : n < 2 ^ 31)
    (far : ¬ (s.procs p).sz + n < KERNBASE) :
    Ends (vm (Vm.allocuvm (s.procs p).pgdir (s.procs p).sz (addInt (s.procs p).sz n)) >>= growproc.set p) (s, l)
      (Grown p n s l x) := by
  have size := h.size
  rw [addInt_eq (by omega) (by simp only [KERNBASE] at size; omega)]
  have beyond : ((s.procs p).sz + n).toNat ≥ KERNBASE := by omega
  unfold Vm.allocuvm
  rw [if_pos beyond]
  change Ends (growproc.set p 0) (s, l) _
  refine ends_set (fun _ => grown_fails h.maps.holds ?_) fun ne => absurd rfl ne
  exact ⟨fun _ => ⟨fun neg => by omega, fun _ lt => absurd lt far⟩, fun _ => h.resized_same⟩

theorem ends_shrink (neg : n < 0) (lo : -2 ^ 31 ≤ n) :
    Ends (vm (Vm.deallocuvm (s.procs p).pgdir (s.procs p).sz (addInt (s.procs p).sz n)) >>= growproc.set p) (s, l)
      (Grown p n s l x) := by
  have small := h.size
  simp only [KERNBASE] at small
  have can : CanGrow x l (s.procs p).sz n ↔ (s.procs p).sz = 0 ∨ 0 < (s.procs p).sz + n :=
    ⟨fun can => can.1 neg, fun can => ⟨fun _ => can, fun pos => by omega⟩⟩
  by_cases under : (s.procs p).sz + n < 0
  · have wrapped : (s.procs p).sz ≤ addInt (s.procs p).sz n := by
      unfold addInt
      omega
    unfold Vm.deallocuvm
    rw [if_pos wrapped]
    change Ends (growproc.set p (s.procs p).sz) (s, l) _
    refine ends_set (fun zero => grown_fails h.maps.holds ?_) fun ne s' mem proc => ?_
    · rw [can]
      exact ⟨fun _ => Or.inl zero, fun _ => h.resized_same⟩
    · refine ⟨x, by rw [proc], by rw [mem]; exact h.maps.holds, ?_⟩
      rw [can]
      refine ⟨fun grows => ?_, fun room => by omega⟩
      obtain ⟨sz', size, -⟩ := grows.1 rfl
      omega
  · rw [addInt_eq (by omega) (by omega)]
    have size : ((s.procs p).sz + n : Int) = ((s.procs p).sz + n).toNat := by omega
    refine Machine.wp_then (wp_vm (h.does_deallocuvm (by omega) fun m y holds resized => ?_))
    refine ends_set (fun zero => grown_fails holds ?_) fun ne s' mem proc => ?_
    · -- all of it is freed, and that reported as a failure
      rw [can]
      refine ⟨fun same => ?_, fun room => by omega⟩
      rw [zero] at resized
      have page : 0 < Vm.pages (s.procs p).sz := by
        rw [← Vm.page_lt_iff, Nat.zero_mul]
        omega
      have gone := (resized.present 0 (by omega)).mp ((same.present 0 (by omega)).mpr page)
      exact absurd gone (by decide)
    · refine grown_sets mem holds proc size ?_
      rw [can]
      exact ⟨fun _ => by omega, fun _ => resized⟩

end

/-- `growproc` returns; it keeps size and memory together, or changes neither, exactly when it was not
asked to take away all of a process or more and found memory for the page tables it needed. -/
theorem growproc_grows {p : Nat} {n : Int} {s : State} {l : Vm.Answers} {x : Vm.Space}
    (h : Vm.Image (s.procs p).pgdir x (s.procs p).sz (s.mem, l)) (lo : -2 ^ 31 ≤ n) (hi : n < 2 ^ 31) :
    ∃ r s' rest y, answering.run (growproc p n) (s, l) = .returned r (s', rest) ∧
      (s'.procs p).pgdir = (s.procs p).pgdir ∧ Vm.Holds s'.mem (s.procs p).pgdir y ∧
      (Grows p n s s' x y r ↔ CanGrow x l (s.procs p).sz n) := by
  have ends : Ends (growproc p n) (s, l) (Grown p n s l x) := by
    refine Machine.wp_returns trivial rfl ?_
    simp only [Program.done_bind]
    split
    · by_cases room : (s.procs p).sz + n < KERNBASE
      · exact ends_grow h ‹_› room
      · exact ends_grow_far h ‹_› hi room
    · split
      · exact ends_shrink h ‹_› lo
      · have zero : n = 0 := by omega
        refine ⟨x, rfl, h.maps.holds, fun _ => ⟨fun neg => by omega, fun pos => by omega⟩, fun _ => ?_⟩
        exact ⟨fun _ => ⟨(s.procs p).sz, by omega, rfl, h.resized_same⟩, fun ne => absurd rfl ne⟩
  obtain ⟨r, ⟨s', rest⟩, run, y, pgdir, holds, grows⟩ := Machine.wp_returned ends
  exact ⟨r, s', rest, y, run, pgdir, holds, grows⟩

namespace Vm

def Space.one : Space := (Space.empty.grow 0 0x301).set 0 ⟨0x302, true, true, true⟩

def Mem.one : Mem :=
  let entry := upd (upd Mem.bare.entry 0x301 fun _ => Pte.zero) 0x300
    (upd (upd Mem.bare.entry 0x301 (fun _ => Pte.zero) 0x300) 0 ⟨0x301, true, true, true⟩)
  { Mem.bare with entry := upd entry 0x301 (upd (entry 0x301) 0 ⟨0x302, true, true, true⟩) }

theorem image_one : Image 0x300 Space.one PGSIZE (Mem.one, []) := by
  have bare : Maps (fun _ => False) 0x300 Space.empty (Mem.bare, [some 0x301, some 0x302]) :=
    maps_bare (by decide) (by simp)
  have first : (⟨0x301, true, true, true⟩ : Pte).present = true := rfl
  have table := (bare.grow (by decide : 0 < 1024) rfl [] Mem.bare.byte first rfl).take
  have maps := table.set (by decide : 0 < 2 ^ 20) rfl ⟨0x302, true, true, true⟩
  have one_page : ∀ {v}, v < pages PGSIZE → v = 0 := fun {v} lt => by
    simp only [pages, PGSIZE] at lt
    omega
  refine ⟨maps.mono fun page uses => ?_, by decide, fun v small => ?_, fun v lt => ?_, fun v lv w lw _ => ?_⟩
  · obtain ⟨v, lt, rfl⟩ := uses
    rw [one_page lt]
    exact Or.inr rfl
  · by_cases zero : v = 0
    · subst zero
      decide
    · have other : Space.one.pte v = Pte.zero := Space.set_pte_ne _ _ zero
      rw [other]
      exact ⟨fun present => (by cases present), fun lt => absurd (one_page lt) zero⟩
  · rw [one_page lt]
    exact ⟨by decide, by decide⟩
  · rw [one_page lv, one_page lw]

end Vm

def State.one : State :=
  { booted 0 0 (fun _ => Block.zero) with
    mem := Vm.Mem.one
    procs := fun _ => ⟨.runnable, 1, none, false, 0, 0x300, PGSIZE, 0, 0, [], fun _ => none, none⟩ }

theorem growproc_grows_one : ∃ r s' rest y, answering.run (growproc 1 PGSIZE) (State.one, []) = .returned r (s', rest) ∧
    (s'.procs 1).pgdir = 0x300 ∧ Vm.Holds s'.mem 0x300 y ∧ Grows 1 PGSIZE State.one s' Vm.Space.one y r := by
  obtain ⟨r, s', rest, y, run, dir, holds, grows⟩ :=
    growproc_grows (s := State.one) (p := 1) (n := PGSIZE) Vm.image_one (by decide) (by decide)
  refine ⟨r, s', rest, y, run, dir, holds,
    grows.mpr ⟨nofun, fun _ _ => (if_pos (by decide)).mpr fun v new present => ?_⟩⟩
  cases List.mem_singleton.mp new
  cases present

/-- Giving back all of its memory fails, and the memory is gone. -/
theorem growproc_frees_all : Vm.Image 0x300 Vm.Space.one PGSIZE (State.one.mem, []) ∧
    ∃ s', answering.run (growproc 1 (-4096)) (State.one, []) = .returned (-1) (s', []) ∧ (s'.procs 1).sz = PGSIZE ∧
      ∀ y, Vm.Holds s'.mem 0x300 y → (y.pte 0).present = false ∧
        ¬ Grows 1 (-4096) State.one s' Vm.Space.one y (-1) := by
  refine ⟨Vm.image_one, _, rfl, rfl, fun y holds => ?_⟩
  have gone : (y.pte 0).present = false := by
    rw [holds.pte_eq (by decide)]
    rfl
  refine ⟨gone, fun grows => ?_⟩
  have there := ((grows.2 (by decide)).2.2.present 0 (by decide)).mpr (by decide)
  rw [gone] at there
  cases there

end Espl.Kernel
