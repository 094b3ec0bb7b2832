import Espl.Kernel.Paging

/-!
# `allocuvm` and `deallocuvm`
-/

namespace Espl.Kernel.Vm

def pages (sz : Nat) : Nat := (sz + PGSIZE - 1) / PGSIZE

theorem pgRoundUp_eq {sz : Nat} (le : sz ≤ KERNBASE) : pgRoundUp sz = pages sz * PGSIZE := by
  simp only [pgRoundUp, pages, PGSIZE, KERNBASE] at *
  omega

theorem page_lt_iff {v sz : Nat} : v * PGSIZE < sz ↔ v < pages sz := by
  simp only [pages, PGSIZE]
  omega

theorem pages_le {sz : Nat} (le : sz ≤ KERNBASE) : pages sz ≤ 2 ^ 19 := by
  simp only [pages, PGSIZE, KERNBASE] at *
  omega

theorem Frame.ne_zero {link : Link} {page : Nat} (h : Frame link page) : page ≠ 0 := by
  have text := link.text
  have order := link.order
  have low := h.1
  simp only [PGSIZE, EXTMEM] at *
  omega

theorem Frame.not_fails {link : Link} {page : Nat} (h : Frame link page) :
    ¬ (page * PGSIZE < link.last ∨ page * PGSIZE ≥ PHYSTOP) := by
  have low := h.1
  have high := h.2
  omega

/-- The pages that the loop of `deallocuvm` looks at from `v` on: it steps over the pages of a missing
page table by going 1024 pages on, not to the next table's first page. -/
def Space.sweep (x : Space) (top v : Nat) : Nat → List Nat
  | 0 => []
  | fuel + 1 =>
    if v < top then
      match x.table (v / 1024) with
      | none => x.sweep top (v + 1024) fuel
      | some _ => v :: x.sweep top (v + 1) fuel
    else []

theorem Space.sweep_congr {x y : Space} (same : y.table = x.table) (top v fuel : Nat) :
    y.sweep top v fuel = x.sweep top v fuel := by
  induction fuel generalizing v with
  | zero => rfl
  | succ fuel ih => simp only [Space.sweep, same, ih]

theorem Space.sweep_bounds {x : Space} {top v fuel w : Nat} (mem : w ∈ x.sweep top v fuel) : v ≤ w ∧ w < top := by
  induction fuel generalizing v with
  | zero => cases mem
  | succ fuel ih =>
    simp only [Space.sweep] at mem
    split at mem
    · split at mem
      · have := ih mem
        omega
      · rcases List.mem_cons.mp mem with rfl | mem
        · omega
        · have := ih mem
          omega
    · cases mem

/-- The loop that starts at `first` comes by `w`: some page table lets it go to a table's first page
before it gets to the table of `w`, or it gets there no later in the table than `w` is. -/
def Space.Reached (x : Space) (first w : Nat) : Prop :=
  (∃ j, first / 1024 ≤ j ∧ j < w / 1024 ∧ x.table j ≠ none) ∨ first % 1024 ≤ w % 1024

theorem Space.reached_missing {x : Space} {v w : Nat} (le : v ≤ w) (missing : x.table (v / 1024) = none)
    (there : x.table (w / 1024) ≠ none) : v + 1024 ≤ w ∧ x.Reached (v + 1024) w ↔ x.Reached v w := by
  have ne : v / 1024 ≠ w / 1024 := fun same => there (same ▸ missing)
  unfold Space.Reached
  constructor
  · rintro ⟨_, ⟨j, lo, hi, table⟩ | offset⟩
    · exact Or.inl ⟨j, by omega, hi, table⟩
    · exact Or.inr (by omega)
  · rintro (⟨j, lo, hi, table⟩ | offset)
    · have later : j ≠ v / 1024 := fun same => table (same ▸ missing)
      exact ⟨by omega, Or.inl ⟨j, by omega, hi, table⟩⟩
    · exact ⟨by omega, Or.inr (by omega)⟩

theorem Space.reached_of_table {x : Space} {v w : Nat} (le : v ≤ w) (table : x.table (v / 1024) ≠ none) :
    x.Reached v w := by
  by_cases same : v / 1024 = w / 1024
  · exact Or.inr (by omega)
  · exact Or.inl ⟨v / 1024, Nat.le.refl, by omega, table⟩

theorem Space.reached_next {x : Space} {v w : Nat} (lt : v < w) (table : x.table (v / 1024) ≠ none) :
    x.Reached (v + 1) w := by
  by_cases inside : (v + 1) / 1024 = v / 1024
  · exact Space.reached_of_table lt (inside ▸ table)
  · exact Or.inr (by omega)

theorem Space.mem_sweep_iff {x : Space} {top v fuel w : Nat} (enough : top ≤ v + fuel) :
    w ∈ x.sweep top v fuel ↔ v ≤ w ∧ w < top ∧ x.table (w / 1024) ≠ none ∧ x.Reached v w := by
  induction fuel generalizing v with
  | zero =>
    simp only [Space.sweep, List.not_mem_nil, false_iff]
    omega
  | succ fuel ih =>
    unfold Space.sweep
    split
    · rename_i more
      split
      · rename_i missing
        rw [ih (by omega)]
        constructor
        · rintro ⟨le, lt, table, reached⟩
          exact ⟨by omega, lt, table, (Space.reached_missing (by omega) missing table).mp ⟨le, reached⟩⟩
        · rintro ⟨le, lt, table, reached⟩
          obtain ⟨later, reached⟩ := (Space.reached_missing le missing table).mpr reached
          exact ⟨later, lt, table, reached⟩
      · rename_i t some
        have table : x.table (v / 1024) ≠ none := by simp [some]
        rw [List.mem_cons, ih (by omega)]
        constructor
        · rintro (rfl | ⟨le, lt, there, _⟩)
          · exact ⟨Nat.le.refl, more, table, Or.inr Nat.le.refl⟩
          · exact ⟨by omega, lt, there, Space.reached_of_table (by omega) table⟩
        · rintro ⟨le, lt, there, _⟩
          by_cases same : w = v
          · exact Or.inl same
          · have after : v < w := by omega
            exact Or.inr ⟨after, lt, there, Space.reached_next after table⟩
    · simp only [List.not_mem_nil, false_iff]
      omega

/-- The pages of `vs`, in the order in which `kfree` leaves them on the list. -/
def Space.given (x : Space) (vs : List Nat) : List Nat :=
  ((vs.filter fun v => (x.pte v).present).map fun v => (x.pte v).page).reverse

theorem Space.given_congr {x y : Space} {vs : List Nat} (same : ∀ v ∈ vs, y.pte v = x.pte v) :
    y.given vs = x.given vs := by
  unfold Space.given
  have keep : vs.filter (fun v => (y.pte v).present) = vs.filter fun v => (x.pte v).present :=
    List.filter_congr fun v mem => by rw [same v mem]
  rw [keep]
  refine congrArg List.reverse (List.map_congr_left fun v mem => ?_)
  rw [same v (List.mem_filter.mp mem).1]

theorem Space.given_present {x : Space} {v : Nat} (present : (x.pte v).present = true) (vs : List Nat) :
    x.given (v :: vs) = x.given vs ++ [(x.pte v).page] := by
  simp [Space.given, present]

theorem Space.given_absent {x : Space} {v : Nat} (absent : (x.pte v).present = false) (vs : List Nat) :
    x.given (v :: vs) = x.given vs := by
  simp [Space.given, absent]

def Space.clear (x : Space) (vs : List Nat) : Space :=
  { x with pte := fun v => if v ∈ vs ∧ (x.pte v).present = true then Pte.zero else x.pte v }

theorem Space.clear_present {x : Space} {vs : List Nat} {v : Nat} :
    ((x.clear vs).pte v).present = true ↔ (x.pte v).present = true ∧ v ∉ vs := by
  simp only [Space.clear]
  split
  · rename_i h
    simp [Pte.zero, h.1]
  · rename_i h
    tauto

theorem Space.clear_not_mem {x : Space} {vs : List Nat} {v : Nat} (out : v ∉ vs) : (x.clear vs).pte v = x.pte v :=
  if_neg fun h => out h.1

@[simp] theorem Space.clear_nil (x : Space) : x.clear [] = x := by
  simp [Space.clear]

theorem Space.clear_absent {x : Space} {v : Nat} (absent : (x.pte v).present = false) (vs : List Nat) :
    x.clear (v :: vs) = x.clear vs := by
  simp only [Space.clear, Space.mk.injEq, true_and]
  funext w
  by_cases eq : w = v
  · subst eq
    simp [absent]
  · simp [eq]

theorem Space.clear_set {x : Space} {v : Nat} (present : (x.pte v).present = true) (vs : List Nat) :
    (x.set v Pte.zero).clear vs = x.clear (v :: vs) := by
  simp only [Space.clear, Space.mk.injEq, Space.set_table, true_and]
  funext w
  by_cases eq : w = v
  · subst eq
    simp [present, Pte.zero]
  · simp [eq, Space.set_pte_ne]

variable {K : Nat → Prop} {d : Nat} {x : Space} {m m' : Mem} {c : Nat → Nat → UInt8} {l rest : Answers}
    {F : Panic → Prop}

def Space.Owned (x : Space) (K : Nat → Prop) (d : Nat) (link : Link) (v : Nat) : Prop :=
  (x.pte v).present = true → Frame link (x.pte v).page ∧ x.Apart d (x.pte v).page ∧ ¬ K (x.pte v).page

theorem Space.Owned.clear_one {link : Link} {v w : Nat} (h : x.Owned K d link w) :
    (x.set v Pte.zero).Owned K d link w := by
  intro present
  by_cases eq : w = v
  · subst eq
    simp [Pte.zero] at present
  · rw [Space.set_pte_ne _ _ eq] at present ⊢
    exact h present

def freed (m : Mem) (page : Nat) : Mem :=
  ⟨m.link, page :: m.freelist, upd m.entry page fun _ => Pte.junk, upd m.byte page fun _ => 1⟩

theorem answer_kfree {page : Nat} (frame : Frame m.link page) (l : Answers) :
    answer (.kfree page) (m, l) = .returned () (freed m page, l) := by
  simp only [answer, act, if_neg frame.not_fails, freed]

theorem kept_freed {page : Nat} (free : ¬ K page) : Kept K m (freed m page) :=
  ⟨rfl, fun _ k => upd_ne _ _ fun eq => free (eq ▸ k), fun _ k => upd_ne _ _ fun eq => free (eq ▸ k)⟩

theorem Maps.freed {page : Nat} (h : Maps K d x (m, l)) (apart : x.Apart d page) : Maps K d x (freed m page, l) :=
  ⟨h.holds.elsewhere apart fun _ ne => upd_ne _ _ ne, h.spare, h.apart⟩

theorem does_deallocuvm_loop {oldsz : Nat} (le : oldsz ≤ KERNBASE) (fuel v : Nat) (h : Maps K d x (m, l))
    (own : ∀ w, v ≤ w → w < pages oldsz → x.Owned K d m.link w) :
    Does F (deallocuvm.loop d oldsz (v * PGSIZE) fuel) (m, l) fun _ s =>
      s.2 = l ∧ Maps K d (x.clear (x.sweep (pages oldsz) v fuel)) s ∧ Kept K m s.1 ∧
        s.1.freelist = x.given (x.sweep (pages oldsz) v fuel) ++ m.freelist := by
  induction fuel generalizing v x m with
  | zero =>
    refine ⟨rfl, ?_, Kept.refl K m, rfl⟩
    rw [Space.sweep, Space.clear_nil]
    exact h
  | succ fuel ih =>
    unfold deallocuvm.loop Space.sweep
    by_cases more : v * PGSIZE < oldsz
    · have lt := page_lt_iff.mp more
      have bound : v < 2 ^ 20 := by have := pages_le le; omega
      rw [if_pos more, if_pos lt]
      refine does_bind (does_walkpgdir bound h.holds (fun t table => ?_) fun missing => ?_)
      · -- the page is there to look at
        refine does_step rfl ?_
        rw [h.holds.entry v bound t table]
        have on : v * PGSIZE + PGSIZE = (v + 1) * PGSIZE := (Nat.succ_mul v PGSIZE).symm
        simp only [table]
        by_cases present : (x.pte v).present = true
        · obtain ⟨frame, apart, free⟩ := own v (by omega) lt present
          rw [if_pos present, if_neg frame.ne_zero]
          refine does_step (answer_kfree frame l) (does_step rfl ?_)
          rw [on]
          have maps := h.freed apart
          have cleared := maps.set bound table Pte.zero
          have kept := (kept_freed free).trans
            (maps.kept_set bound table (upd ((freed m (x.pte v).page).entry t) (v % 1024) Pte.zero))
          refine does_mono (ih (v + 1) cleared fun w lo hi => ?_) fun _ s post => ?_
          · exact (own w (by omega) hi).clear_one
          · rw [← Space.clear_set present]
            rw [Space.sweep_congr (Space.set_table _ _ _)] at post
            obtain ⟨same, maps, later, list⟩ := post
            refine ⟨same, maps, kept.trans later, list.trans ?_⟩
            rw [Space.given_present present, List.append_assoc, Space.given_congr fun w mem => ?_]
            · rfl
            · exact Space.set_pte_ne _ _ (by have := Space.sweep_bounds mem; omega)
        · rw [if_neg present, on]
          have absent : (x.pte v).present = false := by simpa using present
          refine does_mono (ih (v + 1) h fun w lo hi => own w (by omega) hi) fun _ s post => ?_
          rw [Space.clear_absent absent, Space.given_absent absent]
          exact post
      · have on : v * PGSIZE + (NPTENTRIES - 1) * PGSIZE + PGSIZE = (v + 1024) * PGSIZE := by
          simp only [NPTENTRIES, PGSIZE]
          omega
        rw [on, missing]
        exact ih (v + 1024) h fun w lo hi => own w (by omega) hi
    · rw [if_neg more, if_neg fun lt => more (page_lt_iff.mpr lt)]
      refine ⟨rfl, ?_, Kept.refl K m, rfl⟩
      rw [Space.clear_nil]
      exact h

/-- What the loop of `allocuvm` makes of a space: `out` if it ran out of memory for a page, `short` if
it ran out of memory for a page table, which it does not notice. -/
structure Filled where
  space : Space
  rest : Answers
  out : Bool
  short : Bool

def Space.fill : List Nat → Space → Answers → Filled
  | [], x, l => ⟨x, l, false, false⟩
  | v :: vs, x, some mem :: l =>
    match x.provide (v / 1024) l with
    | (some _, y, rest) => fill vs (y.set v ⟨mem, true, true, true⟩) rest
    | (none, y, rest) => { fill vs y rest with short := true }
  | _ :: _, x, l => ⟨x, l.tail, true, false⟩

/-- The pages of `vs` that are mapped are pages of their own, writable by the user, with the contents `c`. -/
structure Backs (K : Nat → Prop) (d : Nat) (y : Space) (m : Mem) (c : Nat → Nat → UInt8) (vs : List Nat) : Prop where
  writable : ∀ v ∈ vs, (y.pte v).present = true → (y.pte v).writable = true
  user : ∀ v ∈ vs, (y.pte v).present = true → (y.pte v).user = true
  owned : ∀ v ∈ vs, y.Owned K d m.link v
  byte : ∀ v ∈ vs, (y.pte v).present = true → m.byte (y.pte v).page = c v
  inj : ∀ v ∈ vs, ∀ w ∈ vs, (y.pte v).present = true → (y.pte w).present = true →
    (y.pte v).page = (y.pte w).page → v = w

def Space.Backed (y : Space) (vs : List Nat) (page : Nat) : Prop :=
  ∃ v ∈ vs, (y.pte v).present = true ∧ (y.pte v).page = page

theorem Space.Backed.of_cons {y : Space} {v : Nat} {vs : List Nat} {page : Nat} (h : y.Backed (v :: vs) page) :
    y.Backed vs page ∨ (y.pte v).present = true ∧ (y.pte v).page = page := by
  obtain ⟨w, mem, present, eq⟩ := h
  rcases List.mem_cons.mp mem with rfl | mem
  · exact Or.inr ⟨present, eq⟩
  · exact Or.inl ⟨w, mem, present, eq⟩

section Fill

variable {vs : List Nat} {v : Nat}

theorem Space.provide_pte (x : Space) (i : Nat) (l : Answers) : (x.provide i l).2.1.pte = x.pte := by
  unfold Space.provide
  split <;> rfl

theorem Space.fill_mapped {t mem : Nat} {y : Space} (provided : x.provide (v / 1024) l = (some t, y, rest)) :
    fill (v :: vs) x (some mem :: l) = fill vs (y.set v ⟨mem, true, true, true⟩) rest := by
  simp only [Space.fill, provided]

theorem Space.fill_short {mem : Nat} {y : Space} (provided : x.provide (v / 1024) l = (none, y, rest)) :
    fill (v :: vs) x (some mem :: l) = { fill vs y rest with short := true } := by
  simp only [Space.fill, provided]

theorem Space.fill_pte (out : v ∉ vs) (x : Space) (l : Answers) : (fill vs x l).space.pte v = x.pte v := by
  fun_induction Space.fill vs x l with
  | case1 => rfl
  | case2 u vs x mem l t y rest provided ih =>
    rw [List.mem_cons, not_or] at out
    have pte := x.provide_pte (u / 1024) l
    rw [provided] at pte
    rw [ih out.2, Space.set_pte_ne _ _ out.1, pte]
  | case3 u vs x mem l y rest provided _ ih =>
    rw [List.mem_cons, not_or] at out
    have pte := x.provide_pte (u / 1024) l
    rw [provided] at pte
    rw [ih out.2, pte]
  | case4 => rfl

theorem Space.fill_present (out : (fill vs x l).out = false) (short : (fill vs x l).short = false) (mem : v ∈ vs) :
    ((fill vs x l).space.pte v).present = true := by
  fun_induction Space.fill vs x l with
  | case1 => cases mem
  | case2 u vs x page l t y rest provided ih =>
    by_cases later : v ∈ vs
    · exact ih out short later
    · rcases List.mem_cons.mp mem with rfl | mem
      · rw [Space.fill_pte later, Space.set_pte_same]
      · exact absurd mem later
  | case3 => cases short
  | case4 => cases out

theorem Space.fill_absent (out : (fill vs x l).out = false) (short : (fill vs x l).short = true) (nodup : vs.Nodup)
    (absent : ∀ v ∈ vs, (x.pte v).present = false) : ∃ v ∈ vs, ((fill vs x l).space.pte v).present = false := by
  fun_induction Space.fill vs x l with
  | case1 => cases short
  | case2 u vs x page l t y rest provided ih =>
    obtain ⟨fresh, nodup⟩ := List.nodup_cons.mp nodup
    have pte := x.provide_pte (u / 1024) l
    rw [provided] at pte
    obtain ⟨v, mem, h⟩ := ih out short nodup fun w mem => by
      have ne : w ≠ u := fun same => fresh (same ▸ mem)
      rw [Space.set_pte_ne _ _ ne, pte]
      exact absent w (List.mem_cons_of_mem _ mem)
    exact ⟨v, List.mem_cons_of_mem _ mem, h⟩
  | case3 u vs x page l y rest provided _ ih =>
    obtain ⟨fresh, nodup⟩ := List.nodup_cons.mp nodup
    have pte := x.provide_pte (u / 1024) l
    rw [provided] at pte
    refine ⟨u, List.mem_cons_self, ?_⟩
    rw [Space.fill_pte fresh, pte]
    exact absent u List.mem_cons_self
  | case4 => cases out

end Fill

theorem Backs.mono {K' : Nat → Prop} {vs : List Nat} (h : Backs K' d x m c vs) (sub : ∀ page, K page → K' page) :
    Backs K d x m c vs :=
  { h with owned := fun v mem present =>
      have ⟨frame, apart, free⟩ := h.owned v mem present
      ⟨frame, apart, fun k => free (sub _ k)⟩ }

theorem Backs.of_absent {vs : List Nat} (absent : ∀ v ∈ vs, (x.pte v).present = false) : Backs K d x m c vs := by
  have never : ∀ v ∈ vs, ¬ (x.pte v).present = true := fun v mem => by simp [absent v mem]
  exact ⟨fun v mem present => absurd present (never v mem), fun v mem present => absurd present (never v mem),
    fun v mem present => absurd present (never v mem), fun v mem present => absurd present (never v mem),
    fun v mem _ _ present => absurd present (never v mem)⟩

theorem Backs.cons_absent {v : Nat} {vs : List Nat} (h : Backs K d x m c vs) (absent : (x.pte v).present = false) :
    Backs K d x m c (v :: vs) := by
  have later : ∀ w ∈ v :: vs, (x.pte w).present = true → w ∈ vs := by
    intro w mem present
    rcases List.mem_cons.mp mem with rfl | mem
    · rw [absent] at present
      cases present
    · exact mem
  exact ⟨fun w mem present => h.writable w (later w mem present) present,
    fun w mem present => h.user w (later w mem present) present,
    fun w mem present => h.owned w (later w mem present) present,
    fun w mem present => h.byte w (later w mem present) present,
    fun w mem u mem_u pw pu => h.inj w (later w mem pw) u (later u mem_u pu) pw pu⟩

theorem Backs.cons_mapped {v page : Nat} {vs : List Nat} (h : Backs (fun p => K p ∨ p = page) d x m c vs)
    (entry : x.pte v = ⟨page, true, true, true⟩) (frame : Frame m.link page) (apart : x.Apart d page)
    (free : ¬ K page) (byte : m.byte page = c v) : Backs K d x m c (v :: vs) := by
  have other : ∀ w ∈ vs, (x.pte w).present = true → (x.pte w).page ≠ page :=
    fun w mem present eq => (h.owned w mem present).2.2 (Or.inr eq)
  have h' := h.mono (K := K) fun _ => Or.inl
  refine ⟨fun w mem present => ?_, fun w mem present => ?_, fun w mem present => ?_, fun w mem present => ?_,
    fun w mem u mem_u pw pu same => ?_⟩
  · rcases List.mem_cons.mp mem with rfl | mem
    · rw [entry]
    · exact h'.writable w mem present
  · rcases List.mem_cons.mp mem with rfl | mem
    · rw [entry]
    · exact h'.user w mem present
  · rcases List.mem_cons.mp mem with rfl | mem
    · rw [entry]
      exact ⟨frame, apart, free⟩
    · exact h'.owned w mem present
  · rcases List.mem_cons.mp mem with rfl | mem
    · rw [entry]
      exact byte
    · exact h'.byte w mem present
  · rcases List.mem_cons.mp mem with rfl | later <;> rcases List.mem_cons.mp mem_u with rfl | later_u
    · rfl
    · rw [entry] at same
      exact absurd same.symm (other u later_u pu)
    · rw [entry] at same
      exact absurd same (other w later pw)
    · exact h'.inj w later u later_u pw pu same

theorem does_allocuvm_loop {oldsz newsz : Nat} (small : newsz < KERNBASE) (k : Nat) {fuel v : Nat}
    (top : pages newsz = v + k)
    (enough : k ≤ fuel) (h : Maps K d x (m, l)) (absent : ∀ w, v ≤ w → w < v + k → (x.pte w).present = false)
    {Q : Nat → Mem × Answers → Prop}
    (filled : ∀ m', Maps (fun p => K p ∨ (Space.fill (List.range' v k) x l).space.Backed (List.range' v k) p) d
        (Space.fill (List.range' v k) x l).space (m', (Space.fill (List.range' v k) x l).rest) →
      Kept K m m' → Backs K d (Space.fill (List.range' v k) x l).space m' (fun _ _ => 0) (List.range' v k) →
      if (Space.fill (List.range' v k) x l).out then
        Does F (deallocuvm d newsz oldsz >>= fun _ => pure 0) (m', (Space.fill (List.range' v k) x l).rest) Q
      else Q newsz (m', (Space.fill (List.range' v k) x l).rest)) :
    Does F (allocuvm.loop d oldsz newsz (v * PGSIZE) fuel) (m, l) Q := by
  induction k generalizing K v x m l fuel with
  | zero =>
    have last : ¬ v * PGSIZE < newsz := by
      rw [page_lt_iff]
      omega
    have nothing : ∀ p, K p ∨ x.Backed [] p → K p := fun p k => k.elim id fun ⟨_, mem, _⟩ => absurd mem List.not_mem_nil
    have done := filled m (h.mono nothing) (Kept.refl K m) (Backs.of_absent fun _ mem => absurd mem List.not_mem_nil)
    cases fuel with
    | zero => exact done
    | succ fuel =>
      unfold allocuvm.loop
      rw [if_neg last]
      exact done
  | succ k ih =>
    obtain ⟨fuel, rfl⟩ : ∃ f, fuel = f + 1 := ⟨fuel - 1, by omega⟩
    have bound : v < 2 ^ 20 := by have := pages_le (Nat.le_of_lt small); omega
    have on : v * PGSIZE + PGSIZE = (v + 1) * PGSIZE := (Nat.succ_mul v PGSIZE).symm
    have later : v ∉ List.range' (v + 1) k := by
      simp only [List.mem_range'_1]
      omega
    have here := absent v (by omega) (by omega)
    unfold allocuvm.loop
    rw [if_pos (page_lt_iff.mpr (by omega)), on]
    rw [List.range'_succ] at filled
    have away : ∀ w ∈ v :: List.range' (v + 1) k, (x.pte w).present = false := fun w mem => by
      rw [← List.range'_succ, List.mem_range'_1] at mem
      exact absent w mem.1 mem.2
    have nothing : ∀ p, K p ∨ x.Backed (v :: List.range' (v + 1) k) p → K p :=
      fun p k => k.elim id fun ⟨w, mem, present, _⟩ => by
        rw [away w mem] at present
        cases present
    match l with
    | [] => exact does_step rfl (filled m (h.mono nothing) (Kept.refl K m) (Backs.of_absent away))
    | none :: rest => exact does_step rfl (filled m (h.tail.mono nothing) (Kept.refl K m) (Backs.of_absent away))
    | some mem :: rest =>
      have frame := h.spare.frame mem List.mem_cons_self
      have free := h.spare.kept mem List.mem_cons_self
      refine does_step rfl (does_step rfl ?_)
      have taken : Maps (fun p => K p ∨ p = mem) d x (⟨m.link, m.freelist.erase mem,
          upd m.entry mem fun _ => Pte.zero, upd m.byte mem fun _ => 0⟩, rest) :=
        h.take.rewrite (Or.inr rfl) rfl fun p ne => upd_ne _ _ ne
      have kept : Kept K m ⟨m.link, m.freelist.erase mem, upd m.entry mem fun _ => Pte.zero,
        upd m.byte mem fun _ => 0⟩ :=
        ⟨rfl, fun p k => upd_ne _ _ fun eq => free (eq ▸ k), fun p k => upd_ne _ _ fun eq => free (eq ▸ k)⟩
      refine does_bind (does_mappages_one bound taken here ?_ ?_)
      · intro t y after m₁ provided pte maps kept₁
        rw [Space.fill_mapped provided] at filled
        refine ih (by omega) (by omega) maps (fun w lo hi => ?_) fun m' maps' kept' backs => ?_
        · rw [Space.set_pte_ne _ _ (by omega), pte]
          exact absent w (by omega) (by omega)
        · have entry : (Space.fill (List.range' (v + 1) k) (y.set v ⟨mem, true, true, true⟩) after).space.pte v =
              ⟨mem, true, true, true⟩ := by
            rw [Space.fill_pte later, Space.set_pte_same]
          refine filled m' (maps'.mono fun p mine => ?_)
            ((kept.trans (kept₁.mono fun _ => Or.inl)).trans (kept'.mono fun _ => Or.inl)) ?_
          · rcases mine with mine | backed
            · exact Or.inl (Or.inl mine)
            · rcases backed.of_cons with backed | ⟨_, rfl⟩
              · exact Or.inr backed
              · rw [entry]
                exact Or.inl (Or.inr rfl)
          refine backs.cons_mapped entry ?_ (maps'.apart mem (Or.inl (Or.inr rfl))) free ?_
          · rw [kept'.link, kept₁.link]
            exact frame
          · rw [kept'.byte mem (Or.inr rfl), kept₁.byte mem (Or.inr rfl)]
            exact upd_same _ _ _
      · intro after provided maps
        rw [Space.fill_short provided] at filled
        refine ih (by omega) (by omega) (maps.mono fun _ => Or.inl) (fun w lo hi => absent w (by omega) (by omega))
          fun m' maps' kept' backs => ?_
        have out : ((Space.fill (List.range' (v + 1) k) x after).space.pte v).present = false := by
          rw [Space.fill_pte later]
          exact here
        refine filled m' (maps'.mono fun p mine => mine.imp_right fun backed => ?_) (kept.trans kept')
          (backs.cons_absent out)
        rcases backed.of_cons with backed | ⟨present, _⟩
        · exact backed
        · exact absurd (out.symm.trans present) (by decide)

abbrev newPages (oldsz newsz : Nat) : List Nat := List.range' (pages oldsz) (pages newsz - pages oldsz)

theorem mem_newPages {oldsz newsz v : Nat} : v ∈ newPages oldsz newsz ↔ pages oldsz ≤ v ∧ v < pages newsz := by
  rw [List.mem_range'_1]
  omega

theorem pages_mono {a b : Nat} (le : a ≤ b) : pages a ≤ pages b := Nat.div_le_div_right (by omega)

theorem does_deallocuvm {oldsz newsz : Nat} (lt : newsz < oldsz) (le : oldsz ≤ KERNBASE) (h : Maps K d x (m, l))
    (own : ∀ w, pages newsz ≤ w → w < pages oldsz → x.Owned K d m.link w) {Q : Nat → Mem × Answers → Prop}
    (post : ∀ m', Maps K d (x.clear (x.sweep (pages oldsz) (pages newsz) (pages oldsz))) (m', l) → Kept K m m' →
      m'.freelist = x.given (x.sweep (pages oldsz) (pages newsz) (pages oldsz)) ++ m.freelist → Q newsz (m', l)) :
    Does F (deallocuvm d oldsz newsz) (m, l) Q := by
  unfold deallocuvm
  rw [if_neg (by omega), pgRoundUp_eq (by omega)]
  refine does_bind (does_mono (does_deallocuvm_loop le _ _ h own) ?_)
  intro _ s ⟨same, maps, kept, list⟩
  obtain ⟨m', _⟩ := s
  subst same
  exact post m' maps kept list

theorem does_freevm_loop {dir : Nat → Pte} (k : Nat) {i : Nat} (top : i + k ≤ 1024) (same : m.entry d = dir)
    (own : ∀ j < 1024, (dir j).present = true → Frame m.link (dir j).page ∧ (dir j).page ≠ d ∧ ¬ K (dir j).page) :
    Does F (freevm.loop d i k) (m, l) fun _ s => s.2 = l ∧ Kept K m s.1 := by
  induction k generalizing i m with
  | zero => exact ⟨rfl, Kept.refl K m⟩
  | succ k ih =>
    unfold freevm.loop
    refine does_step rfl ?_
    rw [same]
    by_cases present : (dir i).present = true
    · obtain ⟨frame, ne, free⟩ := own i (by omega) present
      rw [if_pos present]
      refine does_step (answer_kfree frame l) (does_mono (ih (by omega) ?_ own) fun _ s post => ?_)
      · exact (upd_ne _ _ (Ne.symm ne)).trans same
      · exact ⟨post.1, (kept_freed free).trans post.2⟩
    · rw [if_neg present]
      exact ih (by omega) same own

theorem does_freevm (h : Maps K d x (m, l)) (dir : Frame m.link d) (free : ¬ K d)
    (tables : ∀ i < 1024, ∀ t, x.table i = some t → Frame m.link t) (own : ∀ v < 2 ^ 19, x.Owned K d m.link v) :
    Does F (freevm d) (m, l) fun _ s => s.2 = l ∧ Kept K m s.1 := by
  unfold freevm
  rw [if_neg dir.ne_zero]
  have bound := pages_le (Nat.le_refl KERNBASE)
  refine does_bind (does_deallocuvm (by decide) Nat.le.refl h (fun w _ hi => own w (by omega)) fun m₁ maps kept _ => ?_)
  refine does_bind (does_mono (does_freevm_loop (K := K) 1024 Nat.le.refl rfl fun j lt present => ?_)
    fun _ s post => ?_)
  · cases some : x.table j with
    | none =>
      rw [maps.holds.missing j lt some] at present
      cases present
    | some t =>
      rw [(maps.holds.table j lt t some).2, kept.link]
      exact ⟨tables j lt t some, fun eq => h.holds.apart j lt (eq ▸ some), fun k => (h.apart t k).2 j lt some⟩
  · obtain ⟨m₂, l₂⟩ := s
    obtain ⟨rfl, kept₂⟩ := post
    have kept := kept.trans kept₂
    have dir : Frame m₂.link d := kept.link ▸ dir
    exact Machine.wp_returns trivial (answer_kfree dir _) ⟨rfl, kept.trans (kept_freed free)⟩

def Filled.undone (f : Filled) (oldsz newsz : Nat) : Space :=
  f.space.clear (f.space.sweep (pages newsz) (pages oldsz) (pages newsz))

theorem does_allocuvm {oldsz newsz : Nat} (le : oldsz ≤ newsz) (lt : newsz < KERNBASE) (h : Maps K d x (m, l))
    (absent : ∀ v ∈ newPages oldsz newsz, (x.pte v).present = false) {f : Filled}
    (fill : f = Space.fill (newPages oldsz newsz) x l) {Q : Nat → Mem × Answers → Prop}
    (done : f.out = false → ∀ m', Maps (fun p => K p ∨ f.space.Backed (newPages oldsz newsz) p) d f.space
      (m', f.rest) → Kept K m m' →
      Backs K d f.space m' (fun _ _ => 0) (newPages oldsz newsz) → Q newsz (m', f.rest))
    (out : f.out = true → ∀ m', Maps K d (f.undone oldsz newsz) (m', f.rest) → Kept K m m' → Q 0 (m', f.rest)) :
    Does F (allocuvm d oldsz newsz) (m, l) Q := by
  have mono := pages_mono le
  unfold allocuvm
  rw [if_neg (by omega), if_neg (by omega), pgRoundUp_eq (by omega)]
  refine does_allocuvm_loop lt (pages newsz - pages oldsz) (by omega) (Nat.sub_le _ _) h
    (fun w lo hi => absent w (mem_newPages.mpr ⟨lo, by omega⟩)) ?_
  rw [← fill]
  intro m' maps kept backs
  split
  · rename_i failed
    have more : oldsz < newsz := by
      by_contra
      have eq : oldsz = newsz := by omega
      rw [fill, eq] at failed
      simp [newPages, Space.fill] at failed
    refine does_bind (does_deallocuvm more (by omega) (maps.mono fun _ => Or.inl) (fun w lo hi => ?_)
      fun m'' maps' kept' _ => ?_)
    · exact backs.owned w (mem_newPages.mpr ⟨lo, hi⟩)
    · exact out failed m'' maps' (kept.trans kept')
  · rename_i fine
    exact done (by simpa using fine) m' maps kept backs

/-- What `r`, returned by `allocuvm`, says about the space it leaves: that each new page is there, with
memory of its own, or that none is. -/
def Granted (K : Nat → Prop) (d oldsz newsz r : Nat) (m : Mem) (y : Space) : Prop :=
  (r = newsz ∧ newsz ≠ 0 → (∀ v ∈ newPages oldsz newsz, (y.pte v).present = true) ∧
    Backs K d y m (fun _ _ => 0) (newPages oldsz newsz)) ∧
  (r = 0 → ∀ v ∈ newPages oldsz newsz, (y.pte v).present = false)

/-- There was memory for every page table, or, if it ran out for a page, for the tables that
`deallocuvm` needs to come by what was mapped. -/
def Filled.Enough (f : Filled) (oldsz newsz : Nat) : Prop :=
  if f.out then
    ∀ v ∈ newPages oldsz newsz, (f.space.pte v).present = true → f.space.Reached (pages oldsz) v
  else f.short = false

theorem newPages_nodup (oldsz newsz : Nat) : (newPages oldsz newsz).Nodup := List.nodup_range'

theorem enough_done {oldsz newsz : Nat} (absent : ∀ v ∈ newPages oldsz newsz, (x.pte v).present = false) {f : Filled}
    (fill : f = Space.fill (newPages oldsz newsz) x l) (done : f.out = false) :
    f.Enough oldsz newsz ↔ ∀ v ∈ newPages oldsz newsz, (f.space.pte v).present = true := by
  simp only [Filled.Enough, done, Bool.false_eq_true, if_false]
  subst fill
  constructor
  · exact fun short v mem => Space.fill_present done short mem
  · intro there
    by_contra short
    obtain ⟨v, mem, missing⟩ := Space.fill_absent done (by simpa using short) (newPages_nodup _ _) absent
    rw [there v mem] at missing
    cases missing

theorem enough_out {oldsz newsz : Nat} (lt : newsz < KERNBASE) {f : Filled} (out : f.out = true)
    (holds : Holds m' d (f.undone oldsz newsz)) :
    f.Enough oldsz newsz ↔ ∀ v ∈ newPages oldsz newsz, ((f.undone oldsz newsz).pte v).present = false := by
  have bound := pages_le (Nat.le_of_lt lt)
  have mem_iff : ∀ v, v ∈ f.space.sweep (pages newsz) (pages oldsz) (pages newsz) ↔ _ := fun v =>
    Space.mem_sweep_iff (by omega)
  simp only [Filled.Enough, out, if_true]
  refine forall₂_congr fun v mem => ?_
  have inside := mem_newPages.mp mem
  rw [← Bool.not_eq_true, Filled.undone, Space.clear_present, mem_iff, not_and, not_not]
  refine forall_congr' fun present => ⟨fun reached => ⟨inside.1, inside.2, fun missing => ?_, reached⟩,
    fun h => h.2.2.2⟩
  -- a page without a table is not cleared, and it is not there
  have still : ((f.undone oldsz newsz).pte v).present = true :=
    Space.clear_present.mpr ⟨present, fun looked => ((mem_iff v).mp looked).2.2.1 missing⟩
  rw [holds.zero v (by omega) missing] at still
  cases still

theorem mem_newPages_pos {oldsz newsz v : Nat} (mem : v ∈ newPages oldsz newsz) : newsz ≠ 0 := by
  rintro rfl
  have := mem_newPages.mp mem
  simp [pages, PGSIZE] at this

theorem granted_done {oldsz newsz : Nat} (backs : Backs K d x m' (fun _ _ => 0) (newPages oldsz newsz)) :
    Granted K d oldsz newsz newsz m' x ↔ ∀ v ∈ newPages oldsz newsz, (x.pte v).present = true := by
  constructor
  · exact fun granted v mem => (granted.1 ⟨rfl, mem_newPages_pos mem⟩).1 v mem
  · exact fun there => ⟨fun _ => ⟨there, backs⟩, fun zero v mem => absurd zero (mem_newPages_pos mem)⟩

theorem granted_out {oldsz newsz : Nat} (pos : newsz ≠ 0) :
    Granted K d oldsz newsz 0 m' x ↔ ∀ v ∈ newPages oldsz newsz, (x.pte v).present = false :=
  ⟨fun granted => granted.2 rfl, fun none_there => ⟨fun h => absurd h.1.symm pos, fun _ => none_there⟩⟩

theorem fill_out_pos {oldsz newsz : Nat} (out : (Space.fill (newPages oldsz newsz) x l).out = true) : newsz ≠ 0 := by
  rintro rfl
  simp [newPages, pages, PGSIZE, Space.fill] at out

/-- `allocuvm` always returns, and what it returns can be relied on exactly when it did not have to do
without a page table it needed. -/
theorem allocuvm_granted {oldsz newsz : Nat} (h : Maps K d x (m, l)) (le : oldsz ≤ newsz) (lt : newsz < KERNBASE)
    (absent : ∀ v ∈ newPages oldsz newsz, (x.pte v).present = false) :
    ∃ r m' rest y, answering.run (allocuvm d oldsz newsz) (m, l) = .returned r (m', rest) ∧ (r = newsz ∨ r = 0) ∧
      Holds m' d y ∧ (Granted K d oldsz newsz r m' y ↔ (Space.fill (newPages oldsz newsz) x l).Enough oldsz newsz) := by
  obtain ⟨r, ⟨m', rest⟩, run, y, cases, holds, granted⟩ := Machine.wp_returned
    (Q := fun r s => ∃ y, (r = newsz ∨ r = 0) ∧ Holds s.1 d y ∧
      (Granted K d oldsz newsz r s.1 y ↔ (Space.fill (newPages oldsz newsz) x l).Enough oldsz newsz))
    (does_allocuvm le lt h absent rfl
      (fun done m' maps _ backs =>
        ⟨_, Or.inl rfl, maps.holds, (granted_done backs).trans (enough_done absent rfl done).symm⟩)
      fun out m' maps _ =>
        ⟨_, Or.inr rfl, maps.holds, (granted_out (fill_out_pos out)).trans (enough_out lt out maps.holds).symm⟩)
  exact ⟨r, m', rest, y, run, cases, holds, granted⟩

def Mem.bare : Mem := ⟨⟨0x201, 0x2FF000, by decide, by decide, by decide⟩, [], fun _ _ => Pte.zero, fun _ _ => 0⟩

theorem holds_bare (d : Nat) : Holds Mem.bare d Space.empty where
  missing _ _ _ := rfl
  table _ _ _ some := by cases some
  entry _ _ _ some := by cases some
  zero _ _ _ := rfl
  apart _ _ := by simp [Space.empty]
  inj _ _ _ _ _ some := by cases some

theorem maps_bare {l : Answers} (distinct : l.Pairwise fun a b => a ≠ none → a ≠ b)
    (frame : ∀ page, some page ∈ l → 0x301 ≤ page ∧ page < 0xE000) :
    Maps (fun _ => False) 0x300 Space.empty (Mem.bare, l) where
  holds := holds_bare _
  spare := ⟨⟨distinct, fun page mem => by
      have := frame page mem
      simp only [Frame, Mem.bare, PGSIZE, PHYSTOP]
      omega, fun _ _ => not_false⟩,
    fun page mem => ⟨by have := frame page mem; omega, fun _ _ => by simp [Space.empty]⟩⟩
  apart _ k := k.elim

theorem allocuvm_granted_one : ∃ m' y,
    answering.run (allocuvm 0x300 0 PGSIZE) (Mem.bare, [some 0x301, some 0x302]) = .returned PGSIZE (m', []) ∧
      Holds m' 0x300 y ∧ Granted (fun _ => False) 0x300 0 PGSIZE PGSIZE m' y := by
  obtain ⟨r, m', rest, y, run, -, holds, granted⟩ :=
    allocuvm_granted (maps_bare (l := [some 0x301, some 0x302]) (by decide)
    (by simp)) (by decide : 0 ≤ PGSIZE) (by decide) fun _ _ => rfl
  cases run
  exact ⟨_, y, rfl, holds, granted.mpr ((if_neg (by decide)).mpr rfl)⟩

/-- The page is there but no page table to map it in: `allocuvm` reports success. -/
theorem allocuvm_unmapped : ∃ m' y,
    answering.run (allocuvm 0x300 0 PGSIZE) (Mem.bare, [some 0x301, none]) = .returned PGSIZE (m', []) ∧
      Holds m' 0x300 y ∧ ¬ Granted (fun _ => False) 0x300 0 PGSIZE PGSIZE m' y := by
  refine ⟨_, Space.empty, rfl, ?_, fun granted => ?_⟩
  · have apart : Space.empty.Apart 0x300 0x301 := ⟨by decide, fun _ _ => by simp [Space.empty]⟩
    exact (holds_bare 0x300).elsewhere apart fun p ne => upd_ne _ _ ne
  · have there := (granted.1 ⟨rfl, by decide⟩).1 0 (by decide)
    cases there

end Espl.Kernel.Vm
