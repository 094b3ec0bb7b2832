import Espl.Kernel.Growproc
import Espl.Kernel.Setupkvm

/-!
# `copyuvm`

What `fork` makes of the parent's memory.
-/

namespace Espl.Kernel.Vm

/-- From page 0 on, `y` in `m'` is a copy of `x` in `m`, on pages of its own. -/
structure Duplicates (K : Nat → Prop) (m m' : Mem) (x y : Space) (sz : Nat) : Prop where
  present : ∀ v < pages sz, (y.pte v).present = true
  fresh : ∀ v < pages sz, ¬ K (y.pte v).page
  inj : ∀ v < pages sz, ∀ w < pages sz, (y.pte v).page = (y.pte w).page → v = w
  byte : ∀ v < pages sz, m'.byte (y.pte v).page = m.byte (x.pte v).page
  writable : ∀ v < pages sz, (y.pte v).writable = (x.pte v).writable
  user : ∀ v < pages sz, (y.pte v).user = (x.pte v).user

variable {K : Nat → Prop} {d pgdir sz : Nat} {x y : Space} {m m' : Mem} {c : Nat → Nat → UInt8} {l rest : Answers}

/-- The loop of `copyuvm` maps a copy of each page, always writable by the user. With a page for each
of them and for every table it does not fail. -/
theorem does_copyuvm_loop {F : Panic → Prop} (k : Nat) {i : Nat} (top : i + k ≤ 2 ^ 19) (parent : Holds m pgdir x)
    (dir : K pgdir) (tables : ∀ i < 1024, ∀ t, x.table i = some t → K t)
    (data : ∀ v, i ≤ v → v < i + k → K (x.pte v).page ∧ m.byte (x.pte v).page = c v)
    (exist : ∀ v, i ≤ v → v < i + k → x.table (v / 1024) = none → F .copyuvmExist)
    (present : ∀ v, i ≤ v → v < i + k → (x.pte v).present = false → F .copyuvmPresent)
    (h : Maps K d y (m, l)) (absent : ∀ v, i ≤ v → v < i + k → (y.pte v).present = false)
    {Q : Bool → Mem × Answers → Prop}
    (copied : ∀ z rest m', Maps K d z (m', rest) → Kept K m m' → Backs K d z m' c (List.range' i k) →
      (∀ v, (v < i ∨ i + k ≤ v) → z.pte v = y.pte v) → (∀ v ∈ List.range' i k, (z.pte v).present = true) →
        Q true (m', rest))
    (bad : (∀ ps : List Nat, l = ps.map some → ps.length + y.count < 1024 + k) → ∀ s, Q false s) :
    Does F (copyuvm.loop pgdir d i k) (m, l) Q := by
  induction k generalizing K i y m l with
  | zero =>
    exact copied y l m h (Kept.refl K m) (Backs.of_absent fun _ mem => absurd mem List.not_mem_nil) (fun _ _ => rfl)
      fun _ mem => absurd mem List.not_mem_nil
  | succ k ih =>
    unfold copyuvm.loop
    refine does_bind (does_walkpgdir (by omega) parent (fun t table => ?_)
      fun missing => does_panic (exist i (by omega) (by omega) missing))
    refine does_step rfl ?_
    rw [parent.entry i (by omega) t table]
    by_cases there : (x.pte i).present = false
    · rw [if_pos there]
      exact does_panic (present i (by omega) (by omega) there)
    · rw [if_neg there]
      match l with
      | [] =>
        refine does_step rfl (bad (fun ps eq => ?_) _)
        have := taken_le y.table 1024
        rw [List.map_eq_nil_iff.mp eq.symm, List.length_nil]
        unfold Space.count
        omega
      | none :: rest =>
        refine does_step rfl (bad (fun ps eq => ?_) _)
        cases ps <;> cases eq
      | some mem :: rest =>
        have free := h.spare.kept mem List.mem_cons_self
        have frame := h.spare.frame mem List.mem_cons_self
        obtain ⟨_, contents⟩ := data i (by omega) (by omega)
        refine does_step rfl (does_step rfl ?_)
        have taken : Maps (fun p => K p ∨ p = mem) d y (⟨m.link, m.freelist.erase mem, m.entry,
            upd m.byte mem (m.byte (x.pte i).page)⟩, rest) :=
          h.take.rewrite (Or.inr rfl) rfl fun p _ => rfl
        have kept : Kept K m ⟨m.link, m.freelist.erase mem, m.entry, upd m.byte mem (m.byte (x.pte i).page)⟩ :=
          ⟨rfl, fun _ _ => rfl, fun p k => upd_ne _ _ fun eq => free (eq ▸ k)⟩
        refine does_bind (does_mappages_one (by omega) taken (absent i (by omega) (by omega)) ?_ fun _ provided _ => ?_)
        · intro t y₁ after m₁ provided pte maps kept₁
          have kept := kept.trans (kept₁.mono fun _ => Or.inl)
          obtain ⟨used, given, count⟩ := takes_provide (by omega) provided
          refine ih (by omega) (parent.kept kept dir tables) (Or.inl dir) (fun i lt t some =>
            Or.inl (tables i lt t some))
            (fun v lo hi => ?_) (fun v lo hi => exist v (by omega) (by omega)) (fun v lo hi =>
              present v (by omega) (by omega))
            maps (fun v lo hi => ?_) (fun z rest' m' maps' kept' backs same all => ?_) fun short => bad fun ps eq => ?_
          · obtain ⟨mine, contents⟩ := data v (by omega) (by omega)
            exact ⟨Or.inl mine, (kept.byte _ mine).trans contents⟩
          · rw [Space.set_pte_ne _ _ (by omega), pte]
            exact absent v (by omega) (by omega)
          · have entry : z.pte i = ⟨mem, true, true, true⟩ := by
              rw [same i (Or.inl (by omega)), Space.set_pte_same]
            refine copied z rest' m' (maps'.mono fun _ => Or.inl) (kept.trans (kept'.mono fun _ => Or.inl)) ?_ ?_ ?_
            · rw [List.range'_succ]
              refine backs.cons_mapped entry ?_ (maps'.apart mem (Or.inr rfl)) free ?_
              · rw [kept'.link, kept.link]
                exact frame
              · rw [kept'.byte mem (Or.inr rfl), kept₁.byte mem (Or.inr rfl), ← contents]
                exact upd_same _ _ _
            · intro v outside
              rw [same v (by omega), Space.set_pte_ne _ _ (by omega), pte]
            · intro v mem
              rw [List.range'_succ] at mem
              rcases List.mem_cons.mp mem with rfl | mem
              · rw [entry]
              · exact all v mem
          · -- a page for this one, and one for each table that was missing
            rw [given] at eq
            have after_eq : after = (ps.drop (used.length + 1)).map some := by
              rw [List.map_drop, ← eq, List.drop_succ_cons, ← List.length_map some, List.drop_left]
            have len := congrArg List.length eq
            have left := short _ after_eq
            have same : (y₁.set i ⟨mem, true, true, true⟩).count = y₁.count := rfl
            simp only [List.length_cons, List.length_append, List.length_map, List.length_drop] at len left
            omega
        · refine bad (fun ps eq => ?_) _
          have starved := starved_provide (by omega) provided
          match ps with
          | [] => cases eq
          | page :: ps =>
            simp only [List.map_cons, List.cons.injEq] at eq
            by_contra enough
            rw [List.length_cons] at enough
            rw [eq.2] at starved
            exact not_starved (by omega) starved

theorem does_copyuvm {F : Panic → Prop} (parent : Holds m pgdir x) (size : sz ≤ KERNBASE)
    (fresh : Fresh (x.Occupies pgdir sz) m.link l)
    (exist : ∀ v < pages sz, x.table (v / 1024) = none → F .copyuvmExist)
    (present : ∀ v < pages sz, (x.pte v).present = false → F .copyuvmPresent)
    {Q : Option Nat → Mem × Answers → Prop}
    (made : ∀ d y rest m', Maps (x.Occupies pgdir sz) d y (m', rest) → Kept (x.Occupies pgdir sz) m m' →
      Backs (x.Occupies pgdir sz) d y m' (fun v => m.byte (x.pte v).page) (List.range' 0 (pages sz)) →
      (∀ v < pages sz, (y.pte v).present = true) → Q (some d) (m', rest))
    (bad : (∀ ps : List Nat, l = ps.map some → ps.length < 2049 + pages sz) → (∀ q, F q) ∧ ∀ s, Q none s) :
    Does F (copyuvm pgdir sz) (m, l) Q := by
  have bound := pages_le size
  unfold copyuvm
  refine does_bind (does_setupkvm fresh (fun d y l₁ m₁ _ setup maps kept used => ?_) fun short s => ?_)
  · obtain ⟨used, given, count⟩ := used
    have dir : x.Occupies pgdir sz pgdir := Or.inl rfl
    have tables : ∀ i < 1024, ∀ t, x.table i = some t → x.Occupies pgdir sz t :=
      fun i lt t some => Or.inr (Or.inl ⟨i, lt, some⟩)
    refine does_bind (does_copyuvm_loop (c := fun v => m.byte (x.pte v).page) (pages sz) (by omega)
      (parent.kept kept dir tables) dir tables
      (fun v lo hi => ?_) (fun v lo hi => exist v (by omega)) (fun v lo hi => present v (by omega)) maps
        (fun v lo hi => ?_)
      (fun z rest m' maps' kept' backs _ all => ?_) fun short s => ?_)
    · have mine : x.Occupies pgdir sz (x.pte v).page := Or.inr (Or.inr ⟨v, by omega, rfl⟩)
      exact ⟨mine, kept.byte _ mine⟩
    · rw [setup.low v (by omega)]
      rfl
    · refine made d z rest m' maps' (kept.trans kept') backs fun v lt => all v ?_
      rw [List.mem_range'_1]
      omega
    · obtain ⟨fault, out⟩ := bad fun ps eq => by
        have left := short (ps.drop used.length) (by
          rw [List.map_drop, ← eq, given, ← List.length_map some, List.drop_left])
        rw [List.length_drop] at left
        omega
      exact does_bind (does_mono (does_anything fault _ s) fun _ s' _ => out s')
  · exact (bad fun ps eq => (short ps eq).trans_le (by omega)).2 s

/-- If `copyuvm` succeeds the child has a copy of the parent's memory on pages of its own; the access
rights are the parent's exactly if all of the parent's pages are writable by the user. -/
theorem copyuvm_duplicates {r : Nat} (parent : Holds m pgdir x) (size : sz ≤ KERNBASE)
    (fresh : Fresh (x.Occupies pgdir sz) m.link l)
    (run : answering.run (copyuvm pgdir sz) (m, l) = .returned (some r) (m', rest)) :
    ∃ y, Holds m' r y ∧ Holds m' pgdir x ∧ (Duplicates (x.Occupies pgdir sz) m m' x y sz ↔
      ∀ v < pages sz, (x.pte v).writable = true ∧ (x.pte v).user = true) := by
  have spec := does_copyuvm (F := fun _ => True) (Q := fun r s => ∀ d, r = some d → ∃ y, Holds s.1 d y ∧
    Holds s.1 pgdir x ∧
      (Duplicates (x.Occupies pgdir sz) m s.1 x y sz ↔ ∀ v < pages sz, (x.pte v).writable = true ∧
        (x.pte v).user = true))
    parent size fresh (fun _ _ _ => trivial) (fun _ _ _ => trivial)
    (fun d y rest m' maps kept backs all d' eq => ?_) fun _ => ⟨fun _ => trivial, fun _ _ eq => by cases eq⟩
  · exact Machine.wp_run spec (fun _ _ => trivial) run r rfl
  · cases eq
    have mem : ∀ v < pages sz, v ∈ List.range' 0 (pages sz) := fun v lt => List.mem_range'_1.mpr (by omega)
    refine ⟨y, maps.holds, parent.kept kept (Or.inl rfl) fun i lt t some => Or.inr (Or.inl ⟨i, lt, some⟩),
      fun same v lt => ?_, fun full => ?_⟩
    · rw [← same.writable v lt, ← same.user v lt]
      exact ⟨backs.writable v (mem v lt) (all v lt), backs.user v (mem v lt) (all v lt)⟩
    · exact {
        present := all
        fresh := fun v lt => (backs.owned v (mem v lt) (all v lt)).2.2
        inj := fun v lv w lw => backs.inj v (mem v lv) w (mem w lw) (all v lv) (all w lw)
        byte := fun v lt => backs.byte v (mem v lt) (all v lt)
        writable := fun v lt => (backs.writable v (mem v lt) (all v lt)).trans (full v lt).1.symm
        user := fun v lt => (backs.user v (mem v lt) (all v lt)).trans (full v lt).2.symm }

/-- What `exec` does to memory for a program of one page, the reading of the file and the arguments apart. -/
def guarded : V (Option Nat) := do
  match ← setupkvm with
  | none => return none
  | some d => do
    let sz ← allocuvm d 0 PGSIZE
    let sz ← allocuvm d (pgRoundUp sz) (pgRoundUp sz + 2 * PGSIZE)
    clearpteu d (sz - 2 * PGSIZE)
    return some d

theorem does_allocuvm_enough {F : Panic → Prop} {oldsz newsz : Nat} {ps : List Nat} (le : oldsz ≤ newsz)
    (lt : newsz < KERNBASE)
    (h : Maps K d x (m, ps.map some)) (absent : ∀ v ∈ newPages oldsz newsz, (x.pte v).present = false)
    (enough : 1024 + (newPages oldsz newsz).length ≤ ps.length) {Q : Nat → Mem × Answers → Prop}
    (done : ∀ y (qs : List Nat) m', Maps (fun p => K p ∨ y.Backed (newPages oldsz newsz) p) d y
      (m', qs.map some) → Kept K m m' →
      Backs K d y m' (fun _ _ => 0) (newPages oldsz newsz) → (∀ v ∈ newPages oldsz newsz, (y.pte v).present = true) →
      (∀ v, v ∉ newPages oldsz newsz → y.pte v = x.pte v) →
        ps.length ≤ qs.length + 1024 + (newPages oldsz newsz).length →
      Q newsz (m', qs.map some)) :
    Does F (allocuvm d oldsz newsz) (m, ps.map some) Q := by
  have small : ∀ v ∈ newPages oldsz newsz, v < 2 ^ 20 := fun v mem => by
    have := (mem_newPages.mp mem).2
    have := pages_le (Nat.le_of_lt lt)
    omega
  obtain ⟨out, short, qs, rest, sum⟩ := fill_enough (x := x) small (Nat.le_trans enough (Nat.le_add_right _ _))
  have most : (Space.fill (newPages oldsz newsz) x (ps.map some)).space.count ≤ 1024 := taken_le _ _
  refine does_allocuvm le lt h absent rfl (fun _ m' maps kept backs => ?_) fun failed => ?_
  · rw [rest] at maps ⊢
    exact done _ qs m' maps kept backs (fun v mem => Space.fill_present out short mem)
      (fun v mem => Space.fill_pte mem _ _)
      (by omega)
  · rw [out] at failed
    cases failed

/-- The space that `guarded` leaves: three pages, with the one in the middle out of the user's reach. -/
structure Guard (d : Nat) (x : Space) (s : Mem × Answers) : Prop where
  holds : Holds s.1 d x
  fresh : Fresh (x.Occupies d (3 * PGSIZE)) s.1.link s.2
  present : ∀ v < 3, (x.pte v).present = true
  user : (x.pte 1).user = false

theorem does_guarded {F : Panic → Prop} {ps : List Nat} (fresh : Fresh K m.link (ps.map some))
    (long : 6000 ≤ ps.length) :
    Does F guarded (m, ps.map some) fun r s => ∃ d x, r = some d ∧ Guard d x s ∧
      ∃ qs : List Nat, s.2 = qs.map some ∧ 2052 ≤ qs.length := by
  unfold guarded
  refine does_bind (does_setupkvm fresh (fun d y rest m₁ _ setup maps _ used => ?_) fun short => ?_)
  · obtain ⟨used, given, count⟩ := used
    obtain rfl : rest = (ps.drop used.length).map some := by
      rw [List.map_drop, given, ← List.length_map some, List.drop_left]
    have left : ps.length ≤ (ps.drop used.length).length + 1025 := by
      rw [List.length_drop]
      omega
    have one : newPages 0 PGSIZE = [0] := by decide
    have two : newPages PGSIZE (PGSIZE + 2 * PGSIZE) = [1, 2] := by decide
    have same : pgRoundUp PGSIZE = PGSIZE := by decide
    refine does_bind (does_allocuvm_enough (by decide) (by decide) maps ?_ ?_
      fun x₁ qs₁ m₂ maps₁ _ backs₁ there₁ same₁ left₁ => ?_)
    · intro v mem
      rw [one, List.mem_singleton] at mem
      rw [mem, setup.low 0 (by decide)]
      rfl
    · rw [one, List.length_singleton]
      omega
    rw [one, List.length_singleton] at left₁
    rw [one] at there₁ same₁ maps₁ backs₁
    rw [same]
    refine does_bind (does_allocuvm_enough (by decide) (by decide) maps₁ ?_ ?_
      fun x₂ qs₂ m₃ maps₂ _ backs₂ there₂ same₂ left₂ => ?_)
    · intro v mem
      rw [two] at mem
      have bound : v = 1 ∨ v = 2 := by simpa using mem
      rw [same₁ v (by simp; omega), setup.low v (by omega)]
      rfl
    · rw [two, List.length_cons, List.length_singleton]
      omega
    rw [two, List.length_cons, List.length_singleton] at left₂
    rw [two] at there₂ same₂ maps₂ backs₂
    refine does_bind (does_clearpteu (v := 1) (by decide) maps₂ (fun missing => ?_) fun m₄ maps₃ _ => ?_)
    · have there := there₂ 1 (by decide)
      rw [maps₂.holds.zero 1 (by decide) missing] at there
      cases there
    have page : ∀ v, ((x₂.set 1 { x₂.pte 1 with user := false }).pte v).page = (x₂.pte v).page ∧
        ((x₂.set 1 { x₂.pte 1 with user := false }).pte v).present = (x₂.pte v).present := by
      intro v
      by_cases eq : v = 1
      · subst eq
        rw [Space.set_pte_same]
        exact ⟨rfl, rfl⟩
      · rw [Space.set_pte_ne _ _ eq]
        exact ⟨rfl, rfl⟩
    have first : x₂.pte 0 = x₁.pte 0 := same₂ 0 (by decide)
    have three : ∀ v < 3, v = 0 ∨ v ∈ [1, 2] := by decide
    refine ⟨d, _, rfl, ⟨maps₃.holds, { maps₃.spare.toFresh with kept := fun other mem occupied => ?_ },
      fun v lt => ?_, ?_⟩, qs₂, rfl, by omega⟩
    · have spare := maps₃.spare.apart other mem
      rcases occupied with rfl | ⟨i, lt, table⟩ | ⟨v, lt, rfl⟩
      · exact spare.1 rfl
      · exact spare.2 i lt table
      · refine maps₃.spare.kept _ mem ?_
        rw [(page v).1]
        rcases three v lt with rfl | mem
        · rw [first]
          exact Or.inl (Or.inr ⟨0, List.mem_singleton_self 0, there₁ 0 (List.mem_singleton_self 0), rfl⟩)
        · exact Or.inr ⟨v, mem, there₂ v mem, rfl⟩
    · rw [(page v).2]
      rcases three v lt with rfl | mem
      · rw [first]
        exact there₁ 0 (List.mem_singleton_self 0)
      · exact there₂ v mem
    · rw [Space.set_pte_same]
  · have := short ps rfl
    omega

def plenty : List Nat := List.range' 0x301 6000

theorem fresh_plenty : Fresh (fun _ => False) Mem.bare.link (plenty.map some) where
  distinct := by
    rw [List.pairwise_map]
    exact (List.nodup_range' (s := 0x301) (n := 6000)).imp fun ne _ eq => ne (Option.some.inj eq)
  frame page mem := by
    obtain ⟨_, mem, eq⟩ := List.mem_map.mp mem
    cases eq
    have := List.mem_range'_1.mp mem
    simp only [Frame, Mem.bare, PGSIZE, PHYSTOP]
    omega
  kept _ _ := not_false

theorem run_guarded : ∃ (pgdir : Nat) (x : Space) (m : Mem) (qs : List Nat),
    answering.run guarded (Mem.bare, plenty.map some) = .returned (some pgdir) (m, qs.map some) ∧
      Guard pgdir x (m, qs.map some) ∧ 2052 ≤ qs.length := by
  obtain ⟨r, ⟨m, l⟩, run, pgdir, x, rfl, guard, qs, rest, long⟩ := Machine.wp_returned
    (does_guarded (F := fun _ => False) fresh_plenty (by simp [plenty]))
  simp only at rest
  subst rest
  exact ⟨pgdir, x, m, qs, run, guard, long⟩

theorem run_copyuvm_guarded {qs : List Nat} (guard : Guard pgdir x (m, qs.map some)) (long : 2052 ≤ qs.length) :
    ∃ d m' rest y, answering.run (copyuvm pgdir (3 * PGSIZE)) (m, qs.map some) = .returned (some d) (m', rest) ∧
      Holds m' d y ∧ (y.pte 1).present = true ∧ (y.pte 1).user = true ∧ (y.pte 1).writable = true := by
  have pages_three : ∀ v < pages (3 * PGSIZE), v < 3 := fun v lt => lt
  have copies : Does (fun _ => False) (copyuvm pgdir (3 * PGSIZE)) (m, qs.map some) fun r s => ∃ d y, r = some d ∧
      Holds s.1 d y ∧ (y.pte 1).present = true ∧ (y.pte 1).user = true ∧ (y.pte 1).writable = true := by
    refine does_copyuvm guard.holds (by decide) guard.fresh (fun v lt missing => ?_) (fun v lt absent => ?_)
      (fun d y _ m' maps _ backs all => ?_) fun short => ?_
    · have there := guard.present v (pages_three v lt)
      rw [guard.holds.zero v (by have := pages_three v lt; omega) missing] at there
      cases there
    · rw [guard.present v (pages_three v lt)] at absent
      cases absent
    · have one : 1 ∈ List.range' 0 (pages (3 * PGSIZE)) := by decide
      have there := all 1 (by decide)
      exact ⟨d, y, rfl, maps.holds, there, backs.user 1 one there, backs.writable 1 one there⟩
    · have bound := short qs rfl
      have : pages (3 * PGSIZE) = 3 := by decide
      omega
  obtain ⟨r, ⟨m', rest⟩, copied, d, y, rfl, holds, rights⟩ := Machine.wp_returned copies
  exact ⟨d, m', rest, y, copied, holds, rights⟩

theorem copyuvm_duplicates_guarded : ∃ pgdir x m l d m' rest,
    answering.run guarded (Mem.bare, plenty.map some) = .returned (some pgdir) (m, l) ∧
      answering.run (copyuvm pgdir (3 * PGSIZE)) (m, l) = .returned (some d) (m', rest) ∧
      ∃ y, Holds m' d y ∧ Holds m' pgdir x ∧ (Duplicates (x.Occupies pgdir (3 * PGSIZE)) m m' x y (3 * PGSIZE) ↔
        ∀ v < pages (3 * PGSIZE), (x.pte v).writable = true ∧ (x.pte v).user = true) := by
  obtain ⟨pgdir, x, m, qs, run, guard, long⟩ := run_guarded
  obtain ⟨d, m', rest, _, copied, -⟩ := run_copyuvm_guarded guard long
  exact ⟨pgdir, x, m, _, d, m', rest, run, copied, copyuvm_duplicates guard.holds (by decide) guard.fresh copied⟩

/-- The guard page that `exec` puts below the stack is writable by the child of a `fork`. -/
theorem copyuvm_unguards : ∃ pgdir x m l d m' rest y,
    answering.run guarded (Mem.bare, plenty.map some) = .returned (some pgdir) (m, l) ∧ Guard pgdir x (m, l) ∧
      answering.run (copyuvm pgdir (3 * PGSIZE)) (m, l) = .returned (some d) (m', rest) ∧ Holds m' d y ∧
      (x.pte 1).user = false ∧ (y.pte 1).present = true ∧ (y.pte 1).user = true ∧ (y.pte 1).writable = true := by
  obtain ⟨pgdir, x, m, qs, run, guard, long⟩ := run_guarded
  obtain ⟨d, m', rest, y, copied, holds, present, user, writable⟩ := run_copyuvm_guarded guard long
  exact ⟨pgdir, x, m, _, d, m', rest, y, run, guard, copied, holds, guard.user, present, user, writable⟩

end Espl.Kernel.Vm
