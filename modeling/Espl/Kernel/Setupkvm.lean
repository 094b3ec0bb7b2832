import Espl.Kernel.Uvm

/-!
# `setupkvm`

A new directory maps the kernel and no user page. `mappages` over a range takes a page for each table
that is missing, so what it takes from the allocator is the number of tables it adds.
-/

namespace Espl.Kernel.Vm

section Count

variable {f : Nat → Option Nat} {n i : Nat}

def taken (f : Nat → Option Nat) (n : Nat) : Nat := ((Finset.range n).filter fun i => (f i).isSome).card

theorem taken_none (n : Nat) : taken (fun _ => none) n = 0 := by
  simp [taken]

theorem taken_le (f : Nat → Option Nat) (n : Nat) : taken f n ≤ n :=
  (Finset.card_filter_le _ _).trans (Finset.card_range n).le

theorem taken_lt (lt : i < n) (missing : f i = none) : taken f n < n := by
  have sub : ((Finset.range n).filter fun j => (f j).isSome) ⊂ Finset.range n := by
    refine Finset.filter_ssubset.mpr ⟨i, Finset.mem_range.mpr lt, ?_⟩
    simp [missing]
  have := Finset.card_lt_card sub
  rwa [Finset.card_range] at this

theorem taken_upd (lt : i < n) (missing : f i = none) (a : Nat) : taken (upd f i (some a)) n = taken f n + 1 := by
  unfold taken
  rw [← Finset.card_insert_of_notMem (a := i) (by simp [missing])]
  congr 1
  ext j
  by_cases eq : j = i
  · subst eq
    simp [lt]
  · simp [upd_ne _ _ eq, eq]

end Count

def Space.count (x : Space) : Nat := taken x.table 1024

/-- The first pages of `l` are handed out, one for each table from `x` to `y`. -/
def Takes (x y : Space) (l rest : Answers) : Prop :=
  ∃ used : List Nat, l = used.map some ++ rest ∧ y.count = x.count + used.length

/-- The allocator fails before there are tables for every page. -/
def Starved (x : Space) (l : Answers) : Prop :=
  ∃ (used : List Nat) (rest : Answers), l = used.map some ++ rest ∧ rest.head?.join = none ∧
    x.count + used.length < 1024

theorem Takes.refl (x : Space) (l : Answers) : Takes x x l l := ⟨[], rfl, (Nat.add_zero _).symm⟩

theorem Takes.trans {x y z : Space} {l l₁ l₂ : Answers} (h : Takes x y l l₁) (h' : Takes y z l₁ l₂) :
    Takes x z l l₂ := by
  obtain ⟨used, rfl, count⟩ := h
  obtain ⟨used', rfl, count'⟩ := h'
  refine ⟨used ++ used', by simp, ?_⟩
  rw [List.length_append]
  omega

theorem Takes.starved {x y : Space} {l l₁ : Answers} (h : Takes x y l l₁) (h' : Starved y l₁) : Starved x l := by
  obtain ⟨used, rfl, count⟩ := h
  obtain ⟨used', rest, rfl, out, lt⟩ := h'
  refine ⟨used ++ used', rest, by simp, out, ?_⟩
  rw [List.length_append]
  omega

theorem Takes.set {x y : Space} {l rest : Answers} (h : Takes x y l rest) (v : Nat) (e : Pte) :
    Takes x (y.set v e) l rest := h

theorem takes_provide {x y : Space} {i t : Nat} {l rest : Answers} (lt : i < 1024)
    (provided : x.provide i l = (some t, y, rest)) : Takes x y l rest := by
  unfold Space.provide at provided
  split at provided
  · cases provided
    exact Takes.refl x _
  · rename_i missing
    cases provided
    exact ⟨[t], rfl, taken_upd lt missing t⟩
  · cases provided

theorem Space.provide_elsewhere {x y : Space} {i j : Nat} {r : Option Nat} {l rest : Answers}
    (provided : x.provide i l = (r, y, rest)) (ne : j ≠ i) : y.table j = x.table j := by
  unfold Space.provide at provided
  split at provided <;> cases provided
  · rfl
  · exact Space.grow_table_ne _ _ ne
  · rfl

theorem starved_provide {x y : Space} {i : Nat} {l rest : Answers} (lt : i < 1024)
    (provided : x.provide i l = (none, y, rest)) : Starved x l := by
  cases table : x.table i with
  | some t => simp [Space.provide, table] at provided
  | none =>
    refine ⟨[], l, rfl, ?_, ?_⟩
    · cases l with
      | nil => rfl
      | cons a l =>
        cases a with
        | none => rfl
        | some t => simp [Space.provide, table] at provided
    · rw [List.length_nil, Nat.add_zero]
      exact taken_lt lt table

theorem not_starved {x : Space} {ps : List Nat} (enough : 1024 ≤ x.count + ps.length) : ¬ Starved x (ps.map some) := by
  rintro ⟨used, rest, eq, out, lt⟩
  have len := congrArg List.length eq
  simp only [List.length_map, List.length_append] at len
  match rest with
  | [] =>
    rw [List.length_nil] at len
    omega
  | a :: rest =>
    have mem : a ∈ ps.map some := eq ▸ List.mem_append_right _ List.mem_cons_self
    obtain ⟨page, _, rfl⟩ := List.mem_map.mp mem
    cases out

variable {K : Nat → Prop} {d : Nat} {x : Space} {m : Mem} {l : Answers} {F : Panic → Prop}
    {Q : Int → Mem × Answers → Prop}

def Space.setRange (x : Space) (v page : Nat) (w u : Bool) (k : Nat) : Space :=
  { x with pte := fun i => if v ≤ i ∧ i < v + k then ⟨(page + (i - v)) % 2 ^ 20, true, w, u⟩ else x.pte i }

theorem Space.setRange_zero (x : Space) (v page : Nat) (w u : Bool) (i : Nat) :
    (x.setRange v page w u 0).pte i = x.pte i :=
  if_neg (by omega)

theorem Space.setRange_succ {y : Space} {v page : Nat} (w u : Bool) (k : Nat) (small : page < 2 ^ 20)
    (pte : y.pte = x.pte) (i : Nat) :
    ((y.set v ⟨page, true, w, u⟩).setRange (v + 1) ((page + 1) % 2 ^ 20) w u k).pte i =
      (x.setRange v page w u (k + 1)).pte i := by
  simp only [Space.setRange]
  by_cases eq : i = v
  · subst eq
    rw [if_neg (by omega), if_pos (by omega), Space.set_pte_same, Nat.sub_self, Nat.add_zero, Nat.mod_eq_of_lt small]
  · rw [Space.set_pte_ne _ _ eq, pte]
    by_cases later : v + 1 ≤ i ∧ i < v + 1 + k
    · have next : ((page + 1) % 2 ^ 20 + (i - (v + 1))) % 2 ^ 20 = (page + (i - v)) % 2 ^ 20 := by omega
      rw [if_pos later, if_pos (by omega), next]
    · rw [if_neg later, if_neg (by omega)]

theorem does_mappages_loop {w u : Bool} (k : Nat) {v page : Nat} (small : page < 2 ^ 20) (le : v + k ≤ 2 ^ 20)
    (h : Maps K d x (m, l)) (absent : ∀ i, v ≤ i → i < v + k → (x.pte i).present = false)
    (mapped : ∀ y rest m', (∀ i, y.pte i = (x.setRange v page w u k).pte i) →
      (∀ i, y.table i = none ↔ x.table i = none ∧ ∀ j, v ≤ j → j < v + k → j / 1024 ≠ i) →
      Maps K d y (m', rest) → Kept K m m' → Takes x y l rest → Q 0 (m', rest))
    (out : Starved x l → ∀ s, Q (-1) s) :
    Does F (mappages.loop d w u (v * PGSIZE) page k) (m, l) Q := by
  induction k generalizing v page x m l with
  | zero =>
    refine mapped x l m (fun i => (x.setRange_zero ..).symm) (fun i => ?_) h (Kept.refl K m) (Takes.refl x l)
    exact (and_iff_left fun j lo hi => absurd hi (Nat.not_lt.mpr lo)).symm
  | succ k ih =>
    unfold mappages.loop
    refine does_bind (does_walkpgdir_alloc (by omega) h ?_ ?_)
    · intro t y rest m₁ provided table pte maps kept
      refine does_step rfl ?_
      rw [maps.holds.entry v (by omega) t table, pte, if_neg (by simp [absent v (by omega) (by omega)])]
      refine does_step rfl ?_
      have takes := takes_provide (by omega) provided
      have tables : ∀ i, y.table i = none ↔ x.table i = none ∧ v / 1024 ≠ i := by
        intro i
        by_cases eq : v / 1024 = i
        · rw [← eq, table]
          exact iff_of_false (Option.some_ne_none t) fun both => both.2 rfl
        · rw [Space.provide_elsewhere provided (Ne.symm eq), and_iff_left eq]
      have set := maps.set (by omega : v < 2 ^ 20) table ⟨page, true, w, u⟩
      have kept₁ := kept.trans
        (maps.kept_set (by omega : v < 2 ^ 20) table (upd (m₁.entry t) (v % 1024) ⟨page, true, w, u⟩))
      have ptes := Space.setRange_succ (v := v) w u k small pte
      cases k with
      | zero =>
        refine mapped (y.set v ⟨page, true, w, u⟩) rest _ (fun i => ?_) (fun i => ?_) set kept₁ (takes.set v _)
        · exact (Space.setRange_zero ..).symm.trans (ptes i)
        · refine (tables i).trans (and_congr_right' ⟨fun ne j lo hi => ?_, fun all => all v Nat.le.refl (by omega)⟩)
          rwa [show j = v by omega]
      | succ k =>
        have on : (v * PGSIZE + PGSIZE) % 2 ^ 32 = (v + 1) * PGSIZE := by
          simp only [PGSIZE]
          omega
        rw [on]
        refine ih (Nat.mod_lt _ (by decide)) (by omega) set (fun i lo hi => ?_)
          (fun z rest' m' ptes' tables' maps' kept' takes' => ?_)
          fun starved => out ((takes.set v _).starved starved)
        · rw [Space.set_pte_ne _ _ (by omega), pte]
          exact absent i (by omega) (by omega)
        · refine mapped z rest' m' (fun i => (ptes' i).trans (ptes i)) (fun i => ?_) maps' (kept₁.trans kept')
            ((takes.set v _).trans takes')
          refine (tables' i).trans ((and_congr_left' (tables i)).trans (and_assoc.trans (and_congr_right' ?_)))
          constructor
          · rintro ⟨ne, later⟩ j lo hi
            rcases Nat.eq_or_lt_of_le lo with rfl | lt
            · exact ne
            · exact later j lt (by omega)
          · exact fun all => ⟨all v Nat.le.refl (by omega), fun j lo hi => all j (by omega) (by omega)⟩
    · intro rest provided _
      exact out (starved_provide (by omega) provided) _

theorem does_mappages {w u : Bool} {k v page : Nat} (pos : 0 < k) (small : page < 2 ^ 20) (le : v + k ≤ 2 ^ 20)
    (h : Maps K d x (m, l)) (absent : ∀ i, v ≤ i → i < v + k → (x.pte i).present = false)
    (mapped : ∀ y rest m', (∀ i, y.pte i = (x.setRange v page w u k).pte i) →
      (∀ i, y.table i = none ↔ x.table i = none ∧ ∀ j, v ≤ j → j < v + k → j / 1024 ≠ i) →
      Maps K d y (m', rest) → Kept K m m' → Takes x y l rest → Q 0 (m', rest))
    (out : Starved x l → ∀ s, Q (-1) s) :
    Does F (mappages d (v * PGSIZE) (k * PGSIZE) page w u) (m, l) Q := by
  have first : pgRoundDown (v * PGSIZE) = v * PGSIZE := by
    simp only [pgRoundDown, PGSIZE]
    omega
  have rounds : (pgRoundDown ((v * PGSIZE + k * PGSIZE - 1) % 2 ^ 32) + 2 ^ 32 - v * PGSIZE) % 2 ^ 32 /
    PGSIZE + 1 = k := by
    simp only [pgRoundDown, PGSIZE]
    omega
  unfold mappages
  rw [first, rounds]
  exact does_mappages_loop k small le h absent mapped out

/-- Only pages of the kernel below `top` are mapped, by the tables `T`. -/
structure Space.KernelOnly (x : Space) (T : Nat → Prop) (top : Nat) : Prop where
  table : ∀ i, x.table i = none ↔ ¬ T i
  zero : ∀ i, i < 2 ^ 19 ∨ top ≤ i → x.pte i = Pte.zero
  user : ∀ i, (x.pte i).user = false

/-- The space of a directory that `setupkvm` has made. -/
structure Space.Setup (x : Space) : Prop where
  low : ∀ v < 2 ^ 19, x.pte v = Pte.zero
  missing : ∀ i < 512, x.table i = none
  table : ∀ i, 512 ≤ i → (x.table i ≠ none ↔ i < 568 ∨ 1016 ≤ i ∧ i < 1024)
  user : ∀ v, (x.pte v).user = false

theorem does_map_region {T : Nat → Prop} {top v k page virt start fin : Nat} {w : Bool} {rest : List Kmap}
    (hv : virt = v * PGSIZE) (hs : (fin + 2 ^ 32 - start) % 2 ^ 32 = k * PGSIZE) (hp : start / PGSIZE = page)
    (pos : 0 < k) (small : page < 2 ^ 20) (le : v + k ≤ 2 ^ 20) (user : 2 ^ 19 ≤ v) (above : top ≤ v)
    (h : Maps K d x (m, l)) (kernel : x.KernelOnly T top) {Q : Bool → Mem × Answers → Prop}
    (next : ∀ y l' m', y.KernelOnly (fun i => T i ∨ v / 1024 ≤ i ∧ i * 1024 < v + k) (v + k) →
      Maps K d y (m', l') → Kept K m m' → Takes x y l l' → Does F (setupkvm.map d rest) (m', l') Q)
    (out : Starved x l → ∀ s, Q false s) :
    Does F (setupkvm.map d (⟨virt, start, fin, w⟩ :: rest)) (m, l) Q := by
  unfold setupkvm.map
  simp only [hv, hs, hp]
  refine does_bind (does_mappages pos small le h (fun i lo hi => ?_) (fun y l' m' ptes tables maps kept takes => ?_)
    fun starved s => ?_)
  · rw [kernel.zero i (Or.inr (by omega))]
    rfl
  · refine next y l' m' ⟨fun i => ?_, fun i outside => ?_, fun i => ?_⟩ maps kept takes
    · rw [tables, kernel.table, not_or]
      refine and_congr_right' ⟨fun all ⟨lo, hi⟩ => all (max v (i * 1024)) (by omega) (by omega) (by omega), ?_⟩
      exact fun out j lo hi eq => out (by omega)
    · rw [ptes]
      simp only [Space.setRange]
      rw [if_neg (by omega)]
      exact kernel.zero i (by omega)
    · rw [ptes]
      simp only [Space.setRange]
      split
      · rfl
      · exact kernel.user i
  · exact out starved s

theorem maps_empty {page : Nat} {rest : Answers} (fresh : Fresh K m.link (some page :: rest)) (free : List Nat)
    (byte : Nat → Nat → UInt8) :
    Maps K page Space.empty (⟨m.link, free, upd m.entry page fun _ => Pte.zero, byte⟩, rest) where
  holds := {
    missing := fun i _ _ => congrArg (fun row => (row i).present) (upd_same m.entry page fun _ => Pte.zero)
    table := fun _ _ _ some => by cases some
    entry := fun _ _ _ some => by cases some
    zero := fun _ _ _ => rfl
    apart := fun _ _ => by simp [Space.empty]
    inj := fun _ _ _ _ _ some => by cases some }
  spare := ⟨fresh.tail, fun other mem => ⟨fresh.ne mem, fun _ _ => by simp [Space.empty]⟩⟩
  apart other k := ⟨fun eq => fresh.kept page List.mem_cons_self (eq ▸ k), fun _ _ => by simp [Space.empty]⟩

theorem does_setupkvm_map {link : Link} (fits : link.data < 0xE000) (h : Maps K d Space.empty (m, l))
    {Q : Bool → Mem × Answers → Prop}
    (made : ∀ y rest m', y.Setup → Maps K d y (m', rest) → Kept K m m' → Takes Space.empty y l rest → Q true (m', rest))
    (out : Starved Space.empty l → ∀ s, Q false s) : Does F (setupkvm.map d (kmap link)) (m, l) Q := by
  have text := link.text
  simp only [EXTMEM, PGSIZE] at text
  have start : Space.empty.KernelOnly (fun _ => False) (2 ^ 19) :=
    ⟨fun _ => iff_of_true rfl id, fun _ _ => rfl, fun _ => rfl⟩
  refine does_map_region (v := 0x80000) (k := 0x100) rfl rfl rfl (by decide) (by decide) (by decide) (by decide)
    (by decide) h start (fun y₁ l₁ m₁ kernel₁ maps₁ kept₁ takes₁ => ?_) out
  refine does_map_region (v := 0x80100) (k := link.data - 0x100) rfl ?_ rfl (by omega) (by decide)
    (by omega) (by decide)
    (by decide) maps₁ kernel₁ (fun y₂ l₂ m₂ kernel₂ maps₂ kept₂ takes₂ => ?_) fun starved =>
      out (takes₁.starved starved)
  · simp only [PGSIZE, EXTMEM]
    omega
  have takes₂ := takes₁.trans takes₂
  refine does_map_region (v := 0x80000 + link.data) (k := 0xE000 - link.data) ?_ ?_
    (Nat.mul_div_cancel link.data (by decide : 0 < PGSIZE)) (by omega)
    (by omega) (by omega) (by omega) (by omega) maps₂ kernel₂ (fun y₃ l₃ m₃ kernel₃ maps₃ kept₃ takes₃ => ?_)
    fun starved => out (takes₂.starved starved)
  · simp only [PGSIZE, KERNBASE]
    omega
  · simp only [PGSIZE, PHYSTOP]
    omega
  have takes₃ := takes₂.trans takes₃
  refine does_map_region (v := 0xFE000) (k := 0x2000) rfl rfl rfl (by decide) (by decide) (by decide) (by decide)
    (by omega) maps₃ kernel₃ (fun y₄ l₄ m₄ kernel₄ maps₄ kept₄ takes₄ => ?_) fun starved => out (takes₃.starved starved)
  simp only [false_or] at kernel₄
  exact made y₄ l₄ m₄ ⟨fun v lt => kernel₄.zero v (Or.inl lt), fun i lt => (kernel₄.table i).mpr (by omega),
    fun i ge => (not_congr (kernel₄.table i)).trans (by omega), kernel₄.user⟩ maps₄
    (((kept₁.trans kept₂).trans kept₃).trans kept₄) (takes₃.trans takes₄)

theorem does_setupkvm (fresh : Fresh K m.link l) {Q : Option Nat → Mem × Answers → Prop}
    (made : ∀ d y rest m', some d ∈ l → y.Setup → Maps K d y (m', rest) → Kept K m m' →
      (∃ used : List Nat, l = used.map some ++ rest ∧ used.length ≤ 1025) → Q (some d) (m', rest))
    (out : (∀ ps : List Nat, l = ps.map some → ps.length < 1025) → ∀ s, Q none s) : Does F setupkvm (m, l) Q := by
  unfold setupkvm
  match l with
  | [] => exact does_step rfl (out (fun ps eq => by simp [List.map_eq_nil_iff.mp eq.symm]) _)
  | none :: rest =>
    refine does_step rfl (out (fun ps eq => ?_) _)
    cases ps <;> cases eq
  | some d :: rest =>
    have frame := fresh.frame d List.mem_cons_self
    have fits : m.link.data < 0xE000 := by
      have order := m.link.order
      have low := frame.1
      have high := frame.2
      simp only [PGSIZE, PHYSTOP] at *
      omega
    have kept : Kept K m ⟨m.link, m.freelist.erase d, upd m.entry d fun _ => Pte.zero, upd m.byte d fun _ => 0⟩ := by
      have free := fresh.kept d List.mem_cons_self
      exact ⟨rfl, fun p k => upd_ne _ _ fun eq => free (eq ▸ k), fun p k => upd_ne _ _ fun eq => free (eq ▸ k)⟩
    refine does_step rfl (does_step rfl (does_step rfl (does_bind ?_)))
    refine does_setupkvm_map fits (maps_empty fresh _ _) (fun y rest' m' setup maps kept' takes => ?_)
      fun starved s => ?_
    · obtain ⟨used, rfl, count⟩ := takes
      refine made d y rest' m' List.mem_cons_self setup maps (kept.trans kept') ⟨d :: used, rfl, ?_⟩
      have bound := taken_le y.table 1024
      have zero : Space.empty.count = 0 := taken_none 1024
      rw [List.length_cons]
      unfold Space.count at count zero
      omega
    · refine out (fun ps eq => ?_) s
      obtain ⟨page, ps, rfl⟩ : ∃ a b, ps = a :: b := by
        cases ps with
        | nil => cases eq
        | cons a b => exact ⟨a, b, rfl⟩
      simp only [List.map_cons, List.cons.injEq] at eq
      by_contra long
      rw [eq.2] at starved
      rw [List.length_cons] at long
      exact not_starved (by omega) starved

theorem fill_enough {vs ps : List Nat} (small : ∀ v ∈ vs, v < 2 ^ 20)
    (enough : 1024 + vs.length ≤ ps.length + x.count) :
    (Space.fill vs x (ps.map some)).out = false ∧ (Space.fill vs x (ps.map some)).short = false ∧
      ∃ qs : List Nat, (Space.fill vs x (ps.map some)).rest = qs.map some ∧
        qs.length + (Space.fill vs x (ps.map some)).space.count + vs.length = ps.length + x.count := by
  induction vs generalizing x ps with
  | nil => exact ⟨rfl, rfl, ps, rfl, Nat.add_zero _⟩
  | cons v vs ih =>
    have bound : v / 1024 < 1024 := by
      have := small v List.mem_cons_self
      omega
    have most : x.count ≤ 1024 := taken_le _ _
    rw [List.length_cons] at enough
    cases ps with
    | nil =>
      rw [List.length_nil] at enough
      omega
    | cons mem ps =>
      rw [List.length_cons] at enough
      simp only [List.map_cons, List.length_cons]
      cases provided : x.provide (v / 1024) (ps.map some) with
      | mk r rest =>
        obtain ⟨y, rest⟩ := rest
        cases r with
        | none => exact absurd (starved_provide bound provided) (not_starved (by omega))
        | some t =>
          obtain ⟨used, given, count⟩ := takes_provide bound provided
          have left : rest = (ps.drop used.length).map some := by
            rw [List.map_drop, given, ← List.length_map some, List.drop_left]
          have len := congrArg List.length given
          simp only [List.length_append, List.length_map] at len
          have same : (y.set v ⟨mem, true, true, true⟩).count = y.count := rfl
          rw [Space.fill_mapped provided, left]
          rw [left, List.length_map] at len
          have more : 1024 + vs.length ≤ (ps.drop used.length).length + (y.set v ⟨mem, true, true, true⟩).count := by
            omega
          obtain ⟨out, short, qs, rest_eq, sum⟩ := ih (fun w later => small w (List.mem_cons_of_mem _ later)) more
          exact ⟨out, short, qs, rest_eq, by omega⟩

theorem does_clearpteu {v : Nat} (lt : v < 2 ^ 20) (h : Maps K d x (m, l))
    (missing : x.table (v / 1024) = none → F .clearpteu) {Q : Unit → Mem × Answers → Prop}
    (cleared : ∀ m', Maps K d (x.set v { x.pte v with user := false }) (m', l) → Kept K m m' → Q () (m', l)) :
    Does F (clearpteu d (v * PGSIZE)) (m, l) Q := by
  unfold clearpteu
  refine does_bind (does_walkpgdir lt h.holds (fun t table => ?_) fun none => does_panic (missing none))
  refine does_step rfl ?_
  rw [h.holds.entry v lt t table]
  exact does_step rfl (cleared _ (h.set lt table _) (h.kept_set lt table _))

end Espl.Kernel.Vm
