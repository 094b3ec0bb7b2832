import Mathlib.Data.Finset.Card
import Mathlib.Tactic.Common
import Espl.Kernel.Memory
import Espl.Program.Hoare

/-!
# Address spaces

What a page directory stands for: a map from virtual pages to entries. `walkpgdir` and `mappages` are
specified over that map, for an allocator that may fail at any call and otherwise hands out any page
that is not in use.
-/

namespace Espl.Kernel.Vm

abbrev Answers := List (Option Nat)

/-- Memory with an allocator that answers as told; when the list is empty there is no memory left. -/
def answer : (e : Step) → Mem × Answers → Outcome (Mem × Answers) Panic (Answer e)
  | .kalloc, (m, some page :: rest) => .returned (some page) ({ m with freelist := m.freelist.erase page }, rest)
  | .kalloc, (m, none :: rest) => .returned none (m, rest)
  | .kalloc, (m, []) => .returned none (m, [])
  | e, (m, l) =>
    match act e m with
    | .returned r m' => .returned r (m', l)
    | .panicked p => .panicked p
    | .waiting => .waiting

abbrev answering : Machine signature (Mem × Answers) Panic := ⟨answer⟩

theorem exists_answer {e : Step} {m m' : Mem} {r : Answer e} (done : act e m = .returned r m') (l : Answers) :
    ∃ before, answer e (m, before) = .returned r (m', l) := by
  cases e with
  | kalloc =>
    cases free : m.freelist with
    | nil =>
      simp only [act, free] at done
      cases done
      exact ⟨none :: l, rfl⟩
    | cons page pages =>
      simp only [act, free] at done
      cases done
      refine ⟨some page :: l, ?_⟩
      simp only [answer, free, List.erase_cons_head]
  | _ => exact ⟨l, by simp only [answer, done]⟩

/-- A run of `p` ends, without a panic outside `F`, in a state that meets `Q`. -/
abbrev Does {α : Type} (F : Panic → Prop) (p : V α) (s : Mem × Answers) (Q : α → Mem × Answers → Prop) : Prop :=
  answering.wp (Machine.strict (fun _ => True) F) p s Q

section Rules

variable {α β : Type} {F : Panic → Prop} {Q : α → Mem × Answers → Prop} {s s' : Mem × Answers}

theorem does_step {e : Step} {next : Answer e → V α} {r : Answer e} (act : answer e s = .returned r s')
    (rest : Does F (next r) s' Q) : Does F (step e >>= next) s Q :=
  Machine.wp_returns trivial act rest

theorem does_bind {p : V β} {next : β → V α} (h : Does F p s fun b t => Does F (next b) t Q) :
    Does F (p >>= next) s Q :=
  Machine.wp_then h

theorem does_mono {R : α → Mem × Answers → Prop} {p : V α} (h : Does F p s Q) (imp : ∀ a t, Q a t → R a t) :
    Does F p s R :=
  Machine.wp_mono h imp

theorem does_panic {p : Panic} (fault : F p) : Does F (panic p : V α) s Q := Machine.wp_panics trivial rfl fault

theorem does_anything (fault : ∀ q, F q) (p : V α) (s : Mem × Answers) : Does F p s fun _ _ => True := by
  induction p generalizing s with
  | done => trivial
  | step e next ih =>
    refine ⟨trivial, fun _ => ?_⟩
    cases act : answering.act e s with
    | returned r t => exact ih r t
    | panicked q => exact fault q
    | waiting =>
      obtain ⟨m, l⟩ := s
      change answer e (m, l) = .waiting at act
      cases e with
      | kalloc =>
        cases l with
        | nil => cases act
        | cons a => cases a <;> cases act
      | kfree page =>
        simp only [answer, Vm.act] at act
        split at act <;> try cases act
        rename_i h
        split at h <;> cases h
      | _ => cases act

end Rules

/-- An address space: the page tables by directory index and the entries by virtual page, where
virtual page `v` is entry `v % 1024` of table `v / 1024`. -/
structure Space where
  table : Nat → Option Nat
  pte : Nat → Pte

def Space.empty : Space := ⟨fun _ => none, fun _ => Pte.zero⟩

def Space.grow (x : Space) (i page : Nat) : Space := { x with table := upd x.table i (some page) }

def Space.set (x : Space) (v : Nat) (e : Pte) : Space := { x with pte := upd x.pte v e }

@[simp] theorem Space.grow_table_same (x : Space) (i page : Nat) : (x.grow i page).table i = some page := upd_same _ _ _

theorem Space.grow_table_ne (x : Space) {i j : Nat} (page : Nat) (ne : j ≠ i) : (x.grow i page).table j = x.table j :=
  upd_ne _ _ ne

@[simp] theorem Space.set_table (x : Space) (v : Nat) (e : Pte) : (x.set v e).table = x.table := rfl

@[simp] theorem Space.set_pte_same (x : Space) (v : Nat) (e : Pte) : (x.set v e).pte v = e := upd_same _ _ _

theorem Space.set_pte_ne (x : Space) {v w : Nat} (e : Pte) (ne : w ≠ v) : (x.set v e).pte w = x.pte w := upd_ne _ _ ne

def Space.Apart (x : Space) (d page : Nat) : Prop := page ≠ d ∧ ∀ i < 1024, x.table i ≠ some page

/-- Directory `d` of memory stands for `x`, with tables that are pages of their own. -/
structure Holds (m : Mem) (d : Nat) (x : Space) : Prop where
  missing : ∀ i < 1024, x.table i = none → (m.entry d i).present = false
  table : ∀ i < 1024, ∀ t, x.table i = some t → (m.entry d i).present = true ∧ (m.entry d i).page = t
  entry : ∀ v < 2 ^ 20, ∀ t, x.table (v / 1024) = some t → m.entry t (v % 1024) = x.pte v
  zero : ∀ v < 2 ^ 20, x.table (v / 1024) = none → x.pte v = Pte.zero
  apart : ∀ i < 1024, x.table i ≠ some d
  inj : ∀ i < 1024, ∀ j < 1024, ∀ t, x.table i = some t → x.table j = some t → i = j

def Frame (link : Link) (page : Nat) : Prop := link.last ≤ page * PGSIZE ∧ page * PGSIZE < PHYSTOP

/-- What `kalloc` will return are frames, no two the same, that have no use in `K`. -/
structure Fresh (K : Nat → Prop) (link : Link) (l : Answers) : Prop where
  distinct : l.Pairwise fun a b => a ≠ none → a ≠ b
  frame : ∀ page, some page ∈ l → Frame link page
  kept : ∀ page, some page ∈ l → ¬ K page

structure Spare (K : Nat → Prop) (d : Nat) (x : Space) (link : Link) (l : Answers) : Prop extends Fresh K link l where
  apart : ∀ page, some page ∈ l → x.Apart d page

/-- The space `x` of `d` in a memory whose pages in `K` have another use. -/
structure Maps (K : Nat → Prop) (d : Nat) (x : Space) (s : Mem × Answers) : Prop where
  holds : Holds s.1 d x
  spare : Spare K d x s.1.link s.2
  apart : ∀ page, K page → x.Apart d page

structure Kept (K : Nat → Prop) (m m' : Mem) : Prop where
  link : m'.link = m.link
  entry : ∀ page, K page → m'.entry page = m.entry page
  byte : ∀ page, K page → m'.byte page = m.byte page

theorem Kept.refl (K : Nat → Prop) (m : Mem) : Kept K m m := ⟨rfl, fun _ _ => rfl, fun _ _ => rfl⟩

theorem Kept.trans {K : Nat → Prop} {m₁ m₂ m₃ : Mem} (h : Kept K m₁ m₂) (h' : Kept K m₂ m₃) : Kept K m₁ m₃ :=
  ⟨h'.link.trans h.link, fun page k => (h'.entry page k).trans (h.entry page k),
    fun page k => (h'.byte page k).trans (h.byte page k)⟩

theorem Kept.mono {K K' : Nat → Prop} {m m' : Mem} (h : Kept K' m m') (sub : ∀ page, K page → K' page) : Kept K m m' :=
  ⟨h.link, fun page k => h.entry page (sub page k), fun page k => h.byte page (sub page k)⟩

section Pages

theorem pdx_page {v : Nat} (lt : v < 2 ^ 20) : pdx (v * PGSIZE) = v / 1024 := by
  simp only [pdx, PGSIZE, NPDENTRIES]
  omega

theorem ptx_page (v : Nat) : ptx (v * PGSIZE) = v % 1024 := by
  simp only [ptx, PGSIZE, NPTENTRIES]
  omega

theorem page_ext {v w : Nat} (hi : v / 1024 = w / 1024) (lo : v % 1024 = w % 1024) : v = w := by omega

end Pages

variable {K : Nat → Prop} {d : Nat} {x : Space} {m m' : Mem} {l rest : Answers} {F : Panic → Prop}

theorem Fresh.tail {link : Link} {a : Option Nat} (h : Fresh K link (a :: l)) : Fresh K link l :=
  ⟨(List.pairwise_cons.mp h.distinct).2, fun page mem => h.frame page (List.mem_cons_of_mem _ mem),
    fun page mem => h.kept page (List.mem_cons_of_mem _ mem)⟩

theorem Spare.tail {link : Link} {a : Option Nat} (h : Spare K d x link (a :: l)) : Spare K d x link l :=
  ⟨h.toFresh.tail, fun page mem => h.apart page (List.mem_cons_of_mem _ mem)⟩

theorem Fresh.ne {link : Link} {page other : Nat} (h : Fresh K link (some page :: l)) (mem : some other ∈ l) :
    other ≠ page := by
  rintro rfl
  exact (List.pairwise_cons.mp h.distinct).1 (some other) mem (by simp) rfl

theorem Holds.not_present (h : Holds m d x) {v : Nat} (lt : v < 2 ^ 20) (none : x.table (v / 1024) = none) :
    ¬ (m.entry d (v / 1024)).present = true := by
  simp [h.missing (v / 1024) (by omega) none]

theorem Holds.pte_eq (h : Holds m d x) {v : Nat} (lt : v < 2 ^ 20) :
    x.pte v = if (m.entry d (v / 1024)).present then m.entry (m.entry d (v / 1024)).page (v % 1024) else Pte.zero := by
  cases table : x.table (v / 1024) with
  | none => rw [if_neg (h.not_present lt table), h.zero v lt table]
  | some t =>
    obtain ⟨present, page⟩ := h.table _ (by omega) t table
    rw [if_pos present, page, h.entry v lt t table]

theorem Holds.congr (h : Holds m d x) (dir : m'.entry d = m.entry d)
    (tables : ∀ i < 1024, ∀ t, x.table i = some t → m'.entry t = m.entry t) : Holds m' d x where
  missing i lt none := by rw [dir]; exact h.missing i lt none
  table i lt t some := by rw [dir]; exact h.table i lt t some
  entry v lt t some := by
    rw [tables _ (by omega) t some]
    exact h.entry v lt t some
  zero := h.zero
  apart := h.apart
  inj := h.inj

theorem Holds.kept (h : Holds m d x) (keep : Kept K m m') (dir : K d)
    (tables : ∀ i < 1024, ∀ t, x.table i = some t → K t) : Holds m' d x :=
  h.congr (keep.entry d dir) fun i lt t some => keep.entry t (tables i lt t some)

theorem Holds.elsewhere (h : Holds m d x) {page : Nat} (apart : x.Apart d page)
    (same : ∀ p, p ≠ page → m'.entry p = m.entry p) : Holds m' d x :=
  h.congr (same d (Ne.symm apart.1)) fun i lt t some => same t fun eq => apart.2 i lt (eq ▸ some)

theorem Holds.grow (h : Holds m d x) {i page : Nat} (lt : i < 1024) (missing : x.table i = none)
    (apart : x.Apart d page) {e : Pte} (e_present : e.present = true) (e_page : e.page = page)
    (dir : m'.entry d = upd (m.entry d) i e) (clear : m'.entry page = fun _ => Pte.zero)
    (same : ∀ p, p ≠ d → p ≠ page → m'.entry p = m.entry p) : Holds m' d (x.grow i page) where
  missing j lj none := by
    by_cases eq : j = i
    · subst eq
      simp at none
    · rw [Space.grow_table_ne _ _ eq] at none
      rw [dir, upd_ne _ _ eq]
      exact h.missing j lj none
  table j lj t some := by
    by_cases eq : j = i
    · subst eq
      simp only [Space.grow_table_same, Option.some.injEq] at some
      rw [dir, upd_same, e_page]
      exact ⟨e_present, some⟩
    · rw [Space.grow_table_ne _ _ eq] at some
      rw [dir, upd_ne _ _ eq]
      exact h.table j lj t some
  entry v lv t some := by
    by_cases eq : v / 1024 = i
    · simp only [eq, Space.grow_table_same, Option.some.injEq] at some
      rw [← some, clear]
      exact (h.zero v lv (eq ▸ missing)).symm
    · rw [Space.grow_table_ne _ _ eq] at some
      rw [same t (fun e => h.apart _ (by omega) (e ▸ some)) fun e => apart.2 _ (by omega) (e ▸ some)]
      exact h.entry v lv t some
  zero v lv none := by
    by_cases eq : v / 1024 = i
    · simp [eq] at none
    · rw [Space.grow_table_ne _ _ eq] at none
      exact h.zero v lv none
  apart j lj := by
    by_cases eq : j = i
    · subst eq
      simp only [Space.grow_table_same, ne_eq, Option.some.injEq]
      exact apart.1
    · rw [Space.grow_table_ne _ _ eq]
      exact h.apart j lj
  inj j lj k lk t hj hk := by
    simp only [Space.grow, upd] at hj hk
    split at hj <;> split at hk
    · omega
    · cases hj
      exact absurd hk (apart.2 k lk)
    · cases hk
      exact absurd hj (apart.2 j lj)
    · exact h.inj j lj k lk t hj hk

theorem Holds.set (h : Holds m d x) {v t : Nat} (lt : v < 2 ^ 20) (some : x.table (v / 1024) = some t) {e : Pte}
    (entry : m'.entry = upd m.entry t (upd (m.entry t) (v % 1024) e)) : Holds m' d (x.set v e) where
  missing i li none := by
    rw [entry, upd_ne _ _ fun eq => h.apart _ (by omega) (eq ▸ some)]
    exact h.missing i li none
  table i li t' some' := by
    rw [entry, upd_ne _ _ fun eq => h.apart _ (by omega) (eq ▸ some)]
    exact h.table i li t' some'
  entry w lw t' some' := by
    rw [Space.set_table] at some'
    by_cases eq : t' = t
    · subst eq
      have hi : w / 1024 = v / 1024 := h.inj _ (by omega) _ (by omega) t' some' some
      rw [entry, upd_same]
      by_cases lo : w % 1024 = v % 1024
      · have eq := page_ext hi lo
        subst eq
        rw [upd_same, Space.set_pte_same]
      · rw [upd_ne _ _ lo, Space.set_pte_ne _ _ fun same => lo (by rw [same])]
        exact h.entry w lw t' some'
    · rw [entry, upd_ne _ _ eq, Space.set_pte_ne _ _ fun same => eq (Option.some.inj (by rw [← some', same, some]))]
      exact h.entry w lw t' some'
  zero w lw none := by
    rw [Space.set_table] at none
    rw [Space.set_pte_ne _ _ fun same => by rw [same, some] at none; cases none]
    exact h.zero w lw none
  apart := h.apart
  inj := h.inj

theorem Maps.take {page : Nat} (h : Maps K d x (m, some page :: rest)) :
    Maps (fun p => K p ∨ p = page) d x ({ m with freelist := m.freelist.erase page }, rest) where
  holds := h.holds.congr rfl fun _ _ _ _ => rfl
  spare := { h.spare.tail with
    kept := fun p mem k => k.elim (h.spare.tail.kept p mem) (h.spare.ne mem) }
  apart p k := by
    rcases k with k | rfl
    · exact h.apart p k
    · exact h.spare.apart p List.mem_cons_self

theorem Maps.tail {a : Option Nat} (h : Maps K d x (m, a :: rest)) : Maps K d x (m, rest) :=
  ⟨h.holds, h.spare.tail, h.apart⟩

theorem Maps.mono {K' : Nat → Prop} {s : Mem × Answers} (h : Maps K' d x s) (sub : ∀ page, K page → K' page) :
    Maps K d x s :=
  ⟨h.holds, { h.spare with kept := fun page mem k => h.spare.kept page mem (sub page k) },
    fun page k => h.apart page (sub page k)⟩

theorem Maps.rewrite {page : Nat} (h : Maps K d x (m, l)) (mine : K page) (link : m'.link = m.link)
    (same : ∀ p, p ≠ page → m'.entry p = m.entry p) : Maps K d x (m', l) where
  holds := h.holds.elsewhere (h.apart page mine) same
  spare := by
    change Spare K d x m'.link l
    rw [link]
    exact h.spare
  apart := h.apart

theorem Maps.set {v t : Nat} (h : Maps K d x (m, l)) (lt : v < 2 ^ 20) (some : x.table (v / 1024) = some t) (e : Pte) :
    Maps K d (x.set v e) ({ m with entry := upd m.entry t (upd (m.entry t) (v % 1024) e) }, l) :=
  ⟨h.holds.set lt some rfl, { h.spare with }, h.apart⟩

theorem Maps.kept_set {v t : Nat} (h : Maps K d x (m, l)) (lt : v < 2 ^ 20) (some : x.table (v / 1024) = some t)
    (f : Nat → Pte) :
    Kept K m { m with entry := upd m.entry t f } where
  link := rfl
  entry page k := upd_ne _ _ fun eq => (h.apart page k).2 _ (by omega) (eq ▸ some)
  byte _ _ := rfl

theorem does_walkpgdir {v : Nat} (lt : v < 2 ^ 20) (h : Holds m d x) {Q : Option (Nat × Nat) → Mem × Answers → Prop}
    (found : ∀ t, x.table (v / 1024) = some t → Q (some (t, v % 1024)) (m, l))
    (missing : x.table (v / 1024) = none → Q none (m, l)) : Does F (walkpgdir d (v * PGSIZE) false) (m, l) Q := by
  unfold walkpgdir
  refine does_step rfl ?_
  rw [pdx_page lt, ptx_page]
  cases some : x.table (v / 1024) with
  | none =>
    rw [if_neg (h.not_present lt some), if_pos rfl]
    exact missing some
  | some t =>
    obtain ⟨present, page⟩ := h.table _ (by omega) t some
    rw [if_pos present, page]
    exact found t some

/-- The table for directory index `i`: the one there is, or the next page `kalloc` hands out. -/
def Space.provide (x : Space) (i : Nat) (l : Answers) : Option Nat × Space × Answers :=
  match x.table i, l with
  | some t, l => (some t, x, l)
  | none, some t :: rest => (some t, x.grow i t, rest)
  | none, l => (none, x, l.tail)

theorem Maps.grow {i t : Nat} (h : Maps K d x (m, some t :: rest)) (lt : i < 1024) (none : x.table i = none)
    (free : List Nat) (byte : Nat → Nat → UInt8) {e : Pte} (e_present : e.present = true) (e_page : e.page = t) :
    Maps K d (x.grow i t)
      (⟨m.link, free, upd (upd m.entry t fun _ => Pte.zero) d (upd (upd m.entry t (fun _ => Pte.zero) d) i e),
        byte⟩, rest) := by
  have apart := h.spare.apart t List.mem_cons_self
  have away : ∀ page, x.Apart d page → page ≠ t → (x.grow i t).Apart d page := by
    intro page old ne
    refine ⟨old.1, fun j lj => ?_⟩
    simp only [Space.grow, upd]
    split
    · exact fun eq => ne (Option.some.inj eq).symm
    · exact old.2 j lj
  refine ⟨?_, ?_, fun page k => away page (h.apart page k) fun eq => h.spare.kept t List.mem_cons_self (eq ▸ k)⟩
  · refine h.holds.grow lt none apart e_present e_page ?_ ?_ fun p nd nt => ?_
    · simp only [upd_same, upd_ne _ _ (Ne.symm apart.1)]
    · simp only [upd_ne _ _ apart.1, upd_same]
    · simp only [upd_ne _ _ nd, upd_ne _ _ nt]
  · exact { h.spare.tail with apart := fun page mem => away page (h.spare.tail.apart page mem) (h.spare.ne mem) }

theorem does_walkpgdir_alloc {v : Nat} (lt : v < 2 ^ 20) (h : Maps K d x (m, l))
    {Q : Option (Nat × Nat) → Mem × Answers → Prop}
    (found : ∀ t y rest m', x.provide (v / 1024) l = (some t, y, rest) → y.table (v / 1024) = some t → y.pte = x.pte →
      Maps K d y (m', rest) → Kept K m m' → Q (some (t, v % 1024)) (m', rest))
    (out : ∀ rest, x.provide (v / 1024) l = (none, x, rest) → Maps K d x (m, rest) → Q none (m, rest)) :
    Does F (walkpgdir d (v * PGSIZE) true) (m, l) Q := by
  unfold walkpgdir
  refine does_step rfl ?_
  rw [pdx_page lt, ptx_page]
  cases some : x.table (v / 1024) with
  | some t =>
    obtain ⟨present, page⟩ := h.holds.table _ (by omega) t some
    rw [if_pos present, page]
    refine found t x l m ?_ some rfl h (Kept.refl K m)
    simp only [Space.provide, some]
  | none =>
    rw [if_neg (h.holds.not_present lt some), if_neg (by simp)]
    match l with
    | [] =>
      refine does_step rfl ?_
      refine out [] ?_ h
      simp only [Space.provide, some, List.tail_nil]
    | none :: rest =>
      refine does_step rfl ?_
      refine out rest ?_ h.tail
      simp only [Space.provide, some, List.tail_cons]
    | .some t :: rest =>
      have apart := h.spare.apart t List.mem_cons_self
      have free := h.spare.kept t List.mem_cons_self
      refine does_step rfl (does_step rfl (does_step rfl ?_))
      refine found t (x.grow (v / 1024) t) rest _ ?_ ?_ rfl (h.grow (by omega) some _ _ rfl rfl)
        ⟨rfl, fun page k => ?_, fun page k => ?_⟩
      · simp only [Space.provide, some]
      · exact Space.grow_table_same _ _ _
      · have nd := (h.apart page k).1
        have nt : page ≠ t := fun eq => free (eq ▸ k)
        simp only [upd_ne _ _ nd, upd_ne _ _ nt]
      · exact upd_ne _ _ fun eq => free (eq ▸ k)

theorem does_mappages_one {v page : Nat} {w u : Bool} (lt : v < 2 ^ 20) (h : Maps K d x (m, l))
    (absent : (x.pte v).present = false) {Q : Int → Mem × Answers → Prop}
    (mapped : ∀ t y rest m', x.provide (v / 1024) l = (some t, y, rest) → y.pte = x.pte →
      Maps K d (y.set v ⟨page, true, w, u⟩) (m', rest) → Kept K m m' → Q 0 (m', rest))
    (out : ∀ rest, x.provide (v / 1024) l = (none, x, rest) → Maps K d x (m, rest) → Q (-1) (m, rest)) :
    Does F (mappages d (v * PGSIZE) PGSIZE page w u) (m, l) Q := by
  have first : pgRoundDown (v * PGSIZE) = v * PGSIZE := by
    simp only [pgRoundDown, PGSIZE]
    omega
  have rounds : (pgRoundDown ((v * PGSIZE + PGSIZE - 1) % 2 ^ 32) + 2 ^ 32 - v * PGSIZE) % 2 ^ 32 / PGSIZE + 1 = 1 := by
    simp only [pgRoundDown, PGSIZE]
    omega
  unfold mappages
  rw [first, rounds]
  unfold mappages.loop
  refine does_bind (does_walkpgdir_alloc lt h ?_ fun rest provide maps => out rest provide maps)
  intro t y rest m₁ provide table pte maps kept
  refine does_step rfl ?_
  rw [maps.holds.entry v lt t table, pte, if_neg (by simp [absent])]
  refine does_step rfl ?_
  exact mapped t y rest _ provide pte (maps.set lt table _) (kept.trans (maps.kept_set lt table _))

end Espl.Kernel.Vm
