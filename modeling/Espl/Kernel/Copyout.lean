import Espl.Kernel.Uvm

/-!
# `copyout`

For any directory in memory: what `uva2ka` finds at a virtual page, and what `copyout` stores.
-/

namespace Espl.Kernel.Vm

def hasTable (m : Mem) (d v : Nat) : Bool := (m.entry d (v / 1024)).present

def entryAt (m : Mem) (d v : Nat) : Pte := m.entry (m.entry d (v / 1024)).page (v % 1024)

def accessible (m : Mem) (d v : Nat) : Bool := hasTable m d v && (entryAt m d v).present && (entryAt m d v).user

/-- The virtual pages of `[va, va + len)`, in order; addresses wrap at the end of memory. -/
def span (va len : Nat) : List Nat :=
  if len = 0 then []
  else (List.range ((va % PGSIZE + len + PGSIZE - 1) / PGSIZE)).map fun i => (va / PGSIZE + i) % 2 ^ 20

/-- Memory after the bytes are stored one by one from `va` on, where `page` says which page holds a
virtual page. -/
def poke (page : Nat → Nat) (va : Nat) : List UInt8 → (Nat → Nat → UInt8) → Nat → Nat → UInt8
  | [], byte => byte
  | b :: bs, byte =>
    poke page ((va + 1) % 2 ^ 32) bs
      (upd byte (page (va / PGSIZE)) (upd (byte (page (va / PGSIZE))) (va % PGSIZE) b))

/-- The pages that a range needs before the first that is out of reach, and that one, have tables. -/
def Guarded (m : Mem) (d va len : Nat) : Prop :=
  ∀ v, (span va len).find? (fun v => !accessible m d v) = some v → hasTable m d v = true

def CopiesOut (d va : Nat) (p : List UInt8) (m : Mem) (r : Int) (m' : Mem) : Prop :=
  (r = 0 ∧ (∀ v ∈ span va p.length, accessible m d v = true) ∧
    m' = { m with byte := poke (fun v => (entryAt m d v).page) va p m.byte }) ∨
  (r = -1 ∧ (∃ v ∈ span va p.length, accessible m d v = false) ∧
    ∃ byte, m' = { m with byte := byte } ∧ ∀ page, byte page ≠ m.byte page →
      ∃ v ∈ span va p.length, accessible m d v = true ∧ (entryAt m d v).page = page)

section Span

variable {va len : Nat}

theorem span_nil (va : Nat) : span va 0 = [] := if_pos rfl

theorem span_cons (pos : 0 < len) (lt : va < 2 ^ 32) :
    span va len = va / PGSIZE :: span ((va / PGSIZE * PGSIZE + PGSIZE) % 2 ^ 32)
      (len - min (PGSIZE - va % PGSIZE) len) := by
  have first : (va / PGSIZE + 0) % 2 ^ 20 = va / PGSIZE := by
    simp only [PGSIZE]
    omega
  by_cases inside : len ≤ PGSIZE - va % PGSIZE
  · have one : (va % PGSIZE + len + PGSIZE - 1) / PGSIZE = 1 := by
      simp only [PGSIZE] at *
      omega
    rw [Nat.min_eq_right inside, Nat.sub_self, span_nil, span, if_neg (by omega), one]
    simp only [List.range_one, List.map_cons, List.map_nil, first]
  · have rest : len - min (PGSIZE - va % PGSIZE) len = len - (PGSIZE - va % PGSIZE) := by omega
    have more : (va % PGSIZE + len + PGSIZE - 1) / PGSIZE =
        (((va / PGSIZE * PGSIZE + PGSIZE) % 2 ^ 32) % PGSIZE + (len - (PGSIZE - va % PGSIZE)) + PGSIZE - 1) /
          PGSIZE + 1 := by
      simp only [PGSIZE] at *
      omega
    rw [rest, span, span, if_neg (by omega), if_neg (by omega), more, List.range_succ_eq_map]
    simp only [List.map_cons, List.map_map, first, List.cons.injEq, true_and]
    refine List.map_congr_left fun i _ => ?_
    simp only [PGSIZE, Function.comp]
    omega

theorem mem_span {a : Nat} (lo : va ≤ a) (hi : a < va + len) : a / PGSIZE % 2 ^ 20 ∈ span va len := by
  rw [span, if_neg (by omega), List.mem_map]
  simp only [PGSIZE]
  exact ⟨a / 4096 - va / 4096, List.mem_range.mpr (by omega), by omega⟩

theorem span_inside (pos : 0 < len) (lt : va < 2 ^ 32) (fits : va % PGSIZE + len ≤ PGSIZE) :
    span va len = [va / PGSIZE] := by
  rw [span_cons pos lt, Nat.min_eq_right (by omega), Nat.sub_self, span_nil]

end Span

section Holds

variable {m : Mem} {d : Nat} {x : Space} {v : Nat}

theorem hasTable_eq (h : Holds m d x) (lt : v < 2 ^ 20) : hasTable m d v = (x.table (v / 1024)).isSome := by
  unfold hasTable
  cases some : x.table (v / 1024) with
  | none => exact h.missing _ (by omega) some
  | some t => exact (h.table _ (by omega) t some).1

theorem entryAt_eq (h : Holds m d x) (lt : v < 2 ^ 20) (table : x.table (v / 1024) ≠ none) :
    entryAt m d v = x.pte v := by
  unfold entryAt
  cases some : x.table (v / 1024) with
  | none => exact absurd some table
  | some t => rw [(h.table _ (by omega) t some).2, h.entry v lt t some]

theorem accessible_eq (h : Holds m d x) (lt : v < 2 ^ 20) :
    accessible m d v = ((x.pte v).present && (x.pte v).user) := by
  unfold accessible
  rw [hasTable_eq h lt]
  cases some : x.table (v / 1024) with
  | none =>
    rw [h.zero v lt some]
    rfl
  | some t => rw [entryAt_eq h lt (by rw [some]; exact Option.some_ne_none t), Option.isSome_some, Bool.true_and]

theorem entryAt_accessible (h : Holds m d x) (lt : v < 2 ^ 20) (ok : accessible m d v = true) :
    entryAt m d v = x.pte v := by
  refine entryAt_eq h lt fun missing => ?_
  rw [accessible, hasTable_eq h lt, missing] at ok
  cases ok

end Holds

theorem poke_append (page : Nat → Nat) {va : Nat} (lt : va < 2 ^ 32) (p q : List UInt8) (byte : Nat → Nat → UInt8) :
    poke page va (p ++ q) byte = poke page ((va + p.length) % 2 ^ 32) q (poke page va p byte) := by
  induction p generalizing va byte with
  | nil =>
    rw [List.length_nil, Nat.add_zero, Nat.mod_eq_of_lt lt]
    rfl
  | cons b bs ih =>
    have on : ((va + 1) % 2 ^ 32 + bs.length) % 2 ^ 32 = (va + (b :: bs).length) % 2 ^ 32 := by
      rw [List.length_cons]
      omega
    simp only [List.cons_append, poke]
    rw [ih (Nat.mod_lt _ (by decide)), on]

theorem poke_store (page : Nat → Nat) {va : Nat} (lt : va < 2 ^ 32) {src : List UInt8} (byte : Nat → Nat → UInt8)
    (fits : va % PGSIZE + src.length ≤ PGSIZE) :
    poke page va src byte = upd byte (page (va / PGSIZE)) fun k =>
      if va % PGSIZE ≤ k ∧ k < va % PGSIZE + src.length then src.getD (k - va % PGSIZE) 0
      else byte (page (va / PGSIZE)) k := by
  induction src generalizing va byte with
  | nil =>
    have none_there : ∀ k, ¬ (va % PGSIZE ≤ k ∧ k < va % PGSIZE + ([] : List UInt8).length) := by
      intro k
      rw [List.length_nil]
      omega
    simp only [none_there, if_false]
    exact (upd_self byte _).symm
  | cons b bs ih =>
    simp only [poke]
    rw [List.length_cons] at fits ⊢
    cases bs with
    | nil =>
      simp only [poke]
      congr 1
      funext k
      simp only [upd, List.length_nil]
      by_cases here : k = va % PGSIZE
      · rw [if_pos here, if_pos (by omega), here, Nat.sub_self]
        rfl
      · rw [if_neg here, if_neg (by omega)]
    | cons c cs =>
      -- the next byte is on the same page
      rw [List.length_cons] at fits
      have next : (va + 1) % 2 ^ 32 = va + 1 := by
        simp only [PGSIZE] at fits
        omega
      have same_page : (va + 1) / PGSIZE = va / PGSIZE := by
        simp only [PGSIZE] at fits ⊢
        omega
      have same_off : (va + 1) % PGSIZE = va % PGSIZE + 1 := by
        simp only [PGSIZE] at fits ⊢
        omega
      rw [next, ih (by omega) _ (by rw [same_off, List.length_cons]; omega), same_page, same_off, upd_upd]
      congr 1
      funext k
      rw [upd_same, List.length_cons]
      by_cases here : k = va % PGSIZE
      · rw [if_neg (by omega), if_pos (by omega), here, upd_same, Nat.sub_self]
        rfl
      · rw [upd_ne _ _ here]
        by_cases later : va % PGSIZE + 1 ≤ k ∧ k < va % PGSIZE + 1 + (cs.length + 1)
        · rw [if_pos later, if_pos (by omega), show k - va % PGSIZE = k - (va % PGSIZE + 1) + 1 by omega]
          rfl
        · rw [if_neg later, if_neg (by omega)]

variable {m : Mem} {l : Answers} {d v : Nat} {F : Panic → Prop}

theorem does_uva2ka (lt : v < 2 ^ 20) {Q : Option Nat → Mem × Answers → Prop}
    (found : hasTable m d v = true → Q (if accessible m d v then some (entryAt m d v).page else none) (m, l))
    (missing : hasTable m d v = false → F .trap) : Does F (uva2ka d (v * PGSIZE)) (m, l) Q := by
  unfold uva2ka walkpgdir
  refine does_bind (does_step rfl ?_)
  rw [pdx_page lt, ptx_page]
  cases table : hasTable m d v with
  | false =>
    have absent : ¬ (m.entry d (v / 1024)).present = true := by
      rw [hasTable] at table
      simp [table]
    rw [if_neg absent, if_pos rfl]
    exact ⟨trivial, fun _ => missing table⟩
  | true =>
    have present : (m.entry d (v / 1024)).present = true := table
    rw [if_pos present]
    refine does_step rfl ?_
    have seen := found table
    simp only [accessible, table, Bool.true_and] at seen
    have same : (if (entryAt m d v).present = false then none
        else if (entryAt m d v).user = false then none else some (entryAt m d v).page) =
        if ((entryAt m d v).present && (entryAt m d v).user) = true then some (entryAt m d v).page else none := by
      cases (entryAt m d v).present <;> cases (entryAt m d v).user <;> rfl
    rw [← same] at seen
    exact seen

theorem guarded_next {va len : Nat} (pos : 0 < len) (lt : va < 2 ^ 32) (ok : accessible m d (va / PGSIZE) = true) :
    Guarded m d va len ↔
      Guarded m d ((va / PGSIZE * PGSIZE + PGSIZE) % 2 ^ 32) (len - min (PGSIZE - va % PGSIZE) len) := by
  unfold Guarded
  rw [span_cons pos lt, List.find?_cons_of_neg (by simp [ok])]

theorem guarded_here {va len : Nat} (pos : 0 < len) (lt : va < 2 ^ 32) (bad : accessible m d (va / PGSIZE) = false) :
    Guarded m d va len ↔ hasTable m d (va / PGSIZE) = true := by
  unfold Guarded
  rw [span_cons pos lt, List.find?_cons_of_pos (by simp [bad])]
  simp

theorem CopiesOut.cons {va : Nat} {p : List UInt8} {r : Int} {m' : Mem} (pos : 0 < p.length) (lt : va < 2 ^ 32)
    (ok : accessible m d (va / PGSIZE) = true) {n : Nat} (chunk : n = min (PGSIZE - va % PGSIZE) p.length)
    (h : CopiesOut d ((va / PGSIZE * PGSIZE + PGSIZE) % 2 ^ 32) (p.drop n)
      { m with byte := poke (fun v => (entryAt m d v).page) va (p.take n) m.byte } r m') :
    CopiesOut d va p m r m' := by
  have fits : va % PGSIZE + (p.take n).length ≤ PGSIZE := by
    rw [List.length_take]
    have : va % PGSIZE < PGSIZE := Nat.mod_lt _ (by decide)
    omega
  have here : va / PGSIZE ∈ span va p.length := by
    rw [span_cons pos lt]
    exact List.mem_cons_self
  have later : ∀ v ∈ span ((va / PGSIZE * PGSIZE + PGSIZE) % 2 ^ 32) (p.drop n).length, v ∈ span va p.length := by
    intro v mem
    rw [span_cons pos lt, ← chunk, ← List.length_drop]
    exact List.mem_cons_of_mem _ mem
  obtain ⟨rfl, all, rfl⟩ | ⟨rfl, ⟨v, mem, bad⟩, byte, rfl, only⟩ := h
  · refine Or.inl ⟨rfl, fun v mem => ?_, ?_⟩
    · rw [span_cons pos lt, ← chunk, ← List.length_drop] at mem
      rcases List.mem_cons.mp mem with rfl | mem
      · exact ok
      · exact all v mem
    · have split : poke (fun v => (entryAt m d v).page) va p m.byte =
          poke (fun v => (entryAt m d v).page) ((va / PGSIZE * PGSIZE + PGSIZE) % 2 ^ 32) (p.drop n)
            (poke (fun v => (entryAt m d v).page) va (p.take n) m.byte) := by
        conv => lhs; rw [← List.take_append_drop n p, poke_append _ lt]
        by_cases last : p.length ≤ n
        · simp only [List.drop_eq_nil_of_le last, poke]
        · have next : (va + (p.take n).length) % 2 ^ 32 = (va / PGSIZE * PGSIZE + PGSIZE) % 2 ^ 32 := by
            have whole : n = PGSIZE - va % PGSIZE := by omega
            have inside : va % PGSIZE < PGSIZE := Nat.mod_lt _ (by decide)
            have parts : va / PGSIZE * PGSIZE + va % PGSIZE = va := Nat.div_add_mod' va PGSIZE
            rw [List.length_take, Nat.min_eq_left (by omega), whole]
            congr 1
            omega
          rw [next]
      rw [split]
      rfl
  · refine Or.inr ⟨rfl, ⟨v, later v mem, bad⟩, byte, rfl, fun page changed => ?_⟩
    by_cases first : byte page = poke (fun v => (entryAt m d v).page) va (p.take n) m.byte page
    · refine ⟨va / PGSIZE, here, ok, ?_⟩
      by_contra other
      rw [first, poke_store _ lt _ fits, upd_ne _ _ (Ne.symm other)] at changed
      exact changed rfl
    · obtain ⟨v, mem, fine, eq⟩ := only page first
      exact ⟨v, later v mem, fine, eq⟩

theorem does_copyout_loop (fuel : Nat) {va : Nat} (lt : va < 2 ^ 32) (buf : List UInt8) (enough : buf.length ≤ fuel)
    {G : Prop} (guarded : G ↔ Guarded m d va buf.length) :
    Does (fun q => q = .trap ∧ ¬ G) (copyout.loop d va buf fuel) (m, l) fun r s =>
      G ∧ s.2 = l ∧ CopiesOut d va buf m r s.1 := by
  induction fuel generalizing va buf m with
  | zero =>
    obtain rfl := List.eq_nil_of_length_eq_zero (Nat.le_zero.mp enough)
    refine ⟨guarded.mpr fun v found => ?_, rfl, Or.inl ⟨rfl, fun v mem => ?_, rfl⟩⟩
    · cases found
    · cases mem
  | succ fuel ih =>
    unfold copyout.loop
    by_cases empty : buf.length = 0
    · obtain rfl := List.eq_nil_of_length_eq_zero empty
      refine ⟨guarded.mpr fun v found => ?_, rfl, Or.inl ⟨rfl, fun v mem => ?_, rfl⟩⟩
      · cases found
      · cases mem
    · have pos : 0 < buf.length := by omega
      have small : va / PGSIZE < 2 ^ 20 := by
        simp only [PGSIZE]
        omega
      have off : va - pgRoundDown va = va % PGSIZE := by
        simp only [pgRoundDown, PGSIZE]
        omega
      have inside : va % PGSIZE < PGSIZE := Nat.mod_lt _ (by decide)
      rw [if_neg empty]
      simp only [off]
      refine does_bind (does_uva2ka small (fun table => ?_) fun missing => ⟨rfl, fun g => ?_⟩)
      · cases ok : accessible m d (va / PGSIZE) with
        | true =>
          simp only [if_true]
          refine does_step rfl ?_
          have fits : va % PGSIZE + (buf.take (min (PGSIZE - va % PGSIZE) buf.length)).length ≤ PGSIZE := by
            rw [List.length_take]
            omega
          have stored := poke_store (fun v => (entryAt m d v).page) lt m.byte fits
          rw [guarded_next pos lt ok] at guarded
          refine does_mono (ih (Nat.mod_lt _ (by decide)) (buf.drop (min (PGSIZE - va % PGSIZE) buf.length)) ?_ ?_) ?_
          · rw [List.length_drop]
            omega
          · rw [List.length_drop]
            exact guarded
          · intro r s post
            obtain ⟨g, rest, copies⟩ := post
            refine ⟨g, rest, CopiesOut.cons pos lt ok rfl ?_⟩
            rw [stored]
            simp only [off] at copies
            exact copies
        | false =>
          rw [guarded_here pos lt ok] at guarded
          refine ⟨guarded.mpr table, rfl, Or.inr ⟨rfl, ⟨va / PGSIZE, ?_, ok⟩, m.byte, rfl, fun _ changed =>
            absurd rfl changed⟩⟩
          rw [span_cons pos lt]
          exact List.mem_cons_self
      · have bad : accessible m d (va / PGSIZE) = false := by simp [accessible, missing]
        rw [guarded_here pos lt bad, missing] at guarded
        exact absurd (guarded.mp g) (by decide)

theorem does_copyout {va : Nat} (lt : va < 2 ^ 32) (p : List UInt8) :
    Does (fun q => q = .trap ∧ ¬ Guarded m d va p.length) (copyout d va p) (m, l) fun r s =>
      Guarded m d va p.length ∧ s.2 = l ∧ CopiesOut d va p m r s.1 :=
  does_copyout_loop p.length lt p Nat.le.refl Iff.rfl

/-- Memory where a null pointer to an entry leads to `w`, if anything is mapped at address 0. -/
def answerNull (w : Option Pte) : (e : Step) → Mem × Answers → Outcome (Mem × Answers) Panic (Answer e)
  | .null, s =>
    match w with
    | none => .panicked .trap
    | some pte => .returned pte s
  | e, s => answer e s

abbrev reading (w : Option Pte) : Machine signature (Mem × Answers) Panic := ⟨answerNull w⟩

theorem run_reading_iff (w : Option Pte) {α : Type} (p : V α) {s t : Mem × Answers} {a : α} :
    answering.run p s = .returned a t ↔
      (reading w).run p s = .returned a t ∧ .null ∉ (reading w).steps p s := by
  induction p generalizing s with
  | done => simp [Machine.run, Machine.steps]
  | step e next ih =>
    unfold Machine.run Machine.steps
    by_cases null : e = .null
    · subst null
      refine iff_of_false (fun run => ?_) fun both => both.2 List.mem_cons_self
      cases run
    · have same : (reading w).act e s = answering.act e s := by
        cases e with
        | null => exact absurd rfl null
        | _ => rfl
      rw [same]
      cases answering.act e s with
      | returned r s' => simp only [ih, List.mem_cons, Ne.symm null, false_or]
      | panicked | waiting =>
        refine iff_of_false (fun run => ?_) fun both => ?_
        · cases run
        · cases both.1

/-- `copyout` reads no missing entry and does what its caller expects, exactly when the first page out of
reach, if there is one, has a page table. -/
theorem run_copyout_iff (w : Option Pte) (m : Mem) (l : Answers) (d : Nat) {va : Nat} (lt : va < 2 ^ 32)
    (p : List UInt8) : (∃ r m', (reading w).run (copyout d va p) (m, l) = .returned r (m', l) ∧
      .null ∉ (reading w).steps (copyout d va p) (m, l) ∧ CopiesOut d va p m r m') ↔ Guarded m d va p.length := by
  constructor
  · intro ⟨r, m', run, never, _⟩
    have run := (run_reading_iff w _).mpr ⟨run, never⟩
    exact (Machine.wp_run (does_copyout lt p) (fun _ _ => trivial) run).1
  · intro guarded
    obtain ⟨r, ⟨m', rest⟩, run, _, same, copies⟩ | ⟨_, _, _, not_guarded⟩ := Machine.wp_ends (does_copyout lt p)
    · subst same
      obtain ⟨run, never⟩ := (run_reading_iff w _).mp run
      exact ⟨r, m', run, never, copies⟩
    · exact absurd guarded not_guarded

end Espl.Kernel.Vm
