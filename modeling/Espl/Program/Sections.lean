import Espl.Program.Hoare
import Espl.Program.Rules
import Mathlib.Algebra.BigOperators.Group.Finset.Piecewise
import Mathlib.Algebra.Ring.Nat
import Mathlib.Algebra.Order.BigOperators.Group.Finset
import Mathlib.Data.List.Infix

/-!
# Exclusive sections

Threads share a state with a flag in it. The thread that sets the flag is alone with the state until it
clears the flag: that is one section. Every thread has a plan of what its sections do. Then the sections
that have ended have done so one after another, and each thread's in the order of its plan.
-/

namespace Espl

open Function

variable {G : Signature} {S P C : Type} {α β : Type}

/-- The flag, the plans, what holds at all times, and what holds while the flag is clear, after the
sections of a list. -/
structure Sections (S C : Type) where
  busy : S → Bool
  plan : Nat → List C
  always : S → Prop
  inv : S → List (Nat × C) → Prop

/-- What a thread has left to do; inside a section, what came before it and the state. -/
structure Place (S C : Type) where
  todo : List C
  view : Option (List (Nat × C) × S)

def own (p : Nat) (l : List (Nat × C)) : List C := (l.filter fun x => x.1 = p).map Prod.snd

theorem own_append (p : Nat) (l l' : List (Nat × C)) : own p (l ++ l') = own p l ++ own p l' := by
  simp [own]

@[simp] theorem own_same (p : Nat) (c : C) : own p [(p, c)] = [c] := by simp [own]

theorem own_other {p q : Nat} (ne : q ≠ p) (c : C) : own q [(p, c)] = [] := by simp [own, ne.symm]

theorem own_cons (p : Nat) (x : Nat × C) (l : List (Nat × C)) :
    own p (x :: l) = if x.1 = p then x.2 :: own p l else own p l := by
  unfold own
  by_cases same : x.1 = p
  · simp [same]
  · simp [same]

theorem sum_own (f : C → Nat) {n : Nat} {l : List (Nat × C)} (below : ∀ x ∈ l, x.1 < n) :
    (l.map fun x => f x.2).sum = ∑ p ∈ Finset.range n, ((own p l).map f).sum := by
  induction l with
  | nil => simp [own]
  | cons x l ih =>
    have here := below x List.mem_cons_self
    have split : ∀ p, ((own p (x :: l)).map f).sum = (if x.1 = p then f x.2 else 0) + ((own p l).map f).sum := by
      intro p
      rw [own_cons]
      split
      · rfl
      · rw [Nat.zero_add]
    rw [List.map_cons, List.sum_cons, ih fun y member => below y (List.mem_cons_of_mem x member)]
    simp only [split, Finset.sum_add_distrib, Finset.sum_ite_eq, Finset.mem_range, if_pos here]

namespace Sections

variable (W : Sections S C) (M : Machine G S P)

def Ordered (l : List (Nat × C)) : Prop := ∀ p, own p l <+: W.plan p

def Quiet (e : G.Step) : Prop := ∀ s, W.always s → ∃ r, M.act e s = .returned r s

def Enters (e : G.Step) : Prop :=
  ∀ s, W.always s → if W.busy s then M.act e s = .waiting
    else ∃ r s', M.act e s = .returned r s' ∧ W.busy s' = true ∧ W.always s'

def allowed (p : Nat) (u : Place S C) (e : G.Step) : Prop :=
  match u.view with
  | none => W.Quiet M e ∨ W.Enters M e
  | some (l, s) => ∃ r s', M.act e s = .returned r s' ∧ W.always s' ∧
    (W.busy s' = false → ∃ c rest, u.todo = c :: rest ∧ W.inv s' (l ++ [(p, c)]))

def moves (p : Nat) (u : Place S C) (e : G.Step) (r : G.Answer e) (u' : Place S C) : Prop :=
  match u.view with
  | none => ∃ s s', W.always s ∧ M.act e s = .returned r s' ∧
    (s' = s ∧ u' = u ∨ W.busy s = false ∧ W.busy s' = true ∧
      ∃ l, W.inv s l ∧ W.Ordered l ∧ own p l ++ u.todo = W.plan p ∧ u' = ⟨u.todo, some (l, s')⟩)
  | some (l, s) => ∃ s', M.act e s = .returned r s' ∧
    u' = if W.busy s' then ⟨u.todo, some (l, s')⟩ else ⟨u.todo.tail, none⟩

def rules (p : Nat) : Rules G (Place S C) := ⟨W.allowed M p, W.moves M p⟩

structure Sound (l : List (Nat × C)) (s : S) (t : Nat → Place S C) : Prop where
  always : W.always s
  idle : W.busy s = false → W.inv s l
  own : ∀ p, own p l ++ (t p).todo = W.plan p
  view : ∀ p v, (t p).view = some v → v = (l, s) ∧ W.busy s = true
  alone : ∀ p q, (t p).view.isSome → (t q).view.isSome → p = q
  owner : W.busy s = true → ∃ p, (t p).view.isSome

variable {W M} {l : List (Nat × C)} {s s' : S} {t : Nat → Place S C} {p : Nat} {e : G.Step} {r : G.Answer e}

theorem Sound.ordered (h : W.Sound l s t) : W.Ordered l := fun p => ⟨_, h.own p⟩

theorem Ordered.next {c : C} {todo : List C} (h : W.Ordered l) (mine : own p l ++ c :: todo = W.plan p) :
    W.Ordered (l ++ [(p, c)]) := by
  intro q
  rw [own_append]
  by_cases same : q = p
  · subst same
    rw [own_same, ← mine]
    exact ⟨todo, by simp⟩
  · rw [own_other same, List.append_nil]
    exact h q

theorem Ordered.sum_le (f : C → Nat) {n : Nat} (h : W.Ordered l) (few : ∀ p, n ≤ p → W.plan p = []) :
    (l.map fun x => f x.2).sum ≤ ∑ p ∈ Finset.range n, ((W.plan p).map f).sum := by
  have below : ∀ x ∈ l, x.1 < n := by
    intro x member
    by_contra beyond
    have mine : x.2 ∈ own x.1 l := List.mem_map.mpr ⟨x, List.mem_filter.mpr ⟨member, by simp⟩, rfl⟩
    have planned := (h x.1).subset mine
    rw [few x.1 (by omega)] at planned
    cases planned
  rw [sum_own f below]
  refine Finset.sum_le_sum fun p _ => ?_
  obtain ⟨rest, plan⟩ := h p
  rw [← plan, List.map_append, List.sum_append]
  exact Nat.le_add_right ..

/-! ### Steps -/

theorem Sound.quiet (h : W.Sound l s t) : W.Sound l s (update t p (t p)) := by
  rw [update_eq_self]
  exact h

theorem Sound.others {v : List (Nat × C) × S} (h : W.Sound l s t) (inside : (t p).view = some v) (q : Nat)
    (ne : q ≠ p) : (t q).view = none := by
  rw [Option.eq_none_iff_forall_ne_some]
  intro v' there
  exact ne (h.alone q p (by rw [there]; rfl) (by rw [inside]; rfl))

theorem Sound.inside (h : W.Sound l s t) (others : ∀ q, q ≠ p → (t q).view = none) (busy : W.busy s' = true)
    (always : W.always s') : W.Sound l s' (update t p ⟨(t p).todo, some (l, s')⟩) := by
  have only : ∀ q, ((update t p ⟨(t p).todo, some (l, s')⟩ : Nat → Place S C) q).view.isSome → q = p := by
    intro q there
    by_contra ne
    rw [update_of_ne ne, others q ne] at there
    cases there
  refine ⟨always, ?_, ?_, ?_, ?_, ?_⟩
  · intro clear
    rw [busy] at clear
    cases clear
  · intro q
    by_cases same : q = p
    · subst same
      rw [update_self]
      exact h.own q
    · rw [update_of_ne same]
      exact h.own q
  · intro q v there
    obtain rfl := only q (by rw [there]; rfl)
    rw [update_self] at there
    exact ⟨(Option.some.inj there).symm, busy⟩
  · intro q q' there there'
    rw [only q there, only q' there']
  · intro _
    exact ⟨p, by simp⟩

theorem Sound.leave {c : C} {rest : List C} (h : W.Sound l s t) (others : ∀ q, q ≠ p → (t q).view = none)
    (idle : W.busy s' = false) (always : W.always s') (planned : (t p).todo = c :: rest)
    (inv : W.inv s' (l ++ [(p, c)])) :
    W.Sound (l ++ [(p, c)]) s' (update t p ⟨rest, none⟩) := by
  have none : ∀ q, ((update t p ⟨rest, none⟩ : Nat → Place S C) q).view = none := by
    intro q
    by_cases same : q = p
    · subst same
      rw [update_self]
    · rw [update_of_ne same]
      exact others q same
  refine ⟨always, fun _ => inv, ?_, ?_, ?_, ?_⟩
  · intro q
    rw [own_append]
    by_cases same : q = p
    · subst same
      rw [update_self, own_same, List.append_assoc, ← h.own q, planned]
      rfl
    · rw [update_of_ne same, own_other same, List.append_nil]
      exact h.own q
  · intro q v there
    rw [none q] at there
    cases there
  · intro q q' there
    rw [none q] at there
    cases there
  · intro busy
    rw [idle] at busy
    cases busy

theorem sound_step (h : W.Sound l s t) (may : W.allowed M p (t p) e) (act : M.act e s = .returned r s') :
    ∃ u, W.moves M p (t p) e r u ∧ ∃ l', W.Sound l' s' (update t p u) := by
  unfold allowed at may
  unfold moves
  cases inside : (t p).view with
  | none =>
    simp only [inside] at may ⊢
    obtain quiet | enters := may
    · obtain ⟨r', same⟩ := quiet s h.always
      rw [act] at same
      cases same
      exact ⟨t p, ⟨s, s, h.always, act, Or.inl ⟨rfl, rfl⟩⟩, l, h.quiet⟩
    · have enters := enters s h.always
      split at enters
      · rw [act] at enters
        cases enters
      · rename_i clear
        rw [Bool.not_eq_true] at clear
        obtain ⟨r', s₁, same, busy, always⟩ := enters
        rw [act] at same
        cases same
        have outside : ∀ q, (t q).view = none := by
          intro q
          rw [Option.eq_none_iff_forall_ne_some]
          intro v there
          rw [(h.view q v there).2] at clear
          cases clear
        exact ⟨_, ⟨s, s', h.always, act, Or.inr ⟨clear, busy, l, h.idle clear, h.ordered, h.own p, rfl⟩⟩, l,
          h.inside (fun q _ => outside q) busy always⟩
  | some v =>
    obtain ⟨rfl, busy⟩ := h.view p v inside
    simp only [inside] at may ⊢
    obtain ⟨r', s₁, same, always, leaves⟩ := may
    rw [act] at same
    cases same
    refine ⟨_, ⟨s', act, rfl⟩, ?_⟩
    cases now : W.busy s' with
    | true => exact ⟨l, h.inside (h.others inside) now always⟩
    | false =>
      obtain ⟨c, rest, planned, inv⟩ := leaves now
      rw [planned]
      exact ⟨_, h.leave (h.others inside) now always planned inv⟩

/-! ### Rules for one thread -/

section

variable {u : Place S C} {Q : α → Place S C → Prop}

theorem keeps_quiet {f : G.Answer e → Program G α} (outside : u.view = none) (quiet : W.Quiet M e)
    (rest : ∀ s r, W.always s → M.act e s = .returned r s → (W.rules M p).Keeps (f r) u Q) :
    (W.rules M p).Keeps (Program.step e .done >>= f) u Q := by
  refine Rules.keeps_step ?_ fun r u' moved => ?_
  · change W.allowed M p u e
    unfold allowed
    rw [outside]
    exact Or.inl quiet
  · change W.moves M p u e r u' at moved
    unfold moves at moved
    simp only [outside] at moved
    obtain ⟨s, s', always, act, moved⟩ := moved
    obtain ⟨r', same⟩ := quiet s always
    rw [act] at same
    cases same
    obtain ⟨-, rfl⟩ | ⟨idle, busy, -⟩ := moved
    · exact rest s r always act
    · rw [idle] at busy
      cases busy

theorem keeps_enter {f : G.Answer e → Program G α} (outside : u.view = none) (enters : W.Enters M e)
    (rest : ∀ s r s' l, W.always s → W.busy s = false → M.act e s = .returned r s' → W.inv s l → W.Ordered l →
      own p l ++ u.todo = W.plan p → (W.rules M p).Keeps (f r) ⟨u.todo, some (l, s')⟩ Q) :
    (W.rules M p).Keeps (Program.step e .done >>= f) u Q := by
  refine Rules.keeps_step ?_ fun r u' moved => ?_
  · change W.allowed M p u e
    unfold allowed
    rw [outside]
    exact Or.inr enters
  · change W.moves M p u e r u' at moved
    unfold moves at moved
    simp only [outside] at moved
    obtain ⟨s, s', always, act, moved⟩ := moved
    have enters := enters s always
    split at enters
    · rw [act] at enters
      cases enters
    · rename_i clear
      obtain ⟨r', s₁, same, busy, -⟩ := enters
      rw [act] at same
      cases same
      obtain ⟨rfl, -⟩ | ⟨idle, -, l, inv, ordered, mine, rfl⟩ := moved
      · rw [busy] at clear
        exact absurd rfl clear
      · exact rest s r s' l always idle act inv ordered mine

/-- Inside a section a thread runs as if it were alone. -/
theorem keeps_section {body : Program G α} {c : C} {todo : List C} {Q : α → S → Prop}
    (spec : M.wp (Machine.strict (fun s => W.busy s = true) fun _ => False) body s Q)
    (stable : body.All fun e => ∀ s r s', M.act e s = .returned r s' → W.always s → W.always s')
    (busy : W.busy s = true) (always : W.always s)
    (post : ∀ a s', Q a s' → W.busy s' = false ∧ W.inv s' (l ++ [(p, c)])) :
    (W.rules M p).Keeps body ⟨c :: todo, some (l, s)⟩ fun a u => u = ⟨todo, none⟩ ∧ ∃ s', Q a s' := by
  induction body generalizing s with
  | done a =>
    have idle := (post a s spec).1
    rw [busy] at idle
    cases idle
  | step e next ih =>
    have spec := spec.2 trivial
    obtain ⟨kept, stable⟩ := stable
    cases act : M.act e s with
    | returned r s' =>
      rw [act] at spec
      change M.wp _ (next r) s' Q at spec
      have always' := kept s r s' act always
      cases now : W.busy s' with
      | true =>
        refine ⟨⟨r, s', act, always', fun idle => absurd idle (by rw [now]; decide)⟩, ?_⟩
        rintro r' u' ⟨s₁, same, rfl⟩
        rw [act] at same
        cases same
        rw [now]
        exact ih r spec (stable r) now always'
      | false =>
        -- the flag is set before each step, so this was the last one
        cases last : next r with
        | step e' next' =>
          rw [last] at spec
          rw [spec.1] at now
          cases now
        | done a =>
          rw [last] at spec
          refine ⟨⟨r, s', act, always', fun _ => ⟨c, todo, rfl, (post a s' spec).2⟩⟩, ?_⟩
          rintro r' u' ⟨s₁, same, rfl⟩
          rw [act] at same
          cases same
          rw [now, last]
          exact ⟨rfl, s', spec⟩
    | panicked _ | waiting =>
      rw [act] at spec
      exact spec.elim

end

/-! ### Runs -/

/-- Threads that follow the rules from a state with the flag clear: what has been done at any time, that
nobody panics, and that somebody can go on as long as not all are done. -/
structure Served (W : Sections S C) (M : Machine G S P) (c : Threads G S) (l : List (Nat × C)) : Prop where
  always : W.always c.state
  ordered : W.Ordered l
  done : ∀ p, c.thread p = .done () → own p l = W.plan p
  idle : W.busy c.state = false → W.inv c.state l
  finished : (∀ p, c.thread p = .done ()) → W.busy c.state = false
  safe : ∀ p e next m, c.thread p = .step e next → M.act e c.state ≠ .panicked m
  live : (∃ p, c.thread p ≠ .done ()) →
    ∃ p e next r s, c.thread p = .step e next ∧ M.act e c.state = .returned r s

theorem Sound.next (h : W.Sound l s t) (may : W.allowed M p (t p) e) :
    (W.busy s = true ∧ (t p).view = none ∧ M.act e s = .waiting) ∨ ∃ r s', M.act e s = .returned r s' := by
  unfold allowed at may
  cases inside : (t p).view with
  | none =>
    simp only [inside] at may
    obtain quiet | enters := may
    · obtain ⟨r, same⟩ := quiet s h.always
      exact Or.inr ⟨r, s, same⟩
    · have enters := enters s h.always
      split at enters
      · exact Or.inl ⟨‹_›, rfl, enters⟩
      · obtain ⟨r, s', act, -⟩ := enters
        exact Or.inr ⟨r, s', act⟩
  | some v =>
    obtain ⟨rfl, -⟩ := h.view p v inside
    simp only [inside] at may
    obtain ⟨r, s', act, -⟩ := may
    exact Or.inr ⟨r, s', act⟩

/-- Thread `p` goes through its plan, one section after another. -/
def Follows (W : Sections S C) (M : Machine G S P) (p : Nat) (prog : Program G Unit) : Prop :=
  (W.rules M p).Keeps prog ⟨W.plan p, none⟩ fun _ u => u = ⟨[], none⟩

theorem reachable_served {c : Threads G S} {prog : Nat → Program G Unit}
    (run : Threads.Reachable (fun _ => M) (fun _ _ _ _ => False) (fun _ _ _ => True) ⟨s, prog⟩ c)
    (idle : W.busy s = false) (always : W.always s) (inv : W.inv s []) (follows : ∀ p, W.Follows M p (prog p)) :
    ∃ l, W.Served M c l := by
  have start : Threads.Within (W.rules M) (fun s t => ∃ l, W.Sound l s t) (fun u => u = ⟨[], none⟩) ⟨s, prog⟩
      fun p => ⟨W.plan p, none⟩ := by
    refine ⟨⟨[], always, fun _ => inv, fun p => rfl, ?_, ?_, ?_⟩, follows⟩
    · intro p v inside
      cases inside
    · intro p q inside
      cases inside
    · intro busy
      rw [idle] at busy
      cases busy
  obtain ⟨t, within⟩ := Threads.reachable_within run start
    (fun _ _ _ _ _ never => never.elim)
    fun d t p e next r s' within at_step may _ act => by
      obtain ⟨l, sound⟩ := within.1
      exact sound_step sound may act
  obtain ⟨l, sound⟩ := within.1
  have outside : ∀ p, c.thread p = .done () → t p = ⟨[], none⟩ := fun p => within.rests
  refine ⟨l, sound.always, sound.ordered, ?_, sound.idle, ?_, ?_, ?_⟩
  · intro p done
    rw [← sound.own p, outside p done, List.append_nil]
  · intro done
    rw [Bool.eq_false_iff]
    intro busy
    obtain ⟨p, inside⟩ := sound.owner busy
    rw [outside p (done p)] at inside
    cases inside
  · intro p e next m at_step panics
    obtain ⟨-, -, waits⟩ | ⟨r, s', act⟩ := sound.next (within.allowed at_step)
    · rw [waits] at panics
      cases panics
    · rw [act] at panics
      cases panics
  · rintro ⟨p, unfinished⟩
    -- the thread that has set the flag can go on, and if there is none every other one can
    obtain ⟨q, e, next, at_step, free⟩ : ∃ q e next, c.thread q = .step e next ∧
        (W.busy c.state = true → (t q).view ≠ none) := by
      cases busy : W.busy c.state with
      | true =>
        obtain ⟨q, inside⟩ := sound.owner busy
        cases thread : c.thread q with
        | done =>
          rw [outside q thread] at inside
          cases inside
        | step e next =>
          refine ⟨q, e, next, thread, fun _ none => ?_⟩
          rw [none] at inside
          cases inside
      | false =>
        cases thread : c.thread p with
        | done => exact absurd thread unfinished
        | step e next => exact ⟨p, e, next, thread, fun never => by cases never⟩
    obtain ⟨busy, none, -⟩ | ⟨r, s', act⟩ := sound.next (within.allowed at_step)
    · exact absurd none (free busy)
    · exact ⟨q, e, next, r, s', at_step, act⟩

end Sections

end Espl
