import Espl.Program.Basic

/-!
# Pre- and postconditions

`wp` is what must hold before a lone run for its result to meet a postcondition and all its points a
condition, in the runs whose steps all meet an assumption.
-/

namespace Espl

/-- The terms of a judgement about runs: what is taken for granted of every step, what must hold at the
points of a run, the panics that are tolerated, and whether waiting is. -/
structure Terms (G : Signature) (S P : Type) where
  assume : G.Step → S → Prop
  point : S → Prop
  fault : P → Prop
  wait : Prop

namespace Machine

variable {G : Signature} {S P : Type} {α β : Type} (M : Machine G S P)

/-- As long as the steps of the run of `p` from `s` meet `T.assume`, `T.point` holds before each of
them, and the run ends with `Q`, or waiting or in a panic as far as `T` tolerates that. -/
def wp (T : Terms G S P) : Program G α → S → (α → S → Prop) → Prop
  | .done a, s, Q => Q a s
  | .step e next, s, Q =>
    T.point s ∧ (T.assume e s →
      match M.act e s with
      | .returned r s' => wp T (next r) s' Q
      | .panicked m => T.fault m
      | .waiting => T.wait)

variable {T : Terms G S P} {M}

@[simp] theorem wp_done (a : α) (s : S) (Q : α → S → Prop) : M.wp T (.done a) s Q ↔ Q a s := Iff.rfl

theorem wp_step (e : G.Step) (next : G.Answer e → Program G α) (s : S) (Q : α → S → Prop) :
    M.wp T (.step e next) s Q ↔ T.point s ∧ (T.assume e s →
      match M.act e s with
      | .returned r s' => M.wp T (next r) s' Q
      | .panicked m => T.fault m
      | .waiting => T.wait) := Iff.rfl

theorem wp_returns {e : G.Step} {next : G.Answer e → Program G α} {s s' : S} {r : G.Answer e}
    {Q : α → S → Prop} (here : T.point s) (act : M.act e s = .returned r s') (rest : M.wp T (next r) s' Q) :
    M.wp T (.step e next) s Q := by
  refine ⟨here, fun _ => ?_⟩
  rw [act]
  exact rest

theorem wp_panics {e : G.Step} {next : G.Answer e → Program G α} {s : S} {m : P} {Q : α → S → Prop}
    (here : T.point s) (act : M.act e s = .panicked m) (fault : T.fault m) : M.wp T (.step e next) s Q := by
  refine ⟨here, fun _ => ?_⟩
  rw [act]
  exact fault

theorem wp_bind (p : Program G α) (f : α → Program G β) (s : S) (Q : β → S → Prop) :
    M.wp T (p.bind f) s Q ↔ M.wp T p s fun a s' => M.wp T (f a) s' Q := by
  induction p generalizing s with
  | done a => rfl
  | step e next ih =>
    simp only [Program.step_bind, wp_step]
    cases M.act e s with
    | returned r s' => simp only [ih]
    | panicked m => rfl
    | waiting => rfl

theorem wp_mono {p : Program G α} {s : S} {Q R : α → S → Prop} (h : M.wp T p s Q)
    (imp : ∀ a s', Q a s' → R a s') : M.wp T p s R := by
  induction p generalizing s with
  | done a => exact imp a s h
  | step e next ih =>
    simp only [wp_step] at h ⊢
    refine ⟨h.1, fun assumed => ?_⟩
    have h := h.2 assumed
    cases hact : M.act e s with
    | returned r s' => rw [hact] at h; exact ih r h
    | panicked _ | waiting => rw [hact] at h; exact h

theorem wp_self {p : Program G α} {s : S} {Q : α → S → Prop} (h : M.wp T p s Q) :
    M.wp T p s fun a s' => M.run p s = .returned a s' ∧ Q a s' := by
  induction p generalizing s with
  | done a => exact ⟨rfl, h⟩
  | step e next ih =>
    refine ⟨h.1, fun meets => ?_⟩
    have h := h.2 meets
    unfold run
    cases act : M.act e s with
    | returned r s' =>
      rw [act] at h
      exact ih r h
    | panicked _ | waiting => rw [act] at h; exact h

theorem wp_seq {p : Program G α} {f : α → Program G β} {s : S} {Q : α → S → Prop}
    {R : β → S → Prop} (h : M.wp T p s Q) (next : ∀ a s', Q a s' → M.wp T (f a) s' R) :
    M.wp T (p.bind f) s R :=
  (wp_bind p f s R).mpr (wp_mono h next)

theorem wp_then {p : Program G α} {f : α → Program G β} {s : S} {R : β → S → Prop}
    (h : M.wp T p s fun a s' => M.wp T (f a) s' R) : M.wp T (p.bind f) s R :=
  (wp_bind p f s R).mpr h

theorem wp_run {p : Program G α} {s s' : S} {a : α} {Q : α → S → Prop} (h : M.wp T p s Q)
    (assume : ∀ e s, T.assume e s) (run : M.run p s = .returned a s') : Q a s' := by
  induction p generalizing s with
  | done =>
    cases run
    exact h
  | step e next ih =>
    have h := h.2 (assume e s)
    simp only [Machine.run] at run
    cases hact : M.act e s with
    | returned r s'' => rw [hact] at h run; exact ih r h run
    | panicked _ | waiting => rw [hact] at run; cases run

abbrev strict (I : S → Prop) (F : P → Prop) : Terms G S P := ⟨fun _ _ => True, I, F, False⟩

/-- The judgement about the points of a run, however it ends. -/
abbrev loose (I : S → Prop) : Terms G S P := ⟨fun _ _ => True, I, fun _ => True, True⟩

variable {I : S → Prop} {F : P → Prop}

theorem wp_loose {e : G.Step} {next : G.Answer e → Program G α} {s : S} {Q : α → S → Prop} (here : I s)
    (rest : ∀ r t, M.act e s = .returned r t → M.wp (loose I) (next r) t Q) : M.wp (loose I) (.step e next) s Q := by
  refine ⟨here, fun _ => ?_⟩
  cases act : M.act e s with
  | returned r t => exact rest r t act
  | panicked => trivial
  | waiting => trivial

theorem wp_of_run {p : Program G α} {s s' : S} {a : α} {Q : α → S → Prop} (point : ∀ s, I s)
    (run : M.run p s = .returned a s') (post : Q a s') : M.wp (strict I F) p s Q := by
  induction p generalizing s with
  | done =>
    cases run
    exact post
  | step e next ih =>
    refine ⟨point s, fun _ => ?_⟩
    unfold Machine.run at run
    cases act : M.act e s with
    | returned r t =>
      rw [act] at run
      exact ih r run
    | panicked | waiting => rw [act] at run; cases run

theorem wp_tolerates {F' : P → Prop} {p : Program G α} {s : S} {Q : α → S → Prop} (h : M.wp (strict I F) p s Q)
    (imp : ∀ m, F m → F' m) : M.wp (strict I F') p s Q := by
  induction p generalizing s with
  | done a => exact h
  | step e next ih =>
    refine ⟨h.1, fun _ => ?_⟩
    have h := h.2 trivial
    cases hact : M.act e s with
    | returned r s' => rw [hact] at h; exact ih r h
    | panicked m => rw [hact] at h; exact imp m h
    | waiting => rw [hact] at h; exact h

theorem wp_both {J : S → Prop} {p : Program G α} {s : S} {Q R : α → S → Prop} (h : M.wp (strict I F) p s Q)
    (h' : M.wp T p s R) (assume : ∀ e s, T.assume e s) (imp : ∀ s, T.point s → J s) :
    M.wp (strict J F) p s fun a t => Q a t ∧ R a t := by
  induction p generalizing s with
  | done a => exact ⟨h, h'⟩
  | step e next ih =>
    refine ⟨imp s h'.1, fun _ => ?_⟩
    have h := h.2 trivial
    have h' := h'.2 (assume e s)
    cases act : M.act e s with
    | returned r t => rw [act] at h h'; exact ih r h h'
    | panicked _ | waiting => rw [act] at h; exact h

theorem wp_visited {p : Program G α} {s t : S} {Q : α → S → Prop} (h : M.wp (strict I F) p s Q)
    (final : ∀ a s', Q a s' → I s') (member : t ∈ M.visited p s) : I t := by
  induction p generalizing s with
  | done a =>
    simp only [visited, List.mem_singleton] at member
    rw [member]
    exact final a s h
  | step e next ih =>
    simp only [visited, List.mem_cons] at member
    rcases member with rfl | member
    · exact h.1
    · have h := h.2 trivial
      cases hact : M.act e s with
      | returned r s' => rw [hact] at h member; exact ih r h member
      | panicked _ | waiting => rw [hact] at member; simp at member

theorem wp_ends {p : Program G α} {s : S} {Q : α → S → Prop} (h : M.wp (strict I F) p s Q) :
    (∃ a s', M.run p s = .returned a s' ∧ Q a s') ∨ ∃ m, M.run p s = .panicked m ∧ F m := by
  induction p generalizing s with
  | done a => exact Or.inl ⟨a, s, rfl, h⟩
  | step e next ih =>
    have h := h.2 trivial
    simp only [run]
    cases hact : M.act e s with
    | returned r s' => rw [hact] at h; exact ih r h
    | panicked m => rw [hact] at h; exact Or.inr ⟨m, rfl, h⟩
    | waiting => rw [hact] at h; exact h.elim

theorem wp_returned {p : Program G α} {s : S} {Q : α → S → Prop}
    (h : M.wp (strict I fun _ => False) p s Q) : ∃ a s', M.run p s = .returned a s' ∧ Q a s' := by
  obtain returns | ⟨_, _, never⟩ := wp_ends h
  · exact returns
  · exact never.elim

end Machine

end Espl
