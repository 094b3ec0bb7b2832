import Espl.Program.Rules

/-!
# History variables

Code is annotated with notes. A note changes a history variable that no step of the code reads. Without
its notes annotated code is plain code, and every run of the plain code is a run of the annotated code
seen without the notes.
-/

namespace Espl

variable {G H : Signature} {S P N L : Type} {α β : Type}

inductive Noted (G : Signature) (N : Type) where
  | act (e : G.Step)
  | note (n : N)

@[reducible] def Noted.Answer : Noted G N → Type
  | .act e => G.Answer e
  | .note _ => Unit

/-- The steps of `G` and notes. -/
abbrev Signature.noted (G : Signature) (N : Type) : Signature := ⟨Noted G N, Noted.Answer⟩

/-- A machine with a history variable; `log` says what a note does to it. -/
def Machine.noted (M : Machine G S P) (log : N → S → L → L) : Machine (G.noted N) (S × L) P where
  act
    | .act e, (s, l) =>
      match M.act e s with
      | .returned r s' => .returned r (s', l)
      | .panicked m => .panicked m
      | .waiting => .waiting
    | .note n, (s, l) => .returned () (s, log n s l)

theorem Machine.noted_act {M : Machine G S P} {log : N → S → L → L} {e : G.Step} {s s' : S} {l l' : L}
    {r : G.Answer e} :
    (M.noted log).act (.act e) (s, l) = .returned r (s', l') ↔ M.act e s = .returned r s' ∧ l' = l := by
  simp only [noted]
  cases M.act e s with
  | returned r₀ s₀ =>
    simp only [Outcome.returned.injEq, Prod.mk.injEq, and_assoc, eq_comm (a := l)]
  | panicked m => simp
  | waiting => simp

namespace Program

def erase : Program (G.noted N) α → Program G α
  | .done a => .done a
  | .step (.act e) next => .step e fun r => (next r).erase
  | .step (.note _) next => (next ()).erase

def lift : Program G α → Program (G.noted N) α
  | .done a => .done a
  | .step e next => .step (.act e) fun r => (next r).lift

def note (n : N) : Program (G.noted N) Unit := .step (.note n) .done

/-- Each step carried out by a program; notes are kept. -/
def noted (h : (e : G.Step) → Program H (G.Answer e)) : (e : Noted G N) → Program (H.noted N) (Noted.Answer e)
  | .act e => (h e).lift
  | .note n => note n

@[simp] theorem erase_done (a : α) : (done a : Program (G.noted N) α).erase = done a := rfl

@[simp] theorem erase_note (n : N) : (note n : Program (G.noted N) Unit).erase = done () := rfl

@[simp] theorem erase_lift (p : Program G α) : (p.lift : Program (G.noted N) α).erase = p := by
  induction p with
  | done a => rfl
  | step e next ih => simp only [lift, erase, ih]

@[simp] theorem erase_bind (p : Program (G.noted N) α) (f : α → Program (G.noted N) β) :
    (p.bind f).erase = p.erase.bind fun a => (f a).erase := by
  induction p with
  | done a => rfl
  | step e next ih =>
    cases e with
    | act _ | note _ => simp only [step_bind, erase, ih]

theorem erase_interp (h : (e : G.Step) → Program H (G.Answer e)) (p : Program (G.noted N) α) :
    (p.interp (noted h)).erase = p.erase.interp h := by
  induction p with
  | done a => rfl
  | step e next ih =>
    cases e with
    | act e => simp only [interp, noted, erase_bind, erase_lift, erase, ih]
    | note n => simp only [interp, noted, erase_bind, erase_note, done_bind, erase, ih]

def Settled : Program (G.noted N) α → Prop
  | .step (.note _) _ => False
  | _ => True

end Program

namespace Rules

variable {T : Type} {R : Rules (G.noted N) T}

theorem keeps_lift {p : Program G α} {t : T} {Q : α → T → Prop}
    (h : (Rules.mk (fun t e => R.allowed t (.act e)) fun t e r t' => R.moves t (.act e) r t').Keeps p t Q) :
    R.Keeps p.lift t Q := by
  induction p generalizing t with
  | done a => exact h
  | step e next ih => exact ⟨h.1, fun r t' moves => ih r (h.2 r t' moves)⟩

end Rules

namespace Threads

variable {M : Nat → Machine G S P} {log : N → S → L → L}
  {calls : Nat → S → Program G Unit → Program G Unit → Prop}
  {noting : Nat → S × L → Program (G.noted N) Unit → Program (G.noted N) Unit → Prop}

/-- Configuration `d` with its notes and the history left out is `c`. -/
def Erases (d : Threads (G.noted N) (S × L)) (c : Threads G S) : Prop :=
  d.state.1 = c.state ∧ ∀ p, (d.thread p).erase = c.thread p

theorem erase_update {f : Nat → Program (G.noted N) Unit} {g : Nat → Program G Unit}
    {x : Program (G.noted N) Unit} {y : Program G Unit} (others : ∀ q, (f q).erase = g q) (this : x.erase = y)
    (p q : Nat) : (Function.update f p x q).erase = Function.update g p y q := by
  by_cases same : q = p
  · subst same
    simp only [Function.update_self, this]
  · simp only [Function.update_of_ne same, others]

variable (log noting) in
/-- A thread can write its next notes at once. -/
theorem exists_settled {d : Threads (G.noted N) (S × L)} {c : Threads G S} (erases : d.Erases c) (p : Nat) :
    ∃ d', Reachable (fun p => (M p).noted log) noting (fun _ _ _ => True) d d' ∧ d'.Erases c ∧
      (d'.thread p).Settled := by
  generalize prog_eq : d.thread p = prog
  induction prog generalizing d with
  | done a => exact ⟨d, .refl, erases, by rw [prog_eq]; trivial⟩
  | step e next ih =>
    cases e with
    | act e => exact ⟨d, .refl, erases, by rw [prog_eq]; trivial⟩
    | note n =>
      have this : (next ()).erase = c.thread p := by
        rw [← erases.2 p, prog_eq, Program.erase]
      have erases₁ : Erases (L := L) ⟨(d.state.1, log n d.state.1 d.state.2),
        Function.update d.thread p (next ())⟩ c := by
        refine ⟨erases.1, fun q => ?_⟩
        rw [erase_update erases.2 this p q, Function.update_eq_self]
      obtain ⟨d', run, erases', settled⟩ := ih () erases₁ (Function.update_self ..)
      exact ⟨d', .head (.step prog_eq trivial rfl) run, erases', settled⟩

/-- Every run of the plain code is a run of the annotated code seen without the notes. -/
theorem reachable_erases {A : Threads G S → Nat → G.Step → Prop} {c c' : Threads G S}
    {d : Threads (G.noted N) (S × L)} (run : Reachable M calls A c c') (erases : d.Erases c)
    (given : ∀ p s l current prog, current.Settled → calls p s current.erase prog →
      ∃ prog', prog'.erase = prog ∧ noting p (s, l) current prog') :
    ∃ d', Reachable (fun p => (M p).noted log) noting (fun _ _ _ => True) d d' ∧ d'.Erases c' := by
  induction run with
  | refl => exact ⟨d, .refl, erases⟩
  | @tail c₁ _ _ turn ih =>
    obtain ⟨d₁, run₁, erases₁⟩ := ih
    cases turn with
    | @call p prog call =>
      obtain ⟨d₂, run₂, ⟨state_eq, thread_eq⟩, settled⟩ := exists_settled log noting erases₁ p
      rw [← thread_eq p] at call
      obtain ⟨prog', this, call'⟩ := given p c₁.state d₂.state.2 (d₂.thread p) prog settled call
      rw [← state_eq] at call'
      exact ⟨_, (run₁.trans run₂).tail (.call call'), state_eq, erase_update thread_eq this p⟩
    | @step p e next r s at_step meets act =>
      obtain ⟨d₂, run₂, ⟨state_eq, thread_eq⟩, settled⟩ := exists_settled log noting erases₁ p
      have here := thread_eq p
      rw [at_step] at here
      cases prog_eq : d₂.thread p with
      | done a =>
        rw [prog_eq] at here
        cases here
      | step e' next' =>
        rw [prog_eq] at here settled
        cases e' with
        | note n => exact settled.elim
        | act e' =>
          simp only [Program.erase, Program.step.injEq] at here
          obtain ⟨rfl, here⟩ := here
          rw [← state_eq] at act
          have act' : ((M p).noted log).act (.act e') d₂.state = .returned r (s, d₂.state.2) :=
            Machine.noted_act.mpr ⟨act, rfl⟩
          have this : (next' r).erase = next r := congrFun (eq_of_heq here) r
          exact ⟨_, (run₁.trans run₂).tail (.step prog_eq trivial act'), rfl, erase_update thread_eq this p⟩

end Threads

end Espl
