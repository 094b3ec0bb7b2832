import Mathlib.Logic.Relation
import Espl.Program.Basic

/-!
# Programs side by side

Any number of programs run over one shared state, one step of one of them at a time. A protocol says
which steps a program may take depending on its own earlier steps, and what it may rely on in their
answers. Programs that each follow a protocol follow it in every interleaving.
-/

namespace Espl

open Function

variable {G : Signature} {S P T : Type} {α β : Type}

/-- The phases a program goes through, the steps it may take in each, and the answers it counts on. -/
structure Protocol (G : Signature) (T : Type) where
  next : T → G.Step → T
  allowed : T → G.Step → Prop
  relied : T → (e : G.Step) → G.Answer e → Prop

namespace Protocol

variable {R : Protocol G T}

/-- `p` started in phase `t` takes allowed steps only, as long as it gets the answers it relies on, and
ends with `Q`. -/
def Follows (R : Protocol G T) : Program G α → T → (α → T → Prop) → Prop
  | .done a, t, Q => Q a t
  | .step e next, t, Q => R.allowed t e ∧ ∀ r, R.relied t e r → Follows R (next r) (R.next t e) Q

theorem follows_seq {p : Program G α} {f : α → Program G β} {t : T} {Q : α → T → Prop}
    {Q' : β → T → Prop} (h : R.Follows p t Q) (rest : ∀ a t', Q a t' → R.Follows (f a) t' Q') :
    R.Follows (p.bind f) t Q' := by
  induction p generalizing t with
  | done a => exact rest a t h
  | step e next ih => exact ⟨h.1, fun r relied => ih r (h.2 r relied)⟩

theorem Follows.mono {A : T → G.Step → Prop} {p : Program G α} {t : T} {Q : α → T → Prop}
    (less : ∀ t e, A t e → R.allowed t e) (h : Follows { R with allowed := A } p t Q) : R.Follows p t Q := by
  induction p generalizing t with
  | done => exact h
  | step e next ih => exact ⟨less t e h.1, fun r relied => ih r (h.2 r relied)⟩

/-- `p` started in phase `t` ends in phase `t'`. -/
def Takes (R : Protocol G T) (t t' : T) (p : Program G α) : Prop := R.Follows p t fun _ u => u = t'

theorem takes_pure (t : T) (a : α) : R.Takes t t (pure a : Program G α) := rfl

theorem takes_bind {p : Program G α} {f : α → Program G β} {t t' t'' : T} (h : R.Takes t t' p)
    (rest : ∀ a, R.Takes t' t'' (f a)) : R.Takes t t'' (p >>= f) :=
  follows_seq h fun a _ same => same ▸ rest a

theorem takes_interp {H : Signature} {R : Protocol H T} {h : (e : G.Step) → Program H (G.Answer e)} {t : T}
    (p : Program G α) (steps : ∀ e, R.Takes t t (h e)) : R.Takes t t (p.interp h) := by
  induction p with
  | done a => exact takes_pure t a
  | step e next ih => exact takes_bind (steps e) ih

/-- The phase of program `p` after the steps of a trace, the latest first. -/
def phase (R : Protocol G T) (t₀ : T) (p : Nat) : List (Nat × G.Step) → T
  | [] => t₀
  | (q, e) :: trace => if q = p then R.next (R.phase t₀ p trace) e else R.phase t₀ p trace

end Protocol

/-- A shared state, what is left of each program, and the steps taken so far, the latest first. -/
structure Config (G : Signature) (S : Type) where
  state : S
  thread : Nat → Program G Unit
  trace : List (Nat × G.Step)

namespace Machine

/-- One turn: a program at its end starts a call, or a program takes a step that meets `A`. -/
inductive Turn (M : Machine G S P) (calls : Nat → S → Program G Unit → Prop)
    (A : Config G S → Nat → G.Step → Prop) : Config G S → Config G S → Prop where
  | call {c : Config G S} {p : Nat} {prog : Program G Unit} (idle : c.thread p = .done ())
      (call : calls p c.state prog) :
      Turn M calls A c { c with thread := update c.thread p prog }
  | step {c : Config G S} {p : Nat} {e : G.Step} {next : G.Answer e → Program G Unit} {r : G.Answer e}
      {s : S} (at_step : c.thread p = .step e next) (meets : A c p e) (act : M.act e c.state = .returned r s) :
      Turn M calls A c ⟨s, update c.thread p (next r), (p, e) :: c.trace⟩

/-- The configurations that the programs can reach from `c` by turns. -/
def Reachable (M : Machine G S P) (calls : Nat → S → Program G Unit → Prop)
    (A : Config G S → Nat → G.Step → Prop) : Config G S → Config G S → Prop :=
  Relation.ReflTransGen (M.Turn calls A)

def initial (s : S) : Config G S := ⟨s, fun _ => .done (), []⟩

variable {M : Machine G S P} {calls : Nat → S → Program G Unit → Prop}
  {A : Config G S → Nat → G.Step → Prop} {R : Protocol G T}

/-- If every call follows the protocol and the steps that meet `A` answer what it relies on, every
program is within the protocol in every configuration. -/
theorem reachable_follows (t₀ : T) {s : S} {c : Config G S} (run : M.Reachable calls A (initial s) c)
    (start : ∀ p s prog, calls p s prog → R.Takes t₀ t₀ prog)
    (answers : ∀ c p e r s, A c p e → M.act e c.state = .returned r s →
      R.relied (R.phase t₀ p c.trace) e r) (p : Nat) :
    R.Follows (c.thread p) (R.phase t₀ p c.trace) fun _ t => t = t₀ := by
  induction run with
  | refl => rfl
  | @tail c _ _ turn ih =>
    cases turn with
    | @call q prog idle call =>
      by_cases same : p = q
      · subst same
        rw [idle] at ih
        simp only [update_self]
        rw [show R.phase t₀ p c.trace = t₀ from ih]
        exact start p c.state prog call
      · simp only [update_of_ne same]
        exact ih
    | @step q e next r s at_step meets act =>
      by_cases same : p = q
      · subst same
        rw [at_step] at ih
        simp only [update_self, Protocol.phase, if_pos]
        exact ih.2 r (answers c p e r s meets act)
      · simp only [update_of_ne same, Protocol.phase, if_neg (Ne.symm same)]
        exact ih

theorem reachable_run {c : Config G S} {p : Nat} {prog : Program G Unit} {s : S} (at_prog : c.thread p = prog)
    (run : M.run prog c.state = .returned () s) (free : ∀ c p e, A c p e) :
    ∃ trace, M.Reachable calls A c ⟨s, update c.thread p (.done ()), trace⟩ := by
  induction prog generalizing c with
  | done a =>
    cases run
    refine ⟨c.trace, ?_⟩
    rw [← at_prog, update_eq_self]
    exact .refl
  | step e next ih =>
    simp only [Machine.run] at run
    cases act : M.act e c.state with
    | returned r s' =>
      rw [act] at run
      have turn : M.Turn calls A c ⟨s', update c.thread p (next r), (p, e) :: c.trace⟩ :=
        .step at_prog (free c p e) act
      obtain ⟨trace, rest⟩ := ih r (c := ⟨s', update c.thread p (next r), (p, e) :: c.trace⟩)
        (update_self ..) run
      simp only [update_idem] at rest
      exact ⟨trace, .head turn rest⟩
    | panicked _ | waiting => rw [act] at run; cases run

theorem reachable_before {c : Config G S} {p : Nat} {prog : Program G Unit} {I : Config G S → Prop}
    {stop : G.Step → Bool} {e : G.Step} (at_prog : c.thread p = prog) (inv : I c) (meets : ∀ c e, I c → A c p e)
    (keeps : ∀ c e s thread, I c → stop e = false → I ⟨s, thread, (p, e) :: c.trace⟩)
    (found : (M.steps prog c.state).find? stop = some e) :
    ∃ c' next, M.Reachable calls A c c' ∧ I c' ∧ c'.thread p = .step e next := by
  induction prog generalizing c with
  | done a => cases found
  | step e' next ih =>
    simp only [Machine.steps, List.find?_cons] at found
    split at found
    · cases found
      exact ⟨c, next, .refl, inv, at_prog⟩
    · rename_i goes
      cases act : M.act e' c.state with
      | returned r s' =>
        rw [act] at found
        obtain ⟨c', next', rest, inv', at_step⟩ := ih r (c := ⟨s', update c.thread p (next r), (p, e') :: c.trace⟩)
          (update_self ..) (keeps c e' _ _ inv goes) found
        exact ⟨c', next', .head (.step at_prog (meets c e' inv) act) rest, inv', at_step⟩
      | panicked _ | waiting => rw [act] at found; cases found

theorem reachable_panic {c : Config G S} {p : Nat} {prog : Program G Unit} {m : P}
    (at_prog : c.thread p = prog) (run : M.run prog c.state = .panicked m) (free : ∀ c p e, A c p e) :
    ∃ c' e next, M.Reachable calls A c c' ∧ c'.thread p = .step e next ∧ M.act e c'.state = .panicked m := by
  induction prog generalizing c with
  | done a => cases run
  | step e next ih =>
    simp only [Machine.run] at run
    cases act : M.act e c.state with
    | returned r s' =>
      rw [act] at run
      have turn : M.Turn calls A c ⟨s', update c.thread p (next r), (p, e) :: c.trace⟩ :=
        .step at_prog (free c p e) act
      obtain ⟨c', e', next', rest, stop⟩ :=
        ih r (c := ⟨s', update c.thread p (next r), (p, e) :: c.trace⟩) (update_self ..) run
      exact ⟨c', e', next', .head turn rest, stop⟩
    | panicked m' =>
      rw [act] at run
      cases run
      exact ⟨c, e, next, .refl, at_prog, act⟩
    | waiting => rw [act] at run; cases run

end Machine

end Espl
