import Mathlib.Logic.Relation
import Espl.Program.Basic

/-!
# Threads with ghost values

Threads take turns on one state, and what a step does may depend on who takes it. Every thread carries
a ghost value. Rules say which steps it may take with that value and which values it may have
afterwards. An invariant of the state and all ghost values that each allowed step keeps holds in every
interleaving.
-/

namespace Espl

open Function

variable {G H : Signature} {S P T U : Type} {α β : Type}

theorem forall_update₂ (t : Nat → T) (v : Nat → U) {p : Nat} {a : T} {b : U} (P : Nat → T → U → Prop) (self : P p a b)
    (others : ∀ r, r ≠ p → P r (t r) (v r)) (r : Nat) : P r (update t p a r) (update v p b r) := by
  by_cases eq : r = p
  · subst eq
    rwa [update_self, update_self]
  · rw [update_of_ne eq, update_of_ne eq]
    exact others r eq

/-- What a thread may do with its ghost value, and how a step and its answer may change the value. -/
structure Rules (G : Signature) (T : Type) where
  allowed : T → G.Step → Prop
  moves : T → (e : G.Step) → G.Answer e → T → Prop

namespace Rules

variable {R : Rules G T}

/-- `p` started with ghost value `t` takes allowed steps only, whatever its value becomes, and ends
with `Q`. -/
def Keeps (R : Rules G T) : Program G α → T → (α → T → Prop) → Prop
  | .done a, t, Q => Q a t
  | .step e next, t, Q => R.allowed t e ∧ ∀ r t', R.moves t e r t' → Keeps R (next r) t' Q

theorem keeps_step {e : G.Step} {f : G.Answer e → Program G α} {t : T} {Q : α → T → Prop}
    (may : R.allowed t e) (rest : ∀ r t', R.moves t e r t' → R.Keeps (f r) t' Q) :
    R.Keeps (Program.step e .done >>= f) t Q := ⟨may, rest⟩

theorem keeps_last {e : G.Step} {t : T} {Q : G.Answer e → T → Prop} (may : R.allowed t e)
    (post : ∀ r t', R.moves t e r t' → Q r t') : R.Keeps (Program.step e .done) t Q := ⟨may, post⟩

theorem keeps_seq {p : Program G α} {f : α → Program G β} {t : T} {Q : α → T → Prop}
    {Q' : β → T → Prop} (h : R.Keeps p t Q) (rest : ∀ a t', Q a t' → R.Keeps (f a) t' Q') :
    R.Keeps (p.bind f) t Q' := by
  induction p generalizing t with
  | done a => exact rest a t h
  | step e next ih => exact ⟨h.1, fun r t' moves => ih r (h.2 r t' moves)⟩

theorem keeps_mono {p : Program G α} {t : T} {Q Q' : α → T → Prop} (h : R.Keeps p t Q)
    (imp : ∀ a t', Q a t' → Q' a t') : R.Keeps p t Q' := by
  induction p generalizing t with
  | done a => exact imp a t h
  | step e next ih => exact ⟨h.1, fun r t' moves => ih r (h.2 r t' moves)⟩

/-- Carrying out each step by a program: if the program for a step ends with a value that stands for
one the step's own rules allow, the whole keeps the rules of the programs. -/
theorem keeps_interp {R' : Rules H U} {h : (e : G.Step) → Program H (G.Answer e)} {L : T → U → Prop}
    {p : Program G α} {t : T} {u : U} {Q : α → T → Prop} (high : R.Keeps p t Q) (fits : L t u)
    (steps : ∀ e t u, R.allowed t e → L t u →
      R'.Keeps (h e) u fun r u' => ∃ t', L t' u' ∧ R.moves t e r t') :
    R'.Keeps (p.interp h) u fun a u' => ∃ t', L t' u' ∧ Q a t' := by
  induction p generalizing t u with
  | done a => exact ⟨t, fits, high⟩
  | step e next ih =>
    refine keeps_seq (steps e t u high.1 fits) fun r u' ⟨t', fits', moves⟩ => ?_
    exact ih r (high.2 r t' moves) fits'

theorem keeps_interp_inv {R' : Rules H U} {h : (e : G.Step) → Program H (G.Answer e)} {I : U → Prop} {u : U}
    (p : Program G α) (start : I u) (steps : ∀ e u, I u → R'.Keeps (h e) u fun _ => I) :
    R'.Keeps (p.interp h) u fun _ => I := by
  induction p generalizing u with
  | done a => exact start
  | step e next ih => exact keeps_seq (steps e u start) fun r u' => ih r

/-- Two sets of rules side by side, each with its own ghost value. -/
def both (R : Rules G T) (R' : Rules G U) : Rules G (T × U) where
  allowed x e := R.allowed x.1 e ∧ R'.allowed x.2 e
  moves x e r y := R.moves x.1 e r y.1 ∧ R'.moves x.2 e r y.2

theorem keeps_both {R' : Rules G U} {p : Program G α} {t : T} {u : U} {Q : α → T → Prop} {Q' : α → U → Prop}
    (h : R.Keeps p t Q) (h' : R'.Keeps p u Q') : (R.both R').Keeps p (t, u) fun a x => Q a x.1 ∧ Q' a x.2 := by
  induction p generalizing t u with
  | done a => exact ⟨h, h'⟩
  | step e next ih => exact ⟨⟨h.1, h'.1⟩, fun r _ moves => ih r (h.2 r _ moves.1) (h'.2 r _ moves.2)⟩

end Rules

/-- A machine that takes a step only if it and the state pass a test. -/
def Machine.guarded (M : Machine G S P) (ok : G.Step → S → Bool) : Machine G S P :=
  ⟨fun e s => if ok e s then M.act e s else .waiting⟩

structure Threads (G : Signature) (S : Type) where
  state : S
  thread : Nat → Program G Unit

namespace Threads

/-- One turn: a thread is given a program to run, or takes a step that meets `A`. -/
inductive Turn (M : Nat → Machine G S P) (calls : Nat → S → Program G Unit → Program G Unit → Prop)
    (A : Threads G S → Nat → G.Step → Prop) : Threads G S → Threads G S → Prop where
  | call {c : Threads G S} {p : Nat} {prog : Program G Unit} (call : calls p c.state (c.thread p) prog) :
      Turn M calls A c { c with thread := update c.thread p prog }
  | step {c : Threads G S} {p : Nat} {e : G.Step} {next : G.Answer e → Program G Unit} {r : G.Answer e}
      {s : S} (at_step : c.thread p = .step e next) (meets : A c p e)
      (act : (M p).act e c.state = .returned r s) :
      Turn M calls A c ⟨s, update c.thread p (next r)⟩

/-- The configurations that the threads can reach from `c` by turns. -/
def Reachable (M : Nat → Machine G S P) (calls : Nat → S → Program G Unit → Program G Unit → Prop)
    (A : Threads G S → Nat → G.Step → Prop) : Threads G S → Threads G S → Prop :=
  Relation.ReflTransGen (Turn M calls A)

def initial (s : S) : Threads G S := ⟨s, fun _ => .done ()⟩

/-- Every thread is within its rules with a ghost value that the invariant `I` admits, and ends with
one that `rest` admits. -/
def Within (R : Nat → Rules G T) (I : S → (Nat → T) → Prop) (rest : T → Prop) (c : Threads G S)
    (t : Nat → T) : Prop :=
  I c.state t ∧ ∀ p, (R p).Keeps (c.thread p) (t p) fun _ u => rest u

variable {M : Nat → Machine G S P} {calls : Nat → S → Program G Unit → Program G Unit → Prop}
  {A : Threads G S → Nat → G.Step → Prop} {R : Nat → Rules G T} {I : S → (Nat → T) → Prop}
  {rest : T → Prop} {c c' : Threads G S} {t : Nat → T}

theorem Within.rests (h : Within R I rest c t) {p : Nat} (done : c.thread p = .done ()) : rest (t p) := by
  have keeps := h.2 p
  rw [done] at keeps
  exact keeps

theorem Within.allowed (h : Within R I rest c t) {p : Nat} {e : G.Step} {next : G.Answer e → Program G Unit}
    (at_step : c.thread p = .step e next) : (R p).allowed (t p) e := by
  have keeps := h.2 p
  rw [at_step] at keeps
  exact keeps.1

theorem Within.update (h : Within R I rest c t) {p : Nat} {prog : Program G Unit} {u : T} {s : S}
    (keeps : (R p).Keeps prog u fun _ u => rest u) (inv : I s (update t p u)) :
    Within R I rest ⟨s, update c.thread p prog⟩ (update t p u) := by
  refine ⟨inv, fun q => ?_⟩
  by_cases same : q = p
  · subst same
    simpa only [update_self] using keeps
  · simpa only [update_of_ne same] using h.2 q

/-- If what a thread is given keeps its rules and every allowed step keeps the invariant, all threads
stay within their rules. -/
theorem reachable_within (run : Reachable M calls A c c') (start : Within R I rest c t)
    (given : ∀ c t p prog, Within R I rest c t → calls p c.state (c.thread p) prog →
      ∃ u, (R p).Keeps prog u (fun _ u => rest u) ∧ I c.state (update t p u))
    (step : ∀ c t p e next r s, Within R I rest c t → c.thread p = .step e next → (R p).allowed (t p) e →
      A c p e → (M p).act e c.state = .returned r s →
      ∃ u, (R p).moves (t p) e r u ∧ I s (update t p u)) :
    ∃ t, Within R I rest c' t := by
  induction run with
  | refl => exact ⟨t, start⟩
  | @tail d _ _ turn ih =>
    obtain ⟨t, within⟩ := ih
    cases turn with
    | @call p prog call =>
      obtain ⟨u, keeps, inv⟩ := given d t p prog within call
      exact ⟨_, within.update keeps inv⟩
    | @step p e next r s at_step meets act =>
      obtain ⟨u, moves, inv⟩ := step d t p e next r s within at_step (within.allowed at_step) meets act
      have keeps := within.2 p
      rw [at_step] at keeps
      exact ⟨_, within.update (keeps.2 r u moves) inv⟩

theorem reachable_mono {B : Threads G S → Nat → G.Step → Prop} (run : Reachable M calls A c c')
    (imp : ∀ c p e, A c p e → B c p e) : Reachable M calls B c c' := by
  refine Relation.ReflTransGen.mono (fun c c' turn => ?_) _ _ run
  cases turn with
  | call call => exact .call call
  | step at_step meets act => exact .step at_step (imp _ _ _ meets) act

/-! ### Schedules -/

theorem Reachable.call {d : Threads G S} {p : Nat} {prog : Program G Unit} (run : Reachable M calls A c d)
    (call : calls p d.state (d.thread p) prog) :
    Reachable M calls A c ⟨d.state, update d.thread p prog⟩ := run.tail (.call call)

/-- `n` steps of thread `p`, all of a kind that `may` admits. -/
def alone (M : Nat → Machine G S P) (may : G.Step → Bool) (p : Nat) : Nat → Threads G S → Option (Threads G S)
  | 0, c => some c
  | n + 1, c =>
    match c.thread p with
    | .done _ => none
    | .step e next =>
      if may e then
        match (M p).act e c.state with
        | .returned r s => alone M may p n ⟨s, update c.thread p (next r)⟩
        | _ => none
      else none

/-- Threads take turns: each entry is a thread and how many steps it takes. -/
def schedule (M : Nat → Machine G S P) (may : G.Step → Bool) (turns : List (Nat × Nat)) (c : Threads G S) :
    Option (Threads G S) :=
  turns.foldlM (fun c turn => alone M may turn.1 turn.2 c) c

theorem reachable_alone {may : G.Step → Bool} {p n : Nat} (meets : ∀ c p e, may e = true → A c p e)
    (h : alone M may p n c = some c') : Reachable M calls A c c' := by
  induction n generalizing c with
  | zero =>
    cases h
    exact .refl
  | succ n ih =>
    rw [alone] at h
    split at h
    · cases h
    · rename_i at_step
      split at h
      · rename_i admitted
        split at h
        · rename_i act
          exact .head (.step at_step (meets _ _ _ admitted) act) (ih h)
        · cases h
      · cases h

theorem reachable_schedule {may : G.Step → Bool} {turns : List (Nat × Nat)}
    (meets : ∀ c p e, may e = true → A c p e) (h : schedule M may turns c = some c') :
    Reachable M calls A c c' := by
  induction turns generalizing c with
  | nil =>
    cases h
    exact .refl
  | cons turn rest ih =>
    rw [schedule, List.foldlM_cons] at h
    cases first : alone M may turn.1 turn.2 c with
    | none =>
      rw [first] at h
      cases h
    | some d =>
      rw [first] at h
      exact (reachable_alone meets first).trans (ih h)

/-- Runs of machines that take a step only if it and the state pass a test. -/
theorem reachable_guarded {ok : G.Step → S → Bool} (meets : ∀ c p e, ok e c.state = true → A c p e)
    (run : Reachable (fun p => (M p).guarded ok) calls (fun _ _ _ => True) c c') : Reachable M calls A c c' := by
  refine Relation.ReflTransGen.mono (fun c c' turn => ?_) _ _ run
  cases turn with
  | call call => exact .call call
  | @step p e next r s at_step _ act =>
    simp only [Machine.guarded] at act
    split at act
    · rename_i passed
      exact .step at_step (meets c p e passed) act
    · cases act

end Threads

end Espl
