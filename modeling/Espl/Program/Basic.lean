import Mathlib.Logic.Function.Basic

/-!
# Programs of atomic steps

A program is a tree of atomic steps on a shared state: it either returns, or names one step and
what to do with the answer. Run alone it is a state transformer. The states between its steps are
the points where a machine can stop or another program can get a turn.
-/

namespace Espl

/-- The atomic steps a program may take and what each of them answers. -/
structure Signature where
  Step : Type
  Answer : Step → Type

inductive Program (G : Signature) (α : Type) where
  | done (a : α)
  | step (e : G.Step) (next : G.Answer e → Program G α)

/-- How a step or a whole program ends: with an answer, in a panic, or waiting for another program. -/
inductive Outcome (S P α : Type) where
  | returned (a : α) (s : S)
  | panicked (m : P)
  | waiting

def Outcome.message {S P α : Type} : Outcome S P α → Option P
  | .panicked m => some m
  | _ => none

theorem Outcome.message_eq_some {S P α : Type} {o : Outcome S P α} {m : P} (h : o.message = some m) :
    o = .panicked m := by
  cases o with
  | panicked => exact congrArg _ (Option.some.inj h)
  | returned => cases h
  | waiting => cases h

structure Machine (G : Signature) (S P : Type) where
  act : (e : G.Step) → S → Outcome S P (G.Answer e)

namespace Program

variable {G : Signature} {α β γ : Type}

def bind : Program G α → (α → Program G β) → Program G β
  | done a, f => f a
  | step e next, f => step e fun r => (next r).bind f

instance : Monad (Program G) where
  pure := done
  bind := bind

/-- `p` with each of its steps carried out by a program over other steps. -/
def interp {H : Signature} (h : (e : G.Step) → Program H (G.Answer e)) : Program G α → Program H α
  | done a => done a
  | step e next => (h e).bind fun r => (next r).interp h

@[simp] theorem pure_eq (a : α) : (pure a : Program G α) = done a := rfl

@[simp] theorem bind_eq (p : Program G α) (f : α → Program G β) : p >>= f = p.bind f := rfl

@[simp] theorem done_bind (a : α) (f : α → Program G β) : (done a).bind f = f a := rfl

@[simp] theorem step_bind (e : G.Step) (next : G.Answer e → Program G α) (f : α → Program G β) :
    (step e next).bind f = step e fun r => (next r).bind f := rfl

theorem bind_assoc (p : Program G α) (f : α → Program G β) (g : β → Program G γ) :
    (p.bind f).bind g = p.bind fun a => (f a).bind g := by
  induction p with
  | done a => rfl
  | step e next ih => simp only [step_bind, ih]

/-- Every step of the program meets `ok`. -/
def All (ok : G.Step → Prop) : Program G α → Prop
  | done _ => True
  | step e next => ok e ∧ ∀ r, (next r).All ok

theorem all_step {ok : G.Step → Prop} {e : G.Step} {f : G.Answer e → Program G α} (here : ok e)
    (rest : ∀ r, (f r).All ok) : (step e done >>= f).All ok := ⟨here, rest⟩

theorem all_bind {ok : G.Step → Prop} {p : Program G α} {f : α → Program G β} (h : p.All ok)
    (rest : ∀ a, (f a).All ok) : (p >>= f).All ok := by
  induction p with
  | done a => exact rest a
  | step e next ih => exact ⟨h.1, fun r => ih r (h.2 r)⟩

theorem All.mono {ok ok' : G.Step → Prop} {p : Program G α} (h : p.All ok) (imp : ∀ e, ok e → ok' e) : p.All ok' := by
  induction p with
  | done a => trivial
  | step e next ih => exact ⟨imp e h.1, fun r => ih r (h.2 r)⟩

theorem all_ite {ok : G.Step → Prop} {c : Prop} [Decidable c] {p q : Program G α} (yes : c → p.All ok)
    (no : ¬ c → q.All ok) : (if c then p else q).All ok := by
  split
  · exact yes ‹_›
  · exact no ‹_›

end Program

namespace Machine

variable {G : Signature} {S P : Type} {α β : Type} (M : Machine G S P)

/-- A program run alone from `s` to its end. -/
def run : Program G α → S → Outcome S P α
  | .done a, s => .returned a s
  | .step e next, s =>
    match M.act e s with
    | .returned r s' => run (next r) s'
    | .panicked m => .panicked m
    | .waiting => .waiting

/-- The states a lone run of a program passes through, the first and the last included. -/
def visited : Program G α → S → List S
  | .done _, s => [s]
  | .step e next, s =>
    s :: match M.act e s with
      | .returned r s' => visited (next r) s'
      | .panicked _ => []
      | .waiting => []

/-- The steps of a lone run of a program. -/
def steps : Program G α → S → List G.Step
  | .done _, _ => []
  | .step e next, s =>
    e :: match M.act e s with
      | .returned r s' => steps (next r) s'
      | .panicked _ => []
      | .waiting => []

theorem run_bind (p : Program G α) (f : α → Program G β) (s : S) :
    M.run (p.bind f) s =
      match M.run p s with
      | .returned a s' => M.run (f a) s'
      | .panicked m => .panicked m
      | .waiting => .waiting := by
  induction p generalizing s with
  | done a => rfl
  | step e next ih =>
    simp only [Program.step_bind, run]
    cases M.act e s with
    | returned r s' => exact ih r s'
    | panicked m => rfl
    | waiting => rfl

/-- The machine whose steps are runs of programs on `M`. -/
def through {H : Signature} (N : Machine H S P) (h : (e : G.Step) → Program H (G.Answer e)) : Machine G S P :=
  ⟨fun e s => N.run (h e) s⟩

theorem run_interp {H : Signature} (N : Machine H S P) (h : (e : G.Step) → Program H (G.Answer e)) (p : Program G α)
    (s : S) : N.run (p.interp h) s = (N.through h).run p s := by
  induction p generalizing s with
  | done => rfl
  | step e next ih =>
    simp only [Program.interp, run_bind, run, through]
    cases N.run (h e) s with
    | returned r t => exact ih r t
    | panicked => rfl
    | waiting => rfl

end Machine

end Espl
