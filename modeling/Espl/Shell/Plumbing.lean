import Espl.Shell.Leads
import Espl.Shell.Redirections

/-!
# Pipes between commands

Which processes have an end of a pipe open while a command runs, for commands of any shape.
-/

namespace Espl.Shell

open Function (update update_self update_of_ne update_idem update_comm)

def Cmd.Joins (root : Cmd) (node : Place) : Prop := ∃ left right, root.sub node = some (.pipe left right)

def File.side {F : Type} : File F → Option (Pipe × Turn)
  | .writeEnd p => some (p, .left)
  | .readEnd p => some (p, .right)
  | .opened _ => none

variable {F : Type} {W : World F} {root : Cmd} {o : Own F} {buf : List UInt8}

/-- Each end that is open is for a side of its pipe on which the process is. -/
def Clean (root : Cmd) (o : Own F) : Prop :=
  ∀ fd f p turn, o.ofile fd = some f → f.side = some (p, turn) → root.Joins p.node → p.node ++ [turn] <+: o.place

def Making (root : Cmd) (o : Own F) : Prop :=
  ∀ fd f p turn, o.ofile fd = some f → f.side = some (p, turn) → root.Joins p.node →
    p.node ++ [turn] <+: o.place ∨ p.node = o.place

theorem Clean.making (clean : Clean root o) : Making root o :=
  fun fd f p turn here side joins => Or.inl (clean fd f p turn here side joins)

theorem Clean.enter (clean : Clean root o) (turn : Turn) : Clean root { o with place := o.place ++ [turn] } :=
  fun fd f p side here is joins => (clean fd f p side here is joins).trans (List.prefix_append _ _)

theorem Clean.update {f : Option (File F)} (clean : Clean root o) (fd : Nat)
    (new : ∀ p turn, f.bind File.side = some (p, turn) → root.Joins p.node → p.node ++ [turn] <+: o.place) :
    Clean root { o with ofile := Function.update o.ofile fd f } := by
  intro fd' f' p turn here side joins
  by_cases same : fd' = fd
  · subst same
    simp only [update_self] at here
    exact new p turn (by rw [here]; exact side) joins
  · simp only [update_of_ne same] at here
    exact clean fd' f' p turn here side joins

theorem Making.update {f : Option (File F)} (making : Making root o) (fd : Nat)
    (new : ∀ p turn, f.bind File.side = some (p, turn) → root.Joins p.node → p.node ++ [turn] <+: o.place ∨
      p.node = o.place) :
    Making root { o with ofile := Function.update o.ofile fd f } := by
  intro fd' f' p turn here side joins
  by_cases same : fd' = fd
  · subst same
    simp only [update_self] at here
    exact new p turn (by rw [here]; exact side) joins
  · simp only [update_of_ne same] at here
    exact making fd' f' p turn here side joins

theorem Clean.close (clean : Clean root o) (fd : Nat) :
    Clean root { o with ofile := Function.update o.ofile fd none } :=
  clean.update fd fun _ _ none => nomatch none

theorem Clean.opened (clean : Clean root o) (fd : Nat) (f : F) :
    Clean root { o with ofile := Function.update o.ofile fd (some (.opened f)) } :=
  clean.update fd fun _ _ none => nomatch none

theorem Making.close (making : Making root o) (fd : Nat) :
    Making root { o with ofile := Function.update o.ofile fd none } :=
  making.update fd fun _ _ none => nomatch none

section Tables

variable {d : Table F} {fd0 fd1 fd : Nat} {a b f : File F}

end Tables

/-! ### `runcmd` -/

section Runcmd

variable (works : ¬ W.fails .fork)
include works

end Runcmd

/-- The forks and closes at a PIPE are done: a process of the shell there has only to wait and to exit. -/
def Joined (s : State F) (node : Place) : Prop :=
  ∀ i q code, s.procs i = some q → q.own.place = node → q.status = .shell code →
    ∃ e next, code = .step e next ∧ (e = .wait ∨ e = .exit)

def pair : List UInt8 × Cmd := (codes ['a', '\x00', 'b', '\x00'], .pipe (.exec [⟨0, 1⟩]) (.exec [⟨2, 3⟩]))

/-- Process `i` is about to execute `word` with `f` at the descriptor `fd`. -/
def Calls {F : Type} (s : State F) (i : Nat) (word : List UInt8) (fd : Nat) (f : File F) : Prop :=
  ∃ q next, s.procs i = some q ∧ q.status = .shell (.step (.exec word [word]) next) ∧ q.own.ofile fd = some f

theorem reaches_joined : ∃ s, Reachable named (.start (runcmd pair.1 pair.2) console) s ∧ Joined s [] ∧
    Calls s 1 (codes ['a']) 1 (.writeEnd ⟨0, []⟩) ∧ Calls s 2 (codes ['b']) 0 (.readEnd ⟨0, []⟩) := by
  refine ⟨_, .head (.call (i := 0) rfl rfl (.pipe rfl rfl)) <| .head (.fork (i := 0) rfl rfl) <|
    .head (.call (i := 1) rfl rfl (.close 1 _)) <| .head (.call (i := 1) rfl rfl (.dup rfl rfl)) <|
    .head (.call (i := 1) rfl rfl (.close 3 _)) <| .head (.call (i := 1) rfl rfl (.close 4 _)) <|
    .head (.call (i := 1) rfl rfl (.runcmd .left _)) <| .head (.fork (i := 0) rfl rfl) <|
    .head (.call (i := 2) rfl rfl (.close 0 _)) <| .head (.call (i := 2) rfl rfl (.dup rfl rfl)) <|
    .head (.call (i := 2) rfl rfl (.close 3 _)) <| .head (.call (i := 2) rfl rfl (.close 4 _)) <|
    .head (.call (i := 2) rfl rfl (.runcmd .right _)) <| .head (.call (i := 0) rfl rfl (.close 3 _)) <|
    .head (.call (i := 0) rfl rfl (.close 4 _)) .refl, ?_, ⟨_, _, rfl, rfl, rfl⟩, _, _, rfl, rfl, rfl⟩
  intro i q code here place shell
  rcases i with _ | _ | _ | i
  · obtain rfl := Option.some.inj here
    cases shell
    exact ⟨_, _, rfl, Or.inl rfl⟩
  · obtain rfl := Option.some.inj here
    cases place
  · obtain rfl := Option.some.inj here
    cases place
  · simp [State.set, State.fork, State.start, update] at here

end Espl.Shell
