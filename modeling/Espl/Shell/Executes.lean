import Espl.Shell.Plumbing

/-!
# From the line to `exec`

What the processes of the shell execute when it runs a line.
-/

namespace Espl.Shell

/-- The simple commands in a command. -/
def Cmd.commands : Cmd → List (List Span)
  | .exec words => [words]
  | .redir cmd _ _ _ => cmd.commands
  | .pipe left right => left.commands ++ right.commands
  | .list left right => left.commands ++ right.commands
  | .back cmd => cmd.commands

/-- A call of `exec` is for words with `P`, as they are in `buf`, and the first one is the path. -/
def Executes (buf : List UInt8) (P : List Span → Prop) (e : Call) : Prop :=
  ∀ path argv, e = .exec path argv → ∃ words, P words ∧ argv = words.map (fun w => string buf w.q) ∧
    argv.head? = some path

theorem Cmd.mem_words {cmd : Cmd} {words : List Span} {w : Span} (simple : words ∈ cmd.commands) (member : w ∈ words) :
    w ∈ cmd.words := by
  induction cmd with
  | exec => rwa [List.mem_singleton.mp simple] at member
  | redir _ _ _ _ ih => exact List.mem_append_left _ (ih simple)
  | pipe _ _ left right | list _ _ left right =>
      exact List.mem_append.mpr ((List.mem_append.mp simple).imp left right)
  | back _ ih => exact ih simple

section

variable {buf : List UInt8} {P : List Span → Prop}

theorem all_exit {α : Type} : (exit : Sh α).All (Executes buf P) := ⟨by simp [Executes], fun r => nomatch (r : Empty)⟩

theorem all_call {e : Call} {α : Type} {f : e.Answer → Sh α} (other : ∀ path argv, e ≠ .exec path argv)
    (rest : ∀ r, (f r).All (Executes buf P)) : (call e >>= f).All (Executes buf P) :=
  Program.all_step (fun path argv is => absurd is (other path argv)) rest

theorem all_then {e : Call} {p : Sh Empty} (other : ∀ path argv, e ≠ .exec path argv) (rest : p.All (Executes buf P)) :
    (call e >>= fun _ => p).All (Executes buf P) := all_call other fun _ => rest

theorem all_fork {yes no : Sh Empty} (child : yes.All (Executes buf P)) (parent : no.All (Executes buf P)) :
    (do let pid ← fork1; if pid = 0 then yes else no).All (Executes buf P) := by
  refine Program.all_bind (all_call (by simp) fun pid => Program.all_ite (fun _ => ?_) fun _ => trivial) fun pid =>
    Program.all_ite (fun _ => child) fun _ => parent
  exact all_call (by simp) fun _ => all_exit

theorem all_runcmd {cmd : Cmd} (simple : ∀ words ∈ cmd.commands, P words) : (runcmd buf cmd).All (Executes buf P) := by
  induction cmd with
  | exec words =>
    cases words with
    | nil => exact all_exit
    | cons w words =>
      refine Program.all_step (fun path argv is => ?_) fun _ => all_call (by simp) fun _ => all_exit
      cases is
      exact ⟨_, simple _ (List.mem_singleton_self _), rfl, rfl⟩
  | redir cmd file mode fd ih =>
    apply all_then (by simp)
    refine all_call (by simp) fun opened => Program.all_ite (fun _ => ?_) fun _ => all_then (by simp) (ih simple)
    exact all_then (by simp) all_exit
  | list left right ihl ihr =>
    apply all_fork
    · exact all_then (by simp) (ihl fun _ member => simple _ (List.mem_append_left _ member))
    · apply all_then (by simp)
      exact all_then (by simp) (ihr fun _ member => simple _ (List.mem_append_right _ member))
  | pipe left right ihl ihr =>
    have ihl := ihl fun _ member => simple _ (List.mem_append_left _ member)
    have ihr := ihr fun _ member => simple _ (List.mem_append_right _ member)
    have close : ∀ {fd : Nat} {p : Sh Empty}, p.All (Executes buf P) →
      (call (.close fd) >>= fun _ => p).All (Executes buf P) :=
      all_then (by simp)
    refine all_call (by simp) fun ends => ?_
    cases ends with
    | none => exact all_then (by simp) all_exit
    | some ends =>
      refine all_fork (close (all_then (by simp) (close (close (all_then (by simp) ihl))))) (all_fork ?_ ?_)
      · exact close (all_then (by simp) (close (close (all_then (by simp) ihr))))
      · exact close (close (all_then (by simp) (all_then (by simp) all_exit)))
  | back cmd ih => exact all_fork (all_then (by simp) (ih simple)) all_exit

variable {F : Type} {W : World F} {d : Table F} {s : State F} {q : Proc F} {i : Nat}

/-- Whichever process of the shell calls `exec` while a line is run, it does so for a simple command of the line's
derivation, with the words as they were typed. -/
theorem line_executes {buf' : List UInt8} {cmd : Cmd} {path : List UInt8} {argv : List (List UInt8)}
    {next : Int → Sh Empty} (read : parsecmd buf = .ok (cmd, buf')) (run : Reachable W (.start (runcmd buf' cmd) d) s)
    (here : s.procs i = some q) (calls : q.status = .shell (.step (.exec path argv) next)) :
    Derives .line (tokenize buf) cmd ∧
      ∃ words ∈ cmd.commands, argv = words.map (fun w => w.text buf) ∧ argv.head? = some path := by
  have simple : ∀ words ∈ cmd.commands, words ∈ cmd.commands := fun _ member => member
  have fine := reachable_fine (J := fun _ => True) (fun _ _ _ _ => trivial) (fun _ _ _ _ _ _ _ _ => trivial)
    (Program.safe_of_all (all_runcmd simple) _) run
  obtain ⟨words, simple, rfl, first⟩ := ((fine_shell calls).mp (fine i q here)).1 path argv rfl
  rcases parsecmd_cases buf with ⟨cmd', read', derived⟩ | ⟨p, failed⟩
  · rw [read', Except.ok.injEq, Prod.mk.injEq] at read
    obtain ⟨rfl, rfl⟩ := read
    refine ⟨derived, words, simple, List.map_congr_left fun w member => ?_, first⟩
    rw [nulterminate_eq]
    exact string_terminate derived.stands (Cmd.mem_words simple member)
  · rw [failed] at read
    cases read

end

/-- In `a|b` two processes call `exec`, one for each word. -/
theorem line_executes_pair : parsecmd (codes ['a', '|', 'b', '\x00']) = .ok (pair.2, pair.1) ∧
    ∃ s, Reachable named (.start (runcmd pair.1 pair.2) console) s ∧
      Calls s 1 (codes ['a']) 1 (.writeEnd ⟨0, []⟩) ∧ Calls s 2 (codes ['b']) 0 (.readEnd ⟨0, []⟩) ∧
      ∀ i word fd f, Calls s i word fd f → Derives .line (tokenize (codes ['a', '|', 'b', '\x00'])) pair.2 ∧
        ∃ words ∈ pair.2.commands, [word] = words.map fun w => w.text (codes ['a', '|', 'b', '\x00']) := by
  have read : parsecmd (codes ['a', '|', 'b', '\x00']) = .ok (pair.2, pair.1) := rfl
  obtain ⟨s, run, -, first, second⟩ := reaches_joined
  refine ⟨read, s, run, first, second, ?_⟩
  rintro i word fd f ⟨q, next, here, calls, -⟩
  obtain ⟨derived, words, simple, same, -⟩ := line_executes read run here calls
  exact ⟨derived, words, simple, same⟩

end Espl.Shell
