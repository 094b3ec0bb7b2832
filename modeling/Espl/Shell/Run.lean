import Espl.Program.Demonic
import Espl.Shell.Words

/-!
# Running commands

`runcmd` of `sh.c` as a program of system calls, and the processes that it forks. Each process has its own
descriptors, and is at a place in the tree of the command, which only the proofs look at. A process that
has called `exec` can make any calls.
-/

namespace Espl.Shell

open Function (update update_self update_of_ne update_idem)

abbrev NOFILE : Nat := 16

inductive Turn where
  | inner | left | right
  deriving DecidableEq, Repr

abbrev Place : Type := List Turn

structure Pipe where
  id : Nat
  node : Place
  deriving DecidableEq, Repr

inductive File (F : Type) where
  | opened (f : F)
  | readEnd (p : Pipe)
  | writeEnd (p : Pipe)
  deriving DecidableEq, Repr

abbrev Table (F : Type) : Type := Nat → Option (File F)

def Table.lowest {F : Type} (d : Table F) : Option Nat := (List.range NOFILE).find? fun fd => (d fd).isNone

inductive Call where
  | close (fd : Nat)
  | open (path : List UInt8) (mode : Nat)
  | dup (fd : Nat)
  | pipe
  | fork
  | wait
  | exec (path : List UInt8) (argv : List (List UInt8))
  | exit
  | printf (fd : Nat) (text : List UInt8)
  | runcmd (turn : Turn)

@[reducible] def Call.Answer : Call → Type
  | .pipe => Option (Nat × Nat)
  | .exit => Empty
  | .printf _ _ => Unit
  | .runcmd _ => Unit
  | _ => Int

abbrev signature : Signature := ⟨Call, Call.Answer⟩

abbrev Sh : Type → Type := Program signature

def call (e : Call) : Sh e.Answer := Program.step (G := signature) e .done

def exit {α : Type} : Sh α := Program.step (G := signature) .exit fun r => nomatch (r : Empty)

def panic {α : Type} (s : List UInt8) : Sh α := do
  call (.printf 2 (s ++ codes ['\n']))
  exit

def fork1 : Sh Int := do
  let pid ← call .fork
  if pid = -1 then panic (codes ['f', 'o', 'r', 'k']) else return pid

def message (before s : List UInt8) : List UInt8 :=
  before ++ s ++ codes [' ', 'f', 'a', 'i', 'l', 'e', 'd', '\n']

/-- `runcmd`, which never returns, with the strings of the command in `buf`. -/
def runcmd (buf : List UInt8) : Cmd → Sh Empty
  | .exec [] => exit
  | .exec (word :: words) => do
    let path := string buf word.q
    let _ ← call (.exec path ((word :: words).map fun w => string buf w.q))
    call (.printf 2 (message (codes ['e', 'x', 'e', 'c', ' ']) path))
    exit
  | .redir cmd file mode fd => do
    let path := string buf file.q
    let _ ← call (.close fd)
    let opened ← call (.open path mode)
    if opened < 0 then do
      call (.printf 2 (message (codes ['o', 'p', 'e', 'n', ' ']) path))
      exit
    else do
      call (.runcmd .inner)
      runcmd buf cmd
  | .list left right => do
    let pid ← fork1
    if pid = 0 then do
      call (.runcmd .left)
      runcmd buf left
    else do
      let _ ← call .wait
      call (.runcmd .right)
      runcmd buf right
  | .pipe left right => do
    match ← call .pipe with
    | none => panic (codes ['p', 'i', 'p', 'e'])
    | some (p0, p1) => do
      let pid ← fork1
      if pid = 0 then do
        let _ ← call (.close 1)
        let _ ← call (.dup p1)
        let _ ← call (.close p0)
        let _ ← call (.close p1)
        call (.runcmd .left)
        runcmd buf left
      else do
        let pid ← fork1
        if pid = 0 then do
          let _ ← call (.close 0)
          let _ ← call (.dup p0)
          let _ ← call (.close p0)
          let _ ← call (.close p1)
          call (.runcmd .right)
          runcmd buf right
        else do
          let _ ← call (.close p0)
          let _ ← call (.close p1)
          let _ ← call .wait
          let _ ← call .wait
          exit
  | .back cmd => do
    let pid ← fork1
    if pid = 0 then do
      call (.runcmd .inner)
      runcmd buf cmd
    else exit

/-! ### Processes -/

structure Own (F : Type) where
  place : Place
  ofile : Table F

/-- The files that can be opened by name, and the calls that can fail for other reasons. -/
structure World (F : Type) where
  lookup : List UInt8 → Nat → Option F
  fails : Call → Prop

variable {F : Type} {W : World F}

/-- What a call that concerns only the process itself can do; `n` is for the next pipe. -/
inductive Does (W : World F) (n : Nat) : (e : Call) → Own F → e.Answer → Own F → Prop where
  | close (fd : Nat) (o : Own F) :
      Does W n (.close fd) o (if (o.ofile fd).isSome then 0 else -1 : Int) { o with ofile := update o.ofile fd none }
  | open {path : List UInt8} {mode fd : Nat} {f : F} {o : Own F} : W.lookup path mode = some f →
      o.ofile.lowest = some fd →
      Does W n (.open path mode) o (fd : Int) { o with ofile := update o.ofile fd (some (.opened f)) }
  | openFails {path : List UInt8} {mode : Nat} {o : Own F} :
      W.fails (.open path mode) ∨ W.lookup path mode = none ∨ o.ofile.lowest = none →
        Does W n (.open path mode) o (-1 : Int) o
  | dup {fd fd' : Nat} {f : File F} {o : Own F} : o.ofile fd = some f → o.ofile.lowest = some fd' →
      Does W n (.dup fd) o (fd' : Int) { o with ofile := update o.ofile fd' (some f) }
  | dupFails {fd : Nat} {o : Own F} : o.ofile fd = none ∨ o.ofile.lowest = none → Does W n (.dup fd) o (-1 : Int) o
  | pipe {fd0 fd1 : Nat} {o : Own F} : o.ofile.lowest = some fd0 →
      Table.lowest (update o.ofile fd0 (some (.readEnd ⟨n, o.place⟩))) = some fd1 →
      Does W n .pipe o (some (fd0, fd1)) { o with
        ofile := update (update o.ofile fd0 (some (.readEnd ⟨n, o.place⟩))) fd1 (some (.writeEnd ⟨n, o.place⟩)) }
  | pipeFails {o : Own F} : W.fails .pipe ∨ o.ofile.lowest = none ∨ (∃ fd, o.ofile.lowest = some fd ∧
      Table.lowest (update o.ofile fd (some (.readEnd ⟨n, o.place⟩))) = none) → Does W n .pipe o none o
  | forkFails {o : Own F} : W.fails .fork → Does W n .fork o (-1 : Int) o
  | execFails {path : List UInt8} {argv : List (List UInt8)} {o : Own F} : W.fails (.exec path argv) →
      Does W n (.exec path argv) o (-1 : Int) o
  | printf (fd : Nat) (text : List UInt8) (o : Own F) : Does W n (.printf fd text) o () o
  | runcmd (turn : Turn) (o : Own F) : Does W n (.runcmd turn) o () { o with place := o.place ++ [turn] }

/-- What a process runs: the shell, some program, or nothing any more. -/
inductive Status where
  | shell (code : Sh Empty)
  | program
  | zombie

structure Proc (F : Type) where
  status : Status
  own : Own F
  parent : Option Nat

structure State (F : Type) where
  procs : Nat → Option (Proc F)
  pid : Nat
  fresh : Nat

def State.set (s : State F) (i : Nat) (p : Option (Proc F)) : State F := { s with procs := update s.procs i p }

def Proc.orphan (i : Nat) (p : Proc F) : Proc F := if p.parent = some i then { p with parent := none } else p

/-- `exit` closes all files and leaves the children to another process. -/
def State.exit (s : State F) (i : Nat) (p : Proc F) : State F :=
  { s with
    procs := update (fun j => (s.procs j).map (Proc.orphan i)) i
      (some { p with status := .zombie, own := { p.own with ofile := fun _ => none } }) }

def State.fork (s : State F) (i : Nat) (parent : Proc F) (child : Status) : State F :=
  { s with
    procs := update (update s.procs i (some parent)) (s.pid + 1) (some ⟨child, parent.own, some i⟩)
    pid := s.pid + 1 }

inductive Step (W : World F) : State F → State F → Prop where
  | call {s : State F} {i : Nat} {p : Proc F} {e : Call} {next : e.Answer → Sh Empty} {r : e.Answer} {own : Own F} :
      s.procs i = some p → p.status = .shell (.step e next) → Does W s.fresh e p.own r own →
      Step W s { s.set i (some { p with status := .shell (next r), own := own }) with fresh := s.fresh + 1 }
  | fork {s : State F} {i : Nat} {p : Proc F} {next : Int → Sh Empty} :
      s.procs i = some p → p.status = .shell (.step .fork next) →
      Step W s (s.fork i { p with status := .shell (next ((s.pid : Int) + 1)) } (.shell (next 0)))
  | wait {s : State F} {i j : Nat} {p child : Proc F} {next : Int → Sh Empty} :
      s.procs i = some p → p.status = .shell (.step .wait next) →
      s.procs j = some child → child.parent = some i → child.status = .zombie →
      Step W s ((s.set j none).set i (some { p with status := .shell (next j) }))
  | waitFails {s : State F} {i : Nat} {p : Proc F} {next : Int → Sh Empty} :
      s.procs i = some p → p.status = .shell (.step .wait next) →
      (∀ j child, s.procs j = some child → child.parent ≠ some i) →
      Step W s (s.set i (some { p with status := .shell (next (-1)) }))
  | exec {s : State F} {i : Nat} {p : Proc F} {path : List UInt8} {argv : List (List UInt8)} {next : Int → Sh Empty} :
      s.procs i = some p → p.status = .shell (.step (.exec path argv) next) →
      Step W s (s.set i (some { p with status := .program }))
  | exit {s : State F} {i : Nat} {p : Proc F} {next : Empty → Sh Empty} :
      s.procs i = some p → p.status = .shell (.step .exit next) → Step W s (s.exit i p)
  | programCall {s : State F} {i : Nat} {p : Proc F} {e : Call} {r : e.Answer} {own : Own F} :
      s.procs i = some p → p.status = .program → (∀ turn, e ≠ .runcmd turn) → Does W s.fresh e p.own r own →
      Step W s { s.set i (some { p with own := own }) with fresh := s.fresh + 1 }
  | programFork {s : State F} {i : Nat} {p : Proc F} :
      s.procs i = some p → p.status = .program → Step W s (s.fork i p .program)
  | programWait {s : State F} {i j : Nat} {p child : Proc F} :
      s.procs i = some p → p.status = .program →
      s.procs j = some child → child.parent = some i → child.status = .zombie → Step W s (s.set j none)
  | programExit {s : State F} {i : Nat} {p : Proc F} :
      s.procs i = some p → p.status = .program → Step W s (s.exit i p)

def Reachable (W : World F) : State F → State F → Prop := Relation.ReflTransGen (Step W)

def State.start (code : Sh Empty) (d : Table F) : State F :=
  ⟨fun i => if i = 0 then some ⟨.shell code, ⟨[], d⟩, none⟩ else none, 0, 0⟩

/-! ### Whole runs -/

inductive Sees (W : World F) : Outcomes signature (Own F) where
  | does {n : Nat} {e : Call} {o o' : Own F} {r : e.Answer} : Does W n e o r o' → Sees W e o r o'
  | child (o : Own F) : Sees W .fork o (0 : Int) o
  | parent {pid : Int} (o : Own F) : 0 < pid → Sees W .fork o pid o
  | wait (r : Int) (o : Own F) : Sees W .wait o r o

/-- The calls that a process of the shell still makes meet `ok`, and one that runs a program meets `J`. -/
def Proc.Fine (W : World F) (ok : Call → Own F → Prop) (J : Own F → Prop) (p : Proc F) : Prop :=
  match p.status with
  | .shell code => code.Safe (Sees W) ok p.own fun _ _ => True
  | .program => J p.own
  | .zombie => ∀ fd, p.own.ofile fd = none

section Fine

variable {ok : Call → Own F → Prop} {J : Own F → Prop} {s s' : State F} {p q : Proc F} {i j : Nat}

theorem fine_shell {code : Sh Empty} (is : p.status = .shell code) :
    p.Fine W ok J ↔ code.Safe (Sees W) ok p.own fun _ _ => True := by
  unfold Proc.Fine
  rw [is]

theorem fine_program (is : p.status = .program) : p.Fine W ok J ↔ J p.own := by
  unfold Proc.Fine
  rw [is]

theorem fine_orphan : (p.orphan i).Fine W ok J ↔ p.Fine W ok J := by
  unfold Proc.orphan
  split
  · rfl
  · rfl

def State.Fine (W : World F) (ok : Call → Own F → Prop) (J : Own F → Prop) (s : State F) : Prop :=
  ∀ i p, s.procs i = some p → p.Fine W ok J

theorem fine_update {procs : Nat → Option (Proc F)} {x : Option (Proc F)}
    (fine : ∀ j q, procs j = some q → q.Fine W ok J)
    (new : ∀ q, x = some q → q.Fine W ok J) : ∀ j q, update procs i x j = some q → q.Fine W ok J := by
  intro j q here
  by_cases same : j = i
  · subst same
    rw [update_self] at here
    exact new q here
  · rw [update_of_ne same] at here
    exact fine j q here

theorem State.Fine.set (fine : s.Fine W ok J) (new : p.Fine W ok J) : (s.set i (some p)).Fine W ok J := by
  refine fine_update fine fun q is => ?_
  rwa [← Option.some.inj is]

theorem State.Fine.remove (fine : s.Fine W ok J) : (s.set i none).Fine W ok J := by
  refine fine_update fine fun q is => ?_
  cases is

theorem State.Fine.exit (fine : s.Fine W ok J) : (s.exit i p).Fine W ok J := by
  refine fine_update (fun j q here => ?_) fun q is => ?_
  · obtain ⟨p', before, rfl⟩ := Option.map_eq_some_iff.mp here
    exact fine_orphan.mpr (fine j p' before)
  · obtain rfl := Option.some.inj is
    exact fun _ => rfl

theorem State.Fine.fork {child : Status} (fine : s.Fine W ok J) (parent : p.Fine W ok J)
    (new : Proc.Fine W ok J ⟨child, p.own, some i⟩) : (s.fork i p child).Fine W ok J := by
  have both : (s.set i (some p)).Fine W ok J := fine.set parent
  refine fine_update both fun q is => ?_
  rwa [← Option.some.inj is]

theorem step_fine (execs : ∀ path argv o, ok (.exec path argv) o → J o)
    (calls : ∀ n e o (r : e.Answer) o', (∀ turn, e ≠ .runcmd turn) → J o → Does W n e o r o' → J o')
    (fine : s.Fine W ok J) (step : Step W s s') : s'.Fine W ok J := by
  have at_call : ∀ {i : Nat} {p : Proc F} {e : Call} {next : e.Answer → Sh Empty}, s.procs i = some p →
      p.status = .shell (.step e next) →
      ok e p.own ∧ ∀ r t, Sees W e p.own r t → (next r).Safe (Sees W) ok t fun _ _ => True :=
    fun here is => (fine_shell is).mp (fine _ _ here)
  cases step with
  | call here is does =>
    exact fine.set ((fine_shell rfl).mpr ((at_call here is).2 _ _ (.does does)))
  | fork here is =>
    refine fine.fork ((fine_shell rfl).mpr ((at_call here is).2 _ _ (.parent _ (by omega)))) ?_
    exact (fine_shell rfl).mpr ((at_call here is).2 _ _ (.child _))
  | wait here is => exact fine.remove.set ((fine_shell rfl).mpr ((at_call here is).2 _ _ (.wait _ _)))
  | waitFails here is => exact fine.set ((fine_shell rfl).mpr ((at_call here is).2 _ _ (.wait _ _)))
  | exec here is => exact fine.set ((fine_program rfl).mpr (execs _ _ _ (at_call here is).1))
  | exit _ _ | programExit _ _ => exact fine.exit
  | programCall here is other does =>
    have runs := (fine_program is).mp (fine _ _ here)
    have new := calls _ _ _ _ _ other runs does
    exact fine.set ((fine_program (by exact is)).mpr new)
  | programFork here is =>
    have runs := fine _ _ here
    exact fine.fork runs ((fine_program rfl).mpr ((fine_program is).mp runs))
  | programWait here is => exact fine.remove

theorem reachable_fine {code : Sh Empty} {d : Table F} (execs : ∀ path argv o, ok (.exec path argv) o → J o)
    (calls : ∀ n e o (r : e.Answer) o', (∀ turn, e ≠ .runcmd turn) → J o → Does W n e o r o' → J o')
    (safe : code.Safe (Sees W) ok ⟨[], d⟩ fun _ _ => True) (run : Reachable W (.start code d) s) : s.Fine W ok J := by
  induction run with
  | refl =>
    intro i p here
    unfold State.start at here
    dsimp only at here
    split at here
    · cases here
      exact safe
    · cases here
  | tail _ step ih => exact step_fine execs calls ih step

end Fine

/-! ### Descriptors -/

section Lowest

variable {d : Table F} {fd : Nat}

theorem lowest_eq_some : d.lowest = some fd ↔ fd < NOFILE ∧ d fd = none ∧ ∀ k < fd, d k ≠ none := by
  unfold Table.lowest
  rw [List.find?_range_eq_some]
  simp [and_left_comm, Option.isSome_iff_ne_none]

def Standard (d : Table F) : Prop := ∀ fd < 3, d fd ≠ none

theorem Standard.lowest (h : Standard d) (lowest : d.lowest = some fd) : 3 ≤ fd := by
  by_contra small
  exact h fd (Nat.not_le.mp small) (lowest_eq_some.mp lowest).2.1

theorem Standard.reopen (h : Standard d) (small : fd < 3) : Table.lowest (Function.update d fd none) = some fd := by
  refine lowest_eq_some.mpr ⟨Nat.lt_trans small (by decide), update_self .., fun k less => ?_⟩
  rw [update_of_ne (Nat.ne_of_lt less)]
  exact h k (Nat.lt_trans less small)

theorem Standard.update (h : Standard d) (f : File F) : Standard (Function.update d fd (some f)) := by
  intro k small
  by_cases same : k = fd
  · subst same
    rw [update_self]
    exact Option.some_ne_none f
  · rw [update_of_ne same]
    exact h k small

theorem Standard.redirect {fd' : Nat} (h : Standard d) (f : File F)
    (lowest : Table.lowest (Function.update d fd none) = some fd') :
    Standard (Function.update (Function.update d fd none) fd' (some f)) := by
  by_cases small : fd < 3
  · rw [h.reopen small, Option.some.injEq] at lowest
    subst lowest
    rw [update_idem]
    exact h.update f
  · refine Standard.update (fun k less => ?_) f
    rw [update_of_ne (by omega)]
    exact h k less

end Lowest

section Seen

variable {o t : Own F} {fd : Nat}

theorem sees_close {r : Int} (sees : Sees W (.close fd) o r t) : t = { o with ofile := update o.ofile fd none } := by
  cases sees with
  | does does =>
    cases does
    rfl

theorem sees_open {path : List UInt8} {mode : Nat} {r : Int} (sees : Sees W (.open path mode) o r t) :
    r < 0 ∧ t = o ∨ ∃ (f : F) (fd : Nat), r = fd ∧ W.lookup path mode = some f ∧ o.ofile.lowest = some fd ∧
      t = { o with ofile := update o.ofile fd (some (.opened f)) } := by
  cases sees with
  | does does =>
    cases does with
    | «open» found lowest => exact Or.inr ⟨_, _, rfl, found, lowest, rfl⟩
    | openFails => exact Or.inl ⟨by decide, rfl⟩

theorem sees_runcmd {turn : Turn} {r : Unit} (sees : Sees W (.runcmd turn) o r t) :
    t = { o with place := o.place ++ [turn] } := by
  cases sees with
  | does does =>
    cases does
    rfl

theorem sees_printf {text : List UInt8} {r : Unit} (sees : Sees W (.printf fd text) o r t) : t = o := by
  cases sees with
  | does does =>
    cases does
    rfl

end Seen

/-! ### Safe code -/

section Safe

variable {α : Type} {ok : Call → Own F → Prop} {o : Own F} {Q : α → Own F → Prop}

theorem safe_call {e : Call} {f : e.Answer → Sh α} (here : ok e o)
    (rest : ∀ r t, Sees W e o r t → (f r).Safe (Sees W) ok t Q) :
    (call e >>= f).Safe (Sees W) ok o Q := Program.safe_step here rest

theorem safe_exit (here : ok .exit o) : (exit : Sh α).Safe (Sees W) ok o Q := by
  refine ⟨here, fun r => ?_⟩
  cases r

theorem safe_message {fd : Nat} {text : List UInt8} (here : ok (.printf fd text) o) (last : ok .exit o) :
    (call (.printf fd text) >>= fun _ => (exit : Sh α)).Safe (Sees W) ok o Q := by
  refine safe_call here fun r t sees => ?_
  rw [sees_printf sees]
  exact safe_exit last

end Safe

end Espl.Shell
