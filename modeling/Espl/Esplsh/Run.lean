import Mathlib.Data.List.Basic
import Mathlib.Data.UInt

/-!
# Running a program

`run_program` of `esplsh.c`: what its processes execute, and what they store into `argv`. Calls of `fork`, `pipe`
and `dup2` on open descriptors succeed.
-/

namespace Espl.Esplsh

abbrev Arg : Type := List UInt8

def first (arg : Arg) : UInt8 := arg.headD 0

structure System where
  writable : Arg → Bool
  readable : Arg → Bool
  executable : Arg → Bool

inductive Fd where
  | inherited
  | file (name : Arg)
  | pipe
  deriving DecidableEq

structure Call where
  path : Option Arg
  args : List Arg
  stdin : Fd
  stdout : Fd

/-- `check` in a process that found no pipe. -/
def check (argv : List Arg) : UInt8 := if argv.length > 2 then (argv[argv.length - 2]?.map first).getD 0 else 97

/-- `execvp(argv[0], argv)` after `argv[i] = NULL`. -/
def execCut (argv : List Arg) (i : Int) (stdin stdout : Fd) : Call :=
  let args := if 0 ≤ i then argv.take i.toNat else argv
  ⟨args.head?, args, stdin, stdout⟩

/-- `run_program`: the calls of `execvp`, and the indices at which `argv` is written. -/
def runProgram (sys : System) (argv : List Arg) : List Call × List Int :=
  let argc : Int := argv.length
  match argv.findIdx? (first · = 124) with
  | some pindex =>
    -- The first child goes on behind `execvp` if that fails, and the child that it makes does the same as the second
    -- one.
    let failed := !(argv[pindex]?.any sys.executable)
    (⟨argv[pindex]?, argv.drop (pindex + 1), .pipe, .inherited⟩ ::
      (if failed then [execCut argv pindex .pipe .pipe] else []) ++ [execCut argv pindex .inherited .pipe],
      if failed then [(pindex : Int), pindex] else [(pindex : Int)])
  | none =>
    let name := argv.getLast?.getD []
    if check argv = 62 then
      ([execCut argv (argc - 2) .inherited (if sys.writable name then .file name else .inherited)], [argc - 2])
    else -- `check='<'` is an assignment.
      ([execCut argv (argc - 2) (if sys.readable name then .file name else .inherited) .inherited], [argc - 2])

def Plain (arg : Arg) : Prop := first arg ≠ 124 ∧ first arg ≠ 60 ∧ first arg ≠ 62

/-- The calls are those that were typed, and nothing is stored outside of the array. -/
structure AsTyped (sys : System) (argv : List Arg) : Prop where
  plain : (∀ arg ∈ argv, Plain arg) → (runProgram sys argv).1 = [⟨argv.head?, argv, .inherited, .inherited⟩]
  out : ∀ args f, (∀ arg ∈ args ++ [f], Plain arg) → args ≠ [] → argv = args ++ [[62], f] →
    (runProgram sys argv).1 = [⟨args.head?, args, .inherited, .file f⟩]
  into : ∀ args f, (∀ arg ∈ args ++ [f], Plain arg) → args ≠ [] → argv = args ++ [[60], f] →
    (runProgram sys argv).1 = [⟨args.head?, args, .file f, .inherited⟩]
  pipe : ∀ left right, (∀ arg ∈ left ++ right, Plain arg) → left ≠ [] → right ≠ [] → argv = left ++ [124] :: right →
    (runProgram sys argv).1.Perm [⟨left.head?, left, .inherited, .pipe⟩, ⟨right.head?, right, .pipe, .inherited⟩]
  stores : ∀ i ∈ (runProgram sys argv).2, 0 ≤ i ∧ i ≤ argv.length

/-- An operator is among the arguments, but no pipe with a command on each side; a file that input or output is
directed to can be opened; and one argument alone starts with a bar. -/
structure Regular (sys : System) (argv : List Arg) : Prop where
  operator : ¬ ∀ arg ∈ argv, Plain arg
  pipe : ∀ left right, (∀ arg ∈ left ++ right, Plain arg) → left ≠ [] → right ≠ [] → argv ≠ left ++ [124] :: right
  out : ∀ args f, (∀ arg ∈ args ++ [f], Plain arg) → args ≠ [] → argv = args ++ [[62], f] → sys.writable f = true
  into : ∀ args f, (∀ arg ∈ args ++ [f], Plain arg) → args ≠ [] → argv = args ++ [[60], f] → sys.readable f = true
  single : ∀ arg, argv = [arg] → first arg = 124

section

variable {sys : System} {argv args left right : List Arg} {f : Arg}

theorem bar_none (free : ∀ arg ∈ argv, first arg ≠ 124) : argv.findIdx? (first · = 124) = none :=
  List.findIdx?_eq_none_iff.mpr fun arg member => decide_eq_false (free arg member)

theorem bar_some (plain : ∀ arg ∈ left, Plain arg) :
    (left ++ [124] :: right).findIdx? (first · = 124) = some left.length := by
  have before : left.findIdx? (first · = 124) = none := bar_none fun arg member => (plain arg member).1
  have here : ([124] :: right).findIdx? (first · = 124) = some 0 := List.findIdx?_cons
  rw [List.findIdx?_append, before, here]
  simp

theorem runProgram_input (free : argv.findIdx? (first · = 124) = none) (other : check argv ≠ 62) :
    runProgram sys argv = ([execCut argv (argv.length - 2)
      (if sys.readable (argv.getLast?.getD []) then .file (argv.getLast?.getD []) else .inherited) .inherited],
        [(argv.length : Int) - 2]) := by
  simp only [runProgram, free, if_neg other]

theorem runProgram_output (free : argv.findIdx? (first · = 124) = none) (out : check argv = 62) :
    runProgram sys argv = ([execCut argv (argv.length - 2) .inherited
      (if sys.writable (argv.getLast?.getD []) then .file (argv.getLast?.getD []) else .inherited)],
        [(argv.length : Int) - 2]) := by
  simp only [runProgram, free, if_pos out]

theorem redirected (c : UInt8) (bar : c ≠ 124) (plain : ∀ arg ∈ args ++ [f], Plain arg) (nonempty : args ≠ []) :
    (args ++ [[c], f]).findIdx? (first · = 124) = none ∧ check (args ++ [[c], f]) = c ∧
      (args ++ [[c], f]).getLast?.getD [] = f ∧
      ∀ stdin stdout, execCut (args ++ [[c], f]) ((args ++ [[c], f]).length - 2) stdin
        stdout = ⟨args.head?, args, stdin, stdout⟩ := by
  have positive := List.length_pos_iff.mpr nonempty
  have index : ((args ++ [[c], f]).length : Int) - 2 = args.length := by simp
  refine ⟨bar_none fun arg member => ?_, ?_, by simp, fun stdin stdout => ?_⟩
  · rcases List.mem_append.mp member with early | late
    · exact (plain arg (List.mem_append_left _ early)).1
    · rcases List.mem_cons.mp late with rfl | last
      · exact bar
      · exact (plain arg (List.mem_append_right _ last)).1
  · rw [check, if_pos (by simp; omega)]
    simp [first]
  · simp only [execCut, index, Int.natCast_nonneg, if_true, Int.toNat_natCast, List.take_left]

theorem Regular.asTyped (regular : Regular sys argv) (nonempty : argv ≠ []) : AsTyped sys argv where
  plain all := absurd all regular.operator
  out args f plain before same := by
    subst same
    obtain ⟨free, is, last, exec⟩ := redirected 62 (by decide) plain before
    rw [runProgram_output free is, last, if_pos (regular.out args f plain before rfl), exec]
  into args f plain before same := by
    subst same
    obtain ⟨free, is, last, exec⟩ := redirected 60 (by decide) plain before
    rw [runProgram_input free (by rw [is]; decide), last, if_pos (regular.into args f plain before rfl), exec]
  pipe left right plain here there same := absurd same (regular.pipe left right plain here there)
  stores i member := by
    cases found : argv.findIdx? (first · = 124) with
    | some pindex =>
      have lt := (List.findIdx?_eq_some_iff_findIdx_eq.mp found).1
      simp only [runProgram, found] at member
      obtain rfl : i = pindex := by
        split at member <;> simpa using member
      omega
    | none =>
      have several : argv.length ≠ 1 := by
        intro single
        obtain ⟨arg, rfl⟩ := List.length_eq_one_iff.mp single
        have bar := List.findIdx?_eq_none_iff.mp found arg (List.mem_singleton.mpr rfl)
        exact of_decide_eq_false bar (regular.single arg rfl)
      have positive := List.length_pos_iff.mpr nonempty
      have stored : (runProgram sys argv).2 = [(argv.length : Int) - 2] := by
        by_cases out : check argv = 62
        · rw [runProgram_output found out]
        · rw [runProgram_input found out]
      rw [stored, List.mem_singleton] at member
      omega

theorem AsTyped.regular (typed : AsTyped sys argv) (nonempty : argv ≠ []) : Regular sys argv where
  operator plain := by
    have positive := List.length_pos_iff.mpr nonempty
    have free := bar_none fun arg member => (plain arg member).1
    have other : check argv ≠ 62 := by
      rw [check]
      split
      · rename_i several
        rw [List.getElem?_eq_getElem (by omega)]
        exact (plain _ (List.getElem_mem _)).2.2
      · decide
    have calls := typed.plain plain
    have stores := typed.stores
    rw [runProgram_input free other] at calls stores
    have low := (stores _ (List.mem_singleton.mpr rfl)).1
    -- The arguments are cut before the last but one.
    have args := congrArg Call.args (List.cons.inj calls).1
    simp only [execCut, if_pos low] at args
    have length := congrArg List.length args
    rw [List.length_take] at length
    omega
  pipe left right plain before after same := by
    subst same
    have calls := typed.pipe left right plain before after rfl
    have found : (left ++ [124] :: right).findIdx? (first · = 124) = _ := bar_some fun arg member =>
      plain arg (List.mem_append_left _ member)
    simp only [runProgram, found] at calls
    have call := calls.mem_iff.mp List.mem_cons_self
    rcases List.mem_cons.mp call with first | second
    · cases congrArg Call.stdin first
    · -- The second command would have to be the operator.
      have path := congrArg Call.path (List.mem_singleton.mp second)
      simp only [List.getElem?_append_right Nat.le.refl, Nat.sub_self, List.getElem?_cons_zero] at path
      exact (plain _ (List.mem_append_right _ (List.mem_of_head? path.symm))).1 rfl
  out args f plain before same := by
    subst same
    obtain ⟨free, is, last, exec⟩ := redirected 62 (by decide) plain before
    have calls := typed.out args f plain before rfl
    rw [runProgram_output free is, last, exec] at calls
    by_contra closed
    rw [if_neg closed] at calls
    cases calls
  into args f plain before same := by
    subst same
    obtain ⟨free, is, last, exec⟩ := redirected 60 (by decide) plain before
    have calls := typed.into args f plain before rfl
    rw [runProgram_input free (by rw [is]; decide), last, exec] at calls
    by_contra closed
    rw [if_neg closed] at calls
    cases calls
  single arg same := by
    subst same
    by_contra bar
    have free : [arg].findIdx? (first · = 124) = none := bar_none fun a member => List.mem_singleton.mp member ▸ bar
    have stores := typed.stores
    rw [runProgram_input free (show (97 : UInt8) ≠ 62 by decide)] at stores
    exact absurd (stores (-1) (List.mem_singleton.mpr rfl)).1 (by decide)

end

/-- What runs is what was typed if and only if the arguments are regular. -/
theorem runProgram_asTyped_iff (sys : System) (argv : List Arg) (nonempty : argv ≠ []) : AsTyped sys argv ↔
    Regular sys argv :=
  ⟨fun typed => typed.regular nonempty, fun regular => regular.asTyped nonempty⟩

def System.willing : System := ⟨fun _ => true, fun _ => true, fun _ => true⟩

/-- `a > f` -/
theorem runProgram_asTyped_output : AsTyped .willing [[97], [62], [102]] := by
  refine (runProgram_asTyped_iff .willing [[97], [62], [102]] (by decide)).mpr ⟨fun plain => ?_, ?_, fun _ _ _ _ _ =>
    rfl, fun _ _ _ _ _ => rfl, ?_⟩
  · exact (plain [62] (by decide)).2.2 rfl
  · intro left right plain before after same
    have bar : ([124] : Arg) ∈ ([[97], [62], [102]] : List Arg) := by
      rw [same]
      exact List.mem_append_right _ List.mem_cons_self
    exact absurd bar (by decide)
  · intro arg same
    cases same

/-- `a` alone stores before the array, `a b` executes nothing, and `a | b` executes the operator. -/
theorem runProgram_not_typed :
    ¬ AsTyped .willing [[97]] ∧ ¬ AsTyped .willing [[97], [98]] ∧ ¬ AsTyped .willing [[97], [124], [98]] := by
  refine ⟨fun typed => ?_, fun typed => ?_, fun typed => ?_⟩
  · exact (typed.regular (by decide)).operator (by simp [Plain, first])
  · exact (typed.regular (by decide)).operator (by simp [Plain, first])
  · exact (typed.regular (by decide)).pipe [[97]] [[98]] (by simp [Plain, first]) (by decide) (by decide) rfl

end Espl.Esplsh
