import Espl.Disk.Layout
import Espl.Program.Path
import Espl.Ulib.Printf
import Mathlib.Data.List.Induction

/-!
# The prompt of the shell

`cd` in `main` of `sh.c` edits the text of the prompt, in an array of 256 bytes on its stack, beside the
current directory that `chdir` changes. An access outside the array is an error.
-/

namespace Espl.Shell

open Ulib (Stack printf plain printf_plain)

abbrev slash : UInt8 := code '/'

inductive Fault where
  | outside (index : Int)
  deriving DecidableEq, Repr

/-! ### The array -/

/-- `dest[i]`. -/
def load (dest : List UInt8) (i : Int) : Except Fault UInt8 :=
  if 0 ≤ i ∧ i < dest.length then .ok (dest.getD i.toNat 0) else .error (.outside i)

/-- `dest[i] = c`. -/
def store (dest : List UInt8) (i : Int) (c : UInt8) : Except Fault (List UInt8) :=
  if 0 ≤ i ∧ i < dest.length then .ok (dest.set i.toNat c) else .error (.outside i)

/-- `for(i = n; dest[i] != 0; i++)` with the bytes from `n` on. -/
def strlen.loop (n : Nat) : List UInt8 → Except Fault Nat
  | [] => .error (.outside n)
  | c :: rest => if c = 0 then .ok n else strlen.loop (n + 1) rest

def strlen (dest : List UInt8) : Except Fault Nat := strlen.loop 0 dest

/-- The second loop of `strcat`, from `dest[i]` on, and the NUL. -/
def strcat.loop (dest : List UInt8) (i : Nat) : List UInt8 → Except Fault (List UInt8)
  | [] => store dest i 0
  | c :: src => do
    let dest ← store dest i c
    strcat.loop dest (i + 1) src

def strcat (dest src : List UInt8) : Except Fault (List UInt8) := do
  let i ← strlen dest
  strcat.loop dest i src

def strsplitSlesh.loop (dest : List UInt8) : Nat → Except Fault Nat
  | 0 => .ok 0
  | i + 1 => do
    let c ← load dest ((i : Int) + 1)
    if c = slash then .ok (i + 1) else strsplitSlesh.loop dest i

def strsplitSlesh (dest : List UInt8) : Except Fault (List UInt8) := do
  let size ← strlen dest
  if size = 0 then store dest (-1) 0
  else do
    let i ← strsplitSlesh.loop dest (size - 1)
    store dest i 0

def dotdot : List UInt8 := codes ['.', '.']

def tail : List UInt8 := codes ['/', '>']

def rename (dirname arg : List UInt8) : Except Fault (List UInt8) :=
  if arg = dotdot then do
    let dirname ← strsplitSlesh dirname
    let dirname ← strsplitSlesh dirname
    strcat dirname tail
  else do
    let dirname ← strsplitSlesh dirname
    let dirname ← strcat dirname [slash]
    let dirname ← strcat dirname arg
    strcat dirname tail

/-! ### Directories -/

/-- A tree of directories, with the directory that each name in a directory leads to. -/
structure Dirs (D : Type) where
  root : D
  find : D → List UInt8 → Option D
  dot : ∀ d, find d (codes ['.']) = some d
  up : ∀ {d e name}, find d name = some e → name ≠ codes ['.'] → name ≠ dotdot → find e dotdot = some d
  top : find root dotdot = some root

variable {D : Type} {T : Dirs D}

def Dirs.resolve (T : Dirs D) (cwd : D) (path : List UInt8) : Option D :=
  follow T.find (if path.head? = some slash then T.root else cwd) (elements slash DIRSIZ path)

/-- The variables of `main` that a `cd` changes, and the current directory. -/
structure Main (D : Type) where
  dirname : List UInt8
  cwd : D

def cd (T : Dirs D) (s : Main D) (arg : List UInt8) : Except Fault (Main D) :=
  match T.resolve s.cwd arg with
  | none => .ok s
  | some cwd => do
    let dirname ← rename s.dirname arg
    return ⟨dirname, cwd⟩

def Main.start (T : Dirs D) : Main D := ⟨tail ++ List.replicate 254 0, T.root⟩

def session (T : Dirs D) (args : List (List UInt8)) : Except Fault (Main D) := args.foldlM (cd T) (Main.start T)

def prompt (S : Stack) (s : Main D) : List UInt8 := printf S (s.dirname.takeWhile (· ≠ 0))

/-! ### The text in the array -/

variable {text rest : List UInt8}

structure Spells (dirname text : List UInt8) : Prop where
  size : dirname.length = 256
  plain : 0 ∉ text
  ends : ∃ rest, dirname = text ++ 0 :: rest

theorem store_at (front back : List UInt8) (b c : UInt8) :
    store (front ++ b :: back) front.length c = .ok (front ++ c :: back) := by
  unfold store
  rw [if_pos (by simp), Int.toNat_natCast, List.set_append_right _ _ Nat.le.refl, Nat.sub_self, List.set_cons_zero]

theorem load_at (front back : List UInt8) (b : UInt8) : load (front ++ b :: back) front.length = .ok b := by
  unfold load
  rw [if_pos (by simp), Int.toNat_natCast]
  simp

theorem strlen_loop_eq {n : Nat} (plain : 0 ∉ text) : strlen.loop n (text ++ 0 :: rest) = .ok (n + text.length) := by
  induction text generalizing n with
  | nil => rfl
  | cons c text ih =>
    rw [List.mem_cons, not_or] at plain
    rw [List.cons_append, strlen.loop, if_neg (Ne.symm plain.1), ih plain.2, List.length_cons]
    congr 1
    omega

theorem strlen_eq (plain : 0 ∉ text) : strlen (text ++ 0 :: rest) = .ok text.length := by
  rw [strlen, strlen_loop_eq plain, Nat.zero_add]

theorem strcat_loop_eq (front : List UInt8) {src : List UInt8} (fits : src.length < rest.length) :
    strcat.loop (front ++ rest) front.length src = .ok (front ++ src ++ 0 :: rest.drop (src.length + 1)) := by
  induction src generalizing front rest with
  | nil =>
    cases rest with
    | nil => cases fits
    | cons b rest =>
      rw [strcat.loop, store_at]
      simp
  | cons c src ih =>
    cases rest with
    | nil => cases fits
    | cons b rest =>
      have next := ih (front ++ [c]) (Nat.lt_of_succ_lt_succ fits)
      simp only [List.append_assoc, List.length_append, List.length_cons, List.length_nil, List.cons_append,
        List.nil_append] at next
      rw [strcat.loop, store_at]
      simpa [bind, Except.bind] using next

theorem strcat_loop_outside (front : List UInt8) {src : List UInt8} (long : rest.length ≤ src.length) :
    ∃ e, strcat.loop (front ++ rest) front.length src = .error e := by
  induction src generalizing front rest with
  | nil =>
    obtain rfl := List.eq_nil_of_length_eq_zero (Nat.le_zero.mp long)
    refine ⟨.outside front.length, ?_⟩
    rw [strcat.loop, store, if_neg (by simp)]
  | cons c src ih =>
    cases rest with
    | nil =>
      refine ⟨.outside front.length, ?_⟩
      rw [strcat.loop, store, if_neg (by simp)]
      rfl
    | cons b rest =>
      obtain ⟨e, next⟩ := ih (front ++ [c]) (Nat.le_of_succ_le_succ long)
      refine ⟨e, ?_⟩
      simp only [List.append_assoc, List.length_append, List.length_cons, List.length_nil, List.cons_append,
        List.nil_append] at next
      rw [strcat.loop, store_at]
      simpa [bind, Except.bind] using next

section Strings

variable {dirname src : List UInt8}

theorem Spells.length_lt (h : Spells dirname text) : text.length < 256 := by
  obtain ⟨size, -, rest, rfl⟩ := h
  rw [List.length_append, List.length_cons] at size
  omega

theorem Spells.strcat (h : Spells dirname text) (plain : 0 ∉ src) (fits : text.length + src.length < 256) :
    ∃ dirname', strcat dirname src = .ok dirname' ∧ Spells dirname' (text ++ src) := by
  obtain ⟨size, none, rest, rfl⟩ := h
  rw [List.length_append, List.length_cons] at size
  have room : src.length < (0 :: rest).length := by
    rw [List.length_cons]
    omega
  refine ⟨text ++ src ++ 0 :: (0 :: rest).drop (src.length + 1), ?_, ⟨?_, ?_, _, rfl⟩⟩
  · rw [Shell.strcat, strlen_eq none]
    exact strcat_loop_eq text room
  · simp only [List.length_append, List.length_cons, List.length_drop]
    omega
  · rw [List.mem_append, not_or]
    exact ⟨none, plain⟩

theorem Spells.strcat_outside (h : Spells dirname text) (long : 256 ≤ text.length + src.length) :
    ∃ e, Shell.strcat dirname src = .error e := by
  obtain ⟨size, none, rest, rfl⟩ := h
  rw [List.length_append] at size
  have long : (0 :: rest).length ≤ src.length := by omega
  obtain ⟨e, outside⟩ := strcat_loop_outside text long
  refine ⟨e, ?_⟩
  rw [Shell.strcat, strlen_eq none]
  exact outside

theorem strsplitSlesh_loop_eq (front rest : List UInt8) {back : List UInt8} (last : slash ∉ back) {k : Nat}
    (le : k ≤ back.length) :
    strsplitSlesh.loop (front ++ slash :: (back ++ rest)) (front.length + k) = .ok front.length := by
  induction k with
  | zero =>
    rw [Nat.add_zero]
    cases length : front.length with
    | zero => rfl
    | succ n =>
      have here : load (front ++ slash :: (back ++ rest)) ((n : Int) + 1) = .ok slash := by
        have := load_at front (back ++ rest) slash
        rwa [length] at this
      rw [strsplitSlesh.loop, here]
      rfl
  | succ k ih =>
    obtain ⟨c, before, after, rfl, length⟩ : ∃ c before after, back = before ++ c :: after ∧ before.length = k :=
      ⟨back[k], back.take k, back.drop (k + 1), by simp, by simp; omega⟩
    have other : c ≠ slash := by
      rintro rfl
      simp at last
    have here : load (front ++ slash :: (before ++ c :: after ++ rest))
      (((front.length + k : Nat) : Int) + 1) = .ok c := by
      have := load_at (front ++ slash :: before) (after ++ rest) c
      simpa [length, ← Int.add_assoc] using this
    rw [← Nat.add_assoc, strsplitSlesh.loop, here]
    change (if c = slash then _ else _) = _
    rw [if_neg other]
    exact ih (by omega)

theorem Spells.strsplitSlesh {front back : List UInt8} (h : Spells dirname (front ++ slash :: back))
    (last : slash ∉ back) : ∃ dirname', strsplitSlesh dirname = .ok dirname' ∧ Spells dirname' front := by
  obtain ⟨size, none, rest, rfl⟩ := h
  have loop := strsplitSlesh_loop_eq front (0 :: rest) last (Nat.le_refl back.length)
  refine ⟨front ++ 0 :: (back ++ 0 :: rest), ?_, ⟨?_, fun zero => none (List.mem_append_left _ zero), _, rfl⟩⟩
  · rw [Shell.strsplitSlesh, strlen_eq none]
    change (if _ then _ else _) = _
    rw [if_neg (by simp), List.append_assoc, List.cons_append,
      show (front ++ slash :: back).length - 1 = front.length + back.length by simp, loop]
    exact store_at front (back ++ 0 :: rest) slash 0
  · simp only [List.length_append, List.length_cons] at size ⊢
    omega

theorem Spells.strsplitSlesh_empty (h : Spells dirname []) : Shell.strsplitSlesh dirname = .error (.outside (-1)) := by
  obtain ⟨-, none, rest, rfl⟩ := h
  rw [Shell.strsplitSlesh, strlen_eq none]
  rfl

end Strings

/-! ### The path in the prompt -/

def cut (path : List UInt8) : List UInt8 := ((path.reverse.dropWhile (· ≠ slash)).drop 1).reverse

/-- The path after `cd arg`; the prompt is the path and `"/>"`. -/
def edit (path arg : List UInt8) : List UInt8 := if arg = dotdot then cut path else path ++ slash :: arg

def pathOf (args : List (List UInt8)) : List UInt8 := args.foldl edit []

def Rooted (path : List UInt8) : Prop := path = [] ∨ path.head? = some slash

def Fits (path arg : List UInt8) : Prop := if arg = dotdot then path ≠ [] else path.length + arg.length + 3 < 256

instance (path arg : List UInt8) : Decidable (Fits path arg) := by
  unfold Fits
  infer_instance

section Path

variable {path arg front back dirname : List UInt8}

theorem cut_eq (front : List UInt8) (last : slash ∉ back) : cut (front ++ slash :: back) = front := by
  have skip : (back.reverse ++ slash :: front.reverse).dropWhile (· ≠ slash) = slash :: front.reverse := by
    rw [List.dropWhile_append_of_pos]
    · simp
    · intro c member
      have other : c ≠ slash := fun is => last (is ▸ List.mem_reverse.mp member)
      simpa using other
  unfold cut
  rw [List.reverse_append, List.reverse_cons, List.append_assoc, List.singleton_append, skip]
  simp

theorem Rooted.split (rooted : Rooted path) (some : path ≠ []) :
    ∃ front back, path = front ++ slash :: back ∧ slash ∉ back ∧ Rooted front := by
  obtain ⟨front, back, is, last⟩ : ∃ front back, path = front ++ slash :: back ∧ slash ∉ back := by
    have first := rooted.resolve_left some
    have member : slash ∈ path := List.mem_of_mem_head? first
    obtain ⟨before, after, is, none⟩ := List.eq_append_cons_of_mem (List.mem_reverse.mpr member)
    refine ⟨after.reverse, before.reverse, ?_, fun inside => none (List.mem_reverse.mp inside)⟩
    have := congrArg List.reverse is
    simpa using this
  refine ⟨front, back, is, last, ?_⟩
  cases front with
  | nil => exact Or.inl rfl
  | cons c front =>
    rw [is] at rooted
    exact Or.inr (rooted.resolve_left (by simp))

theorem rooted_edit (rooted : Rooted path) : Rooted (edit path arg) := by
  unfold edit
  split
  · by_cases empty : path = []
    · rw [empty]
      exact Or.inl rfl
    · obtain ⟨front, back, rfl, last, rooted⟩ := rooted.split empty
      rwa [cut_eq front last]
  · refine Or.inr ?_
    cases path with
    | nil => rfl
    | cons c path => exact rooted.resolve_left (by simp)

theorem Spells.strip (h : Spells dirname (path ++ tail)) :
    ∃ dirname', Shell.strsplitSlesh dirname = .ok dirname' ∧ Spells dirname' path := by
  have last : slash ∉ codes ['>'] := by decide
  exact Spells.strsplitSlesh h last

theorem plain_tail : 0 ∉ tail := by decide

theorem plain_slash : 0 ∉ [slash] := by decide

theorem rename_spec (h : Spells dirname (path ++ tail)) (rooted : Rooted path) (plain : 0 ∉ arg)
    (fits : Fits path arg) :
    ∃ dirname', rename dirname arg = .ok dirname' ∧ Spells dirname' (edit path arg ++ tail) := by
  have room := h.length_lt
  have short : tail.length = 2 := rfl
  obtain ⟨dirname₁, first, h₁⟩ := h.strip
  unfold rename Fits edit at *
  split
  · rename_i up
    rw [if_pos up] at fits
    obtain ⟨front, back, rfl, last, -⟩ := rooted.split fits
    obtain ⟨dirname₂, second, h₂⟩ := h₁.strsplitSlesh last
    simp only [List.length_append, List.length_cons] at room
    obtain ⟨dirname₃, third, h₃⟩ := h₂.strcat plain_tail (by omega)
    refine ⟨dirname₃, ?_, by rwa [cut_eq front last]⟩
    simp only [first, second, third, bind, Except.bind]
  · rename_i other
    rw [if_neg other] at fits
    simp only [List.length_append] at room
    obtain ⟨dirname₂, second, h₂⟩ := h₁.strcat plain_slash (by rw [List.length_singleton]; omega)
    obtain ⟨dirname₃, third, h₃⟩ := h₂.strcat plain (by simp only [List.length_append, List.length_singleton]; omega)
    obtain ⟨dirname₄, fourth, h₄⟩ :=
      h₃.strcat plain_tail (by simp only [List.length_append, List.length_singleton]; omega)
    refine ⟨dirname₄, ?_, ?_⟩
    · simp only [first, second, third, fourth, bind, Except.bind]
    · rwa [List.append_assoc path, List.singleton_append] at h₄

theorem rename_up (h : Spells dirname ([] ++ tail)) : rename dirname dotdot = .error (.outside (-1)) := by
  obtain ⟨dirname₁, first, h₁⟩ := h.strip
  unfold rename
  rw [if_pos rfl]
  simp only [first, h₁.strsplitSlesh_empty, bind, Except.bind]

theorem rename_outside (h : Spells dirname (path ++ tail)) (plain : 0 ∉ arg) (long : ¬ Fits path arg) :
    ∃ e, rename dirname arg = .error e := by
  by_cases up : arg = dotdot
  · rw [Fits, if_pos up, not_not] at long
    subst up long
    exact ⟨_, rename_up h⟩
  · have room := h.length_lt
    have short : tail.length = 2 := rfl
    obtain ⟨dirname₁, first, h₁⟩ := h.strip
    rw [Fits, if_neg up] at long
    rw [rename, if_neg up]
    simp only [List.length_append] at room
    obtain ⟨dirname₂, second, h₂⟩ := h₁.strcat plain_slash (by rw [List.length_singleton]; omega)
    by_cases fits : (path ++ [slash]).length + arg.length < 256
    · obtain ⟨dirname₃, third, h₃⟩ := h₂.strcat plain fits
      simp only [List.length_append, List.length_singleton] at fits
      have beyond : 256 ≤ (path ++ [slash] ++ arg).length + tail.length := by
        simp only [List.length_append, List.length_singleton]
        omega
      obtain ⟨e, fourth⟩ := h₃.strcat_outside beyond
      refine ⟨e, ?_⟩
      simp only [first, second, third, fourth, bind, Except.bind]
    · obtain ⟨e, third⟩ := h₂.strcat_outside (Nat.not_lt.mp fits)
      refine ⟨e, ?_⟩
      simp only [first, second, third, bind, Except.bind]

end Path

/-! ### Sessions -/

/-- The current directory after a session, if `chdir` accepts all of it. -/
def cwdOf (T : Dirs D) (args : List (List UInt8)) : Option D := args.foldlM T.resolve T.root

theorem spells_start (T : Dirs D) : Spells (Main.start T).dirname (pathOf [] ++ tail) := by
  refine ⟨?_, plain_tail, List.replicate 253 0, ?_⟩
  · rw [Main.start, List.length_append, List.length_replicate]
    rfl
  · rw [Main.start, List.replicate_succ]
    rfl

section Session

variable {args : List (List UInt8)} {d : D}

theorem rooted_pathOf (args : List (List UInt8)) : Rooted (pathOf args) := by
  induction args using List.reverseRecOn with
  | nil => exact Or.inl rfl
  | append_singleton args arg ih =>
    rw [pathOf, List.foldl_append]
    exact rooted_edit ih

theorem cwdOf_concat (args : List (List UInt8)) (arg : List UInt8) :
    cwdOf T (args ++ [arg]) = (cwdOf T args).bind fun e => T.resolve e arg := by
  unfold cwdOf
  rw [List.foldlM_append]
  simp

theorem pathOf_concat (args : List (List UInt8)) (arg : List UInt8) :
    pathOf (args ++ [arg]) = edit (pathOf args) arg := by
  rw [pathOf, List.foldl_append]
  rfl

theorem session_concat (args : List (List UInt8)) (arg : List UInt8) :
    session T (args ++ [arg]) = (session T args).bind fun s => cd T s arg := by
  unfold session
  rw [List.foldlM_append]
  cases args.foldlM (cd T) (Main.start T) with
  | error => rfl
  | ok s =>
    change cd T s arg >>= (fun s => pure s) = cd T s arg
    exact bind_pure _

def Fitting (args : List (List UInt8)) : Prop := ∀ before arg after, args = before ++ arg :: after →
    Fits (pathOf before) arg

theorem forall_split_concat {α : Type} {P : List α → α → Prop} {args : List α} {arg : α} :
    (∀ before x after, args ++ [arg] = before ++ x :: after → P before x) ↔
      (∀ before x after, args = before ++ x :: after → P before x) ∧ P args arg := by
  constructor
  · intro all
    exact ⟨fun before x after is => all before x (after ++ [arg]) (by simp [is]), all args arg [] rfl⟩
  · rintro ⟨all, last⟩ before x after is
    cases after using List.reverseRecOn with
    | nil =>
      obtain ⟨rfl, same⟩ := List.append_inj' is rfl
      obtain ⟨rfl, -⟩ := List.cons.inj same
      exact last
    | append_singleton after y =>
      rw [← List.cons_append, ← List.append_assoc] at is
      obtain ⟨rfl, -⟩ := List.append_inj' is rfl
      exact all before x after rfl

theorem fitting_concat {arg : List UInt8} : Fitting (args ++ [arg]) ↔ Fitting args ∧ Fits (pathOf args) arg :=
  forall_split_concat

/-- A session that `chdir` accepts and whose commands fit edits the prompt; any other goes outside the array. -/
theorem session_spec (accepted : cwdOf T args = some d) (plain : ∀ arg ∈ args, 0 ∉ arg) :
    (Fitting args → ∃ s, session T args = .ok s ∧ Spells s.dirname (pathOf args ++ tail) ∧ s.cwd = d) ∧
    (¬ Fitting args → ∃ e, session T args = .error e) := by
  induction args using List.reverseRecOn generalizing d with
  | nil =>
    refine ⟨fun _ => ⟨Main.start T, rfl, spells_start T, Option.some.inj accepted⟩, fun none => ?_⟩
    exact absurd (fun before arg after is => by simp at is) none
  | append_singleton args arg ih =>
    rw [cwdOf_concat] at accepted
    obtain ⟨cwd, before, resolved⟩ := Option.bind_eq_some_iff.mp accepted
    obtain ⟨works, fails⟩ := ih before fun arg' member => plain arg' (List.mem_append_left _ member)
    have last := plain arg (by simp)
    rw [fitting_concat, session_concat]
    by_cases fits : Fitting args
    · obtain ⟨s, run, spells, rfl⟩ := works fits
      have step : cd T s arg = (rename s.dirname arg).bind fun dirname => .ok ⟨dirname, d⟩ := by
        unfold cd
        rw [resolved]
        rfl
      rw [run, Except.bind, step, pathOf_concat]
      refine ⟨fun both => ?_, fun neither => ?_⟩
      · obtain ⟨dirname, renamed, spells⟩ := rename_spec spells (rooted_pathOf args) last both.2
        rw [renamed]
        exact ⟨_, rfl, spells, rfl⟩
      · obtain ⟨e, failed⟩ := rename_outside spells last fun fits' => neither ⟨fits, fits'⟩
        rw [failed]
        exact ⟨e, rfl⟩
    · obtain ⟨e, failed⟩ := fails fits
      rw [failed]
      exact ⟨fun both => absurd both.1 fits, fun _ => ⟨e, rfl⟩⟩

theorem cwdOf_append {before after : List (List UInt8)} (accepted : cwdOf T (before ++ after) = some d) :
    ∃ e, cwdOf T before = some e := by
  unfold cwdOf at accepted
  rw [List.foldlM_append] at accepted
  obtain ⟨e, is, -⟩ := Option.bind_eq_some_iff.mp accepted
  exact ⟨e, is⟩

theorem Fitting.front {before after : List (List UInt8)} (fits : Fitting (before ++ after)) : Fitting before :=
  fun first arg last is => fits first arg (last ++ after) (by simp [is])

/-- In a session that `chdir` accepts all accesses are inside the array, which ends in a NUL after each command, exactly
when no command makes the prompt too long and there is no `cd ..` while it is `"/>"`. -/
theorem dirname_in_bounds_iff (accepted : cwdOf T args = some d) (plain : ∀ arg ∈ args, 0 ∉ arg) :
    (∀ before after, args = before ++ after → ∃ s text, session T before = .ok s ∧ Spells s.dirname text) ↔
    Fitting args := by
  constructor
  · intro inside
    by_contra wrong
    obtain ⟨e, failed⟩ := (session_spec accepted plain).2 wrong
    obtain ⟨s, -, run, -⟩ := inside args [] (List.append_nil _).symm
    rw [failed] at run
    cases run
  · rintro fits before after rfl
    obtain ⟨e, accepted⟩ := cwdOf_append accepted
    have plain : ∀ arg ∈ before, 0 ∉ arg := fun arg member => plain arg (List.mem_append_left _ member)
    obtain ⟨s, run, spells, -⟩ := (session_spec accepted plain).1 fits.front
    exact ⟨s, _, run, spells⟩

end Session

def lone : Dirs Unit where
  root := ()
  find _ name := if name = codes ['.'] ∨ name = dotdot then some () else none
  dot _ := rfl
  up found other other' := by
    rw [if_neg (by simp [other, other'])] at found
    cases found
  top := rfl

theorem dirname_in_bounds_dot :
    (∀ before after, [codes ['.']] = before ++ after → ∃ s text, session lone before = .ok s ∧ Spells s.dirname text) ↔
      Fitting [codes ['.']] :=
  dirname_in_bounds_iff (d := ()) rfl (by decide)

theorem length_pathOf_dots (n : Nat) : (pathOf (List.replicate n (codes ['.']))).length = 2 * n := by
  induction n with
  | zero => rfl
  | succ n ih =>
    have other : codes ['.'] ≠ dotdot := by decide
    rw [List.replicate_succ', pathOf_concat, edit, if_neg other, List.length_append, ih]
    rfl

/-- The first command of a session can be `cd ..`, and `cd .` can be given again and again. -/
theorem dirname_outside : session lone [dotdot] = .error (.outside (-1)) ∧
    ∃ e, session lone (List.replicate 127 (codes ['.'])) = .error e := by
  refine ⟨?_, ?_⟩
  · have start : session lone [] = .ok (Main.start lone) := rfl
    have home : lone.resolve (Main.start lone).cwd dotdot = some () := rfl
    rw [← List.nil_append [dotdot], session_concat, start, Except.bind, cd, home, rename_up (spells_start lone)]
    rfl
  have accepted : ∀ n, cwdOf lone (List.replicate n (codes ['.'])) = some () := by
    intro n
    induction n with
    | zero => rfl
    | succ n ih =>
      rw [List.replicate_succ', cwdOf_concat, ih]
      rfl
  refine (session_spec (accepted 127) ?_).2 fun fits => ?_
  · intro arg member
    rw [List.eq_of_mem_replicate member]
    decide
  · have other : codes ['.'] ≠ dotdot := by decide
    have last := fits (List.replicate 126 (codes ['.'])) (codes ['.']) [] List.replicate_succ'
    rw [Fits, if_neg other, length_pathOf_dots] at last
    exact absurd last (by decide)

/-! ### The prompt and the current directory -/

/-- The prompt is an absolute path to the current directory, and `>`. -/
def Tracks (T : Dirs D) (S : Stack) (s : Main D) : Prop :=
  ∃ path, prompt S s = path ++ codes ['>'] ∧ path.head? = some slash ∧ T.resolve s.cwd path = some s.cwd

def Dirs.walk (T : Dirs D) (d : D) (path : List UInt8) : Option D := follow T.find d (elements slash DIRSIZ path)

structure Meets (T : Dirs D) (path : List UInt8) (cwd : D) (arg : List UInt8) : Prop where
  fits : Fits path arg
  shown : plain false (edit path arg ++ tail) = true
  up : arg = dotdot → ∀ front back, path = front ++ slash :: back → slash ∉ back →
    back ∉ [[], codes ['.'], dotdot] ∨ T.walk T.root front = some T.root
  down : arg ≠ dotdot → arg.head? = some slash → T.walk cwd arg = T.walk T.root arg

section Track

variable {path arg : List UInt8} {cwd cwd' d : D} {args : List (List UInt8)}

theorem walk_append (d : D) (front back : List UInt8) :
    T.walk d (front ++ slash :: back) = (T.walk d front).bind fun e => T.walk e back := by
  unfold Dirs.walk
  rw [elements_append, follow_append]

theorem take_ne {back : List UInt8} (proper : back ∉ [[], codes ['.'], dotdot]) :
    back ≠ [] ∧ back.take DIRSIZ ≠ codes ['.'] ∧ back.take DIRSIZ ≠ dotdot := by
  simp only [List.mem_cons, List.not_mem_nil, or_false, not_or] at proper
  obtain ⟨nonempty, dot, up⟩ := proper
  have short : ∀ name : List UInt8, name.length < DIRSIZ → back.take DIRSIZ = name → back = name := by
    intro name less is
    have length := congrArg List.length is
    rw [List.length_take] at length
    rwa [List.take_of_length_le (by omega)] at is
  exact ⟨nonempty, fun is => dot (short _ (by decide) is), fun is => up (short _ (by decide) is)⟩

theorem walk_name {name : List UInt8} (nonempty : name ≠ []) (single : slash ∉ name) :
    T.walk d name = T.find d (name.take DIRSIZ) := by
  rw [Dirs.walk, elements_name nonempty single, follow, List.foldlM_cons]
  exact bind_pure _

theorem walk_root {name : List UInt8} (special : name ∈ [[], codes ['.'], dotdot]) :
    T.walk T.root name = some T.root := by
  simp only [List.mem_cons, List.not_mem_nil, or_false] at special
  obtain rfl | rfl | rfl := special
  · rfl
  · rw [walk_name (by decide) (by decide)]
    exact T.dot T.root
  · rw [walk_name (by decide) (by decide)]
    exact T.top

theorem walk_up {front back : List UInt8} (last : slash ∉ back)
    (here : T.walk T.root (front ++ slash :: back) = some cwd)
    (proper : back ∉ [[], codes ['.'], dotdot] ∨ T.walk T.root front = some T.root) :
    T.walk T.root front = T.find cwd dotdot := by
  rw [walk_append] at here
  obtain ⟨e, first, second⟩ := Option.bind_eq_some_iff.mp here
  rw [first] at proper ⊢
  by_cases name : back ∈ [[], codes ['.'], dotdot]
  · obtain rfl := Option.some.inj (proper.resolve_left (fun absent => absent name))
    rw [walk_root name] at second
    rw [← Option.some.inj second, T.top]
  · obtain ⟨nonempty, dot, up⟩ := take_ne name
    rw [walk_name nonempty last] at second
    exact (T.up second dot up).symm

theorem walk_edit (rooted : Rooted path) (here : T.walk T.root path = some cwd) (meets : Meets T path cwd arg)
    (accepted : T.resolve cwd arg = some cwd') : T.walk T.root (edit path arg) = some cwd' := by
  unfold edit
  by_cases up : arg = dotdot
  · have nonempty : path ≠ [] := by
      have fits := meets.fits
      rwa [Fits, if_pos up] at fits
    obtain ⟨front, back, rfl, last, -⟩ := rooted.split nonempty
    rw [if_pos up, cut_eq front last, walk_up last here (meets.up up front back rfl last), ← accepted, up]
    have name : T.walk cwd dotdot = T.find cwd dotdot := walk_name (by decide) (by decide)
    exact name.symm
  · rw [if_neg up, walk_append, here, Option.bind_some, ← accepted, Dirs.resolve]
    by_cases absolute : arg.head? = some slash
    · rw [if_pos absolute]
      exact meets.down up absolute
    · rw [if_neg absolute]
      rfl

/-- Every command of a session meets its condition, in the directory it is given in. -/
def Steady (T : Dirs D) (args : List (List UInt8)) : Prop :=
  ∀ before arg after cwd, args = before ++ arg :: after → cwdOf T before = some cwd → Meets T (pathOf before) cwd arg

theorem Steady.concat (steady : Steady T args) (last : ∀ cwd, cwdOf T args = some cwd → Meets T (pathOf args) cwd arg) :
    Steady T (args ++ [arg]) := fun before x after cwd is =>
  forall_split_concat.mpr ⟨fun before x after is cwd => steady before x after cwd is, last⟩ before x after is cwd

theorem Steady.front {before after : List (List UInt8)} (steady : Steady T (before ++ after)) : Steady T before :=
  fun first arg last cwd is => steady first arg (last ++ after) cwd (by simp [is])

theorem walk_pathOf (accepted : cwdOf T args = some d) (steady : Steady T args) :
    T.walk T.root (pathOf args) = some d ∧ plain false (pathOf args ++ tail) = true := by
  induction args using List.reverseRecOn generalizing d with
  | nil => exact ⟨accepted, by decide⟩
  | append_singleton args arg ih =>
    rw [cwdOf_concat] at accepted
    obtain ⟨cwd, before, resolved⟩ := Option.bind_eq_some_iff.mp accepted
    have meets := steady args arg [] cwd rfl before
    rw [pathOf_concat]
    exact ⟨walk_edit (rooted_pathOf args) (ih before steady.front).1 meets resolved, meets.shown⟩

theorem Steady.fitting (accepted : cwdOf T args = some d) (steady : Steady T args) : Fitting args := by
  rintro before arg after rfl
  obtain ⟨cwd, is⟩ := cwdOf_append accepted
  exact (steady before arg after cwd rfl is).fits

theorem takeWhile_spells {dirname text : List UInt8} (h : Spells dirname text) : dirname.takeWhile (· ≠ 0) = text := by
  obtain ⟨-, plain, rest, rfl⟩ := h
  rw [List.takeWhile_append_of_pos]
  · simp
  · intro c member
    simpa using fun is : c = 0 => plain (is ▸ member)

theorem tracks_of_walk {s : Main D} (S : Stack) (rooted : Rooted path) (spells : Spells s.dirname (path ++ tail))
    (shown : plain false (path ++ tail) = true) (here : T.walk T.root path = some s.cwd) : Tracks T S s := by
  have absolute : (path ++ [slash]).head? = some slash := by
    rcases rooted with rfl | rooted
    · rfl
    · cases path with
      | nil => rfl
      | cons c path => exact rooted
  refine ⟨path ++ [slash], ?_, absolute, ?_⟩
  · rw [prompt, takeWhile_spells spells, printf_plain S shown, List.append_assoc]
    rfl
  · have ends := walk_append (T := T) T.root path []
    rw [here, Option.bind_some] at ends
    rw [Dirs.resolve, if_pos absolute]
    exact ends

/-- In a session whose commands all meet the condition each prompt is a path to the current directory. -/
theorem prompt_tracks (accepted : cwdOf T args = some d) (plain : ∀ arg ∈ args, 0 ∉ arg) (steady : Steady T args) :
    ∀ before after, args = before ++ after →
      ∃ s, session T before = .ok s ∧ cwdOf T before = some s.cwd ∧ ∀ S, Tracks T S s := by
  rintro before after rfl
  obtain ⟨e, accepted⟩ := cwdOf_append accepted
  have plain : ∀ arg ∈ before, 0 ∉ arg := fun arg member => plain arg (List.mem_append_left _ member)
  obtain ⟨s, run, spells, rfl⟩ := (session_spec accepted plain).1 (steady.front.fitting accepted)
  obtain ⟨here, shown⟩ := walk_pathOf accepted steady.front
  exact ⟨s, run, accepted, fun S => tracks_of_walk S (rooted_pathOf before) spells shown here⟩

end Track

def single : Dirs Bool where
  root := false
  find d name :=
    if name = codes ['.'] then some d
    else if name = dotdot then some false
    else if name = codes ['a'] ∧ d = false then some true
    else none
  dot _ := rfl
  up := by
    intro d e name found dot up
    rw [if_neg dot, if_neg up] at found
    split at found
    · rename_i is
      rw [is.2]
      rfl
    · cases found
  top := rfl

theorem steady_back : Steady single [codes ['a'], dotdot] := by
  have start : Steady single [] := fun before _ _ _ is => absurd is (by simp)
  have first : Steady single ([] ++ [codes ['a']]) := start.concat fun cwd found => by
    cases found
    exact ⟨by decide, by decide, fun is => absurd is (by decide), fun _ is => absurd is (by decide)⟩
  refine first.concat fun cwd found => ?_
  cases found
  refine ⟨by decide, by decide, fun _ front back is last => ?_, fun ne => absurd rfl ne⟩
  cases front with
  | nil => exact Or.inr rfl
  | cons c front =>
    have inside : slash ∈ codes ['a'] := by
      rw [(List.cons.inj is).2]
      exact List.mem_append_right _ List.mem_cons_self
    exact absurd inside (by decide)

/-- `cd a` and back. -/
theorem prompt_tracks_back : Steady single [codes ['a'], dotdot] ∧ ∀ before after,
    [codes ['a'], dotdot] = before ++ after →
    ∃ s, session single before = .ok s ∧ cwdOf single before = some s.cwd ∧ ∀ S, Tracks single S s :=
  ⟨steady_back, prompt_tracks (d := false) rfl (by decide) steady_back⟩

/-- After `cd a`, `cd .` and `cd ..` the prompt is `/a/>`, in the root directory. -/
theorem prompt_strays : ∃ s, session single [codes ['a'], codes ['.'], dotdot] = .ok s ∧ s.cwd = single.root ∧
    ∀ S, prompt S s = codes ['/', 'a', '/', '>'] ∧ ¬ Tracks single S s := by
  have fits : Fitting [codes ['a'], codes ['.'], dotdot] := by
    have none : Fitting [] := fun before arg after is => by simp at is
    have first : Fitting ([] ++ [codes ['a']]) := fitting_concat.mpr ⟨none, by decide⟩
    have second : Fitting ([codes ['a']] ++ [codes ['.']]) := fitting_concat.mpr ⟨first, by decide⟩
    have third : Fitting ([codes ['a'], codes ['.']] ++ [dotdot]) := fitting_concat.mpr ⟨second, by decide⟩
    exact third
  obtain ⟨s, run, spells, home⟩ := (session_spec (T := single) (d := false) rfl (by decide)).1 fits
  refine ⟨s, run, home, fun S => ?_⟩
  have text : prompt S s = codes ['/', 'a', '/', '>'] := by
    rw [prompt, takeWhile_spells spells]
    exact printf_plain S (by decide)
  refine ⟨text, ?_⟩
  rintro ⟨path, is, -, leads⟩
  rw [text] at is
  have cut : codes ['/', 'a', '/'] ++ codes ['>'] = path ++ codes ['>'] := is
  have same := List.append_cancel_right cut
  rw [home, ← same] at leads
  exact absurd leads (by decide)

end Espl.Shell
