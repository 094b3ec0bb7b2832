import Espl.Program.Lines
import Mathlib.Data.List.Nodup

/-!
# Directory trees in Python

`os.path.join` and `os.path.walk` as `dirwatch.py` uses them. A tree is what `os.listdir` and `os.stat` say
about a directory; no path comes up twice on a walk.
-/

namespace Espl.Labs

abbrev Path : Type := List UInt8

abbrev slash : UInt8 := 47

def join (path name : Path) : Path :=
  if name.head? = some slash then name
  else if path = [] ∨ path.getLast? = some slash then path ++ name
  else path ++ slash :: name

/-- The entries of a directory with their modification times; there is none if `os.stat` fails. -/
inductive Files where
  | none
  | file (name : Path) (mtime : Option Int) (rest : Files)
  | dir (name : Path) (mtime : Option Int) (content rest : Files)

namespace Files

def listed : Files → List (Path × Option Int)
  | .none => []
  | .file name mtime rest => (name, mtime) :: rest.listed
  | .dir name mtime _ rest => (name, mtime) :: rest.listed

def deep (top : Path) : Files → List (Path × Option Int)
  | .none => []
  | .file _ _ rest => rest.deep top
  | .dir name _ content rest =>
    content.listed.map (fun e => (join (join top name) e.1, e.2)) ++ content.deep (join top name) ++ rest.deep top

/-- The paths that `os.path.walk(top, func, arg)` gives to `func`, directory by directory. -/
def walk (top : Path) (files : Files) : List (Path × Option Int) :=
  files.listed.map (fun e => (join top e.1, e.2)) ++ files.deep top

/-- The name of a file is neither empty nor has a slash in it, and there is only one entry with it. -/
def Fine : Files → Prop
  | .none => True
  | .file name _ rest => name ≠ [] ∧ slash ∉ name ∧ name ∉ rest.listed.map Prod.fst ∧ rest.Fine
  | .dir name _ content rest => name ≠ [] ∧ slash ∉ name ∧ name ∉ rest.listed.map Prod.fst ∧ content.Fine ∧ rest.Fine

end Files

def base (path : Path) : Path := if path = [] ∨ path.getLast? = some slash then path else path ++ [slash]

section

variable {top name name' tail tail' x : Path} {files : Files}

theorem join_eq (plain : slash ∉ name) (top : Path) : join top name = base top ++ name := by
  have first : name.head? ≠ some slash := fun head => plain (List.mem_of_head? head)
  rw [join, if_neg first, base]
  split
  · rfl
  · simp

theorem base_join (named : name ≠ []) (plain : slash ∉ name) (top rest : Path) :
    base (join top name) ++ rest = base top ++ (name ++ slash :: rest) := by
  have ends : base (join top name) = join top name ++ [slash] := by
    rw [join_eq plain, base, if_neg]
    rintro (empty | last)
    · exact named (List.append_eq_nil_iff.mp empty).2
    · rw [List.getLast?_append_of_ne_nil _ named] at last
      exact plain (List.mem_of_getLast? last)
  rw [ends, join_eq plain]
  simp

theorem name_ne_path (plain : slash ∉ name) (rest : Path) :
    base top ++ name ≠ base top ++ (name' ++ slash :: rest) := by
  intro same
  rw [List.append_cancel_left same] at plain
  exact plain (by simp)

theorem path_name_unique {rest rest' : Path} (plain : slash ∉ name) (plain' : slash ∉ name')
    (same : base top ++ (name ++ slash :: rest) = base top ++ (name' ++ slash :: rest')) : name = name' :=
  (first_unique (List.append_cancel_left same) plain plain').1

namespace Files

theorem Fine.names (fine : files.Fine) : (∀ n ∈ files.listed.map Prod.fst, n ≠ [] ∧ slash ∉ n) ∧
    (files.listed.map Prod.fst).Nodup := by
  induction files with
  | none => exact ⟨fun n member => absurd member List.not_mem_nil, List.nodup_nil⟩
  | file name mtime rest ih =>
    obtain ⟨named, plain, new, fine⟩ := fine
    exact ⟨List.forall_mem_cons.mpr ⟨⟨named, plain⟩, (ih fine).1⟩, List.nodup_cons.mpr ⟨new, (ih fine).2⟩⟩
  | dir name mtime content rest _ ih =>
    obtain ⟨named, plain, new, -, fine⟩ := fine
    exact ⟨List.forall_mem_cons.mpr ⟨⟨named, plain⟩, (ih fine).1⟩, List.nodup_cons.mpr ⟨new, (ih fine).2⟩⟩

theorem Fine.mem_listed (fine : files.Fine)
    (member : x ∈ (files.listed.map fun e => (join top e.1, e.2)).map Prod.fst) :
    ∃ name ∈ files.listed.map Prod.fst, slash ∉ name ∧ x = base top ++ name := by
  rw [List.map_map] at member
  obtain ⟨e, entry, rfl⟩ := List.mem_map.mp member
  have listed := List.mem_map_of_mem entry (f := Prod.fst)
  have plain := (fine.names.1 _ listed).2
  exact ⟨e.1, listed, plain, join_eq plain top⟩

theorem Fine.mem_deep (fine : files.Fine) (member : x ∈ (files.deep top).map Prod.fst) :
    ∃ name ∈ files.listed.map Prod.fst, slash ∉ name ∧ ∃ rest, x = base top ++ (name ++ slash :: rest) := by
  induction files generalizing top with
  | none => exact absurd member List.not_mem_nil
  | file name mtime rest ih =>
    obtain ⟨n, listed, found⟩ := ih fine.2.2.2 member
    exact ⟨n, List.mem_cons_of_mem _ listed, found⟩
  | dir name mtime content rest inner outer =>
    obtain ⟨named, plain, -, fine, fine'⟩ := fine
    rw [deep, List.map_append, List.map_append, List.mem_append, List.mem_append] at member
    rcases member with (here | further) | other
    · obtain ⟨n, -, -, rfl⟩ := fine.mem_listed here
      exact ⟨name, List.mem_cons_self, plain, n, base_join named plain top n⟩
    · obtain ⟨n, -, -, r, rfl⟩ := inner fine further
      exact ⟨name, List.mem_cons_self, plain, n ++ slash :: r, base_join named plain top _⟩
    · obtain ⟨n, listed, found⟩ := outer fine' other
      exact ⟨n, List.mem_cons_of_mem _ listed, found⟩

theorem Fine.nodup_listed (fine : files.Fine) (top : Path) :
    ((files.listed.map fun e => (join top e.1, e.2)).map Prod.fst).Nodup := by
  obtain ⟨names, nodup⟩ := fine.names
  have paths : (files.listed.map fun e => (join top e.1, e.2)).map Prod.fst = (files.listed.map Prod.fst).map
    (base top ++ ·) := by
    rw [List.map_map, List.map_map]
    exact List.map_congr_left fun e entry => join_eq (names _ (List.mem_map_of_mem entry)).2 top
  rw [paths]
  exact nodup.map (List.append_right_injective _)

theorem Fine.nodup_walk_of_deep (fine : files.Fine) (deeper : ((files.deep top).map Prod.fst).Nodup) :
    ((files.walk top).map Prod.fst).Nodup := by
  rw [walk, List.map_append]
  refine (fine.nodup_listed top).append deeper fun x here there => ?_
  obtain ⟨n, -, plain, rfl⟩ := fine.mem_listed here
  obtain ⟨n', -, -, rest, same⟩ := fine.mem_deep there
  exact name_ne_path plain rest same

theorem Fine.nodup_deep (fine : files.Fine) (top : Path) : ((files.deep top).map Prod.fst).Nodup := by
  induction files generalizing top with
  | none => exact List.nodup_nil
  | file name mtime rest ih => exact ih fine.2.2.2 top
  | dir name mtime content rest inner outer =>
    obtain ⟨named, plain, new, fine, fine'⟩ := fine
    have walked := fine.nodup_walk_of_deep (inner fine (join top name))
    rw [deep, ← walk, List.map_append]
    refine walked.append (outer fine' top) fun x here there => ?_
    -- Where the two parts meet, the directory would be listed twice.
    have through : ∃ r, x = base top ++ (name ++ slash :: r) := by
      rw [walk, List.map_append, List.mem_append] at here
      rcases here with here | further
      · obtain ⟨n, -, -, rfl⟩ := fine.mem_listed here
        exact ⟨n, base_join named plain top n⟩
      · obtain ⟨n, -, -, r, rfl⟩ := fine.mem_deep further
        exact ⟨n ++ slash :: r, base_join named plain top _⟩
    obtain ⟨r, rfl⟩ := through
    obtain ⟨n', listed, plain', rest', same⟩ := fine'.mem_deep there
    rw [path_name_unique plain plain' same] at new
    exact new listed

theorem Fine.nodup_walk (fine : files.Fine) (top : Path) : ((files.walk top).map Prod.fst).Nodup :=
  fine.nodup_walk_of_deep (fine.nodup_deep top)

end Files

end

end Espl.Labs
