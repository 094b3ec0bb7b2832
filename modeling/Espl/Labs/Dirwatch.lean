import Espl.Labs.Walk
import Mathlib.Data.List.AList

/-!
# Watching directories

`dirwatch.py`: the files below some paths, looked at again and again, with a report of what has changed. A
dictionary is a list of keys and values in some order.
-/

namespace Espl.Labs

abbrev Dict : Type := AList fun _ : Path => Int

structure Dirwatch where
  allFiles : Dict
  remainingFiles : Dict
  changedList : List Path

structure Report where
  changed : List Path
  removed : List Path

structure Root where
  path : Path
  files : Files

namespace Dirwatch

def init : Dirwatch := ⟨∅, ∅, []⟩

def visit (w : Dirwatch) (file : Path × Option Int) : Dirwatch :=
  match file.2 with
  | none => w
  | some t =>
    let w := match w.remainingFiles.lookup file.1 with
      | some mtime =>
        { w with remainingFiles := w.remainingFiles.erase file.1,
                 changedList := if t > mtime then w.changedList ++ [file.1] else w.changedList }
      | none => { w with changedList := w.changedList ++ [file.1] }
    { w with allFiles := w.allFiles.insert file.1 t }

def crawl (w : Dirwatch) (root : Root) : Dirwatch := (root.files.walk root.path).foldl visit w

def turn (w : Dirwatch) : List Root → Dirwatch × List Report
  | [] => (w, [])
  | root :: roots =>
    let w := w.crawl root
    let removedList := w.remainingFiles.keys
    let (w', reports) := w.turn roots
    (w', if w.changedList ≠ [] ∨ removedList ≠ [] then ⟨w.changedList, removedList⟩ :: reports else reports)

def watch (w : Dirwatch) (roots : List Root) : Dirwatch × List Report :=
  turn ⟨∅, w.allFiles, []⟩ roots

end Dirwatch

def Root.stats (root : Root) : List (Path × Int) := (root.files.walk root.path).filterMap fun e => e.2.map (e.1, ·)

/-- A watched path with the tree below it at two successive passes. -/
structure Watched where
  path : Path
  before : Files
  now : Files
  fine_before : before.Fine
  fine_now : now.Fine

namespace Watched

def old (r : Watched) : Root := ⟨r.path, r.before⟩

def new (r : Watched) : Root := ⟨r.path, r.now⟩

end Watched

def Apart (roots : List Root) : Prop :=
  roots.Pairwise fun r r' => (r.stats.map Prod.fst).Disjoint (r'.stats.map Prod.fst)

/-- Over the whole pass, the reports name exactly the paths that are gone and those that are new or have another
time, each once. -/
structure Dirwatch.Exact (reports : List Report) (old new : List (Path × Int)) : Prop where
  removed : (reports.flatMap Report.removed).Perm ((old.map Prod.fst).filter (· ∉ new.map Prod.fst))
  changed : (reports.flatMap Report.changed).Perm ((new.filter (· ∉ old)).map Prod.fst)

/-- No time goes back; and if there is more than one path, everything that was there before is still there, below the
first, and what is new or has another time is below the last. -/
structure Regular (old : List (Path × Int)) (new : List (List (Path × Int))) : Prop where
  later : ∀ p m t, (p, m) ∈ old → (p, t) ∈ new.flatten → m ≤ t
  one : new.length = 1 ∨ ((∀ l ∈ new.head?, ∀ p ∈ old.map Prod.fst, p ∈ l.map Prod.fst) ∧
    ∀ l ∈ new.getLast?, ∀ e ∈ new.flatten, e ∉ old → e ∈ l)

/-! ### One tree after the other -/

namespace Dirwatch

def see (w : Dirwatch) (e : Path × Int) : Dirwatch := w.visit (e.1, some e.2)

theorem crawl_eq (w : Dirwatch) (root : Root) : w.crawl root = root.stats.foldl see w := by
  rw [crawl, Root.stats, List.foldl_filterMap]
  congr 1
  funext w e
  obtain ⟨p, mtime⟩ := e
  cases mtime <;> rfl

end Dirwatch

def fresh (D : Dict) (e : Path × Int) : Bool :=
  match D.lookup e.1 with
  | some mtime => mtime < e.2
  | none => true

/-- The state after `D` was recorded and the files in `l` have been seen. -/
structure Seen (D : Dict) (l : List (Path × Int)) (w : Dirwatch) : Prop where
  remaining : ∀ p, w.remainingFiles.lookup p = if p ∈ l.map Prod.fst then none else D.lookup p
  keys : w.remainingFiles.keys = D.keys.filter (· ∉ l.map Prod.fst)
  changed : w.changedList = (l.filter (fresh D)).map Prod.fst
  all : ∀ p t, w.allFiles.lookup p = some t ↔ (p, t) ∈ l

section

variable {D : Dict} {l l' : List (Path × Int)} {w : Dirwatch} {e : Path × Int} {p : Path}

theorem keys_erase_filter {α β : Type} [DecidableEq α] (s : AList fun _ : α => β) (a : α) :
    (s.erase a).keys = s.keys.filter (· ≠ a) := by
  rw [AList.keys_erase, s.keys_nodup.erase_eq_filter]
  exact List.filter_congr fun b _ => by simp [bne, beq_eq_decide]

theorem mem_paths_concat {q : Path} {t : Int} : q ∈ (l ++ [(p, t)]).map Prod.fst ↔ q ∈ l.map Prod.fst ∨ q = p := by
  rw [List.map_append, List.mem_append, List.map_singleton, List.mem_singleton]

theorem fresh_some {mtime t : Int} (recorded : D.lookup p = some mtime) : fresh D (p, t) = decide (mtime < t) := by
  simp [fresh, recorded]

theorem fresh_none {t : Int} (new : D.lookup p = none) : fresh D (p, t) = true := by
  simp [fresh, new]

theorem Seen.see (h : Seen D l w) (new : e.1 ∉ l.map Prod.fst) : Seen D (l ++ [e]) (w.see e) := by
  obtain ⟨p, t⟩ := e
  have found : w.remainingFiles.lookup p = D.lookup p := by rw [h.remaining, if_neg new]
  have all : ∀ q u, (w.allFiles.insert p t).lookup q = some u ↔ (q, u) ∈ l ++ [(p, t)] := by
    intro q u
    rw [List.mem_append, List.mem_singleton, Prod.mk.injEq]
    by_cases same : q = p
    · subst same
      rw [AList.lookup_insert]
      constructor
      · exact fun here => Or.inr ⟨rfl, (Option.some.inj here).symm⟩
      · rintro (listed | ⟨-, rfl⟩)
        · exact absurd (List.mem_map_of_mem listed) new
        · rfl
    · rw [AList.lookup_insert_ne same, h.all]
      exact ⟨Or.inl, fun either => either.resolve_right fun here => same here.1⟩
  have changed : (l ++ [(p, t)]).filter (fresh D) = l.filter (fresh D) ++ if fresh D (p, t) then [(p, t)] else [] := by
    rw [List.filter_append, List.filter_cons, List.filter_nil]
  cases recorded : D.lookup p with
  | some mtime =>
    have seen : w.see (p, t) =
        ⟨w.allFiles.insert p t, w.remainingFiles.erase p,
          if t > mtime then w.changedList ++ [p] else w.changedList⟩ := by
      simp [Dirwatch.see, Dirwatch.visit, found, recorded]
    rw [seen]
    refine ⟨fun q => ?_, ?_, ?_, all⟩
    · by_cases same : q = p
      · subst same
        rw [AList.lookup_erase, if_pos (mem_paths_concat.mpr (Or.inr rfl))]
      · rw [AList.lookup_erase_ne same, h.remaining]
        simp only [mem_paths_concat, same, or_false]
    · rw [keys_erase_filter, h.keys, List.filter_filter]
      refine List.filter_congr fun q _ => ?_
      rw [Bool.eq_iff_iff]
      simp only [Bool.and_eq_true, decide_eq_true_eq, mem_paths_concat, not_or]
      exact And.comm
    · rw [changed, fresh_some recorded, h.changed]
      by_cases later : mtime < t
      · simp [later]
      · simp [later]
  | none =>
    have seen : w.see (p, t) = ⟨w.allFiles.insert p t, w.remainingFiles, w.changedList ++ [p]⟩ := by
      simp [Dirwatch.see, Dirwatch.visit, found, recorded]
    rw [seen]
    refine ⟨fun q => ?_, ?_, ?_, all⟩
    · by_cases same : q = p
      · subst same
        rw [found, recorded, if_pos (mem_paths_concat.mpr (Or.inr rfl))]
      · rw [h.remaining]
        simp only [mem_paths_concat, same, or_false]
    · have absent : p ∉ D.keys := fun key => AList.lookup_eq_none.mp recorded (AList.mem_keys.mpr key)
      rw [h.keys]
      refine List.filter_congr fun q key => ?_
      have other : q ≠ p := fun same => absent (same ▸ key)
      simp only [mem_paths_concat, other, or_false]
    · rw [changed, fresh_none recorded, h.changed]
      simp

theorem Seen.foldl (h : Seen D l w) (nodup : ((l ++ l').map Prod.fst).Nodup) : Seen D (l ++ l')
    (l'.foldl Dirwatch.see w) := by
  induction l' generalizing l w with
  | nil => simpa using h
  | cons e l' ih =>
    rw [List.append_cons] at nodup ⊢
    refine ih (h.see ?_) nodup
    rw [List.map_append] at nodup
    have first := (List.nodup_append.mp nodup).1
    rw [List.map_append, List.map_singleton] at first
    exact fun member => (List.nodup_append.mp first).2.2 _ member _ List.mem_cons_self rfl

/-! ### One pass -/

def place (p : Path) (ls : List (List (Path × Int))) : Nat := ls.findIdx fun l => p ∈ l.map Prod.fst

theorem place_here {ls : List (List (Path × Int))} (here : p ∈ l.map Prod.fst) : place p (l :: ls) = 0 := by
  simp only [place, List.findIdx_cons, here, decide_true, cond_true]

theorem place_later {ls : List (List (Path × Int))} (elsewhere : p ∉ l.map Prod.fst) :
    place p (l :: ls) = place p ls + 1 := by
  simp only [place, List.findIdx_cons, elsewhere, decide_false, cond_false]

theorem flatMap_report {α : Type} {c : Prop} [Decidable c] (f : Report → List α) (r : Report) (rs : List Report)
    (empty : ¬ c → f r = []) : (if c then r :: rs else rs).flatMap f = f r ++ rs.flatMap f := by
  by_cases made : c
  · rw [if_pos made, List.flatMap_cons]
  · rw [if_neg made, empty made, List.nil_append]

theorem turn_removed_cons (w : Dirwatch) (root : Root) (roots : List Root) :
    (w.turn (root :: roots)).2.flatMap Report.removed =
    (w.crawl root).remainingFiles.keys ++ ((w.crawl root).turn roots).2.flatMap Report.removed :=
  flatMap_report _ _ _ fun none => not_not.mp (not_or.mp none).2

theorem turn_changed_cons (w : Dirwatch) (root : Root) (roots : List Root) :
    (w.turn (root :: roots)).2.flatMap Report.changed =
    (w.crawl root).changedList ++ ((w.crawl root).turn roots).2.flatMap Report.changed :=
  flatMap_report _ _ _ fun none => not_not.mp (not_or.mp none).1

theorem nodup_first {S R : List (Path × Int)} (nodup : ((l ++ (S ++ R)).map Prod.fst).Nodup) :
    ((l ++ S).map Prod.fst).Nodup := by
  rw [← List.append_assoc, List.map_append] at nodup
  exact (List.nodup_append.mp nodup).1

theorem Seen.crawl (h : Seen D l w) {root : Root} (nodup : ((l ++ root.stats).map Prod.fst).Nodup) :
    Seen D (l ++ root.stats) (w.crawl root) := by
  rw [Dirwatch.crawl_eq]
  exact h.foldl nodup

variable {roots : List Root}

theorem Seen.turn (h : Seen D l w) (nodup : ((l ++ (roots.map Root.stats).flatten).map Prod.fst).Nodup) :
    Seen D (l ++ (roots.map Root.stats).flatten) (w.turn roots).1 := by
  induction roots generalizing l w with
  | nil => simpa [Dirwatch.turn] using h
  | cons root roots ih =>
    rw [List.map_cons, List.flatten_cons] at nodup ⊢
    have crawled := h.crawl (nodup_first nodup)
    rw [← List.append_assoc] at nodup ⊢
    exact ih crawled nodup

theorem Seen.turn_removed (h : Seen D l w)
    (nodup : ((l ++ (roots.map Root.stats).flatten).map Prod.fst).Nodup) (p : Path) :
    ((w.turn roots).2.flatMap Report.removed).count p =
      if p ∈ D.keys ∧ p ∉ l.map Prod.fst then place p (roots.map Root.stats) else 0 := by
  induction roots generalizing l w with
  | nil => simp [Dirwatch.turn, place]
  | cons root roots ih =>
    rw [List.map_cons, List.flatten_cons] at nodup
    have crawled := h.crawl (nodup_first nodup)
    have keys : (w.crawl root).remainingFiles.keys.count p =
        if p ∈ D.keys ∧ p ∉ (l ++ root.stats).map Prod.fst then 1 else 0 := by
      rw [List.Nodup.count (AList.keys_nodup _), crawled.keys]
      simp only [List.mem_filter, decide_eq_true_eq]
    rw [← List.append_assoc] at nodup
    rw [turn_removed_cons, List.count_append, keys, ih crawled nodup, List.map_cons]
    simp only [List.map_append, List.mem_append, not_or]
    by_cases here : p ∈ root.stats.map Prod.fst
    · simp [here, place_here here]
    · by_cases pending : p ∈ D.keys ∧ p ∉ l.map Prod.fst
      · simp only [pending, here, not_false_eq_true, and_self, if_true, place_later here]
        omega
      · have settled : ¬ (p ∈ D.keys ∧ p ∉ l.map Prod.fst ∧ p ∉ root.stats.map Prod.fst) :=
          fun all => pending ⟨all.1, all.2.1⟩
        simp only [pending, settled, if_false]

theorem Seen.turn_changed (h : Seen D l w)
    (nodup : ((l ++ (roots.map Root.stats).flatten).map Prod.fst).Nodup) (p : Path) :
    ((w.turn roots).2.flatMap Report.changed).count p =
      if p ∈ (l.filter (fresh D)).map Prod.fst then roots.length
      else if p ∈ ((roots.map Root.stats).flatten.filter (fresh D)).map Prod.fst then roots.length - place p
        (roots.map Root.stats)
      else 0 := by
  induction roots generalizing l w with
  | nil => simp [Dirwatch.turn]
  | cons root roots ih =>
    rw [List.map_cons, List.flatten_cons] at nodup
    have distinct := nodup_first nodup
    have crawled := h.crawl distinct
    have list : (w.crawl root).changedList.count p =
        if p ∈ ((l ++ root.stats).filter (fresh D)).map Prod.fst then 1 else 0 := by
      rw [crawled.changed, List.Nodup.count (distinct.sublist (List.filter_sublist.map _))]
    rw [← List.append_assoc] at nodup
    rw [turn_changed_cons, List.count_append, list, ih crawled nodup, List.map_cons, List.flatten_cons]
    simp only [List.filter_append, List.map_append, List.mem_append, List.length_cons]
    by_cases before : p ∈ (l.filter (fresh D)).map Prod.fst
    · simp only [before, true_or, if_true]
      omega
    · by_cases here : p ∈ (root.stats.filter (fresh D)).map Prod.fst
      · simp only [before, here, true_or, or_true, if_true, if_false,
          place_here ((List.filter_sublist.map _).subset here)]
        omega
      · simp only [before, here, false_or, or_self, if_false, Nat.zero_add]
        by_cases after : p ∈ ((roots.map Root.stats).flatten.filter (fresh D)).map Prod.fst
        · have elsewhere : p ∉ root.stats.map Prod.fst := by
            intro listed
            rw [List.map_append] at nodup
            have late : p ∈ (l ++ root.stats).map Prod.fst := by
              rw [List.map_append]
              exact List.mem_append_right _ listed
            exact (List.nodup_append.mp nodup).2.2 p late p ((List.filter_sublist.map _).subset after) rfl
          rw [if_pos after, if_pos after, place_later elsewhere, Nat.add_sub_add_right]
        · rw [if_neg after, if_neg after]

theorem seen_start (D : Dict) : Seen D [] ⟨∅, D, []⟩ where
  remaining p := by simp
  keys := by simp
  changed := rfl
  all p t := by simp

/-! ### The paths of the trees -/

theorem nodup_stats {root : Root} (fine : root.files.Fine) : (root.stats.map Prod.fst).Nodup := by
  refine (fine.nodup_walk root.path).sublist ?_
  rw [Root.stats]
  induction root.files.walk root.path with
  | nil => exact List.Sublist.refl _
  | cons e l ih =>
    obtain ⟨p, mtime⟩ := e
    cases mtime with
    | none => exact ih.cons _
    | some t => exact ih.cons_cons _

theorem nodup_pass (fine : ∀ root ∈ roots, root.files.Fine) (apart : Apart roots) :
    ((roots.map Root.stats).flatten.map Prod.fst).Nodup := by
  rw [List.map_flatten, List.nodup_flatten, List.map_map]
  constructor
  · intro l member
    obtain ⟨root, listed, rfl⟩ := List.mem_map.mp member
    exact nodup_stats (fine root listed)
  · exact List.pairwise_map.mpr apart

/-! ### Both passes -/

section Compare

variable {old : List (Path × Int)} {trees : List (List (Path × Int))} {t : Int}

theorem time_unique {l : List (Path × Int)} (nodup : (l.map Prod.fst).Nodup) {u : Int} (one : (p, t) ∈ l)
    (two : (p, u) ∈ l) : t = u :=
  (Prod.mk.inj (List.inj_on_of_nodup_map nodup one two rfl)).2

theorem mem_keys_iff (records : ∀ p t, D.lookup p = some t ↔ (p, t) ∈ old) : p ∈ D.keys ↔ p ∈ old.map Prod.fst := by
  rw [← AList.mem_keys, ← AList.lookup_isSome, Option.isSome_iff_exists]
  constructor
  · rintro ⟨t, recorded⟩
    exact List.mem_map_of_mem ((records p t).mp recorded)
  · intro listed
    obtain ⟨⟨q, t⟩, entry, rfl⟩ := List.mem_map.mp listed
    exact ⟨t, (records q t).mpr entry⟩

theorem fresh_iff (records : ∀ p t, D.lookup p = some t ↔ (p, t) ∈ old) : fresh D (p, t) = true ↔ ∀ m,
    (p, m) ∈ old → m < t := by
  cases recorded : D.lookup p with
  | none =>
    rw [fresh_none recorded]
    refine ⟨fun _ m entry => ?_, fun _ => rfl⟩
    rw [(records p m).mpr entry] at recorded
    cases recorded
  | some mtime =>
    rw [fresh_some recorded, decide_eq_true_eq]
    constructor
    · intro later m entry
      obtain rfl : m = mtime := Option.some.inj (((records p m).mpr entry).symm.trans recorded)
      exact later
    · exact fun later => later mtime ((records p mtime).mp recorded)

theorem place_lt_iff : place p trees < trees.length ↔ p ∈ trees.flatten.map Prod.fst := by
  rw [place, List.findIdx_lt_length]
  simp only [decide_eq_true_eq, List.map_flatten, List.mem_flatten, List.mem_map]
  constructor
  · rintro ⟨l, tree, e, entry, rfl⟩
    exact ⟨_, ⟨l, tree, rfl⟩, List.mem_map_of_mem entry⟩
  · rintro ⟨_, ⟨l, tree, rfl⟩, here⟩
    exact ⟨l, tree, List.mem_map.mp here⟩

theorem place_eq_zero_iff {l : List (Path × Int)} (first : trees.head? = some l) : place p trees = 0 ↔
    p ∈ l.map Prod.fst := by
  cases trees with
  | nil => cases first
  | cons k ks =>
    obtain rfl : k = l := Option.some.inj first
    by_cases here : p ∈ k.map Prod.fst
    · exact ⟨fun _ => here, fun _ => place_here here⟩
    · rw [place_later here]
      exact ⟨fun zero => absurd zero (Nat.succ_ne_zero _), fun yes => absurd yes here⟩

theorem place_eq_last_iff {l : List (Path × Int)} (nodup : (trees.flatten.map Prod.fst).Nodup)
    (last : trees.getLast? = some l)
    (entry : (p, t) ∈ trees.flatten) : place p trees + 1 = trees.length ↔ (p, t) ∈ l := by
  obtain ⟨ks, rfl⟩ := List.getLast?_eq_some_iff.mp last
  have split : place p (ks ++ [l]) = if p ∈ ks.flatten.map Prod.fst then place p ks else place p [l] + ks.length := by
    rw [place, List.findIdx_append]
    by_cases earlier : p ∈ ks.flatten.map Prod.fst
    · rw [if_pos earlier]
      exact if_pos (place_lt_iff.mpr earlier)
    · rw [if_neg earlier]
      exact if_neg (mt place_lt_iff.mp earlier)
  rw [List.flatten_append, List.flatten_singleton, List.mem_append] at entry
  rw [List.flatten_append, List.flatten_singleton, List.map_append] at nodup
  have apart := (List.nodup_append.mp nodup).2.2
  rw [split, List.length_append, List.length_singleton]
  by_cases earlier : p ∈ ks.flatten.map Prod.fst
  · have less := place_lt_iff.mpr earlier
    rw [if_pos earlier]
    exact ⟨fun same => by omega, fun here => absurd rfl (apart p earlier p (List.mem_map_of_mem here))⟩
  · have here : (p, t) ∈ l := entry.resolve_left fun before => earlier (List.mem_map_of_mem before)
    rw [if_neg earlier, place_here (List.mem_map_of_mem here), Nat.zero_add]
    exact ⟨fun _ => here, fun _ => rfl⟩

theorem mem_filter_paths {q : Path × Int → Bool} {l : List (Path × Int)} (nodup : (l.map Prod.fst).Nodup)
    (entry : (p, t) ∈ l) : p ∈ (l.filter q).map Prod.fst ↔ q (p, t) = true := by
  constructor
  · intro member
    obtain ⟨⟨p', u⟩, kept, same⟩ := List.mem_map.mp member
    obtain ⟨here, chosen⟩ := List.mem_filter.mp kept
    obtain rfl : p' = p := same
    rwa [time_unique nodup entry here]
  · exact fun chosen => List.mem_map_of_mem (List.mem_filter.mpr ⟨entry, chosen⟩)

/-- The counts of the reports are right if and only if the changes are regular. -/
theorem counts_iff (records : ∀ p t, D.lookup p = some t ↔ (p, t) ∈ old) (nodup_old : (old.map Prod.fst).Nodup)
    (nodup : (trees.flatten.map Prod.fst).Nodup) (watched : trees ≠ []) :
    ((∀ p, (if p ∈ D.keys then place p trees else 0) =
        if p ∈ old.map Prod.fst ∧ p ∉ trees.flatten.map Prod.fst then 1 else 0) ∧
      ∀ p, (if p ∈ (trees.flatten.filter (fresh D)).map Prod.fst then trees.length - place p trees else 0) =
        if p ∈ (trees.flatten.filter (· ∉ old)).map Prod.fst then 1 else 0) ↔
    Regular old trees := by
  have positive : 0 < trees.length := List.length_pos_iff.mpr watched
  constructor
  · rintro ⟨removed, changed⟩
    have later : ∀ p m t, (p, m) ∈ old → (p, t) ∈ trees.flatten → m ≤ t := by
      intro p m t before now
      by_contra back
      -- A time that has gone back is not noticed.
      have other : (p, t) ∉ old := fun same => back (Int.le_of_eq (time_unique nodup_old before same))
      have expected : p ∈ (trees.flatten.filter (· ∉ old)).map Prod.fst :=
        (mem_filter_paths nodup now).mpr (decide_eq_true other)
      have unnoticed : p ∉ (trees.flatten.filter (fresh D)).map Prod.fst := by
        rw [mem_filter_paths nodup now, fresh_iff records]
        exact fun less => back (Int.le_of_lt (less m before))
      have count := changed p
      rw [if_pos expected, if_neg unnoticed] at count
      cases count
    refine ⟨later, or_iff_not_imp_left.mpr fun several => ⟨fun l first p before => ?_, fun l last e now other => ?_⟩⟩
    · have count := removed p
      rw [if_pos ((mem_keys_iff records).mpr before)] at count
      by_cases gone : p ∈ trees.flatten.map Prod.fst
      · rw [if_neg fun both => both.2 gone] at count
        exact (place_eq_zero_iff first).mp count
      · rw [if_pos ⟨before, gone⟩] at count
        have missing := mt place_lt_iff.mp gone
        have most : place p trees ≤ trees.length := List.findIdx_le_length
        omega
    · obtain ⟨p, t⟩ := e
      have expected : p ∈ (trees.flatten.filter (· ∉ old)).map Prod.fst :=
        (mem_filter_paths nodup now).mpr (decide_eq_true other)
      have count := changed p
      rw [if_pos expected] at count
      split at count
      · exact (place_eq_last_iff nodup last now).mp (by omega)
      · cases count
  · rintro ⟨later, one⟩
    constructor
    · intro p
      by_cases before : p ∈ old.map Prod.fst
      · rw [if_pos ((mem_keys_iff records).mpr before)]
        rcases one with single | ⟨first, -⟩
        · have most : place p trees ≤ trees.length := List.findIdx_le_length
          by_cases still : p ∈ trees.flatten.map Prod.fst
          · have less := place_lt_iff.mpr still
            rw [if_neg fun both => both.2 still]
            omega
          · have missing := mt place_lt_iff.mp still
            rw [if_pos ⟨before, still⟩]
            omega
        · obtain ⟨l, head⟩ := Option.ne_none_iff_exists'.mp (mt List.head?_eq_none_iff.mp watched)
          have zero := (place_eq_zero_iff head).mpr (first l head p before)
          rw [zero, if_neg fun both => both.2 (place_lt_iff.mp (by omega))]
      · rw [if_neg (mt (mem_keys_iff records).mp before), if_neg fun both => before both.1]
    · intro p
      by_cases listed : p ∈ trees.flatten.map Prod.fst
      · have less := place_lt_iff.mpr listed
        obtain ⟨⟨q, t⟩, now, same⟩ := List.mem_map.mp listed
        obtain rfl : q = p := same
        have noticed : fresh D (q, t) = true ↔ (q, t) ∉ old := by
          rw [fresh_iff records]
          constructor
          · exact fun earlier before => Int.lt_irrefl t (earlier t before)
          · intro other m before
            have differs : m ≠ t := fun same => other (same ▸ before)
            exact Int.lt_iff_le_and_ne.mpr ⟨later q m t before now, differs⟩
        rw [if_congr (mem_filter_paths nodup now) rfl rfl, if_congr (mem_filter_paths nodup now) rfl rfl]
        simp only [noticed, decide_eq_true_eq]
        split
        · rename_i other
          rcases one with single | ⟨-, last⟩
          · omega
          · obtain ⟨l, tail⟩ := Option.ne_none_iff_exists'.mp (mt List.getLast?_eq_none_iff.mp watched)
            have final := (place_eq_last_iff nodup tail now).mpr (last l tail _ now other)
            omega
        · rfl
      · have absent : ∀ q : Path × Int → Bool, p ∉ (trees.flatten.filter q).map Prod.fst :=
          fun q member => listed ((List.filter_sublist.map _).subset member)
        rw [if_neg (absent _), if_neg (absent _)]

end Compare

end

theorem exact_iff_counts {D : Dict} {old : List (Path × Int)} {roots : List Root} (nodup_old : (old.map Prod.fst).Nodup)
    (nodup : ((roots.map Root.stats).flatten.map Prod.fst).Nodup) :
    Dirwatch.Exact (Dirwatch.turn ⟨∅, D, []⟩ roots).2 old (roots.map Root.stats).flatten ↔
      (∀ p, (if p ∈ D.keys then place p (roots.map Root.stats) else 0) =
        if p ∈ old.map Prod.fst ∧ p ∉ (roots.map Root.stats).flatten.map Prod.fst then 1 else 0) ∧
      ∀ p, (if p ∈ ((roots.map Root.stats).flatten.filter (fresh D)).map Prod.fst
            then (roots.map Root.stats).length - place p (roots.map Root.stats) else 0) =
        if p ∈ ((roots.map Root.stats).flatten.filter (· ∉ old)).map Prod.fst then 1 else 0 := by
  have removed : ∀ p, _ = _ := (seen_start D).turn_removed nodup
  have changed : ∀ p, _ = _ := (seen_start D).turn_changed nodup
  simp only [List.map_nil, List.not_mem_nil, not_false_eq_true, and_true, List.filter_nil, if_false] at removed changed
  have gone : ∀ p, ((old.map Prod.fst).filter (· ∉ (roots.map Root.stats).flatten.map Prod.fst)).count p =
      if p ∈ old.map Prod.fst ∧ p ∉ (roots.map Root.stats).flatten.map Prod.fst then 1 else 0 := by
    intro p
    rw [List.Nodup.count (nodup_old.filter _)]
    simp only [List.mem_filter, decide_eq_true_eq]
  have new : ∀ p, (((roots.map Root.stats).flatten.filter (· ∉ old)).map Prod.fst).count p =
      if p ∈ ((roots.map Root.stats).flatten.filter (· ∉ old)).map Prod.fst then 1 else 0 :=
    fun p => List.Nodup.count (nodup.sublist (List.filter_sublist.map _))
  rw [List.length_map]
  constructor
  · rintro ⟨one, two⟩
    exact ⟨fun p => by rw [← removed p, one.count_eq, gone], fun p => by rw [← changed p, two.count_eq, new]⟩
  · rintro ⟨one, two⟩
    constructor
    · exact List.perm_iff_count.mpr fun p => by rw [removed p, one p, gone]
    · exact List.perm_iff_count.mpr fun p => by rw [changed p, two p, new]

/-- A pass reports exactly what has changed since the one before if and only if the changes are regular. -/
theorem watch_exact_iff (w : Dirwatch) (roots : List Watched) (watched : roots ≠ [])
    (apart_before : Apart (roots.map Watched.old)) (apart_now : Apart (roots.map Watched.new)) :
    Dirwatch.Exact ((w.watch (roots.map Watched.old)).1.watch (roots.map Watched.new)).2
        ((roots.map Watched.old).map Root.stats).flatten ((roots.map Watched.new).map Root.stats).flatten ↔
      Regular ((roots.map Watched.old).map Root.stats).flatten ((roots.map Watched.new).map Root.stats) := by
  have nodup_before : (((roots.map Watched.old).map Root.stats).flatten.map Prod.fst).Nodup :=
    nodup_pass (by simp [Watched.old, Watched.fine_before]) apart_before
  have nodup_now : (((roots.map Watched.new).map Root.stats).flatten.map Prod.fst).Nodup :=
    nodup_pass (by simp [Watched.new, Watched.fine_now]) apart_now
  have records := ((seen_start w.allFiles).turn nodup_before).all
  rw [Dirwatch.watch, exact_iff_counts nodup_before nodup_now]
  exact counts_iff records nodup_before nodup_now (by simpa using watched)

/-- A path with one file in it, which has the time `m` at one pass and `t` at the next. -/
def Watched.touch (path : Path) (m t : Int) : Watched where
  path := path
  before := .file [97] (some m) .none
  now := .file [97] (some t) .none
  fine_before := by simp [Files.Fine, Files.listed, slash]
  fine_now := by simp [Files.Fine, Files.listed, slash]

theorem watch_exact_touch :
    Dirwatch.Exact ((Dirwatch.init.watch [(Watched.touch [46] 1 2).old]).1.watch [(Watched.touch [46] 1 2).new]).2
      [([46, 47, 97], 1)] [([46, 47, 97], 2)] := by
  refine (watch_exact_iff Dirwatch.init [Watched.touch [46] 1 2] (by simp) (by simp [Apart]) (by simp [Apart])).mpr ?_
  have before : ([Watched.touch [46] 1 2].map Watched.old).map Root.stats = [[([46, 47, 97], 1)]] := rfl
  have now : ([Watched.touch [46] 1 2].map Watched.new).map Root.stats = [[([46, 47, 97], 2)]] := rfl
  rw [before, now]
  refine ⟨fun p m t => ?_, Or.inl rfl⟩
  simp only [List.flatten_cons, List.flatten_nil, List.append_nil, List.mem_singleton, Prod.mk.injEq]
  rintro ⟨-, rfl⟩ ⟨-, rfl⟩
  decide

/-- A file that is replaced by an older one is not reported; and of two paths below which nothing changes, the file of
the second is reported as removed. -/
theorem watch_not_exact :
    ¬ Dirwatch.Exact ((Dirwatch.init.watch [(Watched.touch [46] 2 1).old]).1.watch [(Watched.touch [46] 2 1).new]).2
      [([46, 47, 97], 2)] [([46, 47, 97], 1)] ∧
    ¬ Dirwatch.Exact ((Dirwatch.init.watch [(Watched.touch [46] 1 1).old, (Watched.touch [64] 1 1).old]).1.watch
        [(Watched.touch [46] 1 1).new, (Watched.touch [64] 1 1).new]).2
      [([46, 47, 97], 1), ([64, 47, 97], 1)] [([46, 47, 97], 1), ([64, 47, 97], 1)] := by
  constructor
  · intro exactly
    have changed := exactly.changed.length_eq
    revert changed
    decide
  · intro exactly
    have removed := exactly.removed.length_eq
    revert removed
    decide

end Espl.Labs
