import Espl.Malloc.Allocate

/-!
# Runs of a program with a heap

Every sequence of `malloc` and `free` calls, with the program writing into its blocks in between, keeps
the free list and the live blocks apart and complete.
-/

namespace Espl.Malloc

structure Live where
  ap : Nat
  nbytes : Nat
  deriving DecidableEq

def Live.block (h : Heap) (l : Live) : Block := ⟨l.ap - 8, h.size (l.ap - 8)⟩

structure Writes (live : List Live) (h h' : Heap) : Prop where
  freep : h'.freep = h.freep
  regions : h'.regions = h.regions
  other : ∀ a, (∀ l ∈ live, a ≤ (l.block h).addr ∨ (l.block h).limit ≤ a) → h'.ptr a = h.ptr a ∧ h'.size a = h.size a

inductive Reachable (base : Nat) : Heap → List Live → Prop where
  | start (h : Heap) : h.freep = 0 → h.regions = [] → Reachable base h []
  | malloc {h h' : Heap} {live : List Live} {nbytes ap calls fuel : Nat} {sbrk : Sbrk} : Reachable base h live →
      Small nbytes → Fresh base sbrk → malloc base sbrk fuel h nbytes = some (h', ap, calls) →
      Reachable base h' (if ap = 0 then live else ⟨ap, nbytes⟩ :: live)
  | free {h h' : Heap} {live : List Live} {l : Live} {fuel : Nat} : Reachable base h live → l ∈ live →
      free fuel h l.ap = some h' → Reachable base h' (live.erase l)
  | write {h h' : Heap} {live : List Live} : Reachable base h live → Writes live h h' → Reachable base h' live

/-- Before the first call of `malloc` there is nothing; then the memory is in the free list and the live blocks, which
are as long as was asked for. -/
def Sound (base : Nat) (h : Heap) (live : List Live) : Prop :=
  (h.freep = 0 ∧ h.regions = [] ∧ live = []) ∨
  ∃ blocks, Parts h base (live.map (Live.block h)) blocks ∧ ∀ l ∈ live, l.nbytes + 8 ≤ 8 * (l.block h).size

variable {base : Nat} {h h' : Heap} {live : List Live}

theorem map_block_eq (sizes : ∀ b ∈ live.map (Live.block h), h'.size b.addr = b.size) :
    live.map (Live.block h') = live.map (Live.block h) := by
  refine List.map_congr_left fun l member => ?_
  have := sizes _ (List.mem_map_of_mem member)
  unfold Live.block at *
  rw [this]

theorem Sound.of_parts {blocks : List Block} (parts : Parts h' base (live.map (Live.block h)) blocks)
    (long : ∀ l ∈ live, l.nbytes + 8 ≤ 8 * (l.block h).size) : Sound base h' live := by
  have same := map_block_eq parts.size
  refine Or.inr ⟨blocks, by rwa [same], fun l member => ?_⟩
  rw [List.map_inj_left.mp same l member]
  exact long l member

theorem Parts.perm {live' blocks : List Block} {live : List Block} (parts : Parts h base live blocks)
    (perm : live.Perm live') : Parts h base live' blocks := by
  have whole := perm.append_right blocks
  refine ⟨parts.list, fun b member => parts.size b (perm.symm.subset member),
    fun b member => parts.positive b (perm.symm.subset member),
      (whole.pairwise_iff Block.Apart.symm).mp parts.apart, ?_,
    parts.bounds⟩
  intro x
  rw [parts.covers, covered_perm whole]

/-! ### More fuel -/

theorem free_mono {fuel fuel' ap : Nat} (freed : free fuel h ap = some h') (more : fuel ≤ fuel') :
    free fuel' h ap = some h' := by
  obtain ⟨p, found, is⟩ := Option.map_eq_some_iff.mp freed
  exact Option.map_eq_some_iff.mpr ⟨p, Circular.seek_mono found more, is⟩

theorem morecore_mono {sbrk : Sbrk} {fuel fuel' nu p : Nat} (result : morecore sbrk fuel h nu = some (h', p))
    (more : fuel ≤ fuel') : morecore sbrk fuel' h nu = some (h', p) := by
  unfold morecore at *
  dsimp only at *
  split at result
  · exact result
  · obtain ⟨h₁, freed, is⟩ := Option.map_eq_some_iff.mp result
    exact Option.map_eq_some_iff.mpr ⟨h₁, free_mono freed more, is⟩

theorem loop_mono {sbrk : Sbrk} {nunits fuel fuel' prevp p calls : Nat} {r : Heap × Nat × Nat}
    (result : malloc.loop sbrk nunits fuel h prevp p calls = some r) (more : fuel ≤ fuel') :
    malloc.loop sbrk nunits fuel' h prevp p calls = some r := by
  induction fuel generalizing h prevp p calls fuel' with
  | zero => cases result
  | succ fuel ih =>
    obtain ⟨fuel', rfl⟩ := Nat.exists_eq_add_one.mpr (Nat.lt_of_lt_of_le (Nat.succ_pos fuel) more)
    have more := Nat.le_of_succ_le_succ more
    rw [malloc.loop] at result ⊢
    split
    · rename_i fits
      rwa [if_pos fits] at result
    · rename_i fits
      rw [if_neg fits] at result
      split
      · rename_i back
        rw [if_pos back] at result
        cases first : morecore sbrk fuel h nunits with
        | none =>
          rw [first] at result
          cases result
        | some r =>
          obtain ⟨h₁, p₁⟩ := r
          rw [first] at result
          rw [morecore_mono first more]
          dsimp only at result ⊢
          split
          · rename_i failed
            rwa [if_pos failed] at result
          · rename_i valid
            rw [if_neg valid] at result
            exact ih result more
      · rename_i back
        rw [if_neg back] at result
        exact ih result more

/-! ### Calls -/

theorem malloc_spec {sbrk : Sbrk} {nbytes : Nat} (sound : Sound base h live) (static : 0 < base) (small : Small nbytes)
    (fresh : Fresh base sbrk) :
    ∃ n, ∀ fuel ≥ n, ∃ h' ap calls, malloc base sbrk fuel h nbytes = some (h', ap, calls) ∧ calls ≤ 1 ∧
      Sound base h' (if ap = 0 then live else ⟨ap, nbytes⟩ :: live) := by
  obtain ⟨positive, fits, long⟩ := units_spec small
  obtain ⟨h₁, blocks, is, parts, old⟩ : ∃ h₁ blocks, malloc.start base h = h₁ ∧
      Parts h₁ base (live.map (Live.block h₁)) blocks ∧ ∀ l ∈ live, l.nbytes + 8 ≤ 8 * (l.block h₁).size := by
    rcases sound with ⟨unset, none, rfl⟩ | ⟨blocks, parts, long⟩
    · exact ⟨_, [], if_pos unset, parts_start h none, by simp⟩
    · have := parts.list.base_le_freep
      exact ⟨h, blocks, if_neg (by omega), parts, long⟩
  refine ⟨2 * blocks.length + 3, fun fuel enough => ?_⟩
  obtain ⟨h', ap, calls, blocks', result, once, ⟨rfl, parts', -, -⟩ | ⟨⟨a, rfl, parts'⟩, -⟩⟩ :=
    loop_spec parts static fresh positive fits enough
  · refine ⟨h', 0, calls, ?_, once, Sound.of_parts parts' old⟩
    rw [malloc, is]
    exact result
  · refine ⟨h', a + 8, calls, ?_, once, ?_⟩
    · rw [malloc, is]
      exact result
    · rw [if_neg (by omega)]
      have same := map_block_eq fun b member => parts'.size b (List.mem_cons_of_mem _ member)
      have size : h'.size a = units nbytes := parts'.size _ List.mem_cons_self
      have new : Live.block h' ⟨a + 8, nbytes⟩ = ⟨a, units nbytes⟩ := by
        unfold Live.block
        rw [Nat.add_sub_cancel, size]
      refine Or.inr ⟨blocks', ?_, ?_⟩
      · rw [List.map_cons, new, same]
        exact parts'
      · intro l member
        rcases List.mem_cons.mp member with rfl | member
        · rw [new]
          exact long
        · rw [List.map_inj_left.mp same l member]
          exact old l member

theorem free_sound {l : Live} (sound : Sound base h live) (member : l ∈ live) :
    ∃ n, ∀ fuel ≥ n, ∃ h', free fuel h l.ap = some h' ∧ Sound base h' (live.erase l) := by
  rcases sound with ⟨-, -, rfl⟩ | ⟨blocks, parts, long⟩
  · cases member
  · have perm := (List.perm_cons_erase member).map (Live.block h)
    have parts := parts.perm perm
    refine ⟨blocks.length + 1, fun fuel enough => ?_⟩
    obtain ⟨h', blocks', freed, parts', -⟩ := free_spec parts enough
    have low := (parts.block_bounds (List.mem_cons_self ..)).2.1
    refine ⟨h', ?_, Sound.of_parts parts' fun l' member' => long l' (List.mem_of_mem_erase member')⟩
    have ap : (l.block h).addr + 8 = l.ap := by
      unfold Live.block at *
      dsimp only at *
      omega
    rwa [ap] at freed

theorem write_sound (sound : Sound base h live) (writes : Writes live h h') : Sound base h' live := by
  rcases sound with ⟨unset, none, rfl⟩ | ⟨blocks, parts, long⟩
  · exact Or.inl ⟨writes.freep.trans unset, writes.regions.trans none, rfl⟩
  -- no header that matters is inside a live block
  · have kept : ∀ b ∈ live.map (Live.block h) ++ blocks, h'.ptr b.addr = h.ptr b.addr ∧
      h'.size b.addr = h.size b.addr := by
      intro b member
      refine writes.other _ fun l inside => ?_
      have member' : l.block h ∈ live.map (Live.block h) ++ blocks :=
        List.mem_append_left _ (List.mem_map_of_mem inside)
      by_cases same : b = l.block h
      · exact Or.inl (Nat.le_of_eq (congrArg Block.addr same))
      · have := parts.apart.forall member member' same
        have := (parts.block_bounds member).1
        unfold Block.Apart Block.limit at *
        omega
    have keptBase : h'.ptr base = h.ptr base ∧ h'.size base = h.size base := by
      refine writes.other _ fun l inside => Or.inl ?_
      have := (parts.block_bounds (List.mem_append_left _ (List.mem_map_of_mem inside))).2.1
      omega
    have keptNodes : ∀ b ∈ root base :: blocks, h'.ptr b.addr = h.ptr b.addr ∧ h'.size b.addr = h.size b.addr := by
      intro b member
      rcases List.mem_cons.mp member with rfl | member
      · exact keptBase
      · exact kept b (List.mem_append_right _ member)
    have parts' : Parts h' base (live.map (Live.block h)) blocks := by
      refine ⟨⟨⟨?_, ?_, parts.list.nodes.sorted⟩, parts.list.positive, ?_⟩, ?_, parts.positive, parts.apart, ?_, ?_⟩
      · refine parts.list.nodes.linked.congr ?_
        rw [List.dropLast_concat]
        intro a member
        obtain ⟨b, inside, rfl⟩ := List.mem_map.mp member
        exact (keptNodes b inside).1
      · exact fun b member => (keptNodes b member).2.trans (parts.list.nodes.size b member)
      · rw [writes.freep]
        exact parts.list.freep
      · exact fun b member => (kept b (List.mem_append_left _ member)).2.trans (parts.size b member)
      · rw [writes.regions]
        exact parts.covers
      · rw [writes.regions]
        exact parts.bounds
    exact Sound.of_parts parts' long

theorem reachable_sound (static : 0 < base) (reachable : Reachable base h live) : Sound base h live := by
  induction reachable with
  | start h unset none => exact Or.inl ⟨unset, none, rfl⟩
  | malloc _ small fresh result sound =>
    obtain ⟨n, spec⟩ := malloc_spec sound static small fresh
    obtain ⟨h₁, ap₁, calls₁, result₁, -, sound₁⟩ := spec _ (Nat.le_max_right _ n)
    rw [malloc, loop_mono result (Nat.le_max_left _ n)] at result₁
    cases result₁
    exact sound₁
  | free _ member freed sound =>
    obtain ⟨n, spec⟩ := free_sound sound member
    obtain ⟨h₁, freed₁, sound₁⟩ := spec _ (Nat.le_max_right _ n)
    rw [free_mono freed (Nat.le_max_left _ n)] at freed₁
    cases freed₁
    exact sound₁
  | write _ writes sound => exact write_sound sound writes

/-- In every heap that a program reaches, the free list is one ring in the order of the addresses, no two blocks of
which touch, the live blocks are long enough, no two blocks overlap, and all blocks together are the units from `sbrk`;
each call returns, and `malloc` calls `morecore` at most once. -/
theorem heap_sound (static : 0 < base) (reachable : Reachable base h live) :
    Sound base h live ∧
    (∀ l ∈ live, ∃ n, ∀ fuel ≥ n, ∃ h', free fuel h l.ap = some h') ∧
    ∀ nbytes sbrk, Small nbytes → Fresh base sbrk → ∃ n, ∀ fuel ≥ n, ∃ h' ap calls,
      malloc base sbrk fuel h nbytes = some (h', ap, calls) ∧ calls ≤ 1 := by
  have sound := reachable_sound static reachable
  refine ⟨sound, ?_, ?_⟩
  · intro l member
    obtain ⟨n, spec⟩ := free_sound sound member
    refine ⟨n, fun fuel enough => ?_⟩
    obtain ⟨h', freed, -⟩ := spec fuel enough
    exact ⟨h', freed⟩
  · intro nbytes sbrk small fresh
    obtain ⟨n, spec⟩ := malloc_spec sound static small fresh
    refine ⟨n, fun fuel enough => ?_⟩
    obtain ⟨h', ap, calls, result, once, -⟩ := spec fuel enough
    exact ⟨h', ap, calls, result, once⟩

def oneRegion : Sbrk := fun regions bytes => if regions = [] ∧ bytes = 32768 then some 4096 else none

theorem fresh_oneRegion : Fresh 256 oneRegion := by
  intro regions bytes a given
  unfold oneRegion at given
  split at given
  · rename_i first
    obtain ⟨rfl, rfl⟩ := first
    cases given
    decide
  · cases given

/-- Two blocks are allocated, and the first one is freed. -/
theorem heap_sound_two : ∃ h, Reachable 256 h [⟨36728, 20⟩] ∧ Sound 256 h [⟨36728, 20⟩] ∧
    h.regions = [⟨4096, 4096⟩] := by
  have small : Small 100 ∧ Small 20 := by
    unfold Small
    decide
  have first : Reachable 256 _ [⟨36760, 100⟩] :=
    .malloc (.start ⟨fun _ => 0, fun _ => 0, 0, []⟩ rfl rfl) small.1 fresh_oneRegion
      (rfl : malloc 256 oneRegion 9 _ 100 = some _)
  have second : Reachable 256 _ [⟨36728, 20⟩, ⟨36760, 100⟩] :=
    .malloc first small.2 fresh_oneRegion (rfl : malloc 256 oneRegion 9 _ 20 = some _)
  have third : Reachable 256 _ [⟨36728, 20⟩] :=
    .free second (show ⟨36760, 100⟩ ∈ _ by decide) (rfl : free 9 _ 36760 = some _)
  exact ⟨_, third, (heap_sound (by decide) third).1, rfl⟩

end Espl.Malloc
