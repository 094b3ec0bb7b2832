import Mathlib.Data.List.Nodup
import Espl.Malloc.Heap

/-!
# Allocation

What `malloc` takes from the free list, and that it needs `morecore` at most once.
-/

namespace Espl.Malloc

open Circular
open Function (update update_self update_of_ne)

variable {h : Heap} {base nunits : Nat} {live blocks : List Block}

theorem covered_perm {l l' : List Block} (perm : l.Perm l') (x : Nat) : Covered l x ↔ Covered l' x := by
  unfold Covered
  simp only [perm.mem_iff]

/-! ### Taking a block -/

section Take

variable {M R : List Block} {y x : Block}

theorem split_root (split : root base :: blocks = M ++ y :: R) (N : List Block) :
    ∃ blocks', root base :: blocks' = M ++ y :: N := by
  cases M with
  | nil =>
    obtain ⟨is, -⟩ := List.cons.inj split
    exact ⟨N, by rw [is]; rfl⟩
  | cons m M =>
    obtain ⟨is, -⟩ := List.cons.inj split
    exact ⟨M ++ y :: N, by rw [is]; rfl⟩

theorem perm_of_split {rest : List Block} (split : root base :: blocks = M ++ y :: x :: R)
    (without : root base :: rest = M ++ y :: R) : blocks.Perm (x :: rest) := by
  have perm : (root base :: blocks).Perm (root base :: x :: rest) := by
    rw [split, List.append_cons M y (x :: R)]
    refine List.perm_middle.trans ?_
    rw [List.append_assoc, List.singleton_append, ← without]
    exact List.Perm.swap ..
  exact perm.cons_inv

theorem Nodes.front (nodes : Nodes h base (M ++ y :: R)) : Linked h.ptr (M.map Block.addr ++ [y.addr]) := by
  have linked := nodes.linked
  rw [List.map_append, List.append_assoc] at linked
  exact (linked_split.mp linked).1

theorem Nodes.ne_of_append (nodes : Nodes h base (M ++ y :: R)) :
    (∀ q ∈ M, q.addr ≠ y.addr) ∧ ∀ r ∈ R, r.addr ≠ y.addr := by
  have := y.addr_le_limit
  constructor
  · intro q member
    have := nodes.lt_of_append.1 q member
    have := q.addr_le_limit
    omega
  · intro r member
    have := nodes.lt_of_append.2 r member
    omega

theorem take_exact (parts : Parts h base live blocks) (split : root base :: blocks = M ++ y :: x :: R) :
    ∃ h' blocks', malloc.take h y.addr x.addr x.size = (h', x.addr + 8) ∧ h'.regions = h.regions ∧
      blocks'.length ≤ blocks.length ∧ Parts h' base (x :: live) blocks' := by
  have nodes : Nodes h base (M ++ y :: x :: R) := split ▸ parts.list.nodes
  have nodesx : Nodes h base ((M ++ [y]) ++ x :: R) := List.append_cons M y (x :: R) ▸ nodes
  obtain ⟨rest, without⟩ := split_root split R
  have perm := perm_of_split split without
  have memberx : x ∈ blocks := perm.symm.subset List.mem_cons_self
  obtain ⟨positivex, -, fits⟩ := parts.block_bounds (List.mem_append_right live memberx)
  have whole : (x :: live ++ rest).Perm (live ++ blocks) :=
    List.perm_middle.symm.trans (perm.symm.append_left live)
  refine ⟨(h.setPtr y.addr (first base R)).setFreep y.addr, rest, ?_, rfl, ?_, ?_⟩
  · rw [malloc.take, if_pos (nodesx.size x (by simp)), nodesx.next, plus, Nat.mod_eq_of_lt]
    unfold Block.limit at fits
    omega
  · rw [perm.length_eq]
    exact Nat.le_succ _
  · refine Parts.of_covered rest ⟨?_, ?_, ?_⟩ ?_ ?_ (Heap.setFreep_regions ..) ?_ (fun _ => Iff.rfl) ?_ parts.bounds
    · rw [without]
      refine ⟨linked_after nodes.front (Nodes.tail nodesx).linked.tail rfl nodes.ne_of_append.1 ?_, ?_, ?_⟩
      · exact fun r member => nodes.ne_of_append.2 r (List.mem_cons_of_mem _ member)
      · intro b member
        refine nodes.size b ?_
        grind
      · exact nodes.sorted.sublist (List.Sublist.append_left (List.Sublist.cons_cons _ (List.sublist_cons_self ..)) _)
    · exact fun b member => parts.list.positive b (perm.symm.subset (List.mem_cons_of_mem _ member))
    · rw [without]
      exact List.mem_map.mpr ⟨y, by simp, rfl⟩
    · intro b member
      rcases List.mem_cons.mp member with rfl | member
      · exact nodesx.size b (by simp)
      · exact parts.size b member
    · exact List.forall_mem_cons.mpr ⟨positivex, parts.positive⟩
    · exact (whole.pairwise_iff Block.Apart.symm).mpr parts.apart
    · intro z
      rw [Heap.setPtr_regions, parts.covers, covered_perm whole]

theorem take_end (parts : Parts h base live blocks) (split : root base :: blocks = M ++ y :: x :: R)
    (larger : nunits < x.size) (positive : 0 < nunits) :
    ∃ h' a blocks', malloc.take h y.addr x.addr nunits = (h', a + 8) ∧ h'.regions = h.regions ∧
      blocks'.length ≤ blocks.length ∧ Parts h' base (⟨a, nunits⟩ :: live) blocks' := by
  have nodes : Nodes h base (M ++ y :: x :: R) := split ▸ parts.list.nodes
  have nodesx : Nodes h base ((M ++ [y]) ++ x :: R) := List.append_cons M y (x :: R) ▸ nodes
  obtain ⟨rest, without⟩ := split_root split R
  have perm := perm_of_split split without
  have memberx : x ∈ blocks := perm.symm.subset List.mem_cons_self
  obtain ⟨positivex, low, fits⟩ := parts.block_bounds (List.mem_append_right live memberx)
  have whole : (live ++ blocks).Perm (x :: (live ++ rest)) := (perm.append_left live).trans List.perm_middle
  obtain ⟨apartx, apartRest⟩ := List.pairwise_cons.mp ((whole.pairwise_iff Block.Apart.symm).mp parts.apart)
  -- the block is cut in two
  obtain ⟨left, sum⟩ : ∃ left, left + nunits = x.size := ⟨x.size - nunits, by omega⟩
  obtain ⟨blocks', split'⟩ := split_root split (⟨x.addr, left⟩ :: R)
  have perm' : blocks'.Perm (⟨x.addr, left⟩ :: rest) := perm_of_split split' without
  have limit : x.limit = x.addr + 8 * left + 8 * nunits := by
    unfold Block.limit
    omega
  have inside : ∀ b ∈ live ++ rest, b.addr < x.addr ∨ x.limit ≤ b.addr := by
    intro b member
    have := apartx b member
    have := (parts.block_bounds (whole.symm.subset (List.mem_cons_of_mem _ member))).1
    unfold Block.Apart Block.limit at *
    omega
  have other : ∀ b ∈ live ++ rest, update (update h.size x.addr left) (x.addr + 8 * left) nunits b.addr =
      h.size b.addr := by
    intro b member
    have := inside b member
    rw [update_of_ne (by omega), update_of_ne (by omega)]
  have own : update (update h.size x.addr left) (x.addr + 8 * left) nunits x.addr = left := by
    rw [update_of_ne (by omega), update_self]
  have whole' : (⟨x.addr + 8 * left, nunits⟩ :: live ++ blocks').Perm
      (⟨x.addr + 8 * left, nunits⟩ :: ⟨x.addr, left⟩ :: (live ++ rest)) :=
    ((perm'.append_left live).trans List.perm_middle).cons _
  refine ⟨((h.setSize x.addr left).setSize (x.addr + 8 * left) nunits).setFreep y.addr, x.addr + 8 * left, blocks',
    ?_, rfl, ?_, ?_⟩
  · have sizex : h.size x.addr = x.size := nodesx.size x (by simp)
    have cut : x.size - nunits = left := by omega
    rw [malloc.take, if_neg (by omega), sizex, cut]
    simp only [plus]
    rw [Nat.mod_eq_of_lt (by omega), Nat.mod_eq_of_lt (by omega)]
  · rw [perm.length_eq, perm'.length_eq]
    exact Nat.le.refl
  · refine Parts.of_covered blocks' ⟨?_, ?_, ?_⟩ ?_ ?_ (Heap.setFreep_regions ..) ?_ (fun _ => Iff.rfl) ?_ parts.bounds
    · rw [split']
      refine ⟨?_, ?_, ?_⟩
      · have linked := nodes.linked
        simp only [List.map_append, List.map_cons] at linked ⊢
        exact linked
      · intro b member
        have place : b = ⟨x.addr, left⟩ ∨ b ∈ root base :: rest := by
          rw [without]
          grind
        rcases place with rfl | place
        · exact own
        · have old : b ∈ root base :: blocks := by
            rw [split]
            rw [without] at place
            grind
          refine Eq.trans ?_ (parts.list.nodes.size b old)
          rcases List.mem_cons.mp place with rfl | place
          · change update (update h.size x.addr left) (x.addr + 8 * left) nunits base = h.size base
            rw [update_of_ne (by omega), update_of_ne (by omega)]
          · exact other b (List.mem_append_right _ place)
      · obtain ⟨front, step, behind⟩ := List.isChain_append_cons_cons.mp nodes.sorted
        refine List.isChain_append_cons_cons.mpr ⟨front, step, behind.imp_head ?_⟩
        intro z above
        unfold Block.Below Block.limit at *
        dsimp only
        omega
    · intro b member
      rcases List.mem_cons.mp (perm'.subset member) with rfl | member
      · change 0 < left
        omega
      · exact parts.list.positive b (perm.symm.subset (List.mem_cons_of_mem _ member))
    · rw [split']
      exact List.mem_map.mpr ⟨y, by simp, rfl⟩
    · exact List.forall_mem_cons.mpr ⟨update_self .., fun b member =>
        (other b (List.mem_append_left _ member)).trans (parts.size b member)⟩
    · exact List.forall_mem_cons.mpr ⟨positive, parts.positive⟩
    · refine (whole'.pairwise_iff Block.Apart.symm).mpr
        (List.pairwise_cons.mpr ⟨?_, List.pairwise_cons.mpr ⟨?_, apartRest⟩⟩)
      · intro b member
        rcases List.mem_cons.mp member with rfl | member
        · exact Or.inr Nat.le.refl
        · have := apartx b member
          unfold Block.Apart Block.limit at *
          dsimp only
          omega
      · intro b member
        have := apartx b member
        unfold Block.Apart Block.limit at *
        dsimp only
        omega
    · intro z
      have cut : Block.Has ⟨x.addr + 8 * left, nunits⟩ z ∨ Block.Has ⟨x.addr, left⟩ z ↔ x.Has z := by
        unfold Block.Has Block.limit at *
        dsimp only
        omega
      rw [Heap.setSize_regions, Heap.setSize_regions, parts.covers, covered_perm whole,
        covered_perm whole', covered_cons, covered_cons, covered_cons, ← or_assoc, cut]

theorem take_spec (parts : Parts h base live blocks) (split : root base :: blocks = M ++ y :: x :: R)
    (fits : nunits ≤ x.size) (positive : 0 < nunits) :
    ∃ h' a blocks', malloc.take h y.addr x.addr nunits = (h', a + 8) ∧ h'.regions = h.regions ∧
      blocks'.length ≤ blocks.length ∧ Parts h' base (⟨a, nunits⟩ :: live) blocks' := by
  rcases Nat.lt_or_eq_of_le fits with larger | rfl
  · exact take_end parts split larger positive
  · obtain ⟨h', blocks', taken, regions, length, parts'⟩ := take_exact parts split
    exact ⟨h', x.addr, blocks', taken, regions, length, parts'⟩

end Take

/-! ### The search of `malloc` -/

theorem loop_skip {sbrk : Sbrk} {L : List Block} {q : Block} {x : Nat}
    (linked : Linked h.ptr (q.addr :: (L.map Block.addr ++ [x])))
    (small : ∀ b ∈ L, h.size b.addr < nunits ∧ b.addr ≠ h.freep) (fuel calls : Nat) :
    malloc.loop sbrk nunits (fuel + L.length) h q.addr (h.ptr q.addr) calls =
      malloc.loop sbrk nunits fuel h ((q :: L).getLast (List.cons_ne_nil q L)).addr x calls := by
  induction L generalizing q with
  | nil =>
    rw [(linked_cons_cons.mp linked).1]
    rfl
  | cons b L ih =>
    obtain ⟨step, rest⟩ := linked_cons_cons.mp linked
    obtain ⟨little, other⟩ := small b List.mem_cons_self
    rw [List.length_cons, ← Nat.add_assoc, malloc.loop, step, if_neg (Nat.not_le.mpr little), if_neg other,
      ih rest fun c member => small c (List.mem_cons_of_mem _ member)]
    rfl

theorem Nodes.nodup {nodes : List Block} (list : Nodes h base nodes) : (nodes.map Block.addr).Nodup := by
  refine List.pairwise_map.mpr (list.sorted.pairwise.imp ?_)
  intro a b below
  have := a.addr_le_limit
  unfold Block.Below at below
  omega

theorem FreeList.follows {y x : Block} (list : FreeList h base blocks) (member : y ∈ root base :: blocks)
    (memberx : x ∈ root base :: blocks) (next : h.ptr y.addr = x.addr) (nonempty : 0 < x.size) :
    ∃ M R, root base :: blocks = M ++ y :: x :: R := by
  obtain ⟨M, N, split⟩ := List.append_of_mem member
  have nodes : Nodes h base (M ++ y :: N) := split ▸ list.nodes
  have unique : ∀ b ∈ root base :: blocks, b.addr = x.addr → b = x := fun b inside same =>
    List.inj_on_of_nodup_map list.nodes.nodup inside memberx same
  cases N with
  | nil =>
    have := unique (root base) List.mem_cons_self (by rw [← next, nodes.next]; rfl)
    rw [← this] at nonempty
    exact absurd nonempty (Nat.lt_irrefl 0)
  | cons r R =>
    have is : r = x := unique r (by simp [split]) (by rw [← next, nodes.next]; rfl)
    exact ⟨M, R, by rw [split, is]⟩

/-- Where the search of `malloc` goes from `freep`: to a block that is large enough, or back. -/
theorem FreeList.walk (list : FreeList h base blocks) (positive : 0 < nunits) :
    ∃ (f x : Block) (L : List Block), f.addr = h.freep ∧ L.length ≤ blocks.length ∧
      Linked h.ptr (f.addr :: (L.map Block.addr ++ [x.addr])) ∧ (∀ b ∈ L, h.size b.addr < nunits ∧ b.addr ≠ h.freep) ∧
      ((nunits ≤ x.size ∧ ∃ M R, root base :: blocks = M ++ (f :: L).getLast (List.cons_ne_nil f L) :: x :: R) ∨
        x.addr = h.freep ∧ ∀ b ∈ root base :: blocks, b.size < nunits) := by
  obtain ⟨f, member, here⟩ := List.mem_map.mp list.freep
  obtain ⟨A, C, split⟩ := List.append_of_mem member
  have around : Linked h.ptr (f.addr :: ((C ++ A).map Block.addr ++ [f.addr])) := by
    have ring : Ring h.ptr base (blocks.map Block.addr) := list.nodes.linked
    have split : base :: blocks.map Block.addr = A.map Block.addr ++ f.addr :: C.map Block.addr := by
      have := congrArg (List.map Block.addr) split
      simpa only [List.map_cons, List.map_append, root_addr] using this
    have rotated := ring.rotate split
    rwa [← List.map_append] at rotated
  have members : ∀ b, b ∈ C ++ A ++ [f] ↔ b ∈ root base :: blocks := by
    intro b
    rw [split]
    simp only [List.mem_append, List.mem_cons, List.not_mem_nil, or_false]
    grind
  have length : (C ++ A).length = blocks.length := by
    have := congrArg List.length split
    simp only [List.length_cons, List.length_append] at this ⊢
    omega
  have other : ∀ b ∈ C ++ A, b.addr ≠ h.freep := by
    intro b inside
    have nodes : Nodes h base (A ++ f :: C) := split ▸ list.nodes
    rw [← here]
    rcases List.mem_append.mp inside with inside | inside
    · exact nodes.ne_of_append.2 b inside
    · exact nodes.ne_of_append.1 b inside
  have sizes : ∀ b ∈ C ++ A ++ [f], h.size b.addr = b.size := fun b inside =>
    list.nodes.size b ((members b).mp inside)
  by_cases found : ∃ b ∈ C ++ A ++ [f], nunits ≤ b.size
  · -- the first block that is large enough
    obtain ⟨b, inside, large⟩ := found
    have some : ((C ++ A ++ [f]).find? fun b => nunits ≤ b.size).isSome :=
      List.find?_isSome.mpr ⟨b, inside, by simpa using large⟩
    obtain ⟨x, first⟩ := Option.isSome_iff_exists.mp some
    obtain ⟨fits, L, L', cut, small⟩ := List.find?_eq_some_iff_append.mp first
    have fits : nunits ≤ x.size := of_decide_eq_true fits
    have before : L <+: C ++ A := by
      refine List.prefix_of_prefix_length_le ⟨x :: L', cut.symm⟩ ⟨[f], rfl⟩ ?_
      have := congrArg List.length cut
      simp only [List.length_append, List.length_cons, List.length_nil] at this ⊢
      omega
    have linked : Linked h.ptr (f.addr :: (L.map Block.addr ++ [x.addr])) := by
      have whole : Linked h.ptr (f.addr :: (C ++ A ++ [f]).map Block.addr) := by
        rw [List.map_append]
        exact around
      rw [cut, List.map_append, List.map_cons, ← List.cons_append] at whole
      exact (linked_split.mp whole).1
    have inside : ∀ b ∈ f :: L, b ∈ root base :: blocks := by
      intro b member
      rcases List.mem_cons.mp member with rfl | member
      · exact (members b).mp (by simp)
      · exact (members b).mp (List.mem_append_left _ (before.subset member))
    have memberx : x ∈ root base :: blocks := (members x).mp (by rw [cut]; simp)
    refine ⟨f, x, L, here, length ▸ before.length_le, linked, ?_, Or.inl ⟨fits, ?_⟩⟩
    · intro b member
      refine ⟨?_, other b (before.subset member)⟩
      rw [sizes b (List.mem_append_left _ (before.subset member))]
      simpa using small b member
    · refine list.follows (inside _ (List.getLast_mem _)) memberx ?_ (Nat.lt_of_lt_of_le positive fits)
      have step : Linked h.ptr ((f :: L).map Block.addr ++ [x.addr]) := linked
      rw [← List.dropLast_append_getLast (List.cons_ne_nil f L), List.map_append, List.append_assoc] at step
      exact step.step
  · refine ⟨f, f, C ++ A, here, Nat.le_of_eq length, around, ?_, Or.inr ⟨here, ?_⟩⟩
    · intro b inside
      refine ⟨?_, other b inside⟩
      rw [sizes b (List.mem_append_left _ inside)]
      by_contra large
      exact found ⟨b, List.mem_append_left _ inside, Nat.not_lt.mp large⟩
    · intro b inside
      by_contra large
      exact found ⟨b, (members b).mpr inside, Nat.not_lt.mp large⟩

theorem FreeList.loop (sbrk : Sbrk) (list : FreeList h base blocks) (positive : 0 < nunits) :
    ∃ k ≤ blocks.length, ∃ y x : Block,
      (∀ fuel calls, malloc.loop sbrk nunits (fuel + k) h h.freep (h.ptr h.freep) calls =
        malloc.loop sbrk nunits fuel h y.addr x.addr calls) ∧
      ((nunits ≤ x.size ∧ ∃ M R, root base :: blocks = M ++ y :: x :: R) ∨
        x.addr = h.freep ∧ ∀ b ∈ root base :: blocks, b.size < nunits) := by
  obtain ⟨f, x, L, here, short, linked, small, ends⟩ := list.walk positive
  refine ⟨L.length, short, _, x, fun fuel calls => ?_, ends⟩
  rw [← here]
  exact loop_skip linked small fuel calls

/-! ### `morecore` -/

/-- What is assumed of `sbrk`: a region that it gives is above `base` and all earlier ones. -/
def Fresh (base : Nat) (sbrk : Sbrk) : Prop :=
  ∀ regions bytes a, sbrk regions bytes = some a →
    base + 8 ≤ a ∧ (∀ r ∈ regions, r.limit ≤ a) ∧ a + bytes < 2 ^ 32

theorem Parts.region {r : Block} (parts : Parts h base live blocks) (positive : 0 < r.size) (low : base + 8 ≤ r.addr)
    (above : ∀ r' ∈ h.regions, r'.limit ≤ r.addr) (fits : r.limit < 2 ^ 32) :
    Parts ({ h with regions := r :: h.regions }.setSize r.addr r.size) base (r :: live) blocks := by
  have limits : ∀ b ∈ live ++ blocks, b.limit ≤ r.addr := by
    intro b member
    have nonempty := (parts.block_bounds member).1
    obtain ⟨r', given, has⟩ := (parts.covers (b.limit - 1)).mpr ⟨b, member, by unfold Block.Has Block.limit; omega⟩
    have := above r' given
    unfold Block.Has at has
    omega
  have other : ∀ b ∈ live ++ blocks, b.addr ≠ r.addr := by
    intro b member
    have := limits b member
    have := (parts.block_bounds member).1
    unfold Block.limit at *
    omega
  have same : ∀ b ∈ live ++ blocks, update h.size r.addr r.size b.addr = h.size b.addr := fun b member =>
    update_of_ne (other b member) ..
  refine ⟨⟨⟨parts.list.nodes.linked, ?_, parts.list.nodes.sorted⟩, parts.list.positive, parts.list.freep⟩, ?_,
    ?_, ?_, ?_, ?_⟩
  · intro b member
    refine Eq.trans ?_ (parts.list.nodes.size b member)
    rcases List.mem_cons.mp member with rfl | member
    · exact update_of_ne (show base ≠ r.addr by omega) ..
    · exact same b (List.mem_append_right _ member)
  · exact List.forall_mem_cons.mpr ⟨update_self .., fun b member =>
      (same b (List.mem_append_left _ member)).trans (parts.size b member)⟩
  · exact List.forall_mem_cons.mpr ⟨positive, parts.positive⟩
  · exact List.pairwise_cons.mpr ⟨fun b member => Or.inr (limits b member), parts.apart⟩
  · intro x
    rw [Heap.setSize_regions, covered_cons, parts.covers, List.cons_append, covered_cons]
  · exact List.forall_mem_cons.mpr ⟨⟨low, fits⟩, parts.bounds⟩

theorem FreeList.base_le_freep (list : FreeList h base blocks) : base ≤ h.freep := by
  obtain ⟨b, member, here⟩ := List.mem_map.mp list.freep
  rw [← here]
  rcases List.mem_cons.mp member with rfl | member
  · exact Nat.le.refl
  · exact Nat.le_of_lt (list.nodes.sorted.rel_cons member : (root base).limit < b.addr)

theorem morecore_spec {sbrk : Sbrk} {fuel : Nat} (parts : Parts h base live blocks) (static : 0 < base)
    (fresh : Fresh base sbrk) (small : nunits * 8 < 2 ^ 31) (enough : blocks.length < fuel) :
    (sbrk h.regions ((if nunits < 4096 then 4096 else nunits) * 8) = none ∧ morecore sbrk fuel h nunits = some (h, 0)) ∨
    ∃ h' blocks', sbrk h.regions ((if nunits < 4096 then 4096 else nunits) * 8) ≠ none ∧
      morecore sbrk fuel h nunits = some (h', h'.freep) ∧ h'.freep ≠ 0 ∧ Parts h' base live blocks' ∧
      blocks'.length ≤ blocks.length + 1 ∧ ∃ b ∈ root base :: blocks', nunits ≤ b.size := by
  obtain ⟨nu, is, enoughUnits, least, bound⟩ : ∃ nu, (if nunits < 4096 then 4096 else nunits) = nu ∧ nunits ≤ nu ∧
      0 < nu ∧ nu * 8 < 2 ^ 31 := by
    refine ⟨_, rfl, ?_⟩
    split <;> omega
  have bytes : nu * 8 % 2 ^ 32 = nu * 8 := Nat.mod_eq_of_lt (by omega)
  have units : nu * 8 / 8 = nu := Nat.mul_div_cancel _ (by decide)
  cases answer : sbrk h.regions (nu * 8) with
  | none =>
    left
    simp only [morecore, morecore.request, is, bytes, answer, and_self]
  | some a =>
    obtain ⟨low, above, fits⟩ := fresh _ _ _ answer
    have limit : Block.limit ⟨a, nu⟩ < 2 ^ 32 := by
      unfold Block.limit
      dsimp only
      omega
    have parts' := parts.region (r := ⟨a, nu⟩) least low above limit
    obtain ⟨h', blocks', freed, parts'', -, length, b, member, large⟩ := free_spec parts' enough
    refine Or.inr ⟨h', blocks', by simp [is, answer], ?_, ?_, parts'', length, b, member,
      Nat.le_trans enoughUnits large⟩
    · have next : plus a 1 = a + 8 := Nat.mod_eq_of_lt (by omega)
      simp only [morecore, morecore.request, is, bytes, answer, units, next]
      rw [freed]
      rfl
    · have := parts''.list.base_le_freep
      omega

/-! ### `malloc` -/

theorem loop_take (sbrk : Sbrk) {M R : List Block} {y x : Block} (parts : Parts h base live blocks)
    (split : root base :: blocks = M ++ y :: x :: R) (fits : nunits ≤ x.size) (positive : 0 < nunits)
    (fuel calls : Nat) :
    ∃ h' a blocks', malloc.loop sbrk nunits (fuel + 1) h y.addr x.addr calls = some (h', a + 8, calls) ∧
      Parts h' base (⟨a, nunits⟩ :: live) blocks' := by
  obtain ⟨h', a, blocks', take, -, -, parts'⟩ := take_spec parts split fits positive
  refine ⟨h', a, blocks', ?_, parts'⟩
  have size : h.size x.addr = x.size := parts.list.nodes.size x (by simp [split])
  rw [malloc.loop, if_pos (size ▸ fits), take]

/-- The loop from `freep`: it finds a block, or fails without a change. -/
theorem loop_spec {sbrk : Sbrk} {fuel : Nat} (parts : Parts h base live blocks) (static : 0 < base)
    (fresh : Fresh base sbrk) (positive : 0 < nunits) (small : nunits * 8 < 2 ^ 31)
    (enough : 2 * blocks.length + 3 ≤ fuel) :
    ∃ h' ap calls blocks', malloc.loop sbrk nunits fuel h h.freep (h.ptr h.freep) 0 = some (h', ap, calls) ∧ calls ≤ 1 ∧
      (ap = 0 ∧ Parts h' base live blocks' ∧ (∀ b ∈ blocks, b.size < nunits) ∧
          sbrk h.regions ((if nunits < 4096 then 4096 else nunits) * 8) = none ∨
        (∃ a, ap = a + 8 ∧ Parts h' base (⟨a, nunits⟩ :: live) blocks') ∧
          ((∃ b ∈ blocks, nunits ≤ b.size) ∨
            sbrk h.regions ((if nunits < 4096 then 4096 else nunits) * 8) ≠ none)) := by
  obtain ⟨k, short, y, x, walk, ⟨fits, M, R, split⟩ | ⟨back, tooSmall⟩⟩ := parts.list.loop sbrk positive
  · obtain ⟨fuel, rfl⟩ : ∃ n, fuel = n + 1 + k := ⟨fuel - k - 1, by omega⟩
    obtain ⟨h', a, blocks', found, parts'⟩ := loop_take sbrk parts split fits positive fuel 0
    refine ⟨h', a + 8, 0, blocks', by rw [walk, found], Nat.zero_le _, Or.inr ⟨⟨a, rfl, parts'⟩, Or.inl ⟨x, ?_, fits⟩⟩⟩
    refine (List.mem_cons.mp (show x ∈ root base :: blocks by simp [split])).resolve_left ?_
    rintro rfl
    exact absurd fits (Nat.not_le.mpr positive)
  · obtain ⟨fuel, rfl⟩ : ∃ n, fuel = n + 1 + k := ⟨fuel - k - 1, by omega⟩
    have little : h.size x.addr < nunits := by
      obtain ⟨b, member, here⟩ := List.mem_map.mp parts.list.freep
      rw [back, ← here, parts.list.nodes.size b member]
      exact tooSmall b member
    rw [walk, malloc.loop, if_neg (Nat.not_le.mpr little), if_pos back]
    rcases morecore_spec parts static fresh small (show blocks.length < fuel by omega) with
      ⟨refused, failed⟩ | ⟨h₁, blocks₁, given, more, valid, parts₁, length, b, member, large⟩
    · exact ⟨h, 0, 1, blocks, by rw [failed]; rfl, Nat.le.refl,
        Or.inl ⟨rfl, parts, fun b member => tooSmall b (List.mem_cons_of_mem _ member), refused⟩⟩
    · rw [more]
      simp only [valid, if_false]
      obtain ⟨k₁, short₁, y₁, x₁, walk₁, ⟨fits, M, R, split⟩ | ⟨-, tooSmall₁⟩⟩ := parts₁.list.loop sbrk positive
      · obtain ⟨fuel, rfl⟩ : ∃ n, fuel = n + 1 + k₁ := ⟨fuel - k₁ - 1, by omega⟩
        obtain ⟨h', a, blocks', found, parts'⟩ := loop_take sbrk parts₁ split fits positive fuel 1
        exact ⟨h', a + 8, 1, blocks', by rw [walk₁, found], Nat.le.refl, Or.inr ⟨⟨a, rfl, parts'⟩, Or.inr given⟩⟩
      · exact absurd large (Nat.not_le.mpr (tooSmall₁ b member))

theorem parts_start (h : Heap) (none : h.regions = []) :
    Parts (((h.setPtr base base).setFreep base).setSize base 0) base [] [] := by
  refine ⟨⟨⟨?_, ?_, List.isChain_singleton _⟩, by simp, by simp⟩, by simp, by simp, List.Pairwise.nil, ?_, ?_⟩
  · exact linked_cons_cons.mpr ⟨update_self .., linked_singleton _⟩
  · intro b member
    rw [List.mem_singleton.mp member]
    exact update_self ..
  · intro x
    simp [none]
  · simp [none]

def Small (nbytes : Nat) : Prop := ((nbytes + 8 - 1) / 8 + 1) * 8 < 2 ^ 31

theorem units_spec {nbytes : Nat} (small : Small nbytes) :
    0 < units nbytes ∧ units nbytes * 8 < 2 ^ 31 ∧ nbytes + 8 ≤ 8 * units nbytes := by
  unfold Small at small
  have : (nbytes + 8 - 1) % 2 ^ 32 = nbytes + 8 - 1 := Nat.mod_eq_of_lt (by omega)
  rw [units, this]
  omega

end Espl.Malloc
