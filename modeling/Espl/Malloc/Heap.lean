import Espl.Malloc.Umalloc

/-!
# The heap of a user program

The free list is one ring of blocks in the order of their addresses, and every unit that `sbrk` has
given is in just one block, free or live.
-/

namespace Espl.Malloc

open Circular
open Function (update update_self update_of_ne)

namespace Block

def Has (b : Block) (x : Nat) : Prop := b.addr ≤ x ∧ x < b.limit

def Apart (a b : Block) : Prop := a.limit ≤ b.addr ∨ b.limit ≤ a.addr

def Below (a b : Block) : Prop := a.limit < b.addr

theorem addr_le_limit (b : Block) : b.addr ≤ b.limit := Nat.le_add_right ..

instance : Trans Below Below Below where
  trans {a b c} first second := by
    have := b.addr_le_limit
    unfold Below at *
    omega

theorem Apart.symm {a b : Block} (h : Apart a b) : Apart b a := Or.symm h

instance : Std.Symm Apart where
  symm _ _ := Apart.symm

end Block

def Covered (l : List Block) (x : Nat) : Prop := ∃ b ∈ l, b.Has x

@[simp] theorem covered_nil (x : Nat) : ¬ Covered [] x := by simp [Covered]

@[simp] theorem covered_cons (b : Block) (l : List Block) (x : Nat) : Covered (b :: l) x ↔ b.Has x ∨ Covered l x := by
  simp [Covered]

@[simp] theorem covered_append (l l' : List Block) (x : Nat) : Covered (l ++ l') x ↔ Covered l x ∨ Covered l' x := by
  simp only [Covered, List.mem_append, or_and_right, exists_or]

theorem apart_of_disjoint {a b : Block} (positive : 0 < a.size) (positive' : 0 < b.size)
    (disjoint : ∀ x, a.Has x → ¬ b.Has x) : a.Apart b := by
  have first := disjoint a.addr
  have second := disjoint b.addr
  unfold Block.Has Block.Apart Block.limit at *
  omega

theorem Block.Apart.disjoint {a b : Block} (apart : a.Apart b) {x : Nat} (left : a.Has x) : ¬ b.Has x := by
  unfold Block.Has Block.Apart at *
  omega

def root (base : Nat) : Block := ⟨base, 0⟩

@[simp] theorem root_addr (base : Nat) : (root base).addr = base := rfl

@[simp] theorem root_limit (base : Nat) : (root base).limit = base := rfl

def first (base : Nat) : List Block → Nat
  | [] => base
  | b :: _ => b.addr

structure Nodes (h : Heap) (base : Nat) (nodes : List Block) : Prop where
  linked : Linked h.ptr (nodes.map Block.addr ++ [base])
  size : ∀ b ∈ nodes, h.size b.addr = b.size
  sorted : nodes.IsChain Block.Below

/-- The free list: a ring through `base` in the order of the addresses, with no two blocks that touch. -/
structure FreeList (h : Heap) (base : Nat) (blocks : List Block) : Prop where
  nodes : Nodes h base (root base :: blocks)
  positive : ∀ b ∈ blocks, 0 < b.size
  freep : h.freep ∈ (root base :: blocks).map Block.addr

structure Parts (h : Heap) (base : Nat) (live blocks : List Block) : Prop where
  list : FreeList h base blocks
  size : ∀ b ∈ live, h.size b.addr = b.size
  positive : ∀ b ∈ live, 0 < b.size
  apart : (live ++ blocks).Pairwise Block.Apart
  covers : ∀ x, Covered h.regions x ↔ Covered (live ++ blocks) x
  bounds : ∀ r ∈ h.regions, base + 8 ≤ r.addr ∧ r.limit < 2 ^ 32

variable {h : Heap} {base : Nat} {live blocks : List Block} {b : Block}

theorem Parts.block_bounds (parts : Parts h base live blocks) (member : b ∈ live ++ blocks) :
    0 < b.size ∧ base + 8 ≤ b.addr ∧ b.limit < 2 ^ 32 := by
  have positive : 0 < b.size := by
    rcases List.mem_append.mp member with member | member
    · exact parts.positive b member
    · exact parts.list.positive b member
  have first : b.Has b.addr := ⟨Nat.le.refl, by unfold Block.limit; omega⟩
  have last : b.Has (b.limit - 1) := by unfold Block.Has Block.limit; omega
  obtain ⟨r, given, low⟩ := (parts.covers _).mpr ⟨b, member, first⟩
  obtain ⟨r', given', high⟩ := (parts.covers _).mpr ⟨b, member, last⟩
  have := parts.bounds r given
  have := parts.bounds r' given'
  unfold Block.Has at *
  exact ⟨positive, by omega, by omega⟩

theorem split_at {bp : Nat} {a : Block} {l : List Block} (sorted : (a :: l).IsChain Block.Below) (first : a.addr < bp) :
    ∃ M p R, a :: l = M ++ p :: R ∧ p.addr < bp ∧ ∀ r ∈ R, bp ≤ r.addr := by
  induction l generalizing a with
  | nil => exact ⟨[], a, [], rfl, first, by simp⟩
  | cons b l ih =>
    obtain ⟨_, rest⟩ := List.isChain_cons_cons.mp sorted
    by_cases below : b.addr < bp
    · obtain ⟨M, p, R, split, before, after⟩ := ih rest below
      exact ⟨a :: M, p, R, by rw [split]; rfl, before, after⟩
    · refine ⟨[], a, b :: l, rfl, first, ?_⟩
      intro r member
      rcases List.mem_cons.mp member with rfl | member
      · omega
      · have := rest.rel_cons member
        have := b.addr_le_limit
        unfold Block.Below at *
        omega

/-! ### The search of `free` -/

section Search

variable {M R : List Block} {p : Block} {bp : Nat}

theorem Nodes.next (nodes : Nodes h base (M ++ p :: R)) : h.ptr p.addr = first base R := by
  have linked := nodes.linked
  rw [List.map_append, List.append_assoc] at linked
  cases R with
  | nil | cons _ _ => exact Linked.step linked

theorem Nodes.lt_of_append (nodes : Nodes h base (M ++ p :: R)) : (∀ q ∈ M, q.limit < p.addr) ∧ ∀ r ∈ R,
    p.limit < r.addr := by
  have pairwise := nodes.sorted.pairwise
  rw [List.pairwise_append, List.pairwise_cons] at pairwise
  exact ⟨fun q member => pairwise.2.2 q member p List.mem_cons_self, pairwise.2.1.1⟩

theorem stops_at (nodes : Nodes h base (M ++ p :: R)) (low : base ≤ p.addr) (before : p.addr < bp)
    (after : ∀ r ∈ R, bp < r.addr) : free.stops h bp p.addr = true := by
  cases R with
  | nil =>
    have next : h.ptr p.addr = base := nodes.next
    rw [free.stops, next]
    simp only [Bool.or_eq_true, decide_eq_true_eq]
    omega
  | cons r R =>
    have := after r List.mem_cons_self
    have next : h.ptr p.addr = r.addr := nodes.next
    rw [free.stops, next]
    simp only [Bool.or_eq_true, decide_eq_true_eq]
    omega

theorem stops_only (nodes : Nodes h base (M ++ p :: R)) (low : base < bp) (before : p.addr < bp)
    (after : ∀ r ∈ R, bp < r.addr) {q : Block} (member : q ∈ M ++ p :: R) (stops : free.stops h bp q.addr = true) :
    q = p := by
  rw [free.stops, Bool.or_eq_true, decide_eq_true_eq, decide_eq_true_eq] at stops
  rcases List.mem_append.mp member with member | member
  · -- below `p` each node leads to a higher one that is still below the block
    obtain ⟨M₁, M₂, rfl⟩ := List.append_of_mem member
    obtain ⟨n, N, following⟩ : ∃ n N, M₂ ++ [p] = n :: N := List.exists_cons_of_ne_nil (by simp)
    have nodes' : Nodes h base (M₁ ++ q :: n :: (N ++ R)) := by
      have : M₁ ++ q :: M₂ ++ p :: R = M₁ ++ q :: n :: (N ++ R) := by
        rw [List.append_assoc, List.cons_append, List.append_cons M₂ p R, following]
        rfl
      rwa [this] at nodes
    have next : h.ptr q.addr = n.addr := nodes'.next
    have higher := nodes'.lt_of_append.2 n List.mem_cons_self
    have below : n.addr ≤ p.addr := by
      have : n ∈ M₂ ++ [p] := by rw [following]; exact List.mem_cons_self
      rcases List.mem_append.mp this with this | this
      · have := nodes.lt_of_append.1 n (List.mem_append_right _ (List.mem_cons_of_mem _ this))
        have := n.addr_le_limit
        omega
      · rw [List.mem_singleton.mp this]
    have := q.addr_le_limit
    omega
  · rcases List.mem_cons.mp member with rfl | member
    · rfl
    · -- above the block each node leads to a higher one or to `base`
      have := after q member
      obtain ⟨R₁, R₂, rfl⟩ := List.append_of_mem member
      rw [List.append_cons, ← List.append_assoc] at nodes
      cases R₂ with
      | nil =>
        have next : h.ptr q.addr = base := nodes.next
        omega
      | cons n R₂ =>
        have next : h.ptr q.addr = n.addr := nodes.next
        have := nodes.lt_of_append.2 n List.mem_cons_self
        have := q.addr_le_limit
        omega

end Search

/-! ### Joining blocks -/

section Insert

variable {M R : List Block} {p B : Block}

theorem plus_eq_iff {a n q : Nat} (fits : a + 8 * n < 2 ^ 32) : plus a n = q ↔ a + 8 * n = q := by
  rw [plus, Nat.mod_eq_of_lt fits]

theorem linked_front {f : Nat → Nat} {a : Nat} (linked : Linked f (R.map Block.addr ++ [base]))
    (out : ∀ r ∈ R, r.addr ≠ a) : Linked (update f a (first base R)) (a :: (R.map Block.addr ++ [base])) := by
  have join : ∀ t T, R.map Block.addr ++ [base] = t :: T → first base R = t →
      Linked (update f a (first base R)) (a :: (R.map Block.addr ++ [base])) := by
    intro t T whole starts
    rw [starts, whole]
    rw [whole] at linked
    refine Linked.join (show Linked f ([] ++ [a]) from linked_singleton a) linked (by simp) ?_
    rw [← whole, List.dropLast_concat, List.mem_map]
    rintro ⟨r, member, same⟩
    exact out r member same
  cases R with
  | nil => exact join base [] rfl rfl
  | cons r R => exact join r.addr _ rfl rfl

theorem linked_after {f : Nat → Nat} {p' : Block} (front : Linked f (M.map Block.addr ++ [p.addr]))
    (linked : Linked f (R.map Block.addr ++ [base])) (same : p'.addr = p.addr) (outM : ∀ q ∈ M, q.addr ≠ p.addr)
    (outR : ∀ r ∈ R, r.addr ≠ p.addr) :
    Linked (update f p.addr (first base R)) ((M ++ p' :: R).map Block.addr ++ [base]) := by
  rw [List.map_append, List.append_assoc, List.map_cons, same]
  refine linked_split.mpr ⟨front.congr ?_, linked_front linked outR⟩
  rw [List.dropLast_concat]
  intro a member
  obtain ⟨q, inside, rfl⟩ := List.mem_map.mp member
  exact update_of_ne (outM q inside) ..

theorem Nodes.tail (nodes : Nodes h base (M ++ R)) : Nodes h base R := by
  have linked := nodes.linked
  rw [List.map_append, List.append_assoc] at linked
  exact ⟨linked.right_of_append, fun b member => nodes.size b (List.mem_append_right _ member),
    nodes.sorted.right_of_append⟩

theorem above_spec (nodes : Nodes h base (M ++ p :: R)) (size : h.size B.addr = B.size) (positive : 0 < B.size)
    (fits : B.limit < 2 ^ 32) (low : base < B.addr) (after : ∀ r ∈ R, B.limit ≤ r.addr ∧ r.limit < 2 ^ 32) :
    ∃ B' R', B'.addr = B.addr ∧ B.size ≤ B'.size ∧ B'.limit < 2 ^ 32 ∧ R' <:+ R ∧
      Nodes (free.above h B.addr p.addr) base (B' :: R') ∧
      (∀ a, a ≠ B.addr → (free.above h B.addr p.addr).ptr a = h.ptr a ∧
        (free.above h B.addr p.addr).size a = h.size a) ∧
      ∀ x, Covered (B' :: R') x ↔ Covered (B :: R) x := by
  have out : ∀ r ∈ R, r.addr ≠ B.addr := by
    intro r member same
    have := after r member
    unfold Block.limit at this
    omega
  have nodesR : Nodes h base R := (List.append_cons M p R ▸ nodes).tail
  have touch : plus B.addr (h.size B.addr) = h.ptr p.addr ↔ B.limit = first base R := by
    rw [nodes.next, size]
    exact plus_eq_iff fits
  by_cases touches : B.limit = first base R
  · cases R with
    | nil =>
      have : B.limit = base := touches
      have := B.addr_le_limit
      omega
    | cons r R =>
      have touches : B.limit = r.addr := touches
      have sizer : h.size r.addr = r.size := nodesR.size r List.mem_cons_self
      have whole : r.limit = B.addr + 8 * (B.size + r.size) := by
        unfold Block.limit at *
        omega
      have fitsr := (after r List.mem_cons_self).2
      have is : free.above h B.addr p.addr = (h.setSize B.addr (B.size + r.size)).setPtr B.addr (first base R) := by
        have sum : (B.size + r.size) % 2 ^ 32 = B.size + r.size := Nat.mod_eq_of_lt (by omega)
        have next : h.ptr r.addr = first base R := Nodes.next (M := []) nodesR
        rw [free.above, if_pos (touch.mpr touches), show h.ptr p.addr = r.addr from nodes.next, size, sizer, sum, next]
      refine ⟨⟨B.addr, B.size + r.size⟩, R, rfl, Nat.le_add_right .., by rw [Block.limit, ← whole]; exact fitsr,
        List.suffix_cons r R, ⟨?_, ?_, ?_⟩, ?_, ?_⟩
      · rw [is]
        exact linked_front (Nodes.tail (M := [r]) nodesR).linked fun r' member => out r' (List.mem_cons_of_mem _ member)
      · rw [is]
        intro b member
        rcases List.mem_cons.mp member with rfl | member
        · exact update_self ..
        · rw [Heap.setPtr_size, Heap.setSize_size, update_of_ne (out b (List.mem_cons_of_mem _ member))]
          exact nodesR.size b (List.mem_cons_of_mem _ member)
      · refine nodesR.sorted.imp_head ?_
        intro z above
        rwa [Block.Below, whole] at above
      · intro a other
        rw [is]
        exact ⟨update_of_ne other .., update_of_ne other ..⟩
      · intro x
        simp only [covered_cons, ← or_assoc]
        apply or_congr_left
        unfold Block.Has Block.limit at *
        dsimp only
        omega
  · have is : free.above h B.addr p.addr = h.setPtr B.addr (first base R) := by
      rw [free.above, if_neg (touch.not.mpr touches), nodes.next]
    refine ⟨B, R, rfl, Nat.le.refl, fits, List.suffix_refl R, ⟨?_, ?_, ?_⟩, ?_, fun x => Iff.rfl⟩
    · rw [is]
      exact linked_front nodesR.linked out
    · rw [is]
      exact List.forall_mem_cons.mpr ⟨size, nodesR.size⟩
    · refine nodesR.sorted.cons ?_
      intro r head
      cases R with
      | nil => cases head
      | cons r' R =>
        obtain rfl := Option.some.inj head
        exact Nat.lt_of_le_of_ne (after r' List.mem_cons_self).1 touches
    · intro a other
      rw [is]
      exact ⟨update_of_ne other .., rfl⟩

theorem below_spec {B : Block} (front : Linked h.ptr (M.map Block.addr ++ [p.addr]))
    (sizes : ∀ b ∈ M ++ [p], h.size b.addr = b.size) (sorted : (M ++ [p]).IsChain Block.Below)
    (nodes : Nodes h base (B :: R)) (below : p.addr < B.addr) (before : p.limit ≤ B.addr) (fits : B.limit < 2 ^ 32) :
    ∃ p' R', p'.addr = p.addr ∧ (p' = p ∨ p.limit = B.addr ∧ p.size ≤ p'.size) ∧ R' <:+ B :: R ∧
      Nodes (free.below h B.addr p.addr) base (M ++ p' :: R') ∧
      (∀ a, a ≠ p.addr → (free.below h B.addr p.addr).size a = h.size a) ∧
      (∀ x, Covered (p' :: R') x ↔ Covered (p :: B :: R) x) ∧
      ∃ b ∈ p' :: R', B.size ≤ b.size := by
  obtain ⟨sortedM, -, lastM⟩ := List.isChain_append.mp sorted
  have sizep : h.size p.addr = p.size := sizes p (by simp)
  have sizeB : h.size B.addr = B.size := nodes.size B List.mem_cons_self
  have nodesR : Nodes h base R := Nodes.tail (M := [B]) nodes
  have outM : ∀ q ∈ M, q.addr ≠ p.addr := by
    intro q member
    have := (List.pairwise_append.mp sorted.pairwise).2.2 q member p (by simp)
    have := q.addr_le_limit
    unfold Block.Below at *
    omega
  have outB : ∀ r ∈ B :: R, r.addr ≠ p.addr := by
    intro r member
    rcases List.mem_cons.mp member with rfl | member
    · omega
    · have : B.Below r := nodes.sorted.rel_cons member
      have := B.addr_le_limit
      unfold Block.Below at *
      omega
  have outR : ∀ r ∈ R, r.addr ≠ p.addr := fun r member => outB r (List.mem_cons_of_mem _ member)
  have touch : plus p.addr (h.size p.addr) = B.addr ↔ p.limit = B.addr := by
    rw [sizep]
    have := B.addr_le_limit
    exact plus_eq_iff (show p.limit < 2 ^ 32 by omega)
  by_cases touches : p.limit = B.addr
  · have whole : B.limit = p.addr + 8 * (p.size + B.size) := by
      unfold Block.limit at *
      omega
    have is : free.below h B.addr p.addr = (h.setSize p.addr (p.size + B.size)).setPtr p.addr (first base R) := by
      have sum : (p.size + B.size) % 2 ^ 32 = p.size + B.size := Nat.mod_eq_of_lt (by omega)
      have next : h.ptr B.addr = first base R := Nodes.next (M := []) nodes
      rw [free.below, if_pos (touch.mpr touches), sizep, sizeB, sum, next]
    refine ⟨⟨p.addr, p.size + B.size⟩, R, rfl, Or.inr ⟨touches, Nat.le_add_right ..⟩,
      List.suffix_cons B R, ⟨?_, ?_, ?_⟩, ?_, ?_, ?_⟩
    · rw [is]
      exact linked_after front nodesR.linked rfl outM outR
    · rw [is]
      intro b member
      rcases List.mem_append.mp member with member | member
      · rw [Heap.setPtr_size, Heap.setSize_size, update_of_ne (outM b member)]
        exact sizes b (List.mem_append_left _ member)
      · rcases List.mem_cons.mp member with rfl | member
        · exact update_self ..
        · rw [Heap.setPtr_size, Heap.setSize_size, update_of_ne (outR b member)]
          exact nodesR.size b member
    · refine sortedM.append (nodes.sorted.imp_head ?_) ?_
      · intro z above
        rwa [Block.Below, whole] at above
      · intro q last y head
        obtain rfl := Option.some.inj head
        exact lastM q last p rfl
    · intro a other
      rw [is]
      exact update_of_ne other ..
    · intro x
      simp only [covered_cons, ← or_assoc]
      apply or_congr_left
      unfold Block.Has Block.limit at *
      dsimp only
      omega
    · exact ⟨_, List.mem_cons_self, Nat.le_add_left ..⟩
  · have is : free.below h B.addr p.addr = h.setPtr p.addr (first base (B :: R)) := by
      rw [free.below, if_neg (touch.not.mpr touches)]
      rfl
    refine ⟨p, B :: R, rfl, Or.inl rfl, List.suffix_refl _, ⟨?_, ?_, ?_⟩, ?_, fun x => Iff.rfl, ?_⟩
    · rw [is]
      exact linked_after front nodes.linked rfl outM outB
    · rw [is]
      intro b member
      rw [List.append_cons] at member
      rcases List.mem_append.mp member with member | member
      · exact sizes b member
      · exact nodes.size b member
    · rw [List.append_cons]
      refine sorted.append nodes.sorted ?_
      intro q last y head
      rw [List.getLast?_concat] at last
      obtain rfl := Option.some.inj last
      obtain rfl := Option.some.inj head
      exact Nat.lt_of_le_of_ne before touches
    · intro a other
      rw [is]
      rfl
    · exact ⟨B, by simp, Nat.le.refl⟩

theorem insert_spec (nodes : Nodes h base (M ++ p :: R)) (size : h.size B.addr = B.size) (positive : 0 < B.size)
    (fits : B.limit < 2 ^ 32) (low : base < B.addr) (below : p.addr < B.addr) (before : p.limit ≤ B.addr)
    (after : ∀ r ∈ R, B.limit ≤ r.addr ∧ r.limit < 2 ^ 32) :
    ∃ p' R', p'.addr = p.addr ∧ (p' = p ∨ p.limit = B.addr ∧ p.size ≤ p'.size) ∧ (∀ r ∈ R', B.size ≤ r.size ∨ r ∈ R) ∧
      R'.length ≤ R.length + 1 ∧ Nodes (free.insert h B.addr p.addr) base (M ++ p' :: R') ∧
      (∀ a, a ≠ p.addr → a ≠ B.addr → (free.insert h B.addr p.addr).size a = h.size a) ∧
      (∀ x, Covered (p' :: R') x ↔ Covered (p :: B :: R) x) ∧
      ∃ b ∈ p' :: R', B.size ≤ b.size := by
  obtain ⟨B', R₁, addr, larger, fits', suffix, nodes', same, covered⟩ := above_spec nodes size positive fits low after
  have outM : ∀ q ∈ M ++ [p], q.addr ≠ B'.addr := by
    intro q member
    rw [addr]
    rcases List.mem_append.mp member with member | member
    · have := nodes.lt_of_append.1 q member
      have := q.addr_le_limit
      omega
    · rw [List.mem_singleton.mp member]
      omega
  have front : Linked (free.above h B.addr p.addr).ptr (M.map Block.addr ++ [p.addr]) := by
    have linked := nodes.linked
    rw [List.map_append, List.append_assoc] at linked
    refine (linked_split.mp linked).1.congr ?_
    rw [List.dropLast_concat]
    intro a member
    obtain ⟨q, inside, rfl⟩ := List.mem_map.mp member
    exact (same _ (addr ▸ outM q (List.mem_append_left _ inside))).1
  have sizes : ∀ b ∈ M ++ [p], (free.above h B.addr p.addr).size b.addr = b.size := by
    intro b member
    rw [(same _ (addr ▸ outM b member)).2]
    refine nodes.size b ?_
    rw [List.append_cons]
    exact List.mem_append_left _ member
  have sorted := nodes.sorted
  rw [List.append_cons] at sorted
  obtain ⟨p', R', addr', grown, suffix', nodes'', same', covered', found⟩ :=
    below_spec front sizes sorted.left_of_append nodes' (addr ▸ below) (addr ▸ before) fits'
  rw [addr] at nodes'' same'
  refine ⟨p', R', addr', addr ▸ grown, ?_, ?_, ⟨nodes''.linked, nodes''.size, nodes''.sorted⟩, ?_, ?_, ?_⟩
  · intro r member
    rcases List.mem_cons.mp (suffix'.subset member) with rfl | member
    · exact Or.inl larger
    · exact Or.inr (suffix.subset member)
  · have := suffix.length_le
    have := suffix'.length_le
    rw [List.length_cons] at this
    omega
  · intro a other other'
    exact (same' a other).trans (same a other').2
  · intro x
    rw [covered', covered_cons, covered, ← covered_cons]
  · obtain ⟨b, member, large⟩ := found
    exact ⟨b, member, Nat.le_trans larger large⟩

end Insert

/-! ### `free` -/

theorem not_root_has (x : Nat) : ¬ (root base).Has x := by
  unfold Block.Has
  simp only [root_addr, root_limit]
  omega

theorem Parts.around {B : Block} (parts : Parts h base (B :: live) blocks) :
    ∃ M p R, root base :: blocks = M ++ p :: R ∧ p.addr < B.addr ∧ p.limit ≤ B.addr ∧ base ≤ p.addr ∧
      ∀ r ∈ R, r ∈ blocks ∧ B.limit ≤ r.addr := by
  obtain ⟨positive, low, -⟩ := parts.block_bounds (List.mem_cons_self : B ∈ B :: live ++ blocks)
  have sorted := parts.list.nodes.sorted
  obtain ⟨M, p, R, split, below, above⟩ := split_at sorted (show (root base).addr < B.addr by rw [root_addr]; omega)
  have apart : ∀ b ∈ blocks, B.Apart b := fun b member =>
    (List.pairwise_cons.mp parts.apart).1 b (List.mem_append_right _ member)
  refine ⟨M, p, R, split, below, ?_, ?_, ?_⟩
  · have member : p ∈ root base :: blocks := by simp [split]
    rcases List.mem_cons.mp member with rfl | member
    · rw [root_limit]
      omega
    · have := apart p member
      unfold Block.Apart Block.limit at *
      omega
  · have member : p ∈ root base :: blocks := by simp [split]
    rcases List.mem_cons.mp member with rfl | member
    · exact Nat.le.refl
    · have := (parts.block_bounds (List.mem_append_right _ member)).2.1
      omega
  · intro r member
    have higher := above r member
    have member : r ∈ root base :: blocks := by simp [split, member]
    rcases List.mem_cons.mp member with rfl | member
    · rw [root_addr] at higher
      omega
    · refine ⟨member, ?_⟩
      have := apart r member
      have := parts.list.positive r member
      unfold Block.Apart Block.limit at *
      omega

/-- The loop of `free` ends at the last node below the block. -/
theorem FreeList.search {B p : Block} {M R : List Block} {fuel : Nat} (list : FreeList h base blocks)
    (split : root base :: blocks = M ++ p :: R) (low : base ≤ p.addr) (below : p.addr < B.addr)
    (above : ∀ r ∈ R, B.addr < r.addr) (enough : blocks.length < fuel) :
    seek h.ptr (free.stops h B.addr) fuel h.freep = some p.addr := by
  have nodes : Nodes h base (M ++ p :: R) := split ▸ list.nodes
  have ring : Ring h.ptr base (blocks.map Block.addr) := list.nodes.linked
  have members : ∀ a, a ∈ base :: blocks.map Block.addr ↔ ∃ q ∈ M ++ p :: R, q.addr = a := by
    intro a
    rw [← split, ← List.mem_map]
    rfl
  apply ring.seek (list.freep : _)
  · exact (members _).mpr ⟨p, by simp, rfl⟩
  · exact stops_at nodes low below above
  · intro d member stops
    obtain ⟨q, inside, rfl⟩ := (members d).mp member
    rw [stops_only nodes (by omega) below above inside stops]
  · rwa [List.length_map]

@[simp] theorem insert_regions (h : Heap) (bp p : Nat) : (free.insert h bp p).regions = h.regions := by
  unfold free.insert free.below free.above
  repeat' split
  all_goals rfl

theorem Parts.of_covered {h' : Heap} (old : List Block) {blocks' : List Block} (list : FreeList h' base blocks')
    (sizes : ∀ b ∈ live, h'.size b.addr = b.size) (positive : ∀ b ∈ live, 0 < b.size) (regions : h'.regions = h.regions)
    (apart : (live ++ old).Pairwise Block.Apart) (covered : ∀ x, Covered blocks' x ↔ Covered old x)
    (covers : ∀ x, Covered h.regions x ↔ Covered (live ++ old) x)
    (bounds : ∀ r ∈ h.regions, base + 8 ≤ r.addr ∧ r.limit < 2 ^ 32) : Parts h' base live blocks' := by
  obtain ⟨apartLive, -, apartOld⟩ := List.pairwise_append.mp apart
  refine ⟨list, sizes, positive, List.pairwise_append.mpr ⟨apartLive, ?_, ?_⟩, ?_, by rwa [regions]⟩
  · refine (List.pairwise_cons.mp list.nodes.sorted.pairwise).2.imp ?_
    intro a b below
    exact Or.inl (Nat.le_of_lt below)
  · intro a member b member'
    refine apart_of_disjoint (positive a member) (list.positive b member') ?_
    intro x left right
    obtain ⟨c, inside, has⟩ := (covered x).mp ⟨b, member', right⟩
    exact (apartOld a member c inside).disjoint left has
  · intro x
    rw [regions, covers, covered_append, covered_append, covered]

theorem free_spec {B : Block} {fuel : Nat} (parts : Parts h base (B :: live) blocks) (enough : blocks.length < fuel) :
    ∃ h' blocks', free fuel h (B.addr + 8) = some h' ∧ Parts h' base live blocks' ∧ h'.regions = h.regions ∧
      blocks'.length ≤ blocks.length + 1 ∧
      ∃ b ∈ root base :: blocks', B.size ≤ b.size := by
  obtain ⟨positive, low, fits⟩ := parts.block_bounds (List.mem_cons_self : B ∈ B :: live ++ blocks)
  obtain ⟨M, p, R, split, below, before, lowp, above⟩ := parts.around
  have nodes : Nodes h base (M ++ p :: R) := split ▸ parts.list.nodes
  have after : ∀ r ∈ R, B.limit ≤ r.addr ∧ r.limit < 2 ^ 32 := fun r member =>
    ⟨(above r member).2, (parts.block_bounds (List.mem_append_right _ (above r member).1)).2.2⟩
  have stop : seek h.ptr (free.stops h B.addr) fuel h.freep = some p.addr := by
    apply parts.list.search split lowp below _ enough
    intro r member
    have := (above r member).2
    unfold Block.limit at this
    omega
  obtain ⟨p', R', addr, grown, members, length, nodes', same, covered, found⟩ :=
    insert_spec nodes (parts.size B List.mem_cons_self) positive fits (by omega) below before after
  have memberp : p ∈ root base :: blocks := by simp [split]
  -- `base` is never joined with a block
  have kept : p = root base → p' = p := by
    rintro rfl
    refine grown.resolve_right ?_
    rw [root_limit]
    omega
  obtain ⟨blocks', split'⟩ : ∃ blocks', root base :: blocks' = M ++ p' :: R' := by
    cases M with
    | nil =>
      obtain ⟨is, -⟩ := List.cons.inj split
      exact ⟨R', by rw [kept is.symm, is]; rfl⟩
    | cons m M =>
      obtain ⟨is, -⟩ := List.cons.inj split
      exact ⟨M ++ p' :: R', by rw [is]; rfl⟩
  have list : FreeList (free.insert h B.addr p.addr) base blocks' := by
    refine ⟨split' ▸ nodes', ?_, ?_⟩
    · intro b member
      have inside : b ∈ M ++ p' :: R' := split' ▸ List.mem_cons_of_mem _ member
      have higher : (root base).Below b := (split' ▸ nodes').sorted.rel_cons member
      have old : ∀ q ∈ root base :: blocks, base < q.addr → 0 < q.size := by
        intro q member higher
        rcases List.mem_cons.mp member with rfl | member
        · exact absurd higher (Nat.lt_irrefl _)
        · exact parts.list.positive q member
      rcases List.mem_append.mp inside with inside | inside
      · exact old b (by rw [split]; exact List.mem_append_left _ inside) higher
      · rcases List.mem_cons.mp inside with rfl | inside
        · rcases grown with rfl | ⟨-, grown⟩
          · exact old b memberp higher
          · exact Nat.lt_of_lt_of_le (old p memberp (addr ▸ higher)) grown
        · rcases members b inside with large | inside
          · omega
          · exact parts.list.positive b (above b inside).1
    · rw [split']
      exact List.mem_map.mpr ⟨p', by simp, addr⟩
  refine ⟨free.insert h B.addr p.addr, blocks', ?_, ?_, insert_regions .., ?_, ?_⟩
  · rw [free, Nat.add_sub_cancel, stop]
    rfl
  · refine Parts.of_covered (B :: blocks) list ?_ ?_ (insert_regions ..) ?_ ?_ ?_ parts.bounds
    · intro l member
      obtain ⟨positivel, lowl, -⟩ := parts.block_bounds (List.mem_append_left _ (List.mem_cons_of_mem _ member))
      have apart := List.pairwise_append.mp parts.apart
      have apartB : B.Apart l := (List.pairwise_cons.mp apart.1).1 l member
      rw [same]
      · exact parts.size l (List.mem_cons_of_mem _ member)
      · rcases List.mem_cons.mp memberp with rfl | inside
        · rw [root_addr]
          omega
        · have := apart.2.2 l (List.mem_cons_of_mem _ member) p inside
          have := parts.list.positive p inside
          unfold Block.Apart Block.limit at *
          omega
      · unfold Block.Apart Block.limit at apartB
        omega
    · exact fun l member => parts.positive l (List.mem_cons_of_mem _ member)
    · exact (List.perm_middle.pairwise_iff Block.Apart.symm).mpr parts.apart
    · intro x
      have new : Covered blocks' x ↔ Covered (M ++ p' :: R') x := by
        rw [← split', covered_cons, or_iff_right (not_root_has x)]
      have old : Covered blocks x ↔ Covered (M ++ p :: R) x := by
        rw [← split, covered_cons, or_iff_right (not_root_has x)]
      rw [new, covered_append, covered, covered_cons, covered_cons, covered_cons, old, covered_append, covered_cons]
      grind
    · intro x
      rw [parts.covers]
      simp only [List.cons_append, covered_cons, covered_append]
      grind
  · have := congrArg List.length split
    have := congrArg List.length split'
    simp only [List.length_cons, List.length_append] at *
    omega
  · obtain ⟨b, member, large⟩ := found
    refine ⟨b, ?_, large⟩
    rw [split']
    exact List.mem_append_right _ member

end Espl.Malloc
