import Espl.Malloc.Runs

/-!
# The arithmetic of `malloc`

The requests that `malloc` makes to `sbrk`, and when the numbers in a call of `malloc` do not wrap around.
-/

namespace Espl.Malloc

open Circular

def Request.Proper (r : Request) : Prop := 0 < r.bytes ∧ r.bytes < 2 ^ 31 ∧ 8 * r.units ≤ r.bytes

instance (r : Request) : Decidable r.Proper := inferInstanceAs (Decidable (_ ∧ _ ∧ _))

/-- The calls of `sbrk` in the loop of `malloc`, also if it does not come to an end. -/
def malloc.loop.requests (sbrk : Sbrk) (nunits : Nat) : Nat → Heap → Nat → List Request
  | 0, _, _ => []
  | fuel + 1, h, p =>
    if h.size p ≥ nunits then []
    else if p = h.freep then
      morecore.request nunits :: match morecore sbrk fuel h nunits with
        | none => []
        | some (h, p) => if p = 0 then [] else malloc.loop.requests sbrk nunits fuel h (h.ptr p)
    else malloc.loop.requests sbrk nunits fuel h (h.ptr p)

def malloc.requests (base : Nat) (sbrk : Sbrk) (fuel : Nat) (h : Heap) (nbytes : Nat) : List Request :=
  let h := malloc.start base h
  malloc.loop.requests sbrk (units nbytes) fuel h (h.ptr h.freep)

/-- A block that `malloc` returns has room for the bytes after its header, and no request is wrong. -/
structure Serves (base : Nat) (sbrk : Sbrk) (h : Heap) (nbytes : Nat) : Prop where
  room : ∀ fuel h' ap calls, malloc base sbrk fuel h nbytes = some (h', ap, calls) → ap ≠ 0 →
    nbytes + 8 ≤ 8 * h'.size (ap - 8)
  requests : ∀ fuel, ∀ r ∈ malloc.requests base sbrk fuel h nbytes, r.Proper

/-- There is a block of `n` units among those that `freep` leads to. -/
def Available (h : Heap) (n : Nat) : Prop := h.freep ≠ 0 ∧ ∃ k, n ≤ h.size (h.ptr^[k] h.freep)

/-- The heap has not been used, or all memory from `sbrk` is in the blocks of the free list and other blocks. -/
def Intact (base : Nat) (h : Heap) : Prop :=
  (h.freep = 0 ∧ h.regions = []) ∨ ∃ live blocks, Parts h base live blocks

variable {base nunits fuel nbytes : Nat} {h : Heap} {blocks : List Block} {sbrk : Sbrk}

/-! ### Requests -/

theorem request_proper_iff : (morecore.request nunits).Proper ↔ nunits * 8 < 2 ^ 31 := by
  unfold morecore.request Request.Proper
  split <;> dsimp only <;> omega

/-- A request of the list is a call of `morecore` that `malloc` counts. -/
theorem length_requests {prevp p calls : Nat} {r : Heap × Nat × Nat}
    (result : malloc.loop sbrk nunits fuel h prevp p calls = some r) :
    r.2.2 = calls + (malloc.loop.requests sbrk nunits fuel h p).length := by
  induction fuel generalizing h prevp p calls with
  | zero => cases result
  | succ fuel ih =>
    unfold malloc.loop at result
    unfold malloc.loop.requests
    split at result
    · rename_i fits
      obtain rfl := Option.some.inj result
      rw [if_pos fits]
      rfl
    · rename_i small
      rw [if_neg small]
      split at result
      · rename_i back
        rw [if_pos back, List.length_cons]
        cases more : morecore sbrk fuel h nunits with
        | none =>
          rw [more] at result
          cases result
        | some answer =>
          rw [more] at result
          dsimp only at result ⊢
          split at result
          · rename_i zero
            obtain rfl := Option.some.inj result
            rw [if_pos zero]
            rfl
          · rename_i given
            rw [if_neg given, ih result]
            omega
      · rename_i other
        rw [if_neg other]
        exact ih result

/-- `malloc` calls `morecore` once for each of its requests. -/
theorem malloc_calls {r : Heap × Nat × Nat} (result : malloc base sbrk fuel h nbytes = some r) :
    r.2.2 = (malloc.requests base sbrk fuel h nbytes).length :=
  (length_requests result).trans (Nat.zero_add _)

theorem eq_of_mem_requests {p : Nat} {r : Request} (member : r ∈ malloc.loop.requests sbrk nunits fuel h p) :
    r = morecore.request nunits := by
  induction fuel generalizing h p with
  | zero => cases member
  | succ fuel ih =>
    unfold malloc.loop.requests at member
    split at member
    · cases member
    · split at member
      · rcases List.mem_cons.mp member with rfl | member
        · rfl
        · split at member
          · cases member
          · split at member
            · cases member
            · exact ih member
      · exact ih member

theorem requests_found {L : List Nat} {q x : Nat} (linked : Linked h.ptr (q :: (L ++ [x])))
    (small : ∀ a ∈ L, h.size a < nunits ∧ a ≠ h.freep) (fits : nunits ≤ h.size x) :
    malloc.loop.requests sbrk nunits fuel h (h.ptr q) = [] := by
  induction L generalizing q fuel with
  | nil =>
    rw [(linked_cons_cons.mp linked).1]
    cases fuel with
    | zero => rfl
    | succ fuel => rw [malloc.loop.requests, if_pos fits]
  | cons a L ih =>
    obtain ⟨step, rest⟩ := linked_cons_cons.mp linked
    obtain ⟨less, other⟩ := small a List.mem_cons_self
    rw [step]
    cases fuel with
    | zero => rfl
    | succ fuel =>
      rw [malloc.loop.requests, if_neg (Nat.not_le.mpr less), if_neg other]
      exact ih rest fun b member => small b (List.mem_cons_of_mem _ member)

theorem requests_back (sbrk : Sbrk) {L : List Nat} {q : Nat} (linked : Linked h.ptr (q :: (L ++ [h.freep])))
    (small : ∀ a ∈ L, h.size a < nunits ∧ a ≠ h.freep) (least : h.size h.freep < nunits) :
    morecore.request nunits ∈ malloc.loop.requests sbrk nunits (L.length + 1) h (h.ptr q) := by
  induction L generalizing q with
  | nil =>
    rw [(linked_cons_cons.mp linked).1, List.length_nil, malloc.loop.requests,
      if_neg (Nat.not_le.mpr least), if_pos rfl]
    exact List.mem_cons_self
  | cons a L ih =>
    obtain ⟨step, rest⟩ := linked_cons_cons.mp linked
    obtain ⟨less, other⟩ := small a List.mem_cons_self
    rw [step, List.length_cons, malloc.loop.requests, if_neg (Nat.not_le.mpr less), if_neg other]
    exact ih rest fun b member => small b (List.mem_cons_of_mem _ member)

/-- `malloc` requests memory exactly when no free block is large enough. -/
theorem FreeList.requests_eq_nil_iff (sbrk : Sbrk) (list : FreeList h base blocks) (positive : 0 < nunits) :
    (∀ fuel, malloc.loop.requests sbrk nunits fuel h (h.ptr h.freep) = []) ↔ ∃ b ∈ blocks, nunits ≤ b.size := by
  obtain ⟨f, x, L, here, -, linked, small, ends⟩ := list.walk positive
  rw [here] at linked
  have small : ∀ a ∈ L.map Block.addr, h.size a < nunits ∧ a ≠ h.freep := by
    intro a member
    obtain ⟨b, inside, rfl⟩ := List.mem_map.mp member
    exact small b inside
  rcases ends with ⟨fits, M, R, split⟩ | ⟨back, tooSmall⟩
  · have member : x ∈ root base :: blocks := by simp [split]
    have size := list.nodes.size x member
    refine iff_of_true (fun fuel => requests_found linked small (size ▸ fits)) ⟨x, ?_, fits⟩
    refine (List.mem_cons.mp member).resolve_left ?_
    rintro rfl
    exact absurd fits (Nat.not_le.mpr positive)
  · refine iff_of_false (fun none => ?_) fun ⟨b, member, fits⟩ =>
      absurd fits (Nat.not_le.mpr (tooSmall b (List.mem_cons_of_mem _ member)))
    obtain ⟨b, member, is⟩ := List.mem_map.mp list.freep
    have least : h.size h.freep < nunits := by
      rw [← is, list.nodes.size b member]
      exact tooSmall b member
    rw [back] at linked
    have asked := requests_back sbrk linked small least
    rw [none] at asked
    cases asked

theorem FreeList.available_iff (list : FreeList h base blocks) (static : 0 < base) (positive : 0 < nunits) :
    Available h nunits ↔ ∃ b ∈ blocks, nunits ≤ b.size := by
  have ring : Ring h.ptr base (blocks.map Block.addr) := list.nodes.linked
  have set : h.freep ≠ 0 := by
    have := list.base_le_freep
    omega
  constructor
  · rintro ⟨-, k, fits⟩
    have reached : h.ptr^[k] h.freep ∈ (root base :: blocks).map Block.addr := ring.iterate_mem list.freep k
    obtain ⟨b, member, is⟩ := List.mem_map.mp reached
    rw [← is, list.nodes.size b member] at fits
    refine ⟨b, (List.mem_cons.mp member).resolve_left ?_, fits⟩
    rintro rfl
    exact absurd fits (Nat.not_le.mpr positive)
  · rintro ⟨b, member, fits⟩
    obtain ⟨l₁, l₂, split⟩ := List.append_of_mem list.freep
    have around : Linked h.ptr (h.freep :: (l₂ ++ l₁)) := (ring.rotate split).left_of_append
    have inside : b.addr ∈ h.freep :: (l₂ ++ l₁) := by
      have : b.addr ∈ (root base :: blocks).map Block.addr := List.mem_map_of_mem (List.mem_cons_of_mem _ member)
      rw [split] at this
      simp only [List.mem_append, List.mem_cons] at this ⊢
      grind
    obtain ⟨k, is⟩ := around.iterate inside
    refine ⟨set, k, ?_⟩
    rw [is, list.nodes.size b (List.mem_cons_of_mem _ member)]
    exact fits

/-! ### Calls -/

theorem Intact.start (intact : Intact base h) (static : 0 < base) :
    ∃ live blocks, Parts (malloc.start base h) base live blocks ∧ (malloc.start base h).regions = h.regions ∧
      ∀ n, 0 < n → (Available h n ↔ ∃ b ∈ blocks, n ≤ b.size) := by
  rcases intact with ⟨unset, none⟩ | ⟨live, blocks, parts⟩
  · refine ⟨[], [], ?_, ?_, fun n _ => iff_of_false (fun available => available.1 unset) (by simp)⟩
    · rw [malloc.start, if_pos unset]
      exact parts_start h none
    · rw [malloc.start, if_pos unset]
      rfl
  · have same : malloc.start base h = h := if_neg (by have := parts.list.base_le_freep; omega)
    rw [same]
    exact ⟨live, blocks, parts, rfl, fun n positive => parts.list.available_iff static positive⟩

theorem units_pos (nbytes : Nat) : 0 < units nbytes := Nat.succ_pos _

theorem units_wrap (lt : nbytes < 2 ^ 32) (wraps : 2 ^ 32 ≤ nbytes + 7) : units nbytes = 1 := by
  unfold units
  omega

theorem le_units (fits : nbytes + 7 < 2 ^ 32) : nbytes + 8 ≤ 8 * units nbytes := by
  unfold units
  omega

theorem malloc_units {live : List Block} (parts : Parts (malloc.start base h) base live blocks) (static : 0 < base)
    (fresh : Fresh base sbrk) (small : units nbytes * 8 < 2 ^ 31 ∨ ∃ b ∈ blocks, units nbytes ≤ b.size) :
    ∃ n h' ap calls, malloc base sbrk n h nbytes = some (h', ap, calls) ∧
      (ap = 0 ∧ (∀ b ∈ blocks, b.size < units nbytes) ∧
          sbrk (malloc.start base h).regions ((if units nbytes < 4096 then 4096 else units nbytes) * 8) = none ∨
        (ap ≠ 0 ∧ h'.size (ap - 8) = units nbytes) ∧ ((∃ b ∈ blocks, units nbytes ≤ b.size) ∨
          sbrk (malloc.start base h).regions ((if units nbytes < 4096 then 4096 else units nbytes) * 8) ≠ none)) := by
  by_cases fits : units nbytes * 8 < 2 ^ 31
  · obtain ⟨h', ap, calls, blocks', result, -, ⟨zero, -, refused⟩ | ⟨⟨a, rfl, parts'⟩, given⟩⟩ :=
      loop_spec parts static fresh (units_pos nbytes) fits Nat.le.refl
    · exact ⟨2 * blocks.length + 3, h', ap, calls, result, Or.inl ⟨zero, refused⟩⟩
    · exact ⟨2 * blocks.length + 3, h', a + 8, calls, result,
        Or.inr ⟨⟨by omega, parts'.size _ List.mem_cons_self⟩, given⟩⟩
  · have large := small.resolve_left fits
    obtain ⟨k, -, y, x, walk, ⟨fits, M, R, split⟩ | ⟨-, tooSmall⟩⟩ := parts.list.loop sbrk (units_pos nbytes)
    · obtain ⟨h', a, blocks', found, parts'⟩ := loop_take sbrk parts split fits (units_pos nbytes) 0 0
      exact ⟨_, h', a + 8, 0, (walk _ _).trans found,
        Or.inr ⟨⟨by omega, parts'.size _ List.mem_cons_self⟩, Or.inl large⟩⟩
    · obtain ⟨b, member, enough⟩ := large
      exact absurd enough (Nat.not_le.mpr (tooSmall b (List.mem_cons_of_mem _ member)))

theorem malloc_unique {fuel' : Nat} {r r' : Heap × Nat × Nat} (first : malloc base sbrk fuel h nbytes = some r)
    (second : malloc base sbrk fuel' h nbytes = some r') : r = r' := by
  have first := loop_mono first (Nat.le_max_left fuel fuel')
  have second := loop_mono second (Nat.le_max_right fuel fuel')
  exact Option.some.inj (first.symm.trans second)

/-- The numbers in a call of `malloc` are right exactly when the request that it would make is a positive `int`, or
it makes none, and the bytes do not wrap around when they are rounded up, or it returns no block. -/
theorem malloc_serves_iff (intact : Intact base h) (static : 0 < base) (fresh : Fresh base sbrk)
    (lt : nbytes < 2 ^ 32) :
    Serves base sbrk h nbytes ↔
      (units nbytes * 8 < 2 ^ 31 ∨ Available h (units nbytes)) ∧
      (nbytes + 7 < 2 ^ 32 ∨ ¬ Available h (units nbytes) ∧ sbrk h.regions (4096 * 8) = none) := by
  obtain ⟨live, blocks, parts, regions, available⟩ := intact.start static
  have available := available _ (units_pos nbytes)
  have asks := parts.list.requests_eq_nil_iff sbrk (units_pos nbytes)
  rw [available]
  constructor
  · intro serves
    have small : units nbytes * 8 < 2 ^ 31 ∨ ∃ b ∈ blocks, units nbytes ≤ b.size := by
      by_contra wrong
      obtain ⟨large, none⟩ := not_or.mp wrong
      refine none (asks.mp fun fuel => List.eq_nil_iff_forall_not_mem.mpr fun r member => large ?_)
      have proper := serves.requests fuel r member
      rw [eq_of_mem_requests member] at proper
      exact request_proper_iff.mp proper
    refine ⟨small, ?_⟩
    by_contra wrong
    obtain ⟨wraps, served⟩ := not_or.mp wrong
    have one := units_wrap lt (Nat.not_lt.mp wraps)
    obtain ⟨n, h', ap, calls, result, ⟨-, none, refused⟩ | ⟨⟨nonnull, size⟩, -⟩⟩ :=
      malloc_units parts static fresh small
    · refine served ⟨fun ⟨b, member, fits⟩ => absurd fits (Nat.not_le.mpr (none b member)), ?_⟩
      rw [regions, one] at refused
      exact refused
    · have room := serves.room n h' ap calls result nonnull
      omega
  · rintro ⟨small, round⟩
    constructor
    · intro fuel h' ap calls result nonnull
      obtain ⟨n, h₁, ap₁, calls₁, result₁, ends⟩ := malloc_units parts static fresh small
      cases malloc_unique result result₁
      obtain ⟨⟨-, size⟩, given⟩ := ends.resolve_left fun ⟨zero, _⟩ => nonnull zero
      rw [size]
      by_cases fits : nbytes + 7 < 2 ^ 32
      · exact le_units fits
      · obtain ⟨missing, refused⟩ := round.resolve_left fits
        have given := given.resolve_left missing
        rw [regions, units_wrap lt (Nat.not_lt.mp fits)] at given
        exact absurd refused given
    · intro fuel r member
      rw [eq_of_mem_requests member, request_proper_iff]
      refine small.resolve_right fun fits => ?_
      rw [malloc.requests, asks.mpr fits] at member
      cases member

def unused : Heap := ⟨fun _ => 0, fun _ => 0, 0, []⟩

theorem intact_unused (base : Nat) : Intact base unused := Or.inl ⟨rfl, rfl⟩

theorem malloc_serves_iff_hundred : Serves 256 oneRegion unused 100 :=
  (malloc_serves_iff (intact_unused 256) (by decide) fresh_oneRegion (by decide)).mpr
    ⟨Or.inl (by decide), Or.inl (by decide)⟩

/-- The last bytes but seven make a request for nothing that counts as 2^29 units, and the last one makes a block
without room. -/
theorem malloc_wraps :
    malloc.requests 256 oneRegion 1 unused (2 ^ 32 - 8) = [⟨0, 2 ^ 29⟩] ∧ ¬ Serves 256 oneRegion unused (2 ^ 32 - 8) ∧
    (∃ h', malloc 256 oneRegion 9 unused (2 ^ 32 - 1) = some (h', 36864, 1) ∧ h'.size (36864 - 8) = 1) ∧
    ¬ Serves 256 oneRegion unused (2 ^ 32 - 1) := by
  have asked : malloc.requests 256 oneRegion 1 unused (2 ^ 32 - 8) = [⟨0, 2 ^ 29⟩] := rfl
  obtain ⟨h', result, size⟩ : ∃ h', malloc 256 oneRegion 9 unused (2 ^ 32 - 1) = some (h', 36864, 1) ∧
    h'.size (36864 - 8) = 1 := by
    refine ⟨_, rfl, ?_⟩
    rfl
  refine ⟨asked, fun serves => ?_, ⟨h', result, size⟩, fun serves => ?_⟩
  · have proper := serves.requests 1 ⟨0, 2 ^ 29⟩ (by rw [asked]; exact List.mem_singleton_self _)
    exact absurd proper (by decide)
  · have room := serves.room 9 h' _ 1 result (by decide)
    rw [size] at room
    omega

end Espl.Malloc
