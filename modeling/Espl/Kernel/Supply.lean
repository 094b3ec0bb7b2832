import Mathlib.Data.Finset.Card
import Espl.Kernel.OnDisk

/-!
# Room in the log and free blocks

What a write needs so that neither the log nor the data area runs out. A judgement may tolerate the
panics for either; then it needs nothing.
-/

namespace Espl.Kernel

/-- Besides the sectors `B` the log takes `k` more than it has. -/
def Spares (B : List Nat) (k : Nat) (s : State) : Prop :=
  ∃ others : List Nat, (∀ x ∈ s.log.sectors, x ∈ B ∨ x ∈ others) ∧
    B.length + others.length + k ≤ LOGSIZE ∧ B.length + others.length + k ≤ s.log.size - 1

def Pays (T : Terms signature State Panic) (B : List Nat) (k : Nat) (s : State) : Prop :=
  T.fault .logTooBig ∨ Spares B k s

def MetaUsed (g : Geometry) (A : Volume) : Prop := ∀ b < g.dataStart, A.used b = true

def freeBlocks (g : Geometry) (A : Volume) : Finset Nat := (Finset.range g.logStart).filter fun b => A.used b = false

structure Stocked (g : Geometry) (A : Volume) (n : Nat) : Prop where
  marked : MetaUsed g A
  free : n ≤ (freeBlocks g A).card

/-- There are `n` free blocks, or what `balloc` does is as taken for granted. -/
def Feeds (g : Geometry) (T : Terms signature State Panic) (A : Volume) (n : Nat) : Prop :=
  (T.fault .ballocFull ∧ ∀ {s t A b}, OnDisk g s A → FirstFree g A b → T.assume .balloc s →
    T.assume (.allocated b) t → g.InData b) ∨ Stocked g A n

section

variable {g : Geometry} {T : Terms signature State Panic} {s t : State} {A A' : Volume} {B C : List Nat} {b k n : Nat}

/-! ### The log -/

theorem Spares.room (h : Spares B k s) (log : LogInv s) : Room s k := by
  obtain ⟨others, within, max, size⟩ := h
  have le : s.log.sectors.length ≤ (B ++ others).length :=
    (log.nodup.subperm fun x member => List.mem_append.mpr (within x member)).length_le
  rw [List.length_append] at le
  exact ⟨by omega, by omega⟩

theorem Spares.mono {l : Nat} (h : Spares B k s) (le : l ≤ k) : Spares B l s := by
  obtain ⟨others, within, max, size⟩ := h
  exact ⟨others, within, by omega, by omega⟩

theorem Spares.cons (h : Spares B (k + 1) s) (x : Nat) : Spares (x :: B) k s := by
  obtain ⟨others, within, max, size⟩ := h
  refine ⟨others, fun y member => (within y member).imp_left (List.mem_cons_of_mem x), ?_, ?_⟩
  all_goals rw [List.length_cons]; omega

theorem Spares.drop (h : Spares (C ++ B) k s) : Spares B k s := by
  obtain ⟨others, within, max, size⟩ := h
  rw [List.length_append] at max size
  refine ⟨C ++ others, fun y member => ?_, ?_, ?_⟩
  · have := within y member
    simp only [List.mem_append] at this ⊢
    tauto
  all_goals rw [List.length_append]; omega

theorem Spares.keep {sec : Nat} {fill : Block} (h : Spares B k s) (known : sec ∈ B ∨ sec ∈ s.log.sectors) :
    Spares B k (s.logged sec fill) := by
  obtain ⟨others, within, max, size⟩ := h
  refine ⟨others, fun y member => ?_, max, size⟩
  rw [logged_sectors] at member
  split at member
  · exact within y member
  · rename_i absent
    rcases List.mem_append.mp member with old | new
    · exact within y old
    · obtain rfl := List.mem_singleton.mp new
      exact Or.inl (known.resolve_right absent)

theorem Spares.spend {sec : Nat} {fill : Block} (h : Spares B (k + 1) s) : Spares B k (s.logged sec fill) :=
  Spares.drop (C := [sec]) ((h.cons sec).keep (Or.inl (.head _)))

theorem spares_of_room (room : Room s (B.length + k)) : Spares B k s :=
  ⟨s.log.sectors, fun _ member => Or.inr member, by have := room.1; omega, by have := room.2; omega⟩

theorem Pays.mono {l : Nat} (h : Pays T B k s) (le : l ≤ k) : Pays T B l s := h.imp_right (·.mono le)

theorem Pays.cons (h : Pays T B (k + 1) s) (x : Nat) : Pays T (x :: B) k s := h.imp_right (·.cons x)

theorem Pays.drop (h : Pays T (C ++ B) k s) : Pays T B k s := h.imp_right Spares.drop

theorem Pays.keep {sec : Nat} {fill : Block} (h : Pays T B k s) (known : sec ∈ B ∨ sec ∈ s.log.sectors) :
    Pays T B k (s.logged sec fill) := h.imp_right (·.keep known)

theorem Pays.spend {sec : Nat} {fill : Block} (h : Pays T B (k + 1) s) : Pays T B k (s.logged sec fill) :=
  h.imp_right Spares.spend

theorem Pays.congr (h : Pays T B k s) (log : t.log = s.log) : Pays T B k t := by
  unfold Pays Spares at h ⊢
  rwa [log]

theorem Pays.full (h : Pays T B k s) (log : LogInv s) : ¬ Room s k → T.fault .logTooBig :=
  fun no => h.resolve_right fun spares => no (spares.room log)

theorem wp_paid {sec : Nat} {fill : Block} {Q : Unit → State → Prop}
    (busy : ∀ t : State, t.log.busy = true → T.point t) (open_ : s.log.busy = true) (log : LogInv s)
    (pays : Pays T B 1 s) (post : Room s 1 → Q () (s.logged sec fill)) : machine.wp T (logWrite sec fill) s Q :=
  wp_logs (busy s open_) busy (pays.full log) (fun idle => absurd (open_.symm.trans idle) (by decide))
    fun _ room => post room

/-! ### Free blocks -/

theorem FirstFree.inData (h : FirstFree g A b) (marked : MetaUsed g A) :
    g.InData b ↔ ∃ c, g.InData c ∧ A.used c = false := by
  constructor
  · exact fun inData => ⟨b, inData, h.free⟩
  · rintro ⟨c, inData, free⟩
    have le : b ≤ c := by
      by_contra lt
      rw [h.first c (by omega)] at free
      cases free
    refine ⟨?_, lt_of_le_of_lt le inData.2⟩
    by_contra low
    have used := marked b (by omega)
    rw [h.free] at used
    cases used

theorem Stocked.some (h : Stocked g A (n + 1)) : ∃ b, g.InData b ∧ A.used b = false := by
  obtain ⟨b, member⟩ := Finset.card_pos.mp (Nat.lt_of_lt_of_le (Nat.succ_pos n) h.free)
  rw [freeBlocks, Finset.mem_filter, Finset.mem_range] at member
  refine ⟨b, ⟨?_, member.1⟩, member.2⟩
  by_contra low
  have used := h.marked b (by omega)
  rw [member.2] at used
  cases used

theorem Stocked.alloc (h : Stocked g A (n + 1)) (inData : g.InData b) (free : A.used b = false) :
    Stocked g (A.alloc b) n := by
  have rest : freeBlocks g (A.alloc b) = (freeBlocks g A).erase b := by
    ext c
    rw [Finset.mem_erase, freeBlocks, freeBlocks, Finset.mem_filter, Finset.mem_filter, Volume.alloc_used]
    by_cases eq : c = b
    · subst eq
      simp
    · simp [eq, upd_ne _ _ eq]
  have member : b ∈ freeBlocks g A := Finset.mem_filter.mpr ⟨Finset.mem_range.mpr inData.2, free⟩
  refine ⟨fun c hc => ?_, ?_⟩
  · rw [Volume.alloc_used, upd_ne _ _ (by have := inData.1; omega)]
    exact h.marked c hc
  · have := h.free
    rw [rest, Finset.card_erase_of_mem member]
    omega

theorem Feeds.mono {m : Nat} (h : Feeds g T A n) (le : m ≤ n) : Feeds g T A m :=
  h.imp_right fun stocked => ⟨stocked.marked, le.trans stocked.free⟩

theorem Feeds.congr (h : Feeds g T A n) (used : A'.used = A.used) : Feeds g T A' n := by
  refine h.imp_right fun stocked => ⟨?_, ?_⟩
  · unfold MetaUsed
    rw [used]
    exact stocked.marked
  · unfold freeBlocks
    rw [used]
    exact stocked.free

/-! ### Both -/

/-- `n` blocks can be allocated and `k` sectors besides `B` logged. -/
structure Means (g : Geometry) (T : Terms signature State Panic) (B : List Nat) (s : State) (A : Volume) (n k : Nat) :
    Prop where
  feeds : Feeds g T A n
  pays : Pays T B k s

def HasMap (g : Geometry) (B : List Nat) : Prop := ∀ b < g.size, bblock b g.ninodes ∈ B

theorem HasMap.append (h : HasMap g B) (C : List Nat) : HasMap g (C ++ B) :=
  fun b hb => List.mem_append_right C (h b hb)

theorem Means.mono {m l : Nat} (h : Means g T B s A n k) (le : m ≤ n) (le' : l ≤ k) : Means g T B s A m l :=
  ⟨h.feeds.mono le, h.pays.mono le'⟩

theorem Means.cons (h : Means g T B s A n (k + 1)) (x : Nat) : Means g T (x :: B) s A n k := ⟨h.feeds, h.pays.cons x⟩

theorem Means.keep {sec : Nat} {fill : Block} (h : Means g T B s A n k) (known : sec ∈ B) :
    Means g T B (s.logged sec fill) A n k :=
  ⟨h.feeds, h.pays.keep (Or.inl known)⟩

theorem Means.congr (h : Means g T B s A n k) (log : t.log = s.log) (used : A'.used = A.used) : Means g T B t A' n k :=
  ⟨h.feeds.congr used, h.pays.congr log⟩

theorem wp_balloc_fed {Q : Nat → State → Prop} (busy : ∀ t : State, t.log.busy = true → T.point t)
    (open_ : s.log.busy = true) (h : OnDisk g s A) (maps : HasMap g B) (means : Means g T B s A (n + 1) (k + 2))
    (post : ∀ b t, A.used b = false → g.InData b → Logs s t → OnDisk g t (A.alloc b) →
      Means g T (b :: B) t (A.alloc b) n (k + 1) → Q b t) : machine.wp T balloc s Q := by
  obtain ⟨feeds, pays⟩ := means
  refine wp_balloc h (busy s open_) busy ((pays.mono (by omega)).full h.log)
    (fun idle => absurd (open_.symm.trans idle) (by decide)) (fun all => ?_)
    fun b t first _ allocated called returned after => ?_
  · rcases feeds with tolerated | stocked
    · exact tolerated.1
    · obtain ⟨b, inData, free⟩ := stocked.some
      rw [all b inData.lt_size] at free
      cases free
  · have inData : g.InData b := by
      rcases feeds with granted | stocked
      · exact granted.2 h first called returned
      · exact (first.inData stocked.marked).mpr stocked.some
    have means' : Means g T B s (A.alloc b) n (k + 2) := ⟨feeds.imp_right (·.alloc inData first.free), pays⟩
    have logs := allocated.logs
    obtain ⟨fill, rfl⟩ := allocated
    exact post b _ first.free inData logs (after inData)
      (((means'.cons b).keep (List.mem_cons_of_mem b (maps b first.lt))).keep (.head _))

theorem wp_iupdate {ip : Nat} {Q : Unit → State → Prop} (busy : ∀ t : State, t.log.busy = true → T.point t)
    (open_ : s.log.busy = true) (h : OnDisk g s A) (pays : Pays T B 1 s) (lt : (s.icache ip).inum < g.ninodes)
    (fits : (s.icache ip).din.Fits)
    (post : ∀ fill, OnDisk g (s.logged (iblock (s.icache ip).inum) fill)
      (A.setDin (s.icache ip).inum (s.icache ip).din) → Q () (s.logged (iblock (s.icache ip).inum) fill)) :
    machine.wp T (iupdate ip) s Q := by
  have here := busy s open_
  refine ⟨here, fun _ => ⟨here, fun _ => ?_⟩⟩
  exact wp_paid busy open_ h.log pays fun room => post _ (h.setDin room lt fits)

end

end Espl.Kernel
