import Mathlib.Data.List.GetD
import Espl.Disk.Layout

/-!
# Volumes

A volume is what the blocks of a file system say: the inode table, the free map and the data blocks.
An inode holds blocks in slots: the direct ones, the indirect block and the entries of that. The
invariant is that no block is held twice, that held blocks are marked used, and that an inode maps
exactly the blocks its size needs.
-/

namespace Espl

/-- The regions of a disk: boot and super block, inodes, free map, data, log. -/
structure Geometry where
  size : Nat
  ninodes : Nat
  nlog : Nat
  small : size < 2 ^ 32
  fits : ninodes / IPB + 3 + (size / BPB + 1) + nlog ≤ size

namespace Geometry

variable (g : Geometry)

def mapStart : Nat := g.ninodes / IPB + 3

def dataStart : Nat := g.mapStart + (g.size / BPB + 1)

def logStart : Nat := g.size - g.nlog

def InData (b : Nat) : Prop := g.dataStart ≤ b ∧ b < g.logStart

instance (b : Nat) : Decidable (g.InData b) := inferInstanceAs (Decidable (_ ∧ _))

variable {g}

theorem InData.ne_zero {b : Nat} (h : g.InData b) : b ≠ 0 := by
  have := h.1
  simp only [dataStart, BPB] at this
  omega

theorem InData.lt_size {b : Nat} (h : g.InData b) : b < g.size := by
  have := h.2
  unfold logStart at this
  omega

theorem InData.lt_pow {b : Nat} (h : g.InData b) : b < 2 ^ 32 := h.lt_size.trans g.small

theorem mapStart_bounds (g : Geometry) : 3 ≤ g.mapStart ∧ g.mapStart < g.dataStart ∧ g.dataStart ≤ g.logStart := by
  have := g.fits
  simp only [dataStart, logStart, mapStart, IPB, BPB] at *
  omega

theorem iblock_bounds {i : Nat} (h : i < g.ninodes) : 2 ≤ iblock i ∧ iblock i < g.mapStart := by
  simp only [iblock, mapStart, IPB]
  omega

theorem bblock_bounds {b : Nat} (h : b < g.size) :
    g.mapStart ≤ bblock b g.ninodes ∧ bblock b g.ninodes < g.dataStart := by
  simp only [bblock, dataStart, mapStart, IPB, BPB]
  omega

end Geometry

/-- The inode table, the free map and the blocks of the data area. -/
structure Volume where
  din : Nat → Dinode
  used : Nat → Bool
  data : Nat → Block

namespace Volume

def alloc (A : Volume) (b : Nat) : Volume := { A with used := upd A.used b true, data := upd A.data b Block.zero }

def free (A : Volume) (b : Nat) : Volume := { A with used := upd A.used b false }

def setDin (A : Volume) (i : Nat) (d : Dinode) : Volume := { A with din := upd A.din i d }

def setData (A : Volume) (b : Nat) (fill : Block) : Volume := { A with data := upd A.data b fill }

@[simp] theorem alloc_used (A : Volume) (b : Nat) : (A.alloc b).used = upd A.used b true := rfl

@[simp] theorem alloc_data (A : Volume) (b : Nat) : (A.alloc b).data = upd A.data b Block.zero := rfl

@[simp] theorem setDin_din (A : Volume) (i : Nat) (d : Dinode) : (A.setDin i d).din = upd A.din i d := rfl

@[simp] theorem setDin_data (A : Volume) (i : Nat) (d : Dinode) : (A.setDin i d).data = A.data := rfl

@[simp] theorem setData_data (A : Volume) (b : Nat) (fill : Block) : (A.setData b fill).data = upd A.data b fill :=
  rfl

end Volume

/-- The blocks `d` are a disk with the volume `A`. -/
structure Reads (g : Geometry) (d : Nat → Block) (A : Volume) : Prop where
  superSize : (d 1).word 0 = g.size
  superInodes : (d 1).word 2 = g.ninodes
  din : ∀ i < g.ninodes, (d (iblock i)).dinode (i % IPB) = A.din i
  used : ∀ b < g.size, (d (bblock b g.ninodes)).bit (b % BPB) = A.used b
  data : ∀ b, g.InData b → d b = A.data b

theorem Reads.congr {g : Geometry} {d d' : Nat → Block} {A : Volume} (h : Reads g d A)
    (same : ∀ x < g.logStart, d' x = d x) : Reads g d' A := by
  have bounds := g.mapStart_bounds
  refine ⟨?_, ?_, fun i hi => ?_, fun b hb => ?_, fun b hb => ?_⟩
  · rw [same 1 (by omega)]
    exact h.superSize
  · rw [same 1 (by omega)]
    exact h.superInodes
  · rw [same _ (by have := (Geometry.iblock_bounds hi).2; omega)]
    exact h.din i hi
  · rw [same _ (by have := (Geometry.bblock_bounds hb).2; omega)]
    exact h.used b hb
  · rw [same b hb.2]
    exact h.data b hb

/-- Slots of an inode: direct blocks, the indirect block, the entries of that. -/
abbrev NSLOT : Nat := NDIRECT + 1 + NINDIRECT

/-- The block address in slot `k` of an inode, 0 for none. -/
def slot (data : Nat → Block) (d : Dinode) (k : Nat) : Nat :=
  if k ≤ NDIRECT then d.addr k
  else if d.addr NDIRECT = 0 then 0
  else (data (d.addr NDIRECT)).word (k - (NDIRECT + 1))

def slotOf (bn : Nat) : Nat := if bn < NDIRECT then bn else bn + 1

def blockOf (data : Nat → Block) (d : Dinode) (bn : Nat) : Nat := slot data d (slotOf bn)

theorem slot_direct (data : Nat → Block) (d : Dinode) {k : Nat} (h : k ≤ NDIRECT) : slot data d k = d.addr k :=
  if_pos h

theorem slot_entry (data : Nat → Block) {d : Dinode} {k : Nat} (h : NDIRECT < k) (ind : d.addr NDIRECT ≠ 0) :
    slot data d k = (data (d.addr NDIRECT)).word (k - (NDIRECT + 1)) := by
  rw [slot, if_neg (by omega), if_neg ind]

theorem slot_congr {data data' : Nat → Block} {d d' : Dinode} (addr : ∀ i, d'.addr i = d.addr i)
    (ind : d.addr NDIRECT ≠ 0 → data' (d.addr NDIRECT) = data (d.addr NDIRECT)) (k : Nat) :
    slot data' d' k = slot data d k := by
  unfold slot
  rw [addr, addr]
  split
  · rfl
  · split
    · rfl
    · rename_i present
      rw [ind present]

theorem slotOf_lt {bn : Nat} (h : bn < MAXFILE) : slotOf bn < NSLOT := by
  simp only [MAXFILE, NDIRECT, NINDIRECT] at h
  unfold slotOf
  simp only [NSLOT, NDIRECT, NINDIRECT]
  split <;> omega

theorem slotOf_ne (bn : Nat) : slotOf bn ≠ NDIRECT := by
  unfold slotOf
  simp only [NDIRECT]
  split <;> omega

theorem slotOf_inj {a b : Nat} (h : slotOf a = slotOf b) : a = b := by
  unfold slotOf at h
  simp only [NDIRECT] at h
  split at h <;> split at h <;> omega

theorem blockOf_direct (data : Nat → Block) (d : Dinode) {bn : Nat} (h : bn < NDIRECT) :
    blockOf data d bn = d.addr bn := by
  rw [blockOf, slotOf, if_pos h, slot_direct _ _ (Nat.le_of_lt h)]

theorem blockOf_entry (data : Nat → Block) {d : Dinode} {bn : Nat} (h : NDIRECT ≤ bn) (ind : d.addr NDIRECT ≠ 0) :
    blockOf data d bn = (data (d.addr NDIRECT)).word (bn - NDIRECT) := by
  rw [blockOf, slotOf, if_neg (by omega), slot_entry _ (by omega) ind,
    show bn + 1 - (NDIRECT + 1) = bn - NDIRECT by omega]

theorem blockOf_absent (data : Nat → Block) {d : Dinode} {bn : Nat} (h : NDIRECT ≤ bn) (ind : d.addr NDIRECT = 0) :
    blockOf data d bn = 0 := by
  rw [blockOf, slotOf, if_neg (by omega), slot, if_neg (by omega), if_pos ind]

/-! ### Ownership -/

structure Holds (g : Geometry) (D : Nat → Dinode) (data : Nat → Block) (i k b : Nat) : Prop where
  inode : i < g.ninodes
  allocated : (D i).type ≠ 0
  lt : k < NSLOT
  at_slot : slot data (D i) k = b
  ne_zero : b ≠ 0

/-- Every block that an inode holds is in the data area, marked used, and held nowhere else. -/
structure Owned (g : Geometry) (D : Nat → Dinode) (used : Nat → Bool) (data : Nat → Block) : Prop where
  inData : ∀ {i k b}, Holds g D data i k b → g.InData b
  marked : ∀ {i k b}, Holds g D data i k b → used b = true
  unique : ∀ {i k j l b}, Holds g D data i k b → Holds g D data j l b → i = j ∧ k = l

/-- An inode maps the blocks that its size needs, and no others. -/
structure Mapped (data : Nat → Block) (d : Dinode) : Prop where
  block : ∀ bn < MAXFILE, blockOf data d bn ≠ 0 ↔ bn * BSIZE < d.size
  indirect : d.addr NDIRECT ≠ 0 ↔ NDIRECT * BSIZE < d.size
  size : d.size ≤ MAXFILE * BSIZE

variable {g : Geometry} {D : Nat → Dinode} {used : Nat → Bool} {data : Nat → Block}

theorem Owned.unheld {b : Nat} (h : Owned g D used data) (free : used b = false) {i k : Nat} :
    ¬ Holds g D data i k b := by
  intro held
  have := h.marked held
  rw [free] at this
  cases this

theorem holds_data {data' : Nat → Block} {i : Nat}
    (same : ∀ b, Holds g D data i NDIRECT b → data' b = data b) {k b : Nat} :
    Holds g D data' i k b ↔ Holds g D data i k b := by
  have slots : i < g.ninodes → (D i).type ≠ 0 → slot data' (D i) k = slot data (D i) k := by
    intro inode allocated
    refine slot_congr (fun _ => rfl) (fun present => same _ ⟨inode, allocated, by decide, ?_, present⟩) k
    exact slot_direct data _ Nat.le.refl
  constructor
  · intro ⟨inode, allocated, lt, at_slot, ne⟩
    exact ⟨inode, allocated, lt, (slots inode allocated) ▸ at_slot, ne⟩
  · intro ⟨inode, allocated, lt, at_slot, ne⟩
    exact ⟨inode, allocated, lt, (slots inode allocated).trans at_slot, ne⟩

theorem Owned.congr {D' : Nat → Dinode} {used' : Nat → Bool} {data' : Nat → Block} (h : Owned g D used data)
    (holds : ∀ {i k b}, Holds g D' data' i k b → Holds g D data i k b)
    (marks : ∀ {i k b}, Holds g D' data' i k b → used b = true → used' b = true) : Owned g D' used' data' :=
  ⟨fun held => h.inData (holds held), fun held => marks held (h.marked (holds held)),
    fun a b => h.unique (holds a) (holds b)⟩

theorem Owned.alloc {b : Nat} (h : Owned g D used data) (free : used b = false) (fill : Block) :
    Owned g D (upd used b true) (upd data b fill) := by
  have same : ∀ {i k c}, Holds g D (upd data b fill) i k c ↔ Holds g D data i k c := by
    intro i k c
    refine holds_data fun c held => upd_ne _ _ ?_
    rintro rfl
    exact h.unheld free held
  refine h.congr same.mp fun {i k c} held marked => ?_
  by_cases eq : c = b
  · rw [eq, upd_same]
  · rw [upd_ne _ _ eq, marked]

theorem Owned.header {i : Nat} {d : Dinode} (h : Owned g D used data) (addr : ∀ k, d.addr k = (D i).addr k)
    (type : d.type ≠ 0 → (D i).type ≠ 0) : Owned g (upd D i d) used data := by
  refine h.congr (fun {j k b} held => ?_) fun _ => id
  by_cases same : j = i
  · subst same
    have allocated := held.allocated
    have at_slot := held.at_slot
    rw [upd_same] at allocated at_slot
    exact ⟨held.inode, type allocated, held.lt, (slot_congr addr (fun _ => rfl) k) ▸ at_slot, held.ne_zero⟩
  · have allocated := held.allocated
    have at_slot := held.at_slot
    rw [upd_ne _ _ same] at allocated at_slot
    exact ⟨held.inode, allocated, held.lt, at_slot, held.ne_zero⟩

theorem Owned.detach {i : Nat} {d : Dinode} (h : Owned g D used data) (addr : ∀ k, d.addr k = 0) :
    Owned g (upd D i d) used data := by
  refine h.congr (fun {j k b} held => ?_) fun _ => id
  by_cases same : j = i
  · subst same
    have at_slot := held.at_slot
    rw [upd_same, slot, addr, addr] at at_slot
    simp only [if_true, ite_self] at at_slot
    exact absurd at_slot.symm held.ne_zero
  · have allocated := held.allocated
    have at_slot := held.at_slot
    rw [upd_ne _ _ same] at allocated at_slot
    exact ⟨held.inode, allocated, held.lt, at_slot, held.ne_zero⟩

theorem Owned.add {D' : Nat → Dinode} {data' : Nat → Block} {i k b : Nat} (h : Owned g D used data)
    (holds : ∀ {j l c}, Holds g D' data' j l c → Holds g D data j l c ∨ j = i ∧ l = k ∧ c = b)
    (fresh : ∀ j l, ¬ Holds g D data j l b) (inData : g.InData b) (marked : used b = true) :
    Owned g D' used data' := by
  refine ⟨fun held => ?_, fun held => ?_, fun {j l j' l' c} a a' => ?_⟩
  · rcases holds held with old | ⟨-, -, rfl⟩
    · exact h.inData old
    · exact inData
  · rcases holds held with old | ⟨-, -, rfl⟩
    · exact h.marked old
    · exact marked
  · rcases holds a with old | ⟨rfl, rfl, rfl⟩ <;> rcases holds a' with old' | ⟨rfl, rfl, eq⟩
    · exact h.unique old old'
    · exact absurd (eq ▸ old) (fresh j l)
    · exact absurd old' (fresh j' l')
    · exact ⟨rfl, rfl⟩

theorem Owned.attach {i k b : Nat} (h : Owned g D used data) (hk : k ≤ NDIRECT)
    (fresh : ∀ j l, ¬ Holds g D data j l b) (inData : g.InData b) (marked : used b = true)
    (empty : k = NDIRECT → (D i).addr NDIRECT = 0 ∧ ∀ w, (data b).word w = 0) :
    Owned g (upd D i ((D i).setAddr k b)) used data := by
  refine h.add (i := i) (k := k) (fun {j l c} held => ?_) fresh inData marked
  have allocated := held.allocated
  have at_slot := held.at_slot
  by_cases same : j = i
  · subst same
    rw [upd_same] at allocated at_slot
    by_cases new : l = k
    · subst new
      rw [slot_direct data _ hk, Dinode.addr_setAddr_same _ _ hk] at at_slot
      exact Or.inr ⟨rfl, rfl, at_slot.symm⟩
    · refine Or.inl ⟨held.inode, allocated, held.lt, ?_, held.ne_zero⟩
      rw [← at_slot]
      by_cases direct : l ≤ NDIRECT
      · rw [slot_direct data _ direct, slot_direct data _ direct, Dinode.addr_setAddr_ne _ _ new]
      · by_cases ind : k = NDIRECT
        · -- a new indirect block has no entries yet
          obtain ⟨none, blank⟩ := empty ind
          have addr : ((D j).setAddr k b).addr NDIRECT = b := by
            rw [ind, Dinode.addr_setAddr_same _ _ Nat.le.refl]
          rw [slot_entry data (by omega) (by rw [addr]; exact inData.ne_zero), addr, blank] at at_slot
          exact absurd at_slot.symm held.ne_zero
        · unfold slot
          rw [if_neg direct, if_neg direct, Dinode.addr_setAddr_ne _ _ (Ne.symm ind)]
  · rw [upd_ne _ _ same] at allocated at_slot
    exact Or.inl ⟨held.inode, allocated, held.lt, at_slot, held.ne_zero⟩

theorem Owned.holds_store {i k b : Nat} (h : Owned g D used data) (held : Holds g D data i k b)
    (direct : k ≠ NDIRECT) (fill : Block) {j l c : Nat} :
    Holds g D (upd data b fill) j l c ↔ Holds g D data j l c := by
  refine holds_data fun c ind => upd_ne _ _ ?_
  rintro rfl
  exact direct (h.unique held ind).2

theorem Owned.store {i k b : Nat} (h : Owned g D used data) (held : Holds g D data i k b)
    (direct : k ≠ NDIRECT) (fill : Block) : Owned g D used (upd data b fill) :=
  h.congr (h.holds_store held direct fill).mp fun _ => id

theorem Owned.attachEntry {i w ind b : Nat} (h : Owned g D used data) (held : Holds g D data i NDIRECT ind)
    (hw : w < NINDIRECT) (fresh : ∀ j l, ¬ Holds g D data j l b) (inData : g.InData b)
    (marked : used b = true) : Owned g D used (upd data ind ((data ind).setWord w b)) := by
  have addr : (D i).addr NDIRECT = ind := by
    rw [← held.at_slot]
    exact (slot_direct data _ Nat.le.refl).symm
  have others : ∀ {j l c}, j ≠ i → (Holds g D (upd data ind ((data ind).setWord w b)) j l c ↔
      Holds g D data j l c) := by
    intro j l c ne
    refine holds_data fun c held' => upd_ne _ _ ?_
    rintro rfl
    exact ne (h.unique held' held).1
  refine h.add (i := i) (k := NDIRECT + 1 + w) (fun {j l c} new => ?_) fresh inData marked
  by_cases same : j = i
  · subst same
    have at_slot := new.at_slot
    by_cases direct : l ≤ NDIRECT
    · rw [slot_direct _ _ direct] at at_slot
      exact Or.inl ⟨new.inode, new.allocated, new.lt, (slot_direct data _ direct).trans at_slot, new.ne_zero⟩
    · have lt := new.lt
      simp only [NSLOT, NDIRECT, NINDIRECT] at lt direct hw
      rw [slot_entry _ (by simp only [NDIRECT]; omega) (by rw [addr]; exact held.ne_zero), addr, upd_same]
        at at_slot
      by_cases here : l - 13 = w
      · rw [here, Block.word_setWord_same _ _ hw, Nat.mod_eq_of_lt inData.lt_pow] at at_slot
        exact Or.inr ⟨rfl, by simp only [NDIRECT]; omega, at_slot.symm⟩
      · rw [Block.word_setWord_ne _ _ (by omega) here] at at_slot
        refine Or.inl ⟨new.inode, new.allocated, new.lt, ?_, new.ne_zero⟩
        rw [slot_entry _ (by simp only [NDIRECT]; omega) (by rw [addr]; exact held.ne_zero), addr]
        exact at_slot
  · exact Or.inl ((others same).mp new)

/-! ### Contents -/

def byteOf (data : Nat → Block) (d : Dinode) (k : Nat) : UInt8 :=
  (data (blockOf data d (k / BSIZE))).byte (k % BSIZE)

def contents (data : Nat → Block) (d : Dinode) : List UInt8 := (List.range d.size).map (byteOf data d)

section

variable (data) (d : Dinode)

@[simp] theorem contents_length : (contents data d).length = d.size := by
  simp [contents]

theorem contents_getElem {k : Nat} (h : k < (contents data d).length) :
    (contents data d)[k] = byteOf data d k := by
  simp [contents]

theorem contents_slice (off n : Nat) :
    ((contents data d).drop off).take n = (List.range (min n (d.size - off))).map fun j => byteOf data d (off + j) := by
  apply List.ext_getElem
  · simp
  · intro j hj hj'
    simp [contents]

theorem slice_block {off m : Nat} (fit : m ≤ BSIZE - off % BSIZE) :
    (data (blockOf data d (off / BSIZE))).slice (off % BSIZE) m = (List.range m).map fun j =>
      byteOf data d (off + j) := by
  apply List.map_congr_left
  intro j hj
  have lt := List.mem_range.mp hj
  have same : (off + j) / BSIZE = off / BSIZE ∧ (off + j) % BSIZE = off % BSIZE + j := by
    simp only [BSIZE] at *
    omega
  rw [byteOf, same.1, same.2]

end

theorem lt_of_mapped {d : Dinode} (mapped : Mapped data d) {k : Nat} (h : k < d.size) : k / BSIZE < MAXFILE := by
  have := mapped.size
  simp only [MAXFILE, NDIRECT, NINDIRECT, BSIZE] at this ⊢
  omega

theorem holds_of_mapped {i : Nat} (inode : i < g.ninodes) (allocated : (D i).type ≠ 0)
    (mapped : Mapped data (D i)) {k : Nat} (h : k < (D i).size) :
    Holds g D data i (slotOf (k / BSIZE)) (blockOf data (D i) (k / BSIZE)) := by
  have lt := lt_of_mapped mapped h
  refine ⟨inode, allocated, slotOf_lt lt, rfl, (mapped.block _ lt).mpr ?_⟩
  simp only [BSIZE]
  omega

/-- The blocks of all inodes but `i` have the same contents in `data` and `data'`. -/
def Apart (g : Geometry) (D : Nat → Dinode) (i : Nat) (data data' : Nat → Block) : Prop :=
  ∀ ⦃j k b⦄, j ≠ i → Holds g D data j k b → data' b = data b

theorem Apart.refl (g : Geometry) (D : Nat → Dinode) (i : Nat) (data : Nat → Block) : Apart g D i data data :=
  fun _ _ _ _ _ => rfl

section

variable {i j : Nat} {data' : Nat → Block} (h : Apart g D i data data') (ne : j ≠ i)

include h ne

theorem Apart.holds {k b : Nat} :
    Holds g D data' j k b ↔ Holds g D data j k b :=
  holds_data fun _ held => h ne held

variable (inode : j < g.ninodes) (allocated : (D j).type ≠ 0)

include inode allocated

theorem Apart.slot (k : Nat) : slot data' (D j) k = slot data (D j) k :=
  slot_congr (fun _ => rfl)
    (fun present => h ne ⟨inode, allocated, by decide, slot_direct data _ Nat.le.refl, present⟩) k

theorem Apart.mapped (mapped : Mapped data (D j)) : Mapped data' (D j) := by
  refine ⟨fun bn hbn => ?_, mapped.indirect, mapped.size⟩
  rw [blockOf, h.slot ne inode allocated]
  exact mapped.block bn hbn

theorem Apart.byteOf {k : Nat} (mapped : Mapped data (D j)) (lt : k / BSIZE * BSIZE < (D j).size) :
    byteOf data' (D j) k = byteOf data (D j) k := by
  have held := holds_of_mapped inode allocated mapped lt
  rw [Nat.mul_div_cancel _ (by decide)] at held
  rw [Espl.byteOf, Espl.byteOf, blockOf, h.slot ne inode allocated]
  congr 1
  exact h ne held

theorem Apart.contents (mapped : Mapped data (D j)) : contents data' (D j) = contents data (D j) := by
  apply List.map_congr_left
  intro k hk
  exact h.byteOf ne inode allocated mapped (lt_of_le_of_lt (Nat.div_mul_le_self _ _) (List.mem_range.mp hk))

end

theorem Apart.trans {i : Nat} {data' data'' : Nat → Block} (h : Apart g D i data data')
    (h' : Apart g D i data' data'') : Apart g D i data data'' :=
  fun _ _ _ ne held => (h' ne ((h.holds ne).mpr held)).trans (h ne held)

/-! ### An inode being written -/

structure InCore (g : Geometry) (A : Volume) (i : Nat) (c : Dinode) : Prop where
  inode : i < g.ninodes
  allocated : c.type ≠ 0
  fits : c.Fits
  owned : Owned g (upd A.din i c) A.used A.data

structure Open (g : Geometry) (A : Volume) (i : Nat) (c : Dinode) (v : Nat) : Prop extends InCore g A i c where
  mapped : Mapped A.data { c with size := v }

theorem slot_size (data : Nat → Block) (c : Dinode) (v k : Nat) : slot data { c with size := v } k = slot data c k :=
  rfl

theorem slot_setAddr_ne (data : Nat → Block) (d : Dinode) (a : Nat) {l k : Nat} (ind : l ≠ NDIRECT) (ne : k ≠ l) :
    slot data (d.setAddr l a) k = slot data d k := by
  unfold slot
  rw [Dinode.addr_setAddr_ne _ _ ne, Dinode.addr_setAddr_ne _ _ (Ne.symm ind)]

theorem Mapped.resize {c : Dinode} {v w : Nat} (h : Mapped data { c with size := v })
    (same : (w + BSIZE - 1) / BSIZE = (v + BSIZE - 1) / BSIZE) : Mapped data { c with size := w } := by
  have size := h.size
  simp only [BSIZE, MAXFILE, NDIRECT, NINDIRECT] at same size
  refine ⟨fun bn hbn => (h.block bn hbn).trans ?_, h.indirect.trans ?_, ?_⟩
  · simp only [BSIZE]
    omega
  · simp only [BSIZE, NDIRECT]
    omega
  · simp only [BSIZE, MAXFILE, NDIRECT, NINDIRECT]
    omega

theorem mapped_upTo {c : Dinode} {bn : Nat} (lt : bn < MAXFILE)
    (blocks : ∀ bn' < MAXFILE, blockOf data c bn' ≠ 0 ↔ bn' ≤ bn) (ind : c.addr NDIRECT ≠ 0 ↔ NDIRECT ≤ bn) :
    Mapped data { c with size := bn * BSIZE + 1 } := by
  simp only [MAXFILE, NDIRECT, NINDIRECT] at lt
  refine ⟨fun bn' hbn' => (blocks bn' hbn').trans ?_, ind.trans ?_, ?_⟩
  · simp only [BSIZE]
    omega
  · simp only [BSIZE, NDIRECT]
    omega
  · simp only [BSIZE, MAXFILE, NDIRECT, NINDIRECT]
    omega

/-- What `bmap` makes of an inode with blocks for `v` bytes when it returns block `b` for index `bn`. -/
structure Extended (g : Geometry) (A : Volume) (i : Nat) (c : Dinode) (v bn : Nat) (A' : Volume) (c' : Dinode)
    (b : Nat) : Prop where
  now_open : Open g A' i c' (max v (bn * BSIZE + 1))
  din : A'.din = A.din
  header : c'.SameHeader c
  still : bn * BSIZE < v → c' = c ∧ A' = A
  block : blockOf A'.data c' bn = b
  fresh : v ≤ bn * BSIZE → A'.data b = Block.zero
  bytes : ∀ k < v, byteOf A'.data c' k = byteOf A.data c k
  apart : Apart g A.din i A.data A'.data

section

variable {A : Volume} {i v bn : Nat} {c : Dinode}

theorem holds_upd {j k b : Nat} (ne : j ≠ i) : Holds g (upd D i c) data j k b ↔ Holds g D data j k b := by
  constructor
  · intro ⟨inode, allocated, lt, at_slot, nz⟩
    rw [upd_ne _ _ ne] at allocated at_slot
    exact ⟨inode, allocated, lt, at_slot, nz⟩
  · intro ⟨inode, allocated, lt, at_slot, nz⟩
    rw [← upd_ne D c ne] at allocated at_slot
    exact ⟨inode, allocated, lt, at_slot, nz⟩

theorem InCore.holds_slot (h : InCore g A i c) {k : Nat} (lt : k < NSLOT) (present : slot A.data c k ≠ 0) :
    Holds g (upd A.din i c) A.data i k (slot A.data c k) := by
  refine ⟨h.inode, ?_, lt, ?_, present⟩ <;> rw [upd_same]
  exact h.allocated

theorem InCore.holds_indirect (h : InCore g A i c) (present : c.addr NDIRECT ≠ 0) :
    Holds g (upd A.din i c) A.data i NDIRECT (c.addr NDIRECT) := by
  have held := h.holds_slot (k := NDIRECT) (by decide) (by rwa [slot_direct _ _ Nat.le.refl])
  rwa [slot_direct _ _ Nat.le.refl] at held

theorem Open.holds_block (h : Open g A i c v) {k : Nat} (lt : k < v) :
    Holds g (upd A.din i c) A.data i (slotOf (k / BSIZE)) (blockOf A.data c (k / BSIZE)) := by
  have bound := lt_of_mapped h.mapped lt
  refine h.holds_slot (slotOf_lt bound) ((h.mapped.block _ bound).mpr ?_)
  simp only [BSIZE]
  omega

theorem Open.found (h : Open g A i c v) (lt : bn * BSIZE < v) :
    Extended g A i c v bn A c (blockOf A.data c bn) := by
  refine ⟨?_, rfl, .refl _, fun _ => ⟨rfl, rfl⟩, rfl, fun le => by omega, fun _ _ => rfl, Apart.refl _ _ _ _⟩
  rw [Nat.max_eq_left (by omega)]
  exact h

theorem InCore.alloc_apart (h : InCore g A i c) {b : Nat} (free : A.used b = false) :
    Apart g A.din i A.data (A.alloc b).data := by
  intro j k b' ne held
  refine upd_ne _ _ ?_
  rintro rfl
  exact h.owned.unheld free ((holds_upd ne).mpr held)

theorem InCore.alloc_data (h : InCore g A i c) {b j k b' : Nat} (free : A.used b = false)
    (held : Holds g (upd A.din i c) A.data j k b') : (A.alloc b).data b' = A.data b' := by
  refine upd_ne _ _ ?_
  rintro rfl
  exact h.owned.unheld free held

theorem InCore.alloc_slot (h : InCore g A i c) {b : Nat} (free : A.used b = false) (k : Nat) :
    slot (A.alloc b).data c k = slot A.data c k :=
  slot_congr (fun _ => rfl) (fun present => h.alloc_data free (h.holds_indirect present)) k

theorem InCore.alloc_fresh (h : InCore g A i c) {b : Nat} (free : A.used b = false) (j l : Nat) :
    ¬ Holds g (upd A.din i c) (A.alloc b).data j l b := by
  intro held
  exact h.owned.unheld free ((holds_data fun b' ind => h.alloc_data free ind).mp held)

theorem InCore.attach (h : InCore g A i c) {b k : Nat} (le : k ≤ NDIRECT) (free : A.used b = false)
    (inData : g.InData b) (empty : k = NDIRECT → c.addr NDIRECT = 0) : InCore g (A.alloc b) i (c.setAddr k b) := by
  refine ⟨h.inode, h.allocated, Dinode.fits_setAddr h.fits _ inData.lt_pow, ?_⟩
  have owned := (h.owned.alloc free Block.zero).attach (i := i) le (h.alloc_fresh free) inData
    (upd_same _ _ _) fun eq => ⟨by rw [upd_same]; exact empty eq, fun w => by simp⟩
  rwa [upd_same, upd_upd] at owned

theorem Open.direct {b : Nat} (h : Open g A i c (bn * BSIZE)) (lt : bn < NDIRECT) (free : A.used b = false)
    (inData : g.InData b) : Extended g A i c (bn * BSIZE) bn (A.alloc b) (c.setAddr bn b) b := by
  simp only [NDIRECT] at lt
  have le : bn ≤ NDIRECT := by simp only [NDIRECT]; omega
  have ne : bn ≠ NDIRECT := by simp only [NDIRECT]; omega
  have max : bn < MAXFILE := by simp only [MAXFILE, NDIRECT, NINDIRECT]; omega
  have own : slotOf bn = bn := by unfold slotOf; rw [if_pos (by simp only [NDIRECT]; omega)]
  have here : blockOf (A.alloc b).data (c.setAddr bn b) bn = b := by
    rw [blockOf_direct _ _ (by simp only [NDIRECT]; omega), Dinode.addr_setAddr_same _ _ le]
  have others : ∀ bn', bn' ≠ bn → blockOf (A.alloc b).data (c.setAddr bn b) bn' = blockOf A.data c bn' := by
    intro bn' other
    rw [blockOf, slot_setAddr_ne _ _ _ ne fun same => other (slotOf_inj (same.trans own.symm)),
      h.alloc_slot free]
    rfl
  refine ⟨⟨h.attach le free inData fun eq => absurd eq ne, ?_⟩, rfl, Dinode.sameHeader_setAddr _ _ _,
    fun lt => absurd lt (Nat.lt_irrefl _), here, fun _ => upd_same _ _ _, ?_, h.alloc_apart free⟩
  · rw [Nat.max_eq_right (by omega)]
    refine mapped_upTo max (fun bn' hbn' => ?_) ?_
    · by_cases same : bn' = bn
      · subst same
        rw [here]
        exact ⟨fun _ => Nat.le.refl, fun _ => inData.ne_zero⟩
      · rw [others bn' same]
        refine (h.mapped.block bn' hbn').trans ?_
        simp only [BSIZE]
        omega
    · rw [Dinode.addr_setAddr_ne _ _ (Ne.symm ne)]
      refine h.mapped.indirect.trans ?_
      simp only [BSIZE, NDIRECT]
      omega
  · intro k hk
    have other : k / BSIZE ≠ bn := by
      simp only [BSIZE] at hk ⊢
      omega
    rw [byteOf, byteOf, others _ other, h.alloc_data free (h.holds_block hk)]

theorem InCore.entry {b : Nat} (h : InCore g A i c) (present : c.addr NDIRECT ≠ 0) (le : NDIRECT ≤ bn)
    (lt : bn < MAXFILE) (blocks : ∀ bn' < MAXFILE, blockOf A.data c bn' ≠ 0 ↔ bn' < bn) (free : A.used b = false)
    (inData : g.InData b) :
    Extended g A i c (bn * BSIZE) bn
      ((A.alloc b).setData (c.addr NDIRECT) ((A.data (c.addr NDIRECT)).setWord (bn - NDIRECT) b)) c b := by
  have hlt := lt
  simp only [MAXFILE, NDIRECT, NINDIRECT] at hlt
  have hle := le
  simp only [NDIRECT] at hle
  have ind := h.holds_indirect present
  have indData : (A.alloc b).data (c.addr NDIRECT) = A.data (c.addr NDIRECT) := h.alloc_data free ind
  have ind' : Holds g (upd A.din i c) (A.alloc b).data i NDIRECT (c.addr NDIRECT) :=
    (holds_data fun b' held => h.alloc_data free held).mpr ind
  generalize hA : (A.alloc b).setData (c.addr NDIRECT) ((A.data (c.addr NDIRECT)).setWord (bn - NDIRECT) b) = A'
  have data' : A'.data = upd (A.alloc b).data (c.addr NDIRECT)
    ((A.data (c.addr NDIRECT)).setWord (bn - NDIRECT) b) := by
    rw [← hA]
    rfl
  have held_data : ∀ {j k b'}, Holds g (upd A.din i c) A.data j k b' → b' ≠ c.addr NDIRECT →
    A'.data b' = A.data b' := by
    intro j k b' held ne
    rw [data', upd_ne _ _ ne]
    exact h.alloc_data free held
  have here : blockOf A'.data c bn = b := by
    rw [blockOf_entry _ le present, data', upd_same, Block.word_setWord_same _ _ (by simp only [NDIRECT]; omega),
      Nat.mod_eq_of_lt inData.lt_pow]
  have others : ∀ bn' < MAXFILE, bn' ≠ bn → blockOf A'.data c bn' = blockOf A.data c bn' := by
    intro bn' lt' other
    simp only [MAXFILE, NDIRECT, NINDIRECT] at lt'
    by_cases direct : bn' < NDIRECT
    · rw [blockOf_direct _ _ direct, blockOf_direct _ _ direct]
    · rw [blockOf_entry _ (Nat.not_lt.mp direct) present, blockOf_entry _ (Nat.not_lt.mp direct) present, data',
        upd_same]
      simp only [NDIRECT] at direct
      rw [Block.word_setWord_ne _ _ (by simp only [NDIRECT]; omega) (by simp only [NDIRECT]; omega)]
  refine ⟨⟨⟨h.inode, h.allocated, h.fits, ?_⟩, ?_⟩, ?_, .refl _, fun lt => absurd lt (Nat.lt_irrefl _),
    here, fun _ => ?_, ?_, ?_⟩
  · have owned := (h.owned.alloc free Block.zero).attachEntry ind' (w := bn - NDIRECT)
      (by simp only [NDIRECT, NINDIRECT]; omega) (h.alloc_fresh free) inData (upd_same _ _ _)
    have same : upd A.data b Block.zero (c.addr NDIRECT) = A.data (c.addr NDIRECT) := indData
    rw [same] at owned
    rw [data', ← hA]
    exact owned
  · rw [Nat.max_eq_right (by omega)]
    refine mapped_upTo lt (fun bn' lt' => ?_) ⟨fun _ => le, fun _ => present⟩
    by_cases same : bn' = bn
    · subst same
      rw [here]
      exact ⟨fun _ => Nat.le.refl, fun _ => inData.ne_zero⟩
    · rw [others bn' lt' same]
      refine (blocks bn' lt').trans ?_
      omega
  · rw [← hA]
    rfl
  · have ne : b ≠ c.addr NDIRECT := by
      rintro rfl
      exact h.owned.unheld free ind
    rw [data', upd_ne _ _ ne]
    exact upd_same _ _ _
  · intro k hk
    simp only [BSIZE] at hk
    have other : k / BSIZE ≠ bn := by
      simp only [BSIZE]
      omega
    have bound : k / BSIZE < MAXFILE := by
      simp only [BSIZE, MAXFILE, NDIRECT, NINDIRECT]
      omega
    have there : blockOf A.data c (k / BSIZE) ≠ 0 := by
      rw [blocks _ bound]
      simp only [BSIZE]
      omega
    have held : Holds g (upd A.din i c) A.data i _ (blockOf A.data c (k / BSIZE)) :=
      h.holds_slot (slotOf_lt bound) there
    rw [byteOf, byteOf, others _ bound other, held_data held]
    intro eq
    exact slotOf_ne _ (h.owned.unique held (eq ▸ ind)).2
  · intro j k b' ne held
    have held := (holds_upd (c := c) ne).mpr held
    refine held_data held ?_
    rintro rfl
    exact ne (h.owned.unique held ind).1

theorem Open.indirect {b : Nat} (h : Open g A i c (NDIRECT * BSIZE)) (free : A.used b = false)
    (inData : g.InData b) :
    InCore g (A.alloc b) i (c.setAddr NDIRECT b) ∧
    (∀ bn' < MAXFILE, blockOf (A.alloc b).data (c.setAddr NDIRECT b) bn' = blockOf A.data c bn') ∧
    ∀ k < NDIRECT * BSIZE, byteOf (A.alloc b).data (c.setAddr NDIRECT b) k = byteOf A.data c k := by
  have absent : c.addr NDIRECT = 0 := by
    by_contra present
    have := h.mapped.indirect.mp present
    simp only [NDIRECT, BSIZE] at this
    omega
  have blocks : ∀ bn' < MAXFILE,
      blockOf (A.alloc b).data (c.setAddr NDIRECT b) bn' = blockOf A.data c bn' := by
    intro bn' lt'
    by_cases direct : bn' < NDIRECT
    · rw [blockOf_direct _ _ direct, blockOf_direct _ _ direct, Dinode.addr_setAddr_ne _ _ (by omega)]
    · have addr := Dinode.addr_setAddr_same c b (Nat.le_refl NDIRECT)
      rw [blockOf_entry _ (Nat.not_lt.mp direct) (by rw [addr]; exact inData.ne_zero), addr,
        blockOf_absent _ (Nat.not_lt.mp direct) absent]
      simp [Volume.alloc]
  refine ⟨h.attach Nat.le.refl free inData fun _ => absent, blocks, fun k hk => ?_⟩
  rw [byteOf, byteOf, blocks _ (lt_of_mapped h.mapped hk), h.alloc_data free (h.holds_block hk)]

theorem Open.entry {b : Nat} (h : Open g A i c (bn * BSIZE)) (present : c.addr NDIRECT ≠ 0) (le : NDIRECT ≤ bn)
    (lt : bn < MAXFILE) (free : A.used b = false) (inData : g.InData b) :
    Extended g A i c (bn * BSIZE) bn
      ((A.alloc b).setData (c.addr NDIRECT) ((A.data (c.addr NDIRECT)).setWord (bn - NDIRECT) b)) c b := by
  refine h.toInCore.entry present le lt (fun bn' lt' => (h.mapped.block bn' lt').trans ?_) free inData
  simp only [BSIZE]
  omega

theorem Open.indirectEntry {b b' : Nat} (h : Open g A i c (NDIRECT * BSIZE)) (free : A.used b = false)
    (inData : g.InData b) (free' : (A.alloc b).used b' = false) (inData' : g.InData b') :
    Extended g A i c (NDIRECT * BSIZE) NDIRECT
      (((A.alloc b).alloc b').setData b (Block.zero.setWord 0 b')) (c.setAddr NDIRECT b) b' := by
  obtain ⟨core, blocks, bytes⟩ := h.indirect free inData
  have addr := Dinode.addr_setAddr_same c b (Nat.le_refl NDIRECT)
  have zero : (A.alloc b).data b = Block.zero := upd_same _ _ _
  have ext := core.entry (by rw [addr]; exact inData.ne_zero) (Nat.le_refl NDIRECT) (by decide)
    (fun bn' lt' => by
      rw [blocks bn' lt']
      refine (h.mapped.block bn' lt').trans ?_
      simp only [BSIZE]
      omega) free' inData'
  rw [addr, zero, Nat.sub_self] at ext
  exact ⟨ext.now_open, ext.din, ext.header.trans (Dinode.sameHeader_setAddr _ _ _),
    fun lt => absurd lt (Nat.lt_irrefl _), ext.block, ext.fresh, fun k hk => (ext.bytes k hk).trans (bytes k hk),
    (h.alloc_apart free).trans ext.apart⟩

theorem Open.absent (h : Open g A i c v) (lt : bn < MAXFILE) (le : bn * BSIZE ≤ v)
    (zero : blockOf A.data c bn = 0) : v = bn * BSIZE := by
  have missing : ¬ bn * BSIZE < v := fun short => (h.mapped.block bn lt).mpr short zero
  omega

theorem Open.present (h : Open g A i c v) (lt : bn < MAXFILE) (nonzero : blockOf A.data c bn ≠ 0) : bn * BSIZE < v :=
  (h.mapped.block bn lt).mp nonzero

theorem Open.no_indirect (h : Open g A i c v) (le : bn * BSIZE ≤ v) (past : NDIRECT ≤ bn)
    (zero : c.addr NDIRECT = 0) : bn = NDIRECT ∧ v = NDIRECT * BSIZE := by
  have missing : ¬ NDIRECT * BSIZE < v := fun long => h.mapped.indirect.mpr long zero
  simp only [NDIRECT, BSIZE] at *
  omega

/-- The last block of an inode with blocks for `v` bytes is zero from `v` on. -/
def ZeroTail (data : Nat → Block) (c : Dinode) (v : Nat) : Prop :=
  ∀ k, v ≤ k → k / BSIZE < (v + BSIZE - 1) / BSIZE → byteOf data c k = 0

structure Written (g : Geometry) (A : Volume) (i : Nat) (c : Dinode) (v off : Nat) (src : List UInt8)
    (A' : Volume) (c' : Dinode) : Prop where
  now_open : Open g A' i c' (max v (off + src.length))
  din : A'.din = A.din
  header : c'.SameHeader c
  still : off + src.length ≤ v → c' = c
  bytes : ∀ k < max v (off + src.length), byteOf A'.data c' k =
    if off ≤ k ∧ k < off + src.length then src.getD (k - off) 0 else byteOf A.data c k
  tail : ZeroTail A.data c v → ZeroTail A'.data c' (max v (off + src.length))
  apart : Apart g A.din i A.data A'.data

theorem Open.written_nil (h : Open g A i c v) {off : Nat} (le : off ≤ v) : Written g A i c v off [] A c := by
  have size : max v (off + ([] : List UInt8).length) = v := by
    rw [List.length_nil, Nat.add_zero, Nat.max_eq_left le]
  refine ⟨size.symm ▸ h, rfl, .refl _, fun _ => rfl, fun k _ => ?_, fun tail => size.symm ▸ tail,
    Apart.refl _ _ _ _⟩
  rw [List.length_nil, if_neg (by omega)]

theorem Extended.write {A' : Volume} {c' : Dinode} {b off : Nat} {src : List UInt8}
    (h : Extended g A i c v (off / BSIZE) A' c' b) (le : off ≤ v) (pos : 0 < src.length)
    (fit : src.length ≤ BSIZE - off % BSIZE) :
    Written g A i c v off src (A'.setData b ((A'.data b).splice (off % BSIZE) src)) c' := by
  have hfit := fit
  simp only [BSIZE] at hfit
  have room : off / BSIZE * BSIZE < max v (off / BSIZE * BSIZE + 1) := by
    simp only [BSIZE]
    omega
  have held := h.now_open.holds_block room
  rw [Nat.mul_div_cancel _ (by decide), h.block] at held
  have slots : ∀ k, slot (A'.setData b ((A'.data b).splice (off % BSIZE) src)).data c' k = slot A'.data c' k := by
    refine slot_congr (fun _ => rfl) fun present => upd_ne _ _ fun eq => ?_
    exact slotOf_ne _ (h.now_open.owned.unique held (eq ▸ h.now_open.holds_indirect present)).2
  have size : (max v (off + src.length) + BSIZE - 1) / BSIZE =
      (max v (off / BSIZE * BSIZE + 1) + BSIZE - 1) / BSIZE := by
    simp only [BSIZE]
    omega
  have here : ∀ k, k / BSIZE = off / BSIZE →
      byteOf (A'.setData b ((A'.data b).splice (off % BSIZE) src)).data c' k =
        if off ≤ k ∧ k < off + src.length then src.getD (k - off) 0 else byteOf A'.data c' k := by
    intro k here
    have small : k % BSIZE < BSIZE := Nat.mod_lt _ (by decide)
    have same : slot A'.data c' (slotOf (k / BSIZE)) = b := by
      rw [here]
      exact h.block
    rw [byteOf, byteOf, blockOf, slots, blockOf, same, Volume.setData_data, upd_same, Block.byte_splice _ _ _ small]
    simp only [BSIZE] at here small ⊢
    by_cases inside : off ≤ k ∧ k < off + src.length
    · rw [if_pos inside, if_pos (by omega), show k % 512 - off % 512 = k - off by omega]
    · rw [if_neg inside, if_neg (by omega)]
  have elsewhere : ∀ k, k / BSIZE ≠ off / BSIZE → k / BSIZE * BSIZE < v →
      byteOf (A'.setData b ((A'.data b).splice (off % BSIZE) src)).data c' k = byteOf A'.data c' k := by
    intro k ne lt
    have other : slot A'.data c' (slotOf (k / BSIZE)) ≠ b := by
      intro eq
      have held' := h.now_open.holds_block (k := k / BSIZE * BSIZE) (lt_of_lt_of_le lt (Nat.le_max_left _ _))
      rw [Nat.mul_div_cancel _ (by decide), blockOf, eq] at held'
      exact ne (slotOf_inj (h.now_open.owned.unique held' held).2)
    rw [byteOf, byteOf, blockOf, slots, blockOf, Volume.setData_data, upd_ne _ _ other]
  refine ⟨⟨⟨h.now_open.inode, h.now_open.allocated, h.now_open.fits, ?_⟩, ?_⟩, h.din, h.header,
    fun le => ?_, ?_, ?_, ?_⟩
  · exact h.now_open.owned.store held (slotOf_ne _) _
  · refine Mapped.resize ?_ size
    refine ⟨fun bn hbn => ?_, h.now_open.mapped.indirect, h.now_open.mapped.size⟩
    rw [blockOf, slot_size, slots]
    exact h.now_open.mapped.block bn hbn
  · refine (h.still ?_).1
    simp only [BSIZE]
    omega
  · intro k hk
    by_cases same : k / BSIZE = off / BSIZE
    · rw [here k same]
      split
      · rfl
      · simp only [BSIZE] at same
        exact h.bytes k (by omega)
    · have lt : k < v ∧ ¬ (off ≤ k ∧ k < off + src.length) := by
        simp only [BSIZE] at same
        omega
      rw [elsewhere k same (lt_of_le_of_lt (Nat.div_mul_le_self _ _) lt.1), if_neg lt.2, h.bytes k lt.1]
  · intro tail k low high
    rw [size] at high
    simp only [BSIZE] at high
    -- the blocks in use are those of the old file and the one written to
    have low' : v ≤ k ∧ off + src.length ≤ k := by omega
    have covered : k / BSIZE * BSIZE < v ∨ k / BSIZE = off / BSIZE := by
      simp only [BSIZE]
      omega
    have before : byteOf A'.data c' k = 0 := by
      by_cases old : off / BSIZE * BSIZE < v
      · rw [(h.still old).1, (h.still old).2]
        refine tail k low'.1 ?_
        simp only [BSIZE] at old ⊢
        omega
      · -- the block is new
        simp only [BSIZE] at old
        rw [byteOf, show k / BSIZE = off / BSIZE by simp only [BSIZE]; omega, h.block,
          h.fresh (by simp only [BSIZE]; omega), Block.byte_zero]
    by_cases same : k / BSIZE = off / BSIZE
    · rw [here k same, if_neg fun inside => absurd inside.2 (Nat.not_lt.mpr low'.2), before]
    · rw [elsewhere k same (covered.resolve_right same), before]
  · refine h.apart.trans fun j k b' ne held' => upd_ne _ _ ?_
    rintro rfl
    rw [← h.din] at held'
    exact ne (h.now_open.owned.unique ((holds_upd ne).mpr held') held).1

theorem Written.trans {A' A'' : Volume} {c' c'' : Dinode} {off : Nat} {src src' : List UInt8}
    (h : Written g A i c v off src A' c')
    (h' : Written g A' i c' (max v (off + src.length)) (off + src.length) src' A'' c'') :
    Written g A i c v off (src ++ src') A'' c'' := by
  have size : max (max v (off + src.length)) (off + src.length + src'.length) =
      max v (off + (src ++ src').length) := by
    rw [List.length_append]
    omega
  refine ⟨size ▸ h'.now_open, h'.din.trans h.din, h'.header.trans h.header, fun le => ?_, fun k hk => ?_,
    fun tail => size ▸ h'.tail (h.tail tail), h.apart.trans (h.din ▸ h'.apart)⟩
  · rw [List.length_append] at le
    rw [h'.still (by omega), h.still (by omega)]
  · rw [h'.bytes k (by omega)]
    rw [List.length_append] at hk ⊢
    by_cases later : off + src.length ≤ k ∧ k < off + src.length + src'.length
    · rw [if_pos later, if_pos (by omega), List.getD_append_right _ _ _ _ (by omega), Nat.sub_sub]
    · rw [if_neg later, h.bytes k (by omega)]
      by_cases first : off ≤ k ∧ k < off + src.length
      · rw [if_pos first, if_pos (by omega), List.getD_append _ _ _ _ (by omega)]
      · rw [if_neg first, if_neg (by omega)]

end

end Espl
