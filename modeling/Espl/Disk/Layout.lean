import Espl.Disk.Block

/-!
# On-disk format

The structures of `fs.h` as bytes of a block: the super block, the inode table, the free map and
directory entries.
-/

namespace Espl

abbrev ROOTINO : Nat := 1
abbrev NDIRECT : Nat := 12
abbrev NINDIRECT : Nat := 128
abbrev MAXFILE : Nat := NDIRECT + NINDIRECT
abbrev DIRSIZ : Nat := 14

abbrev DESIZE : Nat := 16

abbrev T_DIR : Nat := 1
abbrev T_FILE : Nat := 2
abbrev T_DEV : Nat := 3

abbrev IPB : Nat := 8

abbrev BPB : Nat := 4096

def iblock (i : Nat) : Nat := i / IPB + 2

def bblock (b ninodes : Nat) : Nat := b / BPB + ninodes / IPB + 3

structure Superblock where
  size : Nat
  nblocks : Nat
  ninodes : Nat
  nlog : Nat
  deriving DecidableEq, Repr

def short (x : Int) : Int := (x + 32768) % 65536 - 32768

structure Dinode where
  type : Nat
  major : Int
  minor : Int
  nlink : Int
  size : Nat
  addrs : Fin (NDIRECT + 1) → Nat

namespace Superblock

def ofBlock (b : Block) : Superblock := ⟨b.word 0, b.word 1, b.word 2, b.word 3⟩

/-- `memmove(buf, &sb, sizeof(sb))` into a zeroed buffer. -/
def toBlock (sb : Superblock) : Block :=
  (((Block.zero.setWord 0 sb.size).setWord 1 sb.nblocks).setWord 2 sb.ninodes).setWord 3 sb.nlog

end Superblock

namespace Dinode

def empty : Dinode := ⟨0, 0, 0, 0, 0, fun _ => 0⟩

def addr (d : Dinode) (i : Nat) : Nat := if h : i < NDIRECT + 1 then d.addrs ⟨i, h⟩ else 0

def setAddr (d : Dinode) (i a : Nat) : Dinode :=
  { d with addrs := fun k => if k.val = i then a else d.addrs k }

def byte (d : Dinode) (k : Nat) : UInt8 :=
  if k < 2 then leByte d.type k
  else if k < 4 then leByte (d.major % 65536).toNat (k - 2)
  else if k < 6 then leByte (d.minor % 65536).toNat (k - 4)
  else if k < 8 then leByte (d.nlink % 65536).toNat (k - 6)
  else if k < 12 then leByte d.size (k - 8)
  else leByte (d.addr ((k - 12) / 4)) ((k - 12) % 4)

theorem addr_eq (d : Dinode) {i : Nat} (h : i < NDIRECT + 1) : d.addr i = d.addrs ⟨i, h⟩ := dif_pos h

theorem addr_setAddr_same (d : Dinode) (a : Nat) {i : Nat} (h : i ≤ NDIRECT) : (d.setAddr i a).addr i = a := by
  rw [addr_eq _ (by omega)]
  simp [setAddr]

theorem addr_setAddr_ne (d : Dinode) (a : Nat) {i j : Nat} (h : j ≠ i) : (d.setAddr i a).addr j = d.addr j := by
  unfold addr setAddr
  split <;> simp [h]

@[simp] theorem addr_empty (i : Nat) : empty.addr i = 0 := by
  unfold addr empty
  split <;> rfl

structure SameHeader (c d : Dinode) : Prop where
  type : c.type = d.type
  major : c.major = d.major
  minor : c.minor = d.minor
  nlink : c.nlink = d.nlink
  size : c.size = d.size

theorem SameHeader.refl (d : Dinode) : SameHeader d d := ⟨rfl, rfl, rfl, rfl, rfl⟩

theorem SameHeader.trans {c d e : Dinode} (h : SameHeader c d) (h' : SameHeader d e) : SameHeader c e :=
  ⟨h.type.trans h'.type, h.major.trans h'.major, h.minor.trans h'.minor, h.nlink.trans h'.nlink,
    h.size.trans h'.size⟩

theorem sameHeader_setAddr (d : Dinode) (i a : Nat) : SameHeader (d.setAddr i a) d := ⟨rfl, rfl, rfl, rfl, rfl⟩

structure Fits (d : Dinode) : Prop where
  type : d.type < 2 ^ 16
  major : -32768 ≤ d.major ∧ d.major < 32768
  minor : -32768 ≤ d.minor ∧ d.minor < 32768
  nlink : -32768 ≤ d.nlink ∧ d.nlink < 32768
  size : d.size < 2 ^ 32
  addr : ∀ i, d.addr i < 2 ^ 32

theorem fits_empty {type : Nat} (small : type < 2 ^ 16) : ({ empty with type := type } : Dinode).Fits := by
  have fits : empty.Fits := ⟨by decide, by decide, by decide, by decide, by decide, fun i => by simp⟩
  exact ⟨small, fits.major, fits.minor, fits.nlink, fits.size, fits.addr⟩

theorem fits_setAddr {d : Dinode} (fits : d.Fits) (i : Nat) {a : Nat} (small : a < 2 ^ 32) :
    (d.setAddr i a).Fits := by
  refine ⟨fits.type, fits.major, fits.minor, fits.nlink, fits.size, fun j => ?_⟩
  by_cases same : j = i
  · subst same
    unfold addr setAddr
    split
    · simpa using small
    · decide
  · rw [addr_setAddr_ne _ _ same]
    exact fits.addr j

end Dinode

namespace Block

def dinode (b : Block) (k : Nat) : Dinode where
  type := le16 fun j => b.byte (64 * k + j)
  major := short (le16 fun j => b.byte (64 * k + 2 + j))
  minor := short (le16 fun j => b.byte (64 * k + 4 + j))
  nlink := short (le16 fun j => b.byte (64 * k + 6 + j))
  size := le32 fun j => b.byte (64 * k + 8 + j)
  addrs := fun i => le32 fun j => b.byte (64 * k + 12 + 4 * i.val + j)

def setDinode (b : Block) (k : Nat) (d : Dinode) : Block :=
  ofBytes fun i => if i / 64 = k then d.byte (i % 64) else b.byte i

@[simp] theorem dinode_zero (k : Nat) : zero.dinode k = Dinode.empty := by
  simp [dinode, Dinode.empty, le16, le32, short]

theorem byte_setDinode (b : Block) (d : Dinode) {k j : Nat} (hk : k < IPB) (hj : j < 64) :
    (b.setDinode k d).byte (64 * k + j) = d.byte j := by
  simp only [IPB] at hk
  rw [setDinode, byte_ofBytes _ (by simp only [BSIZE]; omega), if_pos (by omega),
    show (64 * k + j) % 64 = j by omega]

theorem byte_setDinode_ne (b : Block) (d : Dinode) {k l j : Nat} (hl : l < IPB) (hj : j < 64) (ne : l ≠ k) :
    (b.setDinode k d).byte (64 * l + j) = b.byte (64 * l + j) := by
  simp only [IPB] at hl
  rw [setDinode, byte_ofBytes _ (by simp only [BSIZE]; omega), if_neg (by omega)]

theorem dinode_setDinode_ne (b : Block) (d : Dinode) {k l : Nat} (hl : l < IPB) (ne : l ≠ k) :
    (b.setDinode k d).dinode l = b.dinode l := by
  have same : ∀ j < 64, (b.setDinode k d).byte (64 * l + j) = b.byte (64 * l + j) :=
    fun j hj => byte_setDinode_ne b d hl hj ne
  have type : (le16 fun j => (b.setDinode k d).byte (64 * l + j)) = le16 fun j => b.byte (64 * l + j) :=
    le16_congr fun j hj => same j (by omega)
  have shorts : ∀ o ≤ 6, (le16 fun j => (b.setDinode k d).byte (64 * l + o + j)) =
      le16 fun j => b.byte (64 * l + o + j) :=
    fun o ho => le16_congr fun j hj => by simpa only [Nat.add_assoc] using same (o + j) (by omega)
  have words : ∀ o ≤ 60, (le32 fun j => (b.setDinode k d).byte (64 * l + o + j)) =
      le32 fun j => b.byte (64 * l + o + j) :=
    fun o ho => le32_congr fun j hj => by simpa only [Nat.add_assoc] using same (o + j) (by omega)
  have addrs : ∀ i : Fin (NDIRECT + 1), (le32 fun j => (b.setDinode k d).byte (64 * l + 12 + 4 * i.val + j)) =
      le32 fun j => b.byte (64 * l + 12 + 4 * i.val + j) := by
    intro i
    have hi := i.isLt
    simp only [NDIRECT] at hi
    simpa only [Nat.add_assoc] using words (12 + 4 * i.val) (by omega)
  simp only [dinode, type, shorts 2 (by decide), shorts 4 (by decide), shorts 6 (by decide),
    words 8 (by decide), addrs]

theorem short_le16 {f : Nat → UInt8} {x : Int} (low : -32768 ≤ x) (high : x < 32768)
    (h : ∀ j < 2, f j = leByte (x % 65536).toNat j) : short (le16 f) = x := by
  rw [le16_leByte h]
  unfold short
  omega

theorem dinode_setDinode_same (b : Block) {d : Dinode} {k : Nat} (hk : k < IPB) (fits : d.Fits) :
    (b.setDinode k d).dinode k = d := by
  have same : ∀ j < 64, (b.setDinode k d).byte (64 * k + j) = d.byte j :=
    fun j hj => byte_setDinode b d hk hj
  have type : (le16 fun j => (b.setDinode k d).byte (64 * k + j)) = d.type := by
    rw [le16_leByte fun j hj => by rw [same j (by omega), Dinode.byte, if_pos hj]]
    exact Nat.mod_eq_of_lt fits.type
  have major : short (le16 fun j => (b.setDinode k d).byte (64 * k + 2 + j)) = d.major := by
    refine short_le16 fits.major.1 fits.major.2 fun j hj => ?_
    rw [Nat.add_assoc, same (2 + j) (by omega), Dinode.byte, if_neg (by omega), if_pos (by omega),
      show 2 + j - 2 = j by omega]
  have minor : short (le16 fun j => (b.setDinode k d).byte (64 * k + 4 + j)) = d.minor := by
    refine short_le16 fits.minor.1 fits.minor.2 fun j hj => ?_
    rw [Nat.add_assoc, same (4 + j) (by omega), Dinode.byte, if_neg (by omega), if_neg (by omega),
      if_pos (by omega), show 4 + j - 4 = j by omega]
  have nlink : short (le16 fun j => (b.setDinode k d).byte (64 * k + 6 + j)) = d.nlink := by
    refine short_le16 fits.nlink.1 fits.nlink.2 fun j hj => ?_
    rw [Nat.add_assoc, same (6 + j) (by omega), Dinode.byte, if_neg (by omega), if_neg (by omega),
      if_neg (by omega), if_pos (by omega), show 6 + j - 6 = j by omega]
  have size : (le32 fun j => (b.setDinode k d).byte (64 * k + 8 + j)) = d.size := by
    rw [le32_leByte (x := d.size) fun j hj => ?_]
    · exact Nat.mod_eq_of_lt fits.size
    · rw [Nat.add_assoc, same (8 + j) (by omega), Dinode.byte, if_neg (by omega), if_neg (by omega),
        if_neg (by omega), if_neg (by omega), if_pos (by omega), show 8 + j - 8 = j by omega]
  have addrs : ∀ i : Fin (NDIRECT + 1),
      (le32 fun j => (b.setDinode k d).byte (64 * k + 12 + 4 * i.val + j)) = d.addrs i := by
    intro i
    rw [le32_leByte (x := d.addrs i) fun j hj => ?_]
    · rw [← Dinode.addr_eq d i.isLt]
      exact Nat.mod_eq_of_lt (fits.addr i)
    · have hi := i.isLt
      simp only [NDIRECT] at hi
      rw [show 64 * k + 12 + 4 * i.val + j = 64 * k + (12 + 4 * i.val + j) by omega,
        same _ (by omega), Dinode.byte, if_neg (by omega), if_neg (by omega), if_neg (by omega),
        if_neg (by omega), if_neg (by omega), show (12 + 4 * i.val + j - 12) / 4 = i.val by omega,
        show (12 + 4 * i.val + j - 12) % 4 = j by omega, Dinode.addr_eq d i.isLt]
  unfold dinode
  rw [type, major, minor, nlink, size]
  cases d
  simp only [Dinode.mk.injEq, true_and]
  funext i
  exact addrs i

end Block

/-- A directory entry: `inum` and the `DIRSIZ` bytes of `name`. -/
structure Dirent where
  inum : Nat
  name : List UInt8
  deriving DecidableEq, Repr

namespace Dirent

def ofBytes (bs : List UInt8) : Dirent := ⟨le16 fun j => bs.getD j 0, bs.drop 2⟩

def toBytes (de : Dirent) : List UInt8 :=
  [leByte de.inum 0, leByte de.inum 1] ++ de.name

/-- `memset(&de, 0, sizeof(de))`. -/
def zero : Dirent := ⟨0, List.replicate DIRSIZ 0⟩

end Dirent

/-- `strncmp(p, q, n)`; past its end a list reads as 0, as a terminated string does. -/
def strncmp : List UInt8 → List UInt8 → Nat → Int
  | _, _, 0 => 0
  | p, q, n + 1 =>
    let a := p.headD 0
    let b := q.headD 0
    if a ≠ 0 ∧ a = b then strncmp p.tail q.tail n else a.toNat - b.toNat

/-- `strncpy(s, t, n)`: the bytes of `t` up to its end, then zeros. -/
def strncpy (t : List UInt8) (n : Nat) : List UInt8 :=
  let s := (t.takeWhile (· ≠ 0)).take n
  s ++ List.replicate (n - s.length) 0

def namecmp (s t : List UInt8) : Int := strncmp s t DIRSIZ

end Espl
