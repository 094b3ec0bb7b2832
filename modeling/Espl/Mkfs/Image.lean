import Espl.Disk.Directory
import Espl.Mkfs.Basic

/-!
# The image that `mkfs` writes

While `mkfs` runs, its image is a sound volume whose used blocks are those below `freeblock`, as long
as that stays below the log. Its `iappend` is the kernel's `writei` without a log, so it is the same
statement about volumes that is used for both.
-/

namespace Espl.Mkfs

def geometry : Geometry := ⟨size, ninodes, nlog, by decide, by decide⟩

theorem inData_iff {b : Nat} : geometry.InData b ↔ 29 ≤ b ∧ b < 1014 := Iff.rfl

/-- The image is the volume `A` with the blocks below `freeblock` used and nothing beyond them. -/
structure Image (m : State) (A : Volume) : Prop where
  super : m.img 1 = Superblock.toBlock ⟨size, nblocks, ninodes, nlog⟩
  din : ∀ i < ninodes, rinode m i = A.din i
  used : ∀ b, A.used b = true ↔ b < m.freeblock
  data : ∀ b, geometry.InData b → m.img b = A.data b
  zero : ∀ b, m.freeblock ≤ b → m.img b = Block.zero
  counted : m.usedblocks = m.freeblock
  low : 29 ≤ m.freeblock

section

variable {m : State} {A : Volume}

theorem i2b_lt {i : Nat} (h : i < ninodes) : 2 ≤ i2b i ∧ i2b i < 28 := by
  simp only [i2b, IPB, ninodes] at *
  omega

theorem Image.winode {i : Nat} {d : Dinode} (h : Image m A) (hi : i < ninodes) (fits : d.Fits) :
    Image (winode m i d) (A.setDin i d) := by
  have low := h.low
  have bounds := i2b_lt hi
  have others : ∀ b, b ≠ i2b i → (Mkfs.winode m i d).img b = m.img b := fun b ne => if_neg ne
  refine ⟨(others 1 (by omega)).trans h.super, fun j hj => ?_, h.used, fun b hb => ?_, fun b hb => ?_, h.counted, low⟩
  · rw [Volume.setDin_din]
    have small : j % IPB < IPB := Nat.mod_lt _ (by decide)
    by_cases same : j = i
    · subst same
      rw [upd_same, rinode, rsect, Mkfs.winode, wsect]
      simp only [if_true]
      exact Block.dinode_setDinode_same _ small fits
    · rw [upd_ne _ _ same, ← h.din j hj, rinode, rsect, Mkfs.winode, wsect]
      by_cases block : i2b j = i2b i
      · simp only [block, if_true, rinode, rsect]
        refine Block.dinode_setDinode_ne _ _ small fun slot => same ?_
        simp only [i2b, IPB] at block slot
        omega
      · simp only [block, if_false]
        rfl
  · rw [others b (by have := (inData_iff.mp hb).1; omega)]
    exact h.data b hb
  · rw [others b (by change m.freeblock ≤ b at hb; omega)]
    exact h.zero b hb

theorem Image.nextBlock (h : Image m A) : Image (nextBlock m).2 (A.alloc m.freeblock) := by
  refine ⟨h.super, h.din, fun b => ?_, fun b hb => ?_, fun b hb => h.zero b ?_, ?_, ?_⟩
  · change _ ↔ b < m.freeblock + 1
    rw [Volume.alloc_used]
    by_cases same : b = m.freeblock
    · rw [same, upd_same]
      simp
    · rw [upd_ne _ _ same, h.used]
      omega
  · rw [Volume.alloc_data]
    by_cases same : b = m.freeblock
    · rw [same, upd_same]
      exact h.zero _ Nat.le.refl
    · rw [upd_ne _ _ same]
      exact h.data b hb
  · simp only [Mkfs.nextBlock] at hb
    omega
  · simp only [Mkfs.nextBlock, h.counted]
  · have := h.low
    simp only [Mkfs.nextBlock]
    omega

theorem Image.wsect {b : Nat} (h : Image m A) (inData : geometry.InData b) (used : A.used b = true) (fill : Block) :
    Image (wsect m b fill) (A.setData b fill) := by
  have low := inData_iff.mp inData
  have lt : b < m.freeblock := (h.used b).mp used
  have others : ∀ c, c ≠ b → (Mkfs.wsect m b fill).img c = m.img c := fun c ne => if_neg ne
  refine ⟨(others 1 (by omega)).trans h.super, fun i hi => ?_, h.used, fun c hc => ?_, fun c hc => ?_, h.counted, h.low⟩
  · have := i2b_lt hi
    rw [rinode, rsect, others _ (by omega)]
    exact h.din i hi
  · rw [Volume.setData_data]
    by_cases same : c = b
    · subst same
      rw [upd_same]
      exact if_pos rfl
    · rw [upd_ne _ _ same, others c same, h.data c hc]
  · change m.freeblock ≤ c at hc
    rw [others c (by omega)]
    exact h.zero c hc

theorem Image.free (h : Image m A) : A.used m.freeblock = false := by
  rw [Bool.eq_false_iff]
  intro used
  exact Nat.lt_irrefl _ ((h.used _).mp used)

theorem Image.inData (h : Image m A) (below : m.freeblock < 1014) : geometry.InData m.freeblock :=
  inData_iff.mpr ⟨h.low, below⟩

structure Grows (m m' : State) : Prop where
  freeblock : m.freeblock ≤ m'.freeblock
  counted : m.usedblocks = m.freeblock → m'.usedblocks = m'.freeblock

theorem Grows.refl (m : State) : Grows m m := ⟨Nat.le.refl, id⟩

theorem Grows.trans {m m' m'' : State} (h : Grows m m') (h' : Grows m' m'') : Grows m m'' :=
  ⟨h.freeblock.trans h'.freeblock, fun counted => h'.counted (h.counted counted)⟩

theorem Grows.wsect {m m' : State} (h : Grows m m') (b : Nat) (fill : Block) : Grows m (wsect m' b fill) :=
  ⟨h.freeblock, h.counted⟩

theorem blockFor_grows (m : State) (c : Dinode) (bn : Nat) :
    Grows m (blockFor m c bn).2.2 ∧ (blockFor m c bn).2.2.freeblock ≤ m.freeblock + 2 ∧
      (blockFor m c bn).2.2.freeinode = m.freeinode := by
  have next : ∀ m, Grows m (nextBlock m).2 := fun m => ⟨Nat.le_succ _, fun counted => congrArg (· + 1) counted⟩
  unfold blockFor
  by_cases direct : bn < NDIRECT
  · simp only [if_pos direct]
    split
    · exact ⟨next m, by simp only [nextBlock]; omega, rfl⟩
    · exact ⟨.refl m, Nat.le_add_right _ _, rfl⟩
  · simp only [if_neg direct]
    by_cases none : c.addr NDIRECT = 0
    · simp only [if_pos none]
      split
      · exact ⟨((next m).trans (next _)).wsect _ _, Nat.le.refl, rfl⟩
      · exact ⟨next m, by simp only [nextBlock]; omega, rfl⟩
    · simp only [if_neg none]
      split
      · exact ⟨(next m).wsect _ _, by simp only [nextBlock, Mkfs.wsect]; omega, rfl⟩
      · exact ⟨.refl m, Nat.le_add_right _ _, rfl⟩

theorem blockFor_extended {i v bn : Nat} {c : Dinode} (h : Image m A) (now : Open geometry A i c v)
    (lt : bn < MAXFILE) (le : bn * BSIZE ≤ v) (below : (blockFor m c bn).2.2.freeblock ≤ 1014) :
    ∃ A', Image (blockFor m c bn).2.2 A' ∧
      Extended geometry A i c v bn A' (blockFor m c bn).2.1 (blockFor m c bn).1 := by
  unfold blockFor at below ⊢
  by_cases direct : bn < NDIRECT
  · simp only [if_pos direct] at below ⊢
    rw [← blockOf_direct A.data c direct] at below ⊢
    by_cases zero : blockOf A.data c bn = 0
    · simp only [if_pos zero] at below ⊢
      cases now.absent lt le zero
      exact ⟨_, h.nextBlock, now.direct direct h.free (h.inData (by simp only [nextBlock] at below; omega))⟩
    · simp only [if_neg zero] at below ⊢
      exact ⟨A, h, now.found (now.present lt zero)⟩
  · simp only [if_neg direct] at below ⊢
    have past := Nat.not_lt.mp direct
    by_cases none : c.addr NDIRECT = 0
    · simp only [if_pos none] at below ⊢
      obtain ⟨rfl, rfl⟩ := now.no_indirect le past none
      have addr := Dinode.addr_setAddr_same c m.freeblock (Nat.le_refl NDIRECT)
      have zero : (nextBlock m).2.img m.freeblock = Block.zero := h.zero _ Nat.le.refl
      simp only [show (nextBlock m).1 = m.freeblock from rfl, addr, rsect, zero, Block.word_zero, if_true] at below ⊢
      simp only [nextBlock, Mkfs.wsect] at below
      have inData := h.inData (by omega)
      have inData' : geometry.InData (nextBlock m).2.freeblock := h.nextBlock.inData (by simp only [nextBlock]; omega)
      have used : ((A.alloc m.freeblock).alloc (nextBlock m).2.freeblock).used m.freeblock = true :=
        (h.nextBlock.nextBlock.used _).mpr (by simp only [nextBlock]; omega)
      have ext := now.indirectEntry h.free inData h.nextBlock.free inData'
      exact ⟨_, h.nextBlock.nextBlock.wsect inData used _, ext⟩
    · simp only [if_neg none] at below ⊢
      have ind := now.holds_indirect none
      have inData := now.owned.inData ind
      have entry := blockOf_entry A.data past none
      rw [show rsect m (c.addr NDIRECT) = A.data (c.addr NDIRECT) from h.data _ inData, ← entry] at below ⊢
      by_cases zero : blockOf A.data c bn = 0
      · simp only [if_pos zero] at below ⊢
        cases now.absent lt le zero
        simp only [nextBlock, Mkfs.wsect] at below
        have used : (A.alloc m.freeblock).used (c.addr NDIRECT) = true :=
          (h.nextBlock.used _).mpr (Nat.lt_succ_of_lt ((h.used _).mp (now.owned.marked ind)))
        exact ⟨_, h.nextBlock.wsect inData used _, now.entry none past lt h.free (h.inData (by omega))⟩
      · simp only [if_neg zero] at below ⊢
        exact ⟨A, h, now.found (now.present lt zero)⟩

theorem iappendLoop_succ {c : Dinode} {off fuel : Nat} {p : List UInt8} (more : p.length ≠ 0)
    (lt : off / 512 < MAXFILE) :
    iappendLoop m c off p (fuel + 1) =
      (let n := min p.length (512 - off % 512)
       iappendLoop
        (Mkfs.wsect (blockFor m c (off / 512)).2.2 (blockFor m c (off / 512)).1
          (((blockFor m c (off / 512)).2.2.img (blockFor m c (off / 512)).1).splice (off % 512) (p.take n)))
        (blockFor m c (off / 512)).2.1 (off + n) (p.drop n) fuel) := by
  rw [iappendLoop, if_neg more]
  simp only [if_pos lt, rsect, show (off / 512 + 1) * 512 - off = 512 - off % 512 by omega,
    show off - off / 512 * 512 = off % 512 by omega]

theorem iappendLoop_grows {c c' : Dinode} {off off' : Nat} {m' : State} (p : List UInt8) (fuel : Nat)
    (run : iappendLoop m c off p fuel = some (off', c', m')) : Grows m m' ∧ m'.freeinode = m.freeinode := by
  induction fuel generalizing m c off p with
  | zero =>
    cases run
    exact ⟨.refl _, rfl⟩
  | succ fuel ih =>
    by_cases none : p.length = 0
    · rw [iappendLoop, if_pos none] at run
      cases run
      exact ⟨.refl _, rfl⟩
    · by_cases lt : off / 512 < MAXFILE
      · rw [iappendLoop_succ none lt] at run
        obtain ⟨grows, -, inode⟩ := blockFor_grows m c (off / 512)
        obtain ⟨grows', inode'⟩ := ih _ run
        exact ⟨grows.trans ⟨grows'.freeblock, grows'.counted⟩, inode'.trans inode⟩
      · rw [iappendLoop, if_neg none] at run
        simp only [if_neg lt] at run
        cases run

theorem iappendLoop_room {c c' : Dinode} {off off' : Nat} {m' : State} (p : List UInt8) (fuel : Nat)
    (enough : p.length ≤ fuel) (run : iappendLoop m c off p fuel = some (off', c', m')) :
    p.length = 0 ∨ off + p.length ≤ MAXFILE * BSIZE := by
  induction fuel generalizing m c off p with
  | zero => exact Or.inl (by omega)
  | succ fuel ih =>
    by_cases none : p.length = 0
    · exact Or.inl none
    · by_cases lt : off / 512 < MAXFILE
      · rw [iappendLoop_succ none lt] at run
        generalize hn : min p.length (512 - off % 512) = n at run
        have length : (p.drop n).length = p.length - n := List.length_drop
        simp only [MAXFILE, NDIRECT, NINDIRECT, BSIZE] at *
        rcases ih _ (by omega) run with done | room <;> exact Or.inr (by omega)
      · rw [iappendLoop, if_neg none] at run
        simp only [if_neg lt] at run
        cases run

theorem iappendLoop_some {c : Dinode} {off : Nat} (p : List UInt8) (fuel : Nat) (enough : p.length ≤ fuel)
    (room : off + p.length ≤ MAXFILE * BSIZE) :
    ∃ c' m', iappendLoop m c off p fuel = some (off + p.length, c', m') ∧
      m'.freeblock ≤ m.freeblock + 2 * min p.length ((off % 512 + p.length + 511) / 512) := by
  simp only [MAXFILE, NDIRECT, NINDIRECT, BSIZE] at room
  induction fuel generalizing m c off p with
  | zero =>
    have empty : p = [] := List.length_eq_zero_iff.mp (by omega)
    subst empty
    exact ⟨c, m, rfl, by simp⟩
  | succ fuel ih =>
    by_cases none : p.length = 0
    · exact ⟨c, m, by simp [iappendLoop, none], by simp⟩
    · rw [iappendLoop_succ none (by simp only [MAXFILE, NDIRECT, NINDIRECT]; omega)]
      obtain ⟨-, high, -⟩ := blockFor_grows m c (off / 512)
      generalize blockFor m c (off / 512) = r at high ⊢
      obtain ⟨x, c₁, m₁⟩ := r
      simp only at high ⊢
      generalize hn : min p.length (512 - off % 512) = n
      have length : (p.drop n).length = p.length - n := List.length_drop
      obtain ⟨c', m', run, high'⟩ :=
        @ih (Mkfs.wsect m₁ x ((m₁.img x).splice (off % 512) (p.take n))) c₁ (off + n) (p.drop n) (by omega) (by omega)
      refine ⟨c', m', ?_, high'.trans ?_⟩
      · rw [run, length]
        congr 2
        omega
      · simp only [Mkfs.wsect]
        rw [length]
        omega

theorem iappendLoop_written {i v : Nat} {c c' : Dinode} {m' : State} {off off' : Nat} (p : List UInt8) (fuel : Nat)
    (h : Image m A) (now : Open geometry A i c v) (le : off ≤ v) (room : off + p.length ≤ MAXFILE * BSIZE)
    (enough : p.length ≤ fuel) (run : iappendLoop m c off p fuel = some (off', c', m'))
    (below : m'.freeblock ≤ 1014) :
    ∃ A', Image m' A' ∧ Written geometry A i c v off p A' c' := by
  have hroom := room
  simp only [MAXFILE, NDIRECT, NINDIRECT, BSIZE] at hroom
  induction fuel generalizing m A c off p v with
  | zero =>
    have empty : p = [] := List.length_eq_zero_iff.mp (by omega)
    subst empty
    cases run
    exact ⟨A, h, now.written_nil le⟩
  | succ fuel ih =>
    by_cases none : p.length = 0
    · have empty : p = [] := List.length_eq_zero_iff.mp none
      subst empty
      cases run
      exact ⟨A, h, now.written_nil le⟩
    · have lt : off / 512 < MAXFILE := by
        simp only [MAXFILE, NDIRECT, NINDIRECT]
        omega
      rw [iappendLoop_succ none lt] at run
      generalize hn : min p.length (512 - off % 512) = n at run
      have length : (p.drop n).length = p.length - n := List.length_drop
      have taken : (p.take n).length = n := by
        rw [List.length_take]
        omega
      -- the rest of the loop only allocates more
      have later : (blockFor m c (off / 512)).2.2.freeblock ≤ 1014 :=
        (iappendLoop_grows _ _ run).1.freeblock.trans below
      obtain ⟨A₁, image, ext⟩ := blockFor_extended h now lt
        (by simp only [BSIZE]; omega) later
      have wrote := ext.write le (show 0 < (p.take n).length by omega) (by simp only [BSIZE]; omega)
      have held := ext.now_open.holds_block (k := off / 512 * BSIZE) (by omega)
      rw [Nat.mul_div_cancel _ (by decide), ext.block] at held
      have image' := image.wsect (ext.now_open.owned.inData held) (ext.now_open.owned.marked held)
        ((A₁.data (blockFor m c (off / 512)).1).splice (off % 512) (p.take n))
      rw [image.data _ (ext.now_open.owned.inData held)] at run
      have next := wrote.now_open
      rw [taken] at next
      obtain ⟨A₂, image₂, wrote₂⟩ := ih (p.drop n) image' next (by omega)
        (by simp only [MAXFILE, NDIRECT, NINDIRECT, BSIZE]; omega) (by omega) run (by omega)
      refine ⟨A₂, image₂, ?_⟩
      have all := wrote.trans (show Written _ _ _ _ _ _ (p.drop n) _ _ by rw [taken]; exact wrote₂)
      rwa [List.take_append_drop] at all

/-! ### Nodes -/

/-- The image has the nodes `N`, and the last block of each file ends in zeros. -/
def Made (m : State) (N : Nat → Node) : Prop :=
  ∃ A, Image m A ∧ Sound geometry A ∧ (∀ i < ninodes, A.node i = N i) ∧
    ∀ i < ninodes, (A.din i).type ≠ 0 → ZeroTail A.data (A.din i) (A.din i).size

theorem iappend_grows {m' : State} {i : Nat} {p : List UInt8} (run : iappend m i p = some m') :
    Grows m m' ∧ m'.freeinode = m.freeinode := by
  rw [iappend] at run
  obtain ⟨⟨off, c, m₁⟩, loop, done⟩ := Option.bind_eq_some_iff.mp run
  cases done
  obtain ⟨grows, inode⟩ := iappendLoop_grows _ _ loop
  exact ⟨⟨grows.freeblock, grows.counted⟩, inode⟩

theorem iappend_made {N : Nat → Node} {m' : State} {i : Nat} {p : List UInt8} (h : Made m N) (hi : i < ninodes)
    (allocated : (N i).type ≠ 0) (run : iappend m i p = some m') (below : m'.freeblock ≤ 1014) :
    Made m' (upd N i { N i with contents := (N i).contents ++ p }) := by
  obtain ⟨A, image, sound, nodes, tails⟩ := h
  have type : (A.din i).type ≠ 0 := by rwa [← nodes i hi, Volume.node_type] at allocated
  have size : (N i).contents.length = (A.din i).size := by
    rw [← nodes i hi, Volume.node_alloc type, contents_length]
  rw [iappend, image.din i hi] at run
  obtain ⟨⟨off, c, m₁⟩, loop, done⟩ := Option.bind_eq_some_iff.mp run
  cases done
  have room : (A.din i).size + p.length ≤ MAXFILE * BSIZE := by
    rcases iappendLoop_room p _ Nat.le.refl loop with none | room
    · rw [none]
      exact (sound.mapped i hi type).size
    · exact room
  obtain ⟨c₂, m₂, loop', -⟩ := iappendLoop_some (m := m) (c := A.din i) p p.length Nat.le.refl room
  rw [loop] at loop'
  cases loop'
  obtain ⟨A₁, image₁, wrote⟩ := iappendLoop_written p p.length image (sound.open hi type) Nat.le.refl room
    Nat.le.refl loop below
  obtain ⟨sound', nodes'⟩ := wrote.sound sound Nat.le.refl
  have max : max (A.din i).size ((A.din i).size + p.length) = (A.din i).size + p.length := by omega
  have tail := wrote.tail (tails i hi type)
  rw [max] at sound' nodes' tail
  refine ⟨_, image₁.winode hi ?_, sound', fun j hj => ?_, fun j hj allocated' => ?_⟩
  · have := sound'.fits i hi
    rwa [Volume.setDin_din, upd_same] at this
  · rw [nodes' j hj, ← size, ← nodes i hi]
    by_cases same : j = i
    · subst same
      rw [upd_same, upd_same, nodes j hj, overwrite_end]
    · rw [upd_ne _ _ same, upd_ne _ _ same, nodes j hj]
  · rw [Volume.setDin_din, Volume.setDin_data] at *
    by_cases same : j = i
    · subst same
      rw [upd_same]
      exact tail
    · rw [upd_ne _ _ same, wrote.din] at allocated' ⊢
      intro k low high
      rw [wrote.apart.byteOf same hj allocated' (sound.mapped j hj allocated') ?_]
      · exact tails j hj allocated' k low high
      · simp only [BSIZE] at high ⊢
        omega

theorem iappend_some {N : Nat → Node} {i : Nat} {p : List UInt8} (h : Made m N) (hi : i < ninodes)
    (allocated : (N i).type ≠ 0) (room : (N i).contents.length + p.length ≤ MAXFILE * BSIZE) :
    ∃ m', iappend m i p = some m' ∧ m'.freeblock ≤ m.freeblock + 2 * (p.length / 512 + 2) := by
  obtain ⟨A, image, -, nodes, -⟩ := h
  have type : (A.din i).type ≠ 0 := by rwa [← nodes i hi, Volume.node_type] at allocated
  rw [← nodes i hi, Volume.node_alloc type, contents_length] at room
  obtain ⟨c, m', loop, few⟩ := iappendLoop_some (m := m) (c := A.din i) p p.length Nat.le.refl room
  refine ⟨Mkfs.winode m' i { c with size := (A.din i).size + p.length }, ?_, few.trans ?_⟩
  · rw [iappend, image.din i hi, loop]
    rfl
  · omega

theorem ialloc_made {N : Nat → Node} {type : Nat} (h : Made m N) (hi : m.freeinode < ninodes)
    (small : type < 2 ^ 16) (ne : type ≠ 0) :
    Made (ialloc m type).2 (upd N m.freeinode ⟨type, 0, 0, 1, []⟩) := by
  obtain ⟨A, image, sound, nodes, tails⟩ := h
  have fits : ({ Dinode.empty with type := type, nlink := 1 } : Dinode).Fits :=
    have fits := Dinode.fits_empty small
    ⟨fits.type, fits.major, fits.minor, ⟨by simp, by simp⟩, fits.size, fits.addr⟩
  have image' : Image { m with freeinode := m.freeinode + 1 } A :=
    ⟨image.super, image.din, image.used, image.data, image.zero, image.counted, image.low⟩
  obtain ⟨sound', nodes'⟩ := sound.clear
    (show (A.setDin m.freeinode { Dinode.empty with type := type, nlink := 1 }).din = _ from rfl) rfl (fun _ _ => rfl)
      fits rfl Dinode.addr_empty
  refine ⟨_, image'.winode hi fits, sound', fun j hj => ?_, fun j hj allocated => ?_⟩
  · rw [nodes' j hj, Dinode.bare, if_neg ne]
    by_cases same : j = m.freeinode
    · subst same
      rw [upd_same, upd_same]
      rfl
    · rw [upd_ne _ _ same, upd_ne _ _ same, nodes j hj]
  · rw [Volume.setDin_din, Volume.setDin_data] at *
    by_cases same : j = m.freeinode
    · subst same
      rw [upd_same]
      intro k low high
      simp only [Dinode.empty, BSIZE] at high
      omega
    · rw [upd_ne _ _ same] at allocated ⊢
      exact tails j hj allocated

/-! ### The whole run -/

def entries (files : List HostFile) : List Dirent :=
  ⟨ROOTINO, strncpy [46] DIRSIZ⟩ :: ⟨ROOTINO, strncpy [46, 46] DIRSIZ⟩ ::
    files.mapIdx fun k f => ⟨k + 2, strncpy (entryName f.name) DIRSIZ⟩

def nodes (files : List HostFile) (i : Nat) : Node :=
  if i = ROOTINO then ⟨T_DIR, 0, 0, 1, (entries files).flatMap Dirent.toBytes⟩
  else if i < 2 then .free
  else match files[i - 2]? with
    | some f => ⟨T_FILE, 0, 0, 1, f.reads.flatten⟩
    | none => .free

theorem entry_length (inum : Nat) (name : List UInt8) :
    (Dirent.toBytes ⟨inum, strncpy name DIRSIZ⟩).length = DESIZE := by
  simp [Dirent.toBytes, strncpy_length]

theorem entries_length (files : List HostFile) :
    ((entries files).flatMap Dirent.toBytes).length = DESIZE * (files.length + 2) := by
  have each : ∀ e ∈ entries files, e.toBytes.length = DESIZE := by
    intro e member
    simp only [entries, List.mem_cons, List.mem_mapIdx] at member
    rcases member with rfl | rfl | ⟨k, _, rfl⟩ <;> exact entry_length _ _
  have count : (entries files).length = files.length + 2 := by simp [entries]
  rw [List.length_flatMap, List.map_congr_left each, List.map_const', List.sum_replicate_nat, count, Nat.mul_comm]

theorem blank_made : Made blank fun _ => .free := by
  have zero : ∀ b, b ≠ 1 → blank.img b = Block.zero := fun b ne => if_neg ne
  have type : ¬ (Dinode.empty.type ≠ 0) := fun ne => ne rfl
  refine ⟨⟨fun _ => .empty, fun b => decide (b < 29), fun _ => .zero⟩,
    ⟨rfl, fun i hi => ?_, fun b => ?_, fun b hb => ?_,
    fun b hb => ?_, rfl, by decide⟩, ⟨fun _ _ => Dinode.fits_empty (by decide), ⟨?_, ?_, ?_⟩, ?_⟩, fun _ _ => rfl, ?_⟩
  · have := i2b_lt hi
    rw [rinode, rsect, zero _ (by omega), Block.dinode_zero]
  · exact decide_eq_true_iff
  · exact zero b (by have := (inData_iff.mp hb).1; omega)
  · exact zero b (by change 29 ≤ b at hb; omega)
  · exact fun held => absurd held.allocated type
  · exact fun held => absurd held.allocated type
  · exact fun held => absurd held.allocated type
  · exact fun _ _ allocated => absurd allocated type
  · exact fun _ _ allocated => absurd allocated type

theorem foldlM_grows {α : Type} {f : State → α → Option State}
    (step : ∀ {m a m'}, f m a = some m' → Grows m m') (l : List α) {m m' : State}
    (run : l.foldlM f m = some m') : Grows m m' := by
  induction l generalizing m with
  | nil =>
    cases run
    exact .refl _
  | cons a l ih =>
    rw [List.foldlM_cons] at run
    obtain ⟨m₁, first, rest⟩ := Option.bind_eq_some_iff.mp run
    exact (step first).trans (ih rest)

theorem reads_made {N : Nat → Node} {m' : State} {i : Nat} (reads : List (List UInt8)) (h : Made m N) (hi : i < ninodes)
    (allocated : (N i).type ≠ 0)
    (run : reads.foldlM (fun s buf => iappend s i buf) m = some m') (below : m'.freeblock ≤ 1014) :
    Made m' (upd N i { N i with contents := (N i).contents ++ reads.flatten }) ∧ m'.freeinode = m.freeinode := by
  induction reads generalizing m N with
  | nil =>
    cases run
    refine ⟨?_, rfl⟩
    rw [List.flatten_nil, List.append_nil, upd_self]
    exact h
  | cons p reads ih =>
    rw [List.foldlM_cons] at run
    obtain ⟨m₁, first, rest⟩ := Option.bind_eq_some_iff.mp run
    have later := (foldlM_grows (fun done => (iappend_grows done).1) reads rest).freeblock
    have made := iappend_made h hi allocated first (later.trans below)
    obtain ⟨made', inode⟩ := ih made (by rwa [upd_same]) rest
    rw [upd_upd, upd_same] at made'
    rw [List.flatten_cons, ← List.append_assoc]
    exact ⟨made', inode.trans (iappend_grows first).2⟩

theorem addFile_grows {m' : State} {f : HostFile} (run : addFile m f = some m') : Grows m m' := by
  rw [addFile] at run
  split at run
  · cases run
  · obtain ⟨m₁, first, rest⟩ := Option.bind_eq_some_iff.mp run
    have grows := (iappend_grows first).1
    exact .trans ⟨grows.freeblock, grows.counted⟩ (foldlM_grows (fun done => (iappend_grows done).1) _ rest)

theorem nodes_snoc (done : List HostFile) (f : HostFile) :
    nodes (done ++ [f]) = upd (upd (nodes done) ROOTINO ⟨T_DIR, 0, 0, 1, (entries done).flatMap Dirent.toBytes ++
        Dirent.toBytes ⟨done.length + 2, strncpy (entryName f.name) DIRSIZ⟩⟩)
      (done.length + 2) ⟨T_FILE, 0, 0, 1, f.reads.flatten⟩ := by
  funext i
  by_cases root : i = ROOTINO
  · rw [upd_ne _ _ (by simp only [ROOTINO] at root; omega), root, upd_same, nodes, if_pos rfl]
    simp [entries, List.mapIdx_append]
  · by_cases new : i = done.length + 2
    · rw [new, upd_same, nodes, if_neg (by simp only [ROOTINO]; omega), if_neg (by omega),
        List.getElem?_append_right (by omega), show done.length + 2 - 2 - done.length = 0 by omega]
      rfl
    · rw [upd_ne _ _ new, upd_ne _ _ root, nodes, nodes, if_neg root, if_neg root]
      split
      · rfl
      · have same : (done ++ [f])[i - 2]? = done[i - 2]? := by
          by_cases lt : i - 2 < done.length
          · rw [List.getElem?_append_left lt]
          · rw [List.getElem?_eq_none (by simp; omega), List.getElem?_eq_none (by omega)]
        rw [same]

theorem addFile_made {m' : State} {done : List HostFile} {f : HostFile} (h : Made m (nodes done))
    (inode : m.freeinode = done.length + 2) (few : done.length < 198) (run : addFile m f = some m')
    (below : m'.freeblock ≤ 1014) : Made m' (nodes (done ++ [f])) ∧ m'.freeinode = done.length + 3 := by
  rw [addFile] at run
  split at run
  · cases run
  · obtain ⟨m₁, first, rest⟩ := Option.bind_eq_some_iff.mp run
    have later := (foldlM_grows (fun done => (iappend_grows done).1) _ rest).freeblock
    have lt : m.freeinode < ninodes := by
      simp only [ninodes]
      omega
    have made := ialloc_made h lt (show T_FILE < 2 ^ 16 by decide) (by decide)
    have root : upd (nodes done) m.freeinode ⟨T_FILE, 0, 0, 1, []⟩ ROOTINO =
        ⟨T_DIR, 0, 0, 1, (entries done).flatMap Dirent.toBytes⟩ := by
      rw [upd_ne _ _ (by simp only [ROOTINO]; omega), nodes, if_pos rfl]
    have made' := iappend_made made (by decide) (by rw [root]; exact Nat.one_ne_zero) first (later.trans below)
    rw [root] at made'
    have ne : m.freeinode ≠ ROOTINO := by
      simp only [ROOTINO]
      omega
    obtain ⟨made'', inode'⟩ := reads_made f.reads made' lt (by rw [upd_ne _ _ ne, upd_same]; decide)
      rest below
    rw [upd_ne _ _ ne, upd_same] at made''
    refine ⟨?_, inode'.trans ((iappend_grows first).2.trans ?_)⟩
    · rw [nodes_snoc, ← inode]
      rw [upd_comm _ _ _ ne, upd_upd] at made''
      exact made''
    · simp only [winode, wsect]
      omega

theorem files_made {m' : State} {done : List HostFile} (files : List HostFile) (h : Made m (nodes done))
    (inode : m.freeinode = done.length + 2) (few : done.length + files.length ≤ 198)
    (run : files.foldlM addFile m = some m') (below : m'.freeblock ≤ 1014) : Made m' (nodes (done ++ files)) := by
  induction files generalizing m done with
  | nil =>
    cases run
    rwa [List.append_nil]
  | cons f files ih =>
    rw [List.foldlM_cons] at run
    obtain ⟨m₁, first, rest⟩ := Option.bind_eq_some_iff.mp run
    rw [List.length_cons] at few
    have later := (foldlM_grows addFile_grows files rest).freeblock
    obtain ⟨made, inode'⟩ := addFile_made h inode (by omega) first (later.trans below)
    have all := ih made (by rw [List.length_append]; exact inode')
      (by rw [List.length_append, List.length_singleton]; omega)
      rest
    rwa [List.append_assoc] at all

theorem root_made {m₁ m₂ : State}
    (first : iappend (ialloc blank T_DIR).2 ROOTINO (Dirent.toBytes ⟨ROOTINO, strncpy [46] DIRSIZ⟩) = some m₁)
    (second : iappend m₁ ROOTINO (Dirent.toBytes ⟨ROOTINO, strncpy [46, 46] DIRSIZ⟩) = some m₂)
    (below : m₂.freeblock ≤ 1014) : Made m₂ (nodes []) ∧ m₂.freeinode = 2 := by
  have made := ialloc_made blank_made (by decide) (show T_DIR < 2 ^ 16 by decide) (by decide)
  have later := (iappend_grows second).1.freeblock
  have made₁ := iappend_made made (by decide) (by decide) first (later.trans below)
  have made₂ := iappend_made made₁ (by decide) (by decide) second below
  refine ⟨?_, (iappend_grows second).2.trans (iappend_grows first).2⟩
  have same : nodes [] = upd (fun _ => .free) ROOTINO ⟨T_DIR, 0, 0, 1,
      Dirent.toBytes ⟨ROOTINO, strncpy [46] DIRSIZ⟩ ++ Dirent.toBytes ⟨ROOTINO, strncpy [46, 46] DIRSIZ⟩⟩ := by
    funext i
    by_cases root : i = ROOTINO
    · rw [root, upd_same]
      simp [nodes, entries]
    · rw [upd_ne _ _ root, nodes, if_neg root]
      simp
  rw [same]
  simp only [show blank.freeinode = ROOTINO from rfl, upd_upd, upd_same, List.nil_append] at made₂
  exact made₂

theorem bit_markUsed (n : Nat) {j : Nat} (hj : j < BPB) : (markUsed Block.zero n).bit j = decide (j < n) := by
  induction n with
  | zero => simp [markUsed]
  | succ n ih =>
    rw [markUsed, Block.bit_setBit _ _ hj, ih, ← Bool.decide_or, decide_eq_decide]
    omega

end

def inode (img : Nat → Block) (i : Nat) : Dinode := (img (iblock i)).dinode (i % IPB)

/-- The finished image is a disk with the volume `A`, with the blocks below `top` marked and nothing beyond
them. -/
structure Finished (img : Nat → Block) (top : Nat) (A : Volume) : Prop extends Reads geometry img A where
  super : img 1 = Superblock.toBlock ⟨size, nblocks, ninodes, nlog⟩
  marks : ∀ b, A.used b = true ↔ b < top
  zero : ∀ b, top ≤ b → img b = Block.zero
  low : 29 ≤ top

theorem Image.finished {m : State} {A : Volume} (h : Image m A) :
    Finished (Mkfs.wsect m (ninodes / IPB + 3) (markUsed Block.zero m.usedblocks)).img m.usedblocks A := by
  have low := h.low
  have others : ∀ b, b ≠ 28 → (Mkfs.wsect m (ninodes / IPB + 3) (markUsed Block.zero m.usedblocks)).img b = m.img b :=
    fun b ne => if_neg ne
  have counted := h.counted
  have super := (others 1 (by decide)).trans h.super
  refine ⟨⟨by rw [super]; decide +kernel, by rw [super]; decide +kernel, fun i hi => ?_, fun b hb => ?_,
    fun b hb => ?_⟩, super, fun b => ?_, fun b hb => ?_, by omega⟩
  · have := i2b_lt hi
    change ((Mkfs.wsect m _ _).img (i2b i)).dinode (i % IPB) = _
    rw [others _ (by omega)]
    exact h.din i hi
  · have hb : b < BPB := Nat.lt_trans hb (by decide)
    rw [show bblock b geometry.ninodes = ninodes / IPB + 3 by simp only [bblock, geometry, BPB] at *; omega,
      Nat.mod_eq_of_lt hb]
    have here : (Mkfs.wsect m (ninodes / IPB + 3) (markUsed Block.zero m.usedblocks)).img (ninodes / IPB + 3) =
        markUsed Block.zero m.usedblocks := by simp only [Mkfs.wsect, if_true]
    rw [here, bit_markUsed _ hb, counted, Bool.eq_iff_iff, h.used, decide_eq_true_iff]
  · rw [others b (by have := (inData_iff.mp hb).1; omega)]
    exact h.data b hb
  · rw [counted]
    exact h.used b
  · rw [others b (by omega)]
    exact h.zero b (by omega)

theorem nodes_root (files : List HostFile) :
    nodes files ROOTINO = ⟨T_DIR, 0, 0, 1, (entries files).flatMap Dirent.toBytes⟩ := if_pos rfl

theorem root_size {files : List HostFile} {A : Volume} (same : A.node ROOTINO = nodes files ROOTINO) :
    (A.din ROOTINO).type = T_DIR ∧ (A.din ROOTINO).size = DESIZE * (files.length + 2) := by
  rw [nodes_root] at same
  have type : (A.din ROOTINO).type = T_DIR := by rw [← Volume.node_type, same]
  have bytes := congrArg Node.contents same
  rw [Volume.node_alloc (by rw [type]; decide)] at bytes
  refine ⟨type, ?_⟩
  rw [← contents_length A.data, ← entries_length]
  exact congrArg List.length bytes

def rootSize (files : List HostFile) : Nat := (DESIZE * (files.length + 2) / BSIZE + 1) * BSIZE

/-- The root directory is the only inode whose size is not that of what was appended. -/
theorem main_finished {files : List HostFile} {m : State} (run : main files = some m)
    (few : files.length ≤ ninodes - 2) (below : m.usedblocks ≤ 1014) :
    ∃ A, Finished m.img m.usedblocks (A.setDin ROOTINO { A.din ROOTINO with size := rootSize files }) ∧
      Sound geometry A ∧ (∀ i < ninodes, A.node i = nodes files i) ∧
      ∀ i < ninodes, (A.din i).type ≠ 0 → ZeroTail A.data (A.din i) (A.din i).size := by
  rw [main] at run
  obtain ⟨m₁, first, run⟩ := Option.bind_eq_some_iff.mp run
  obtain ⟨m₂, second, run⟩ := Option.bind_eq_some_iff.mp run
  obtain ⟨m₃, third, run⟩ := Option.bind_eq_some_iff.mp run
  rw [balloc] at run
  split at run
  swap
  · cases run
  cases run
  have grows := (foldlM_grows addFile_grows files third)
  have grows' := (iappend_grows first).1.trans ((iappend_grows second).1.trans grows)
  have below : m₃.freeblock ≤ 1014 := (grows'.counted rfl) ▸ below
  obtain ⟨made, inode⟩ := root_made first second (grows.freeblock.trans below)
  obtain ⟨A, image, sound, nodes, tails⟩ :=
    files_made files made inode (by simp only [List.length_nil, ninodes] at *; omega) third below
  have size := (root_size (nodes ROOTINO (by decide))).2
  have fits := sound.fits ROOTINO (by decide)
  refine ⟨A, ?_, sound, nodes, tails⟩
  have image' := image.winode (i := ROOTINO) (d := { A.din ROOTINO with size := rootSize files }) (by decide)
    ⟨fits.type, fits.major, fits.minor, fits.nlink, ?_, fits.addr⟩
  · have done := image'.finished
    simp only [show blank.freeinode = ROOTINO from rfl, image.din ROOTINO (by decide), size]
    exact done
  · simp only [rootSize, DESIZE, BSIZE, ninodes] at *
    omega

/-- What the kernel expects of a disk: every allocated inode has a block for each index its size needs,
marked used and nobody else's. -/
structure Legal (img : Nat → Block) : Prop where
  mapped : ∀ {i bn}, i < ninodes → (inode img i).type ≠ 0 → bn * BSIZE < (inode img i).size →
    blockOf img (inode img i) bn ≠ 0
  marked : ∀ {i bn}, i < ninodes → (inode img i).type ≠ 0 → bn * BSIZE < (inode img i).size →
    (img (bblock (blockOf img (inode img i) bn) ninodes)).bit (blockOf img (inode img i) bn % BPB) = true
  distinct : ∀ {i j bn bn'}, i < ninodes → j < ninodes → (inode img i).type ≠ 0 → (inode img j).type ≠ 0 →
    bn * BSIZE < (inode img i).size → bn' * BSIZE < (inode img j).size →
    blockOf img (inode img i) bn = blockOf img (inode img j) bn' → i = j ∧ bn = bn'

section

variable {img : Nat → Block} {top : Nat} {A : Volume}

theorem Finished.inode (h : Finished img top A) (i : Nat) (hi : i < ninodes) : inode img i = A.din i := h.din i hi

theorem Finished.blockOf (h : Finished img top A) (owned : Owned geometry A.din A.used A.data) {i : Nat}
    (hi : i < ninodes) (allocated : (A.din i).type ≠ 0) (bn : Nat) :
    blockOf img (A.din i) bn = blockOf A.data (A.din i) bn := by
  refine slot_congr (fun _ => rfl) (fun present => h.data _ ?_) _
  exact owned.inData (i := i) (k := NDIRECT)
    ⟨hi, allocated, by decide, slot_direct A.data _ Nat.le.refl, present⟩

theorem Finished.legal (h : Finished img top A) (sound : Sound geometry A) : Legal img := by
  have holds : ∀ {i bn}, i < ninodes → (A.din i).type ≠ 0 → bn * BSIZE < (A.din i).size →
      Holds geometry A.din A.data i (slotOf bn) (Espl.blockOf A.data (A.din i) bn) := by
    intro i bn hi allocated lt
    have held := holds_of_mapped (g := geometry) hi allocated (sound.mapped i hi allocated) lt
    rwa [Nat.mul_div_cancel _ (by decide)] at held
  constructor
  case mapped =>
    intro i bn hi allocated lt
    rw [h.inode i hi] at allocated lt ⊢
    rw [h.blockOf sound.owned hi allocated]
    exact (holds hi allocated lt).ne_zero
  case marked =>
    intro i bn hi allocated lt
    rw [h.inode i hi] at allocated lt ⊢
    rw [h.blockOf sound.owned hi allocated]
    have held := holds hi allocated lt
    have inData := inData_iff.mp (sound.owned.inData held)
    rw [show ninodes = geometry.ninodes from rfl, h.used _ (by change _ < 1024; omega)]
    exact sound.owned.marked held
  case distinct =>
    intro i j bn bn' hi hj allocated allocated' lt lt' same
    rw [h.inode i hi] at allocated lt same
    rw [h.inode j hj] at allocated' lt' same
    rw [h.blockOf sound.owned hi allocated, h.blockOf sound.owned hj allocated'] at same
    have unique := sound.owned.unique (holds hi allocated lt) (same ▸ holds hj allocated' lt')
    exact ⟨unique.1, slotOf_inj unique.2⟩

end

/-- The nodes of the finished image: the root directory is filled up with empty entries. -/
def finalNodes (files : List HostFile) : Nat → Node :=
  upd (nodes files) ROOTINO ⟨T_DIR, 0, 0, 1, (entries files).flatMap Dirent.toBytes ++
    List.replicate (rootSize files - DESIZE * (files.length + 2)) 0⟩

section

variable {files : List HostFile} {m : State} (run : main files = some m) (few : files.length ≤ ninodes - 2)
  (below : m.usedblocks ≤ 1014)

include run few below

/-- Unless the entries fill their last block, the image is a sound volume. -/
theorem main_sound (ragged : (files.length + 2) % 32 ≠ 0) :
    ∃ A, Finished m.img m.usedblocks A ∧ Sound geometry A ∧ ∀ i < ninodes, A.node i = finalNodes files i := by
  obtain ⟨A, finished, sound, same, tails⟩ := main_finished run few below
  obtain ⟨dir, size⟩ := root_size (same ROOTINO (by decide))
  have type : (A.din ROOTINO).type ≠ 0 := by
    rw [dir]
    decide
  have le : (A.din ROOTINO).size ≤ rootSize files ∧
      (rootSize files + BSIZE - 1) / BSIZE = ((A.din ROOTINO).size + BSIZE - 1) / BSIZE := by
    rw [size]
    simp only [rootSize, DESIZE, BSIZE] at *
    omega
  obtain ⟨sound', nodes'⟩ := sound.pad (i := ROOTINO) (by decide) type
    (tails ROOTINO (by decide) type) le.1 le.2
  refine ⟨_, finished, sound', fun i hi => ?_⟩
  rw [nodes' i hi, finalNodes, same ROOTINO (by decide), nodes_root, size]
  by_cases root : i = ROOTINO
  · rw [root, upd_same, upd_same]
  · rw [upd_ne _ _ root, upd_ne _ _ root, same i hi]

/-- Where the entries fill their last block, the root directory gets a block too many and none for it. -/
theorem main_gap (full : (files.length + 2) % 32 = 0) :
    (inode m.img ROOTINO).type = T_DIR ∧ (files.length + 2) / 32 * BSIZE < (inode m.img ROOTINO).size ∧
      blockOf m.img (inode m.img ROOTINO) ((files.length + 2) / 32) = 0 := by
  obtain ⟨A, finished, sound, same, -⟩ := main_finished run few below
  obtain ⟨dir, size⟩ := root_size (same ROOTINO (by decide))
  have type : (A.din ROOTINO).type ≠ 0 := by
    rw [dir]
    decide
  have owned := sound.owned.header (i := ROOTINO) (d := { A.din ROOTINO with size := rootSize files })
    (fun _ => rfl) fun _ => type
  have din := finished.inode ROOTINO (by decide)
  rw [Volume.setDin_din, upd_same] at din
  have block := finished.blockOf owned (i := ROOTINO) (by decide)
    (by rw [Volume.setDin_din, upd_same]; exact type) ((files.length + 2) / 32)
  rw [Volume.setDin_din, upd_same] at block
  rw [din, block]
  refine ⟨dir, ?_, ?_⟩
  · simp only [rootSize, DESIZE, BSIZE]
    omega
  · by_contra present
    have lt := ((sound.mapped ROOTINO (by decide) type).block _
      (by simp only [MAXFILE, NDIRECT, NINDIRECT, ninodes] at *; omega)).mp present
    rw [size] at lt
    simp only [DESIZE, BSIZE] at lt
    omega

theorem main_legal : Legal m.img ↔ (files.length + 2) % 32 ≠ 0 := by
  constructor
  · intro legal full
    obtain ⟨dir, long, none⟩ := main_gap run few below full
    exact legal.mapped (by decide) (by rw [dir]; decide) long none
  · intro ragged
    obtain ⟨A, finished, sound, -⟩ := main_sound run few below ragged
    exact finished.legal sound

end

/-! ### Images of empty files -/

theorem addFile_some {m : State} {done : List HostFile} {f : HostFile} (h : Made m (nodes done))
    (inode : m.freeinode = done.length + 2) (few : done.length < 198) (plain : f.name.contains 47 = false)
    (empty : f.reads = []) : ∃ m', addFile m f = some m' ∧ m'.freeblock ≤ m.freeblock + 4 := by
  have lt : m.freeinode < ninodes := by
    simp only [ninodes]
    omega
  have made := ialloc_made h lt (show T_FILE < 2 ^ 16 by decide) (by decide)
  have root : upd (nodes done) m.freeinode ⟨T_FILE, 0, 0, 1, []⟩ ROOTINO =
      ⟨T_DIR, 0, 0, 1, (entries done).flatMap Dirent.toBytes⟩ := by
    rw [upd_ne _ _ (by simp only [ROOTINO]; omega), nodes_root]
  obtain ⟨m', run, bound⟩ := iappend_some made (i := ROOTINO)
    (p := Dirent.toBytes ⟨m.freeinode, strncpy (entryName f.name) DIRSIZ⟩) (by decide)
    (by rw [root]; exact Nat.one_ne_zero)
    (by
      rw [root, entry_length, entries_length]
      simp only [DESIZE, MAXFILE, NDIRECT, NINDIRECT, BSIZE]
      omega)
  rw [entry_length] at bound
  refine ⟨m', ?_, bound⟩
  rw [addFile, if_neg (by rw [plain]; decide), empty]
  exact Option.bind_eq_some_iff.mpr ⟨m', run, rfl⟩

theorem addFiles_some {m : State} {done : List HostFile} (files : List HostFile) (h : Made m (nodes done))
    (inode : m.freeinode = done.length + 2) (few : done.length + files.length ≤ 198)
    (plain : ∀ f ∈ files, f.name.contains 47 = false ∧ f.reads = []) (room : m.freeblock + 4 * files.length ≤ 1014) :
    ∃ m', files.foldlM addFile m = some m' ∧ m'.freeblock ≤ m.freeblock + 4 * files.length := by
  induction files generalizing m done with
  | nil => exact ⟨m, rfl, Nat.le.refl⟩
  | cons f files ih =>
    rw [List.length_cons] at few room
    obtain ⟨name, empty⟩ := plain f (List.mem_cons_self ..)
    obtain ⟨m₁, first, bound⟩ := addFile_some h inode (by omega) name empty
    obtain ⟨made, inode'⟩ := addFile_made h inode (by omega) first (by omega)
    obtain ⟨m', rest, bound'⟩ := ih made (by rw [List.length_append]; exact inode')
      (by rw [List.length_append, List.length_singleton]; omega)
      (fun f' member => plain f' (List.mem_cons_of_mem _ member)) (by omega)
    refine ⟨m', ?_, ?_⟩
    · rw [List.foldlM_cons]
      exact Option.bind_eq_some_iff.mpr ⟨m₁, first, rest⟩
    · rw [List.length_cons]
      omega

theorem main_some {files : List HostFile} (few : files.length ≤ ninodes - 2)
    (plain : ∀ f ∈ files, f.name.contains 47 = false ∧ f.reads = []) :
    ∃ m, main files = some m ∧ m.usedblocks ≤ 1014 := by
  have made := ialloc_made blank_made (by decide) (show T_DIR < 2 ^ 16 by decide) (by decide)
  obtain ⟨m₁, first, bound₁⟩ := iappend_some made (i := ROOTINO)
    (p := Dirent.toBytes ⟨ROOTINO, strncpy [46] DIRSIZ⟩) (by decide) (by decide) (by decide)
  rw [entry_length] at bound₁
  have made₁ := iappend_made made (by decide) (by decide) first (bound₁.trans (by decide))
  obtain ⟨m₂, second, bound₂⟩ := iappend_some made₁ (i := ROOTINO)
    (p := Dirent.toBytes ⟨ROOTINO, strncpy [46, 46] DIRSIZ⟩) (by decide) (by decide) (by decide)
  rw [entry_length] at bound₂
  change m₁.freeblock ≤ 29 + 4 at bound₁
  change m₂.freeblock ≤ m₁.freeblock + 4 at bound₂
  have few' : files.length ≤ 198 := few
  obtain ⟨made₂, inode⟩ := root_made first second (by omega)
  obtain ⟨m₃, third, bound₃⟩ := addFiles_some files made₂ inode (by simpa using few') plain (by omega)
  have counted : m₃.usedblocks = m₃.freeblock :=
    ((iappend_grows first).1.trans ((iappend_grows second).1.trans (foldlM_grows addFile_grows files third))).counted
      rfl
  have used : m₃.usedblocks < 512 * 8 := by omega
  refine ⟨wsect (winode m₃ ROOTINO
      { rinode m₃ ROOTINO with size := ((rinode m₃ ROOTINO).size / BSIZE + 1) * BSIZE })
    (ninodes / IPB + 3) (markUsed Block.zero m₃.usedblocks), ?_, ?_⟩
  · rw [main]
    refine Option.bind_eq_some_iff.mpr ⟨m₁, first, Option.bind_eq_some_iff.mpr ⟨m₂, second,
      Option.bind_eq_some_iff.mpr ⟨m₃, third, ?_⟩⟩⟩
    exact if_pos used
  · change m₃.usedblocks ≤ 1014
    omega

end Espl.Mkfs
