import Espl.Disk.Node
import Espl.Kernel.Crash
import Espl.Kernel.Fs

/-!
# The volume on disk

What the buffers of the file system hold, as a volume, and what `log_write` and the code that calls it
with a block of inodes, of the free map or of data do to it.
-/

namespace Espl.Kernel

/-- The buffers hold the volume `A`. -/
structure OnDisk (g : Geometry) (s : State) (A : Volume) : Prop extends Reads g s.buf A where
  log : LogInv s
  start : s.log.start = g.logStart
  size : s.log.size = g.nlog

def Room (s : State) (k : Nat) : Prop :=
  s.log.sectors.length + k ≤ LOGSIZE ∧ s.log.sectors.length + k ≤ s.log.size - 1

def Logs (s t : State) : Prop :=
  ∃ disk dirty sectors, t = { s with disk := disk, dirty := dirty, log := { s.log with sectors := sectors } }

theorem Logs.trans {s t u : State} (h : Logs s t) (h' : Logs t u) : Logs s u := by
  obtain ⟨_, _, _, rfl⟩ := h
  obtain ⟨disk, dirty, sectors, rfl⟩ := h'
  exact ⟨disk, dirty, sectors, rfl⟩

theorem logs_logged (s : State) (sec : Nat) (data : Block) : Logs s (s.logged sec data) := ⟨_, _, _, rfl⟩

/-- The state that `balloc` leaves when it returns `b`: a block of the free map is logged, and `b` zeroed. -/
def Allocated (g : Geometry) (s : State) (b : Nat) (t : State) : Prop :=
  ∃ fill, t = (s.logged (bblock b g.ninodes) fill).logged b Block.zero

theorem Allocated.logs {g : Geometry} {s t : State} {b : Nat} (h : Allocated g s b t) : Logs s t := by
  obtain ⟨fill, rfl⟩ := h
  exact (logs_logged _ _ _).trans (logs_logged _ _ _)

section

variable {g : Geometry} {s t : State} {A A' : Volume} {T : Terms signature State Panic}

theorem OnDisk.of_eq (h : OnDisk g s A) (disk : t.disk = s.disk) (dirty : t.dirty = s.dirty)
    (start : t.log.start = s.log.start) (size : t.log.size = s.log.size) (sectors : t.log.sectors = s.log.sectors) :
    OnDisk g t A := by
  have buf : t.buf = s.buf := by
    funext x
    rw [State.buf, State.buf, disk, dirty]
  refine ⟨buf ▸ h.toReads, ⟨?_, ?_, ?_, ?_, ?_, ?_, ?_⟩, start.trans h.start, size.trans h.size⟩
  · rw [sectors]; exact h.log.nodup
  · rw [sectors, start, size]; exact h.log.outside
  · rw [sectors]; exact h.log.small
  · rw [sectors, size]; exact h.log.length_size
  · rw [sectors]; exact h.log.length_max
  · rw [sectors, dirty]; exact h.log.dirty_mem
  · rw [sectors, start, disk, buf]; exact h.log.slot

theorem Room.mono {k l : Nat} (h : Room s k) (le : l ≤ k) : Room s l := ⟨by have := h.1; omega, by have := h.2; omega⟩

theorem Room.logged {k : Nat} (h : Room s (k + 1)) (sec : Nat) (data : Block) : Room (s.logged sec data) k := by
  have sectors := logged_sectors s sec data
  have length : (s.logged sec data).log.sectors.length ≤ s.log.sectors.length + 1 := by
    rw [sectors]
    split
    · omega
    · rw [List.length_append, List.length_singleton]
  have size : (s.logged sec data).log.size = s.log.size := rfl
  unfold Room at *
  omega

theorem OnDisk.logged {sec : Nat} {fill : Block} (h : OnDisk g s A) (room : Room s 1) (ne : sec ≠ 1)
    (before : sec < g.logStart)
    (din : ∀ i < g.ninodes, (if iblock i = sec then fill else s.buf (iblock i)).dinode (i % IPB) = A'.din i)
    (used : ∀ b < g.size,
      (if bblock b g.ninodes = sec then fill else s.buf (bblock b g.ninodes)).bit (b % BPB) = A'.used b)
    (data : ∀ b, g.InData b → (if b = sec then fill else s.buf b) = A'.data b) :
    OnDisk g (s.logged sec fill) A' := by
  have bounds := g.mapStart_bounds
  have small := g.small
  have logStart : g.logStart ≤ g.size := Nat.sub_le _ _
  have buf : ∀ x, x < g.logStart → (s.logged sec fill).buf x = if x = sec then fill else s.buf x := by
    intro x hx
    refine logged_buf fill (by have := room.2; omega) (Or.inl ?_)
    rw [h.start]
    omega
  refine ⟨⟨?_, ?_, fun i hi => ?_, fun b hb => ?_, fun b hb => ?_⟩, logged_inv fill h.log
    (by have := room.2; omega) (by have := room.1; omega) (Or.inl (by rw [h.start]; exact before)) (by omega), h.start,
    h.size⟩
  · rw [buf 1 (by omega), if_neg (Ne.symm ne)]
    exact h.superSize
  · rw [buf 1 (by omega), if_neg (Ne.symm ne)]
    exact h.superInodes
  · rw [buf _ (by have := (Geometry.iblock_bounds hi).2; omega)]
    exact din i hi
  · rw [buf _ (by have := (Geometry.bblock_bounds hb).2; omega)]
    exact used b hb
  · rw [buf b hb.2]
    exact data b hb

theorem OnDisk.setDin {i : Nat} {d : Dinode} (h : OnDisk g s A) (room : Room s 1) (hi : i < g.ninodes)
    (fits : d.Fits) :
    OnDisk g (s.logged (iblock i) ((s.buf (iblock i)).setDinode (i % IPB) d)) (A.setDin i d) := by
  have bounds := Geometry.iblock_bounds hi
  have small : ∀ j, j % IPB < IPB := fun j => Nat.mod_lt _ (by decide)
  have order := g.mapStart_bounds
  refine h.logged room (by omega) (by omega) (fun j hj => ?_) (fun b hb => ?_) fun b hb => ?_
  · rw [Volume.setDin_din]
    by_cases same : j = i
    · subst same
      rw [upd_same, if_pos rfl, Block.dinode_setDinode_same _ (small j) fits]
    · rw [upd_ne _ _ same, ← h.din j hj]
      by_cases block : iblock j = iblock i
      · rw [if_pos block, block, Block.dinode_setDinode_ne _ _ (small j)]
        intro slot
        simp only [iblock, IPB] at block slot
        omega
      · rw [if_neg block]
  · rw [if_neg (by have := (Geometry.bblock_bounds hb).1; omega)]
    exact h.used b hb
  · rw [if_neg (by have := hb.1; omega)]
    exact h.data b hb

theorem bit_ne {b c n : Nat} (ne : c ≠ b) (block : bblock c n = bblock b n) : b % BPB ≠ c % BPB := by
  intro slot
  simp only [bblock, BPB] at block slot
  omega

theorem OnDisk.setUsed {b : Nat} {x : Block} {v : Bool} (h : OnDisk g s A) (room : Room s 1) (hb : b < g.size)
    (same : x.bit (b % BPB) = v)
    (others : ∀ k < BPB, b % BPB ≠ k → x.bit k = (s.buf (bblock b g.ninodes)).bit k) :
    OnDisk g (s.logged (bblock b g.ninodes) x) { A with used := upd A.used b v } := by
  have bounds := Geometry.bblock_bounds hb
  have order := g.mapStart_bounds
  refine h.logged room (by omega) (by omega) (fun i hi => ?_) (fun c hc => ?_) fun c hc => ?_
  · rw [if_neg (by have := (Geometry.iblock_bounds hi).2; omega)]
    exact h.din i hi
  · by_cases eq : c = b
    · subst eq
      rw [if_pos rfl, same]
      exact (upd_same _ _ _).symm
    · refine Eq.trans ?_ (upd_ne _ _ eq).symm
      rw [← h.used c hc]
      by_cases block : bblock c g.ninodes = bblock b g.ninodes
      · rw [if_pos block, block, others _ (Nat.mod_lt _ (by decide)) (bit_ne eq block)]
      · rw [if_neg block]
  · rw [if_neg (by have := hc.1; omega)]
    exact h.data c hc

theorem OnDisk.setData {b : Nat} (h : OnDisk g s A) (room : Room s 1) (inData : g.InData b) (fill : Block) :
    OnDisk g (s.logged b fill) (A.setData b fill) := by
  have low := inData.1
  have order := g.mapStart_bounds
  refine h.logged room (by omega) inData.2 (fun i hi => ?_) (fun c hc => ?_) fun c hc => ?_
  · rw [if_neg (by have := (Geometry.iblock_bounds hi).2; omega)]
    exact h.din i hi
  · rw [if_neg (by have := (Geometry.bblock_bounds hc).2; omega)]
    exact h.used c hc
  · rw [Volume.setData_data]
    by_cases same : c = b
    · subst same
      rw [upd_same, if_pos rfl]
    · rw [upd_ne _ _ same, if_neg same]
      exact h.data c hc

/-! ### Steps -/

theorem wp_panic {α : Type} {m : Panic} {Q : α → State → Prop} (here : T.point s) (fault : T.fault m) :
    machine.wp T (panic m : K α) s Q := ⟨here, fun _ => fault⟩

theorem wp_logs {sec : Nat} {fill : Block} {Q : Unit → State → Prop} (here : T.point s)
    (busy : ∀ t : State, t.log.busy = true → T.point t) (full : ¬ Room s 1 → T.fault .logTooBig)
    (closed : s.log.busy = false → T.fault .logOutside)
    (post : s.log.busy = true → Room s 1 → Q () (s.logged sec fill)) : machine.wp T (logWrite sec fill) s Q := by
  refine wp_logWrite here (fun big => full ?_) closed (fun _ _ t open_ _ => busy t open_)
    fun open_ max room => post open_ ⟨by omega, by omega⟩
  unfold Room
  omega

theorem OnDisk.superblock (h : OnDisk g s A) :
    (Superblock.ofBlock (s.buf 1)).size = g.size ∧ (Superblock.ofBlock (s.buf 1)).ninodes = g.ninodes :=
  ⟨h.superSize, h.superInodes⟩

theorem wp_ilock_loads {ip : Nat} {Q : Unit → State → Prop} (points : ∀ v, T.point (s.setInode ip v))
    (disk : OnDisk g s A)
    (held : 1 ≤ (s.icache ip).ref) (free : (s.icache ip).busy = false) (lt : (s.icache ip).inum < g.ninodes)
    (allocated : (A.din (s.icache ip).inum).type ≠ 0)
    (copy : (s.icache ip).valid = true → (s.icache ip).din = A.din (s.icache ip).inum)
    (post : Q () (s.setInode ip { s.icache ip with busy := true, valid := true, din := A.din (s.icache ip).inum })) :
    machine.wp T (ilock ip) s Q := by
  have here : T.point s := by
    have same := points (s.icache ip)
    rwa [State.setInode, upd_self] at same
  have lock : act (.lockInode ip) s = .returned () (s.setInode ip { s.icache ip with busy := true }) := by
    simp only [act, free]
    rw [if_neg (by omega), if_neg (by decide)]
  have read : ((s.setInode ip { s.icache ip with busy := true }).buf (iblock (s.icache ip).inum)).dinode
      ((s.icache ip).inum % IPB) = A.din (s.icache ip).inum := disk.din _ lt
  rw [ilock]
  refine Machine.wp_returns here lock (Machine.wp_returns (points _) rfl ?_)
  simp only [State.setInode, upd_same, Program.bind_eq, Program.done_bind] at read ⊢
  by_cases valid : (s.icache ip).valid = false
  · rw [if_pos valid]
    refine Machine.wp_returns (points _) rfl (Machine.wp_returns (points _) rfl ?_)
    simp only [Program.done_bind, read, if_neg allocated]
    simpa only [State.setInode, upd_upd, upd_same, Program.pure_eq, Machine.wp_done] using post
  · rw [if_neg valid]
    rw [Bool.not_eq_false] at valid
    have same : ({ s.icache ip with busy := true, valid := true, din := A.din (s.icache ip).inum } : Inode) =
        { s.icache ip with busy := true } := by
      rw [Inode.mk.injEq, copy valid, valid]
      exact ⟨rfl, rfl, rfl, rfl, rfl⟩
    rw [same] at post
    exact post

/-! ### Blocks -/

theorem clearBitFrom_some {bp : Block} {bi r : Nat} (k : Nat) (found : clearBitFrom bp bi k = some r) :
    bi ≤ r ∧ r < bi + k ∧ bp.bit r = false ∧ ∀ j, bi ≤ j → j < r → bp.bit j = true := by
  induction k generalizing bi with
  | zero => cases found
  | succ k ih =>
    rw [clearBitFrom] at found
    split at found
    · rename_i clear
      cases found
      exact ⟨Nat.le.refl, by omega, clear, fun j low high => by omega⟩
    · rename_i set
      obtain ⟨low, high, clear, before⟩ := ih found
      refine ⟨by omega, by omega, clear, fun j low' high' => ?_⟩
      by_cases first : j = bi
      · rw [first]
        simpa using set
      · exact before j (by omega) high'

theorem clearBitFrom_none {bp : Block} {bi : Nat} (k : Nat) (none : clearBitFrom bp bi k = none) :
    ∀ j, bi ≤ j → j < bi + k → bp.bit j = true := by
  induction k generalizing bi with
  | zero => exact fun j low high => by omega
  | succ k ih =>
    rw [clearBitFrom] at none
    split at none
    · cases none
    · rename_i set
      intro j low high
      by_cases first : j = bi
      · rw [first]
        simpa using set
      · exact ih none j (by omega) (by omega)

structure FirstFree (g : Geometry) (A : Volume) (b : Nat) : Prop where
  lt : b < g.size
  free : A.used b = false
  first : ∀ c < b, A.used c = true

theorem OnDisk.alloc {b : Nat} (h : OnDisk g s A) (room : Room s 1)
    (room' : Room (s.logged (bblock b g.ninodes) ((s.buf (bblock b g.ninodes)).setBit (b % BPB))) 1)
    (hb : b < g.size) (inData : g.InData b) :
    OnDisk g ((s.logged (bblock b g.ninodes) ((s.buf (bblock b g.ninodes)).setBit (b % BPB))).logged b Block.zero)
      (A.alloc b) := by
  have marked := h.setUsed room hb (x := (s.buf (bblock b g.ninodes)).setBit (b % BPB)) (v := true)
    (by rw [Block.bit_setBit _ _ (Nat.mod_lt _ (by decide))]; simp)
    fun k hk ne => by rw [Block.bit_setBit _ _ hk]; simp [ne]
  exact marked.setData room' inData Block.zero

theorem wp_balloc_scan {Q : Nat → State → Prop} {sb : Superblock} (h : OnDisk g s A) (here : T.point s)
    (busy : ∀ t : State, t.log.busy = true → T.point t) (full : ¬ Room s 2 → T.fault .logTooBig)
    (closed : s.log.busy = false → T.fault .logOutside)
    (none : (∀ b < g.size, A.used b = true) → T.fault .ballocFull)
    (post : ∀ b t, FirstFree g A b → s.log.busy = true → Allocated g s b t → T.assume (.allocated b) t →
      (g.InData b → OnDisk g t (A.alloc b)) → Q b t)
    (size : sb.size = g.size) (inodes : sb.ninodes = g.ninodes) (k b : Nat) (aligned : b % BPB = 0)
    (enough : g.size ≤ b + k * BPB) (before : ∀ c < b, c < g.size → A.used c = true) :
    machine.wp T (balloc.scan sb b k) s Q := by
  induction k generalizing b with
  | zero => exact wp_panic here (none fun c hc => before c (by omega) hc)
  | succ k ih =>
    have bits : ∀ j < min BPB (g.size - b), (s.buf (bblock b g.ninodes)).bit j = A.used (b + j) := by
      intro j hj
      rw [← h.used (b + j) (by omega)]
      simp only [bblock, BPB] at *
      rw [show (b + j) / 4096 = b / 4096 by omega, show (b + j) % 4096 = j by omega]
    rw [balloc.scan]
    refine ⟨here, fun _ => ?_⟩
    simp only [act, size, inodes, Program.done_bind]
    cases found : clearBitFrom (s.buf (bblock b g.ninodes)) 0 (min BPB (g.size - b)) with
    | none =>
      have all := clearBitFrom_none _ found
      refine ih (b + BPB) (by simp only [BPB] at *; omega) (by simp only [BPB] at *; omega) fun c hc lt => ?_
      by_cases old : c < b
      · exact before c old lt
      · have := bits (c - b) (by omega)
        rw [all _ (Nat.zero_le _) (by omega), show b + (c - b) = c by omega] at this
        exact this.symm
    | some bi =>
      obtain ⟨-, lt, clear, others⟩ := clearBitFrom_some _ found
      have first : FirstFree g A (b + bi) := by
        refine ⟨by omega, by rw [← bits bi (by omega), clear], fun c hc => ?_⟩
        by_cases old : c < b
        · exact before c old (by omega)
        · have := bits (c - b) (by omega)
          rw [others _ (Nat.zero_le _) (by omega), show b + (c - b) = c by omega] at this
          exact this.symm
      have block : bblock (b + bi) g.ninodes = bblock b g.ninodes ∧ (b + bi) % BPB = bi := by
        simp only [bblock, BPB] at *
        omega
      have marked := @OnDisk.alloc g s A (b + bi) h
      rw [block.1, block.2] at marked
      refine Machine.wp_then (wp_logs here busy (fun no => full fun room => no (room.mono (by omega))) closed
        fun open_ room => ⟨busy _ open_, fun _ => ?_⟩)
      refine Machine.wp_then (wp_logs (busy _ open_) busy (fun no => full fun room => no (room.logged _ _))
        (fun idle => absurd (open_.symm.trans idle) (by decide))
        fun _ room' => ⟨busy _ open_, fun assumed => ?_⟩)
      exact post _ _ first open_ ⟨_, by rw [block.1]⟩ assumed (marked room room' first.lt)

/-- `balloc` returns the first free block, zeroed if it is one of the data area. -/
theorem wp_balloc {Q : Nat → State → Prop} (h : OnDisk g s A) (here : T.point s)
    (busy : ∀ t : State, t.log.busy = true → T.point t) (full : ¬ Room s 2 → T.fault .logTooBig)
    (closed : s.log.busy = false → T.fault .logOutside)
    (none : (∀ b < g.size, A.used b = true) → T.fault .ballocFull)
    (post : ∀ b t, FirstFree g A b → s.log.busy = true → Allocated g s b t → T.assume .balloc s →
      T.assume (.allocated b) t → (g.InData b → OnDisk g t (A.alloc b)) → Q b t) : machine.wp T balloc s Q := by
  obtain ⟨size, inodes⟩ := h.superblock
  refine ⟨here, fun called => ⟨here, fun _ => wp_balloc_scan h here busy full closed none
    (fun b t first open_ allocated => post b t first open_ allocated called) size inodes _ 0 rfl ?_
      fun c hc => by omega⟩⟩
  rw [size]
  simp only [BPB]
  omega

theorem wp_bfree {b : Nat} {Q : Unit → State → Prop} (h : OnDisk g s A) (hb : b < g.size) (here : T.point s)
    (busy : ∀ t : State, t.log.busy = true → T.point t) (full : ¬ Room s 1 → T.fault .logTooBig)
    (closed : s.log.busy = false → T.fault .logOutside) (free : A.used b = false → T.fault .bfreeFree)
    (post : ∀ t, A.used b = true → s.log.busy = true → Logs s t → OnDisk g t (A.free b) → Q () t) :
    machine.wp T (bfree b) s Q := by
  obtain ⟨-, inodes⟩ := h.superblock
  have small : b % BPB < BPB := Nat.mod_lt _ (by decide)
  refine ⟨here, fun _ => ⟨here, fun _ => ?_⟩⟩
  simp only [act, inodes, Program.done_bind, h.used b hb]
  cases marked : A.used b with
  | false => exact wp_panic here (free marked)
  | true =>
    refine wp_logs here busy full closed fun open_ room => post _ marked open_ (logs_logged _ _ _) ?_
    exact h.setUsed room hb (by rw [Block.bit_clearBit _ _ small]; simp)
      fun k hk ne => by rw [Block.bit_clearBit _ _ hk]; simp [ne]

/-! ### Transactions -/

theorem wp_beginTrans {Q : Unit → State → Prop} (here : T.point s) (wait : s.log.busy = true → T.wait)
    (post : s.log.busy = false → Q () { s with log := { s.log with busy := true } }) :
    machine.wp T beginTrans s Q := by
  refine ⟨here, fun _ => ?_⟩
  simp only [act]
  cases busy : s.log.busy with
  | false => exact post busy
  | true => exact wait busy

theorem wp_commitTrans {Q : Unit → State → Prop} (h : OnDisk g s A) (open_ : s.log.busy = true)
    (busy : ∀ t : State, t.log.busy = true → T.point t)
    (post : ∀ disk dirty, (∀ x, dirty x = none) →
      OnDisk g { s with disk := disk, dirty := dirty, log := { s.log with busy := false, sectors := [] } } A →
      Q () { s with disk := disk, dirty := dirty, log := { s.log with busy := false, sectors := [] } }) :
    machine.wp T commitTrans s Q := by
  have logging : Logging s.disk s.buf s := ⟨h.log, open_, fun _ _ => rfl, fun _ _ => rfl⟩
  refine wp_commit logging (busy s open_) (fun u open_ _ => busy u open_) fun disk dirty _ home clean => ?_
  have buf : ∀ x < g.logStart,
      State.buf { s with disk := disk, dirty := dirty, log := { s.log with busy := false, sectors := [] } }
        x = s.buf x := by
    intro x hx
    rw [← home x (Or.inl (by rw [h.start]; exact hx)), State.buf]
    simp only [clean x]
    rfl
  exact post disk dirty clean ⟨h.toReads.congr buf, logInv_empty rfl clean, h.start, h.size⟩

end

end Espl.Kernel
