import Espl.Kernel.Blocks
import Espl.Kernel.Start
import Mathlib.Order.Interval.Finset.Nat

/-!
# Files as arrays of bytes

`readi` and `writei` on a file of a sound volume, as operations on the bytes of the file.
-/

namespace Espl.Kernel

/-- Entry `ip` of the cache is inode `i` of the volume on disk, and no device. -/
structure FileAt (g : Geometry) (s : State) (A : Volume) (ip i : Nat) : Prop where
  disk : OnDisk g s A
  sound : Sound g A
  lt : i < g.ninodes
  inum : (s.icache ip).inum = i
  din : (s.icache ip).din = A.din i
  allocated : (A.din i).type ≠ 0
  file : (A.din i).type ≠ T_DEV

abbrev bytes (A : Volume) (i : Nat) : List UInt8 := contents A.data (A.din i)

/-- The sectors that `writei` logs: the blocks of the range, the block of the inode if the file grows, and if it
gets new blocks the free map, and the indirect block if one of them is listed there. -/
def writeSectors (g : Geometry) (size off n : Nat) : Nat :=
  touched off n + (if size < off + n then 1 else 0) +
    if blocksOf (max size (off + n)) = blocksOf size then 0
    else g.dataStart - g.mapStart + if off + n ≤ NDIRECT * BSIZE then 0 else 1

theorem writeSectors_le (g : Geometry) (size off n : Nat) :
    writeSectors g size off n ≤ touched off n + 2 + (g.dataStart - g.mapStart) := by
  unfold writeSectors
  split <;> split <;> (try split) <;> omega

section

variable {g : Geometry} {s : State} {A : Volume} {ip i off : Nat} {src : List UInt8}

/-- The blocks that a file gets when it grows to `e` bytes. -/
def missing (size e : Nat) : Nat := blocksOf (max size e) - blocksOf size

theorem run_readi (h : FileAt g s A ip i) {n : Nat} (small : n < 2 ^ 32) :
    machine.run (readi ip off n) s = .returned (readResult (bytes A i) off n) s := by
  have reads : machine.wp (Machine.strict (fun _ => True) fun _ => False) (readi ip off n) s fun r t =>
      r = readResult (bytes A i) off n ∧ t = s :=
    wp_readi_file trivial h.disk h.din (h.sound.open h.lt h.allocated) h.file small ⟨rfl, rfl⟩
  obtain ⟨r, t, run, rfl, rfl⟩ := Machine.wp_returned reads
  exact run

theorem means_writei {T : Terms signature State Panic} {n : Nat}
    (stocked : Stocked g A (missing (A.din i).size (off + src.length) + n))
    (room : T.fault .logTooBig ∨ Room s (writeSectors g (A.din i).size off src.length)) :
    ∃ B k x, Means g T B s A (missing (A.din i).size (off + src.length) + n)
        (k + touched off src.length + x) ∧
      (blocksOf (max (A.din i).size (off + src.length)) = blocksOf (A.din i).size ∨
        HasMap g B ∧ (off + src.length ≤ NDIRECT * BSIZE ∨ x = 1)) ∧ ((A.din i).size < off + src.length → 0 < k) := by
  unfold writeSectors at room
  generalize grown : (if (A.din i).size < off + src.length then 1 else 0) = k at room
  have grow : (A.din i).size < off + src.length → 0 < k := by
    intro larger
    rw [← grown, if_pos larger]
    exact Nat.one_pos
  by_cases still : blocksOf (max (A.din i).size (off + src.length)) = blocksOf (A.din i).size
  · rw [if_pos still] at room
    refine ⟨[], k, 0, ⟨Or.inr stocked, room.imp_right fun room => spares_of_room ?_⟩, Or.inl still, grow⟩
    exact room.mono (by rw [List.length_nil]; omega)
  · rw [if_neg still] at room
    refine ⟨List.range' g.mapStart (g.dataStart - g.mapStart), k, if off + src.length ≤ NDIRECT * BSIZE then 0 else 1,
      ⟨Or.inr stocked, room.imp_right fun room => spares_of_room ?_⟩, Or.inr ⟨fun b hb => ?_, ?_⟩, grow⟩
    · exact room.mono (by rw [List.length_range']; omega)
    · have bounds := Geometry.bblock_bounds hb
      exact List.mem_range'_1.mpr ⟨bounds.1, by omega⟩
    · by_cases low : off + src.length ≤ NDIRECT * BSIZE
      · exact Or.inl low
      · exact Or.inr (if_neg low)

structure Stores (g : Geometry) (A : Volume) (ip i off : Nat) (src : List UInt8) (t : State) (A' : Volume) : Prop where
  file : FileAt g t A' ip i
  bytes : bytes A' i = overwrite (bytes A i) off src
  size : (A'.din i).size = max (A.din i).size (off + src.length)
  others : ∀ j < g.ninodes, j ≠ i → A'.node j = A.node j

/-- `writei` that does not refuse stores the bytes, and leaves `n` free blocks if there were as many more
than it needs. -/
theorem wp_writei_stores {T : Terms signature State Panic} {n : Nat} (busy : ∀ t : State, t.log.busy = true → T.point t)
    (full : ¬ T.fault .ballocFull) (h : FileAt g s A ip i) (open_ : s.log.busy = true) (small : src.length < 2 ^ 32)
    (taken : ¬ Refused (A.din i).size off src.length)
    (stocked : Stocked g A (missing (A.din i).size (off + src.length) + n))
    (room : T.fault .logTooBig ∨ Room s (writeSectors g (A.din i).size off src.length)) :
    machine.wp T (writei ip src off) s fun r t =>
      r = src.length ∧ ∃ A', Stores g A ip i off src t A' ∧ Edits ip s t (A'.din i) ∧ Stocked g A' n ∧
        (A'.din i).type = (A.din i).type := by
  have le : off ≤ (A.din i).size := by
    unfold Refused at taken
    omega
  obtain ⟨B, k, x, means⟩ := means_writei stocked room
  refine wp_writei_file busy open_ h.disk h.sound h.lt h.inum h.din h.allocated h.file small (fun _ => means)
    (fun refused => absurd refused taken) fun _ t A' d disk edits din type sound nodes feeds => ?_
  have now : A'.din i = d := by rw [din, upd_same]
  have node := nodes i h.lt
  rw [upd_same, Volume.node_alloc (by rw [now]; exact type), Volume.node_alloc h.allocated] at node
  obtain ⟨same, -, -, -, stored⟩ := Node.mk.injEq .. ▸ node
  refine ⟨rfl, A', ?_, ?_, ?_, same⟩
  · refine ⟨⟨disk, sound, h.lt, edits.inum.trans h.inum, edits.din.trans now.symm, by rw [now]; exact type,
      same ▸ h.file⟩, stored, ?_, fun j hj ne => by rw [nodes j hj, upd_ne _ _ ne]⟩
    have length := congrArg List.length stored
    rwa [contents_length, overwrite_length _ _ (by rwa [contents_length]), contents_length] at length
  · rw [din, upd_same]
    exact edits
  · exact feeds.resolve_left fun never => full never.1

theorem run_writei (h : FileAt g s A ip i) (open_ : s.log.busy = true) (small : src.length < 2 ^ 32)
    (taken : ¬ Refused (A.din i).size off src.length)
    (stocked : Stocked g A (missing (A.din i).size (off + src.length))) :
    (∃ t A', machine.run (writei ip src off) s = .returned src.length t ∧ Stores g A ip i off src t A') ∨
      machine.run (writei ip src off) s = .panicked .logTooBig ∧
        ¬ Room s (writeSectors g (A.din i).size off src.length) := by
  have wrote := wp_writei_stores (n := 0)
    (T := Machine.strict (fun _ => True) fun m => m = .logTooBig ∧
      ¬ Room s (writeSectors g (A.din i).size off src.length))
    (fun _ _ => trivial) (fun panics => nomatch panics.1) h open_ small taken stocked
    ((Classical.em _).symm.imp_left fun full => ⟨rfl, full⟩)
  rcases Machine.wp_ends wrote with ⟨r, t, run, rfl, A', stores, -⟩ | ⟨m, run, rfl, full⟩
  · exact Or.inl ⟨t, A', run, stores⟩
  · exact Or.inr ⟨run, full⟩

theorem run_writei_refused (h : FileAt g s A ip i) (open_ : s.log.busy = true) (small : src.length < 2 ^ 32)
    (refused : Refused (A.din i).size off src.length) : machine.run (writei ip src off) s = .returned (-1) s := by
  have writes : machine.wp (Machine.strict (fun _ => True) fun _ => False) (writei ip src off) s fun r t =>
      r = -1 ∧ t = s :=
    wp_writei_file (n := 0) (k := 0) (x := 0) (B := []) (fun _ _ => trivial) open_ h.disk h.sound h.lt h.inum
      h.din h.allocated h.file small (fun taken => absurd refused taken) (fun _ => ⟨rfl, rfl⟩)
      fun taken => absurd refused taken
  obtain ⟨r, t, run, rfl, rfl⟩ := Machine.wp_returned writes
  exact run

/-- `writei` refuses and changes nothing, or it stores the bytes as long as there are blocks; only if the log does
not take the sectors that it logs, it may panic. And `readi` returns the bytes that are stored. -/
theorem writei_bytes (h : FileAt g s A ip i) (open_ : s.log.busy = true) (small : src.length < 2 ^ 32) :
    (Refused (A.din i).size off src.length → machine.run (writei ip src off) s = .returned (-1) s) ∧
    (¬ Refused (A.din i).size off src.length →
      Stocked g A (blocksOf (max (A.din i).size (off + src.length)) - blocksOf (A.din i).size) →
      (∃ t A', machine.run (writei ip src off) s = .returned src.length t ∧ Stores g A ip i off src t A' ∧
        ∀ off' n', n' < 2 ^ 32 →
          machine.run (readi ip off' n') t = .returned (readResult (overwrite (bytes A i) off src) off' n') t) ∨
      machine.run (writei ip src off) s = .panicked .logTooBig ∧
        ¬ Room s (writeSectors g (A.din i).size off src.length)) ∧
    ∀ off' n', n' < 2 ^ 32 → machine.run (readi ip off' n') s = .returned (readResult (bytes A i) off' n') s := by
  refine ⟨run_writei_refused h open_ small, fun taken stocked => ?_, fun off' n' few => run_readi h few⟩
  rcases run_writei h open_ small taken stocked with ⟨t, A', run, stores⟩ | full
  · exact Or.inl ⟨t, A', run, stores, fun off' n' few => stores.bytes ▸ run_readi stores.file few⟩
  · exact Or.inr full

end

/-! ### An empty file -/

def fileImage : Nat → Block := ((Mkfs.main [⟨[97], []⟩]).getD Mkfs.blank).img

def fileOpen : State :=
  { started Mkfs.geometry fileImage with
    log := ⟨1014, 10, true, []⟩
    icache := upd (started Mkfs.geometry fileImage).icache 1
      ⟨2, 1, true, true, (fileImage (iblock 2)).dinode (2 % IPB)⟩ }

theorem fileImage_volume : ∃ A, Mkfs.Finished fileImage 30 A ∧ Sound Mkfs.geometry A ∧ Stocked Mkfs.geometry A 983 ∧
    ∀ i < Mkfs.ninodes, A.node i = Mkfs.finalNodes [⟨[97], []⟩] i := by
  obtain ⟨m, run, below⟩ := Mkfs.main_some (show [(⟨[97], []⟩ : Mkfs.HostFile)].length ≤ _ by decide) (by decide)
  have image : fileImage = m.img := by rw [fileImage, run]; rfl
  have used : m.usedblocks = 30 := by
    have counted : (Mkfs.main [⟨[97], []⟩]).map (·.usedblocks) = some 30 := by decide +kernel
    rw [run] at counted
    exact Option.some.inj counted
  obtain ⟨A, finished, sound, nodes⟩ := Mkfs.main_sound run (by decide) below (by decide)
  rw [used, ← image] at finished
  refine ⟨A, finished, sound, ⟨fun b hb => ?_, ?_⟩, nodes⟩
  · exact (finished.marks b).mpr (lt_of_lt_of_le hb finished.low)
  · refine le_trans ?_
      (Finset.card_le_card (show Finset.Ico 30 1013 ⊆ freeBlocks Mkfs.geometry A from fun b member => ?_))
    · simp
    · rw [Finset.mem_Ico] at member
      refine Finset.mem_filter.mpr ⟨Finset.mem_range.mpr (show b < 1014 by omega), ?_⟩
      rw [Bool.eq_false_iff, ne_eq, finished.marks]
      omega

theorem fileAt_open :
    ∃ A, FileAt Mkfs.geometry fileOpen A 1 2 ∧ Stocked Mkfs.geometry A 983 ∧ (A.din 2).size = 0 := by
  obtain ⟨A, finished, sound, stocked, nodes⟩ := fileImage_volume
  have node : A.node 2 = ⟨T_FILE, 0, 0, 1, []⟩ := nodes 2 (by decide)
  have type : (A.din 2).type = T_FILE := by rw [← Volume.node_type, node]
  have allocated : (A.din 2).type ≠ 0 := by rw [type]; decide
  have din : (fileOpen.icache 1).din = A.din 2 := finished.inode 2 (by decide)
  refine ⟨A, ⟨?_, sound, by decide, rfl, din, allocated, by rw [type]; decide⟩, stocked, ?_⟩
  · exact (onDisk_started finished.toReads).of_eq rfl rfl rfl rfl rfl
  · have length := congrArg (fun x => x.contents.length) node
    rwa [Volume.node_alloc allocated, contents_length] at length

/-- Eight blocks, the free map and the inode are more than the log takes. -/
theorem writei_full_log :
    ∃ g s A ip i off src, FileAt g s A ip i ∧ s.log.busy = true ∧ s.log.sectors = [] ∧ src.length < 2 ^ 32 ∧
      ¬ Refused (A.din i).size off src.length ∧
      Stocked g A (blocksOf (max (A.din i).size (off + src.length)) - blocksOf (A.din i).size) ∧
      machine.run (writei ip src off) s = .panicked .logTooBig := by
  obtain ⟨A, file, stocked, size⟩ := fileAt_open
  have panics : (machine.run (writei 1 (List.replicate 4096 0) 0) fileOpen).message = some .logTooBig := by
    decide +kernel
  refine ⟨_, _, A, 1, 2, 0, List.replicate 4096 0, file, rfl, rfl, ?_, ?_, ?_, Outcome.message_eq_some panics⟩
  · rw [List.length_replicate]
    decide
  · rw [size, List.length_replicate]
    unfold Refused
    decide
  · rw [size, List.length_replicate]
    exact ⟨stocked.marked, le_trans (by decide) stocked.free⟩

/-- Seven blocks are written into the file, which fills the log, and the end of them is read back. -/
theorem writei_bytes_seven :
    ∃ A t A', FileAt Mkfs.geometry fileOpen A 1 2 ∧ fileOpen.log.busy = true ∧
      machine.run (writei 1 (List.replicate 3584 7) 0) fileOpen = .returned 3584 t ∧
      Stores Mkfs.geometry A 1 2 0 (List.replicate 3584 7) t A' ∧ bytes A' 2 = List.replicate 3584 7 ∧
      machine.run (readi 1 3582 5) t = .returned (2, [7, 7]) t := by
  obtain ⟨A, file, stocked, size⟩ := fileAt_open
  have none : bytes A 2 = [] := contents_empty size
  have length : (List.replicate 3584 (7 : UInt8)).length = 3584 := List.length_replicate
  obtain ⟨-, writes, -⟩ := @writei_bytes Mkfs.geometry fileOpen A 1 2 0 (List.replicate 3584 7) file rfl
    (by rw [length]; decide)
  rw [size, length] at writes
  obtain ⟨t, A', run, stores, reads⟩ := (writes (by unfold Refused; decide)
    ⟨stocked.marked, le_trans (by decide) stocked.free⟩).resolve_right fun full => full.2 ⟨by decide, by decide⟩
  have read := reads 3582 5 (by decide)
  have whole : ∀ src : List UInt8, overwrite [] 0 src = src := fun src => by simp [overwrite]
  rw [none, whole, readResult, length, List.drop_replicate, List.take_replicate] at read
  exact ⟨A, t, A', file, rfl, run, stores, by rw [stores.bytes, none, whole], read⟩

end Espl.Kernel
