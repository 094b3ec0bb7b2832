import Espl.Kernel.Filewrite

/-!
# A crash while a file is written

The machine may stop at any point of `filewrite`. What recovery then finds is the file with the first
chunks of the call stored, and all other files as they were.
-/

namespace Espl.Kernel

open Machine

def Home (s t : State) : Prop := ∀ x, Kept s.log.start s.log.size x → t.disk x = s.disk x

structure Alike (s t : State) : Prop where
  start : t.log.start = s.log.start
  size : t.log.size = s.log.size
  home : Home s t

def Calm (s : State) {α : Type} (p : K α) : Prop :=
  ∀ t, Alike s t → machine.wp (loose (Home s)) p t fun _ u => Alike s u

/-- Recovery finds the volume `A` with `src` stored into inode `i` at `off`. -/
def Saves (g : Geometry) (i off : Nat) (A : Volume) (src : List UInt8) (u : State) : Prop :=
  ∃ A' d, Redo g.logStart g.nlog u.disk d ∧ Reads g d A' ∧ Sound g A' ∧ Written g i off src A A'

/-- Recovery from the disk `e` ends, with an empty log and a sound volume: `A` with `src` stored into inode `i`
at `off`. -/
def Recovers (g : Geometry) (i off : Nat) (A : Volume) (src : List UInt8) (e : Nat → Block) : Prop :=
  ∃ u A', machine.run recoverFromLog (booted g.logStart g.nlog e) = .returned () u ∧ (u.disk g.logStart).word 0 = 0 ∧
    Reads g u.disk A' ∧ Sound g A' ∧ Written g i off src A A'

/-! ### What writes to the log only -/

def Step.writes : Step → Bool
  | .bwrite _ _ => true
  | _ => false

theorem act_disk {e : Step} {s t : State} {r : Answer e} (other : e.writes = false) (h : act e s = .returned r t) :
    t.disk = s.disk ∧ t.log.start = s.log.start ∧ t.log.size = s.log.size := by
  cases e with
  | bwrite => cases other
  | _ =>
    simp only [act] at h
    repeat' split at h
    all_goals cases h
    all_goals exact ⟨rfl, rfl, rfl⟩

section

variable {s : State} {α β : Type} {ip : Nat}

theorem calm_pure (a : α) : Calm s (pure a : K α) := fun _ alike => alike

theorem calm_step {e : Step} {f : Answer e → K α} (other : e.writes = false) (rest : ∀ r, Calm s (f r)) :
    Calm s (step e >>= f) := by
  intro t alike
  apply wp_loose alike.home
  intro r u done
  obtain ⟨disk, start, size⟩ := act_disk other done
  exact rest r u ⟨start.trans alike.start, size.trans alike.size, fun x kept => disk ▸ alike.home x kept⟩

theorem calm_bind {p : K α} {f : α → K β} (h : Calm s p) (rest : ∀ a, Calm s (f a)) : Calm s (p >>= f) :=
  fun t alike => wp_seq (h t alike) fun a u alike => rest a u alike

theorem calm_ite {c : Prop} [Decidable c] {p q : K α} (yes : Calm s p) (no : Calm s q) :
    Calm s (if c then p else q) := by
  split
  · exact yes
  · exact no

theorem calm_panic (m : Panic) : Calm s (panic m : K α) := fun _ alike => ⟨alike.home, fun _ => trivial⟩

theorem calm_logWrite (sec : Nat) (data : Block) : Calm s (logWrite sec data) := by
  intro t alike
  have slot : t.log.sectors.length < t.log.size - 1 → ∀ x, Kept s.log.start s.log.size x →
      upd t.disk (t.log.start + t.log.sectors.idxOf sec + 1) data x = s.disk x := by
    intro room x kept
    have le : t.log.sectors.idxOf sec ≤ t.log.sectors.length := List.idxOf_le_length
    rw [alike.size] at room
    rw [alike.start, upd_ne _ _ (by rcases kept with kept | kept <;> omega)]
    exact alike.home x kept
  refine wp_logWrite alike.home (fun _ => trivial) (fun _ => trivial) (fun _ room u _ disk x kept => ?_)
    fun _ _ room => ⟨alike.start, alike.size, slot room⟩
  rw [disk]
  exact slot room x kept

theorem calm_bzero (bno : Nat) : Calm s (bzero bno) := calm_step rfl fun _ => calm_logWrite _ _

theorem calm_balloc : Calm s balloc := by
  have scan : ∀ k sb b, Calm s (balloc.scan sb b k) := by
    intro k
    induction k with
    | zero => intro sb b; exact calm_panic _
    | succ k ih =>
      intro sb b
      refine calm_step rfl fun bp => ?_
      split
      · exact calm_bind (calm_logWrite _ _) fun _ => calm_bind (calm_bzero _) fun _ => calm_step rfl calm_pure
      · exact ih _ _
  exact calm_step rfl fun _ => calm_step rfl fun _ => scan _ _ _

theorem calm_iupdate : Calm s (iupdate ip) := calm_step rfl fun _ => calm_step rfl fun _ => calm_logWrite _ _

theorem calm_bmap (bn : Nat) : Calm s (bmap ip bn) := by
  have setAddr : ∀ i, Calm s (do
      let addr ← balloc
      let inode ← step (.inode ip)
      step (.setDin ip (inode.din.setAddr i addr))
      return addr) := fun i => calm_bind calm_balloc fun _ => calm_step rfl fun _ => calm_step rfl fun _ => calm_pure _
  have indirect : Calm s (bmap.indirectBlock ip) := calm_step rfl fun _ => calm_ite (setAddr _) (calm_pure _)
  refine calm_ite (calm_step rfl fun _ => calm_ite (setAddr _) (calm_pure _)) (calm_ite ?_ (calm_panic _))
  refine calm_bind indirect fun ind => calm_step rfl fun addr => calm_ite ?_ (calm_pure _)
  exact calm_bind calm_balloc fun _ => calm_step rfl fun _ => calm_bind (calm_logWrite _ _) fun _ => calm_pure _

theorem calm_ilock : Calm s (ilock ip) :=
  calm_step rfl fun _ => calm_step rfl fun _ => calm_ite
    (calm_step rfl fun _ => calm_step rfl fun _ => calm_ite (calm_panic _) (calm_pure _)) (calm_pure _)

theorem calm_writei (src : List UInt8) (off : Nat) : Calm s (writei ip src off) := by
  have loop : ∀ fuel off src, Calm s (writei.loop ip off src fuel) := by
    intro fuel
    induction fuel with
    | zero => intro off src; exact calm_pure ()
    | succ fuel ih =>
      intro off src
      exact calm_ite (calm_pure ()) (calm_bind (calm_bmap _) fun _ => calm_step rfl fun _ =>
        calm_bind (calm_logWrite _ _) fun _ => ih _ _)
  refine calm_step rfl fun _ =>
    calm_ite (calm_ite (calm_pure _) ?_) (calm_ite (calm_pure _) (calm_ite (calm_pure _) ?_))
  · exact calm_step rfl fun _ => calm_bind calm_ilock fun _ => calm_pure _
  · refine calm_bind (loop _ _ _) fun _ => calm_step rfl fun _ => calm_ite ?_ (calm_pure _)
    exact calm_step rfl fun _ => calm_bind calm_iupdate fun _ => calm_pure _

end

section

variable {g : Geometry} {s t u : State} {A : Volume} {f ip i off n : Nat} {src : List UInt8}

/-! ### One chunk -/

theorem Saves.recovers {e : Nat → Block} (h : Saves g i off A src u) (stopped : Stopped g.logStart g.nlog u.disk e) :
    Recovers g i off A src e := by
  obtain ⟨A', d, redo, reads, sound, written⟩ := h
  obtain ⟨_, v, run, word, home⟩ := wp_returned (recover_redo (stopped_redo stopped redo))
  exact ⟨v, A', run, word, reads.congr fun x lt => home x (Or.inl lt), sound, written⟩

theorem Ready.saves (h : Ready g f ip i s A) (idle : Idle s) (empty : (s.disk g.logStart).word 0 = 0)
    (at_off : (s.ftable f).off = off) (home : Home s u) : Saves g i off A [] u := by
  refine ⟨A, s.disk, redo_of_empty ?_ fun x out => ?_, h.disk.toReads.congr fun x _ => ?_, h.sound,
    Written.refl g i A (at_off ▸ h.within)⟩
  · rw [home _ (Or.inl (le_of_eq h.disk.start.symm))]
    exact empty
  · apply home
    rw [h.disk.start, h.disk.size]
    exact out.kept
  · rw [State.buf, idle.dirty]
    rfl

/-- Up to the first header write of `commit_trans` recovery finds the old file, from then on the new one. -/
theorem wp_chunk_points {I : State → Prop} (h : Ready g f ip i s A) (idle : Idle s)
    (empty : (s.disk g.logStart).word 0 = 0)
    (at_off : (s.ftable f).off = off) (small : src.length ≤ writeMax) (fits : off + src.length ≤ MAXFILE * BSIZE)
    (stocked : Stocked g A (missing (A.din i).size (off + src.length) + n))
    (old : ∀ u, Saves g i off A [] u → I u) (new : ∀ u, Saves g i off A src u → I u) :
    machine.wp (strict I (· ≠ .ballocFull)) (chunk f ip src) (begun s) fun _ t =>
      Idle t ∧ (t.disk g.logStart).word 0 = 0 := by
  have before : ∀ u, Home s u → I u := fun u home => old u (h.saves idle empty at_off home)
  rw [chunk]
  refine wp_seq (wp_both (I := fun _ => True) (F := (· ≠ .ballocFull))
    (wp_ilock_ready (Q := fun _ t => ∃ v : Inode, v.inum = i ∧ v.din = A.din i ∧ t = (begun s).setInode ip v)
      (fun _ _ => trivial) h fun v inum _ _ din => ⟨v, inum, din, rfl⟩)
    (calm_ilock (begun s) ⟨rfl, rfl, fun _ _ => rfl⟩) (fun _ _ => trivial) before) ?_
  rintro _ _ ⟨⟨v, inum, din, rfl⟩, alike⟩
  have at_file := h.locked inum din
  have same : (((begun s).setInode ip v).ftable f).off = off := at_off
  refine wp_returns (before _ alike.home) rfl ?_
  rw [Program.done_bind, same]
  have taken : ¬ Refused (A.din i).size off src.length := by
    have within := h.within
    rw [at_off] at within
    simp only [Refused, MAXFILE, NDIRECT, NINDIRECT, BSIZE] at fits ⊢
    omega
  have few : src.length < 2 ^ 32 := by
    rw [writeMax_eq] at small
    omega
  refine wp_seq (wp_both (I := fun _ => True)
    (wp_writei_stores (fun _ _ => trivial) (by simp) at_file rfl few taken stocked (Or.inl (by decide)))
    (calm_writei src off _ alike) (fun _ _ => trivial) before) ?_
  rintro r u ⟨⟨-, A', stores, edits, -⟩, alike⟩
  have finish : ∀ v : State, v.disk = u.disk → v.dirty = u.dirty → v.log = u.log →
      machine.wp (strict I (· ≠ .ballocFull)) (do iunlock ip; commitTrans; return r) v fun _ t =>
        Idle t ∧ (t.disk g.logStart).word 0 = 0 := by
    intro v disk dirty log
    have home : Home s v := fun x kept => disk ▸ alike.home x kept
    by_cases free : (v.icache ip).busy = false ∨ (v.icache ip).ref < 1
    · have panics : act (.unlockInode ip) v = .panicked .iunlock := if_pos free
      exact wp_panics (before v home) panics (show Panic.iunlock ≠ .ballocFull by decide)
    have unlocks : act (.unlockInode ip) v = .returned () (v.setInode ip { v.icache ip with busy := false }) :=
      if_neg free
    have after : OnDisk g (v.setInode ip { v.icache ip with busy := false }) A' :=
      stores.file.disk.of_eq disk dirty (congrArg _ log) (congrArg _ log) (congrArg _ log)
    have start : v.log.start = g.logStart := after.start
    have size : v.log.size = g.nlog := after.size
    have logging : Logging s.disk _ (v.setInode ip { v.icache ip with busy := false }) :=
      ⟨after.log, (congrArg Log.busy log).trans edits.busy, ?_, fun _ _ => rfl⟩
    · refine wp_returns (before v home) unlocks ?_
      rw [Program.done_bind]
      refine wp_then (wp_commit logging (before _ home) (fun u _ redo => new u ⟨A', _, ?_, after.toReads,
        stores.file.sound, stores.written⟩) fun d dirty word _ clean => ⟨⟨rfl, rfl, clean⟩, ?_⟩)
      · rw [← start, ← size]
        exact redo
      · rw [← start]
        apply word
        rw [← start] at empty
        exact empty
    · intro x kept
      apply home
      rw [h.disk.start, h.disk.size, ← start, ← size]
      exact kept
  split
  · exact wp_returns (before u alike.home) rfl (finish _ rfl rfl rfl)
  · exact finish u rfl rfl rfl

/-! ### A call -/

theorem wp_loop_points {I : State → Prop} (h : Ready g f ip i s A) (idle : Idle s)
    (empty : (s.disk g.logStart).word 0 = 0)
    (at_off : (s.ftable f).off = off) (rest : List UInt8) (fits : off + rest.length ≤ MAXFILE * BSIZE)
    (stocked : Stocked g A (missing (A.din i).size (off + rest.length))) {fuel : Nat} (enough : rest.length ≤ fuel)
    (points : ∀ k u, Saves g i off A ((chunks.cut rest fuel).take k).flatten u → I u) :
    machine.wp (strict I fun _ => False) (filewrite.loop f src ip rest fuel) s fun r t =>
      r = src.length ∧ Saves g i off A rest t := by
  induction fuel generalizing s A off rest with
  | zero =>
    rw [List.eq_nil_of_length_eq_zero (Nat.le_zero.mp enough)]
    exact ⟨rfl, h.saves idle empty at_off fun _ _ => rfl⟩
  | succ fuel ih =>
    have now : Saves g i off A [] s := h.saves idle empty at_off fun _ _ => rfl
    by_cases none : rest.length = 0
    · rw [filewrite.loop, if_pos none, List.eq_nil_of_length_eq_zero none]
      exact ⟨rfl, now⟩
    rw [loop_eq f ip src rest fuel none]
    rw [chunks.cut, if_neg none] at points
    have length := length_chunk rest
    have left : (rest.drop (min rest.length writeMax)).length = rest.length - min rest.length writeMax :=
      List.length_drop
    have whole : off + (rest.take (min rest.length writeMax)).length + (rest.drop (min rest.length writeMax)).length =
        off + rest.length := by omega
    refine wp_returns (points 0 s now) h.locks ?_
    rw [Program.done_bind]
    rw [← whole, missing_step (Nat.le_add_right _ _)] at stocked
    have small := le_of_eq_of_le length (Nat.min_le_right ..)
    refine wp_seq (wp_both (wp_chunk (T := strict (fun _ => True) fun _ => False) (fun _ _ => trivial) id h
      at_off small (by omega) stocked) (wp_chunk_points h idle empty at_off small (by omega) stocked (points 0)
        fun u saves => points 1 u (by simpa using saves)) (fun _ _ => trivial) fun _ => id) ?_
    rintro r t ⟨⟨rfl, A', ready, written, moved, stocked'⟩, idle', empty'⟩
    rw [length, if_neg (by omega), if_neg (by simp)]
    rw [← written.size] at stocked'
    have further : ∀ more u, Saves g i (off + (rest.take (min rest.length writeMax)).length) A' more u →
        Saves g i off A (rest.take (min rest.length writeMax) ++ more) u := by
      rintro more u ⟨A'', d, redo, reads, sound, written'⟩
      exact ⟨A'', d, redo, reads, sound, written.append (at_off ▸ h.within) written'⟩
    refine wp_mono (ih ready idle' empty' moved _ (by omega) stocked' (by rw [left, writeMax_eq]; omega)
      fun k u saves => points (k + 1) u (further _ u saves)) ?_
    rintro r u ⟨rfl, saves⟩
    have both := further _ u saves
    rw [List.take_append_drop] at both
    exact ⟨rfl, both⟩

/-- The machine stops at any point of `filewrite`, and during recovery as often as it may. The last recovery
ends with a sound volume in which the file has the first chunks of the call, and all other files are as they
were. Once the call has returned, all its bytes are there. -/
theorem filewrite_crash (h : Ready g f ip i s A) (opened : Opened f ip s) (idle : Idle s)
    (empty : (s.disk g.logStart).word 0 = 0) (fits : (s.ftable f).off + src.length ≤ MAXFILE * BSIZE)
    (stocked : Stocked g A (missing (A.din i).size ((s.ftable f).off + src.length))) (p : Nat) :
    (∀ t ∈ machine.visited (filewrite p f src) s, ∀ e, Stopped g.logStart g.nlog t.disk e →
      ∃ k, Recovers g i (s.ftable f).off A ((chunks src).take k).flatten e) ∧
    ∃ t, machine.run (filewrite p f src) s = .returned src.length t ∧
      ∀ e, Stopped g.logStart g.nlog t.disk e → Recovers g i (s.ftable f).off A src e := by
  have spec : machine.wp (strict (fun u => ∃ k, Saves g i (s.ftable f).off A ((chunks src).take k).flatten u)
      fun _ => False) (filewrite p f src) s fun r t => r = src.length ∧ Saves g i (s.ftable f).off A src t := by
    obtain ⟨type, writable, rfl⟩ := opened
    refine wp_returns ⟨0, h.saves idle empty rfl fun _ _ => rfl⟩ rfl ?_
    rw [Program.done_bind, if_neg (by rw [writable]; decide), type]
    exact wp_loop_points h idle empty rfl src fits stocked Nat.le.refl fun k u saves => ⟨k, saves⟩
  constructor
  · intro t member e stopped
    obtain ⟨k, saves⟩ := wp_visited spec (fun _ t done => ⟨(chunks src).length, by
      rw [List.take_length, chunks_flatten]; exact done.2⟩) member
    exact ⟨k, saves.recovers stopped⟩
  · obtain ⟨r, t, run, rfl, saves⟩ := wp_returned spec
    exact ⟨t, run, fun e stopped => saves.recovers stopped⟩

end

/-- Three bytes are written into an empty file, and the power fails. -/
theorem filewrite_crash_three :
    ∃ t A, machine.run (filewrite 0 0 [1, 2, 3]) fileShared = .returned 3 t ∧ bytes A 2 = [] ∧
      Recovers Mkfs.geometry 2 0 A [1, 2, 3] t.disk := by
  obtain ⟨A, file, stocked, size⟩ := fileAt_open
  have entry : fileShared.icache 1 = { fileOpen.icache 1 with busy := false } := by
    simp only [fileShared, upd_same]
  have ready : Ready Mkfs.geometry 0 1 2 fileShared A :=
    ⟨file.disk.of_eq rfl rfl rfl rfl rfl, file.sound, file.lt, file.allocated, file.file,
      by rw [entry]; exact file.inum,
      by rw [entry]; decide, by rw [entry], fun _ => by rw [entry]; exact file.din, rfl, ⟨by decide, by decide⟩,
        Nat.zero_le _⟩
  obtain ⟨-, t, run, saved⟩ :=
    @filewrite_crash _ _ _ _ _ _ [1, 2, 3] ready ⟨rfl, rfl, rfl⟩ ⟨rfl, rfl, congrFun (upd_self _ _)⟩
    (by decide +kernel) (by decide) (by rw [size]; exact ⟨stocked.marked, le_trans (by decide) stocked.free⟩) 0
  exact ⟨t, A, run, contents_empty size, saved _ (.once _)⟩

end Espl.Kernel
