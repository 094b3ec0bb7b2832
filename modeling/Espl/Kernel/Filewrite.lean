import Mathlib.Algebra.BigOperators.Group.Finset.Basic
import Espl.Kernel.FileBytes
import Espl.Kernel.Footprint
import Espl.Kernel.Sysfile
import Espl.Program.Sections

/-!
# Writers that share an open file

Processes write through one `struct file`. Each call is cut into chunks, and every chunk is written in a
transaction of its own, so the chunks of all processes follow each other in the file in some order.
-/

namespace Espl.Kernel

open Program
open Machine (wp_returns wp_then wp_seq wp_returned wp_run wp_mono)

def chunks (src : List UInt8) : List (List UInt8) := cut src src.length
where
  cut (rest : List UInt8) : Nat → List (List UInt8)
    | 0 => []
    | fuel + 1 => if rest.length = 0 then [] else rest.take (min rest.length writeMax) ::
        cut (rest.drop (min rest.length writeMax)) fuel

def writes (p f : Nat) : List (List UInt8) → K Unit
  | [] => pure ()
  | src :: rest => do
    let r ← filewrite p f src
    if r = src.length then
      writes p f rest

def chunk (f ip : Nat) (src : List UInt8) : K Int := do
  ilock ip
  let file ← step (.file f)
  let r ← writei ip src file.off
  if r > 0 then
    step (.addOff f r.toNat)
  iunlock ip
  commitTrans
  return r

def Opened (f ip : Nat) (s : State) : Prop :=
  (s.ftable f).type = .inode ∧ (s.ftable f).writable = true ∧ (s.ftable f).ip = ip

/-- Outside transactions: entry `ip` of the cache is the file `i` of the volume `A`, nobody has it locked,
the offset of `f` is within it, and the log takes what one chunk needs. -/
structure Ready (g : Geometry) (f ip i : Nat) (s : State) (A : Volume) : Prop where
  disk : OnDisk g s A
  sound : Sound g A
  lt : i < g.ninodes
  allocated : (A.din i).type ≠ 0
  file : (A.din i).type ≠ T_DEV
  inum : (s.icache ip).inum = i
  held : 1 ≤ (s.icache ip).ref
  unlocked : (s.icache ip).busy = false
  copy : (s.icache ip).valid = true → (s.icache ip).din = A.din i
  idle : s.log.busy = false
  room : Room s (7 + (g.dataStart - g.mapStart))
  within : (s.ftable f).off ≤ (A.din i).size

structure Written (g : Geometry) (i off : Nat) (src : List UInt8) (A A' : Volume) : Prop where
  bytes : bytes A' i = overwrite (bytes A i) off src
  size : (A'.din i).size = max (A.din i).size (off + src.length)
  others : ∀ j < g.ninodes, j ≠ i → A'.node j = A.node j

/-! ### The chunks of a call -/

theorem writeMax_eq : writeMax = 1536 := rfl

theorem cut_flatten (rest : List UInt8) {fuel : Nat} (enough : rest.length ≤ fuel) :
    (chunks.cut rest fuel).flatten = rest := by
  induction fuel generalizing rest with
  | zero => exact (List.eq_nil_of_length_eq_zero (Nat.le_zero.mp enough)).symm
  | succ fuel ih =>
    rw [chunks.cut]
    split
    · rename_i none
      exact (List.eq_nil_of_length_eq_zero none).symm
    · rename_i some
      rw [List.flatten_cons, ih _ (by rw [List.length_drop, writeMax_eq]; omega), List.take_append_drop]

theorem chunks_flatten (src : List UInt8) : (chunks src).flatten = src := cut_flatten src Nat.le.refl

/-! ### What leaves the open files alone -/

def Step.files : Step → Bool
  | .filealloc | .setFile _ _ | .addOff _ _ | .filedup _ | .fileput _ => true
  | _ => false

theorem act_ftable {e : Step} {s t : State} {r : Answer e} (other : e.files = false) (h : act e s = .returned r t) :
    t.ftable = s.ftable := by
  cases e with
  | filealloc | setFile | addOff | filedup | fileput => cases other
  | _ =>
    simp only [act] at h
    repeat' split at h
    all_goals cases h
    all_goals rfl

theorem content_files {ip : Nat} {e : Step} (h : e.content ip = true) : e.files = false := by
  cases e with
  | filealloc | setFile | addOff | filedup | fileput => cases h
  | _ => rfl

def Step.leavesOpen (f : Nat) (e : Step) : Prop := e.files = false ∨ ∃ n, e = .addOff f n

section

variable {g : Geometry} {s t : State} {A A' A'' : Volume} {f ip i n off : Nat} {src : List UInt8}

theorem Opened.step {e : Step} {r : Answer e} (leaves : e.leavesOpen f) (h : act e s = .returned r t)
    (opened : Opened f ip s) : Opened f ip t := by
  unfold Opened at *
  obtain other | ⟨n, rfl⟩ := leaves
  · rw [act_ftable other h]
    exact opened
  · cases h
    simp only [upd_same]
    exact opened

theorem all_chunk (f ip : Nat) (src : List UInt8) : (chunk f ip src).All (Step.leavesOpen f) := by
  have confined : ∀ {α : Type} {p : K α}, Confined ip p → p.All (Step.leavesOpen f) := fun h =>
    h.mono fun e content => Or.inl (content_files content)
  have last : ∀ {e : Step}, e.files = false → (step e).All (Step.leavesOpen f) := fun h => ⟨Or.inl h, fun _ => trivial⟩
  have lock : (ilock ip).All (Step.leavesOpen f) := by
    refine all_step (Or.inl rfl) fun _ => all_step (Or.inl rfl) fun inode => all_ite (fun _ => ?_) fun _ => trivial
    exact all_step (Or.inl rfl) fun _ => all_step (Or.inl rfl) fun _ =>
      all_ite (fun _ => confined (confined_panic _)) fun _ => trivial
  have write : ∀ off, (writei ip src off).All (Step.leavesOpen f) := by
    intro off
    refine all_step (Or.inl rfl) fun inode => all_ite (fun _ => ?_) fun _ => ?_
    · refine all_ite (fun _ => trivial) fun _ => ?_
      exact all_bind (last rfl) fun _ => all_bind lock fun _ => trivial
    · refine all_ite (fun _ => trivial) fun _ => all_ite (fun _ => trivial) fun _ => ?_
      refine all_bind (confined (confined_writei_loop off src _)) fun _ => all_step (Or.inl rfl) fun inode => ?_
      refine all_ite (fun _ => ?_) fun _ => trivial
      exact all_step (Or.inl rfl) fun _ => all_bind (confined confined_iupdate) fun _ => trivial
  have commit : commitTrans.All (Step.leavesOpen f) := by
    refine all_step (Or.inl rfl) fun log => all_ite (fun _ => ?_) fun _ => last rfl
    refine all_bind (confined confined_writeHead) fun _ => all_bind (confined confined_installTrans) fun _ => ?_
    exact all_step (Or.inl rfl) fun _ => all_bind (confined confined_writeHead) fun _ => last rfl
  have finish : ∀ r : Int, (do iunlock ip; commitTrans; return r : K Int).All (Step.leavesOpen f) := fun r =>
    all_bind (last rfl) fun _ => all_bind commit fun _ => trivial
  refine all_bind lock fun _ => all_step (Or.inl rfl) fun file => all_bind (write _) fun r => ?_
  exact all_ite (fun _ => all_step (Or.inr ⟨_, rfl⟩) fun _ => finish r) fun _ => finish r

/-! ### One chunk -/

theorem overwrite_overwrite (l : List UInt8) {off : Nat} (a b : List UInt8) (le : off ≤ l.length) :
    overwrite (overwrite l off a) (off + a.length) b = overwrite l off (a ++ b) := by
  unfold overwrite
  have front : off + a.length = (l.take off ++ a).length := by simp [le]
  have head : ((l.take off ++ a) ++ l.drop (off + a.length)).take (off + a.length) = l.take off ++ a := by
    rw [front, List.take_left]
  have tail : ((l.take off ++ a) ++ l.drop (off + a.length)).drop (off + a.length + b.length) =
      l.drop (off + a.length + b.length) := by
    rw [front, List.drop_length_add_append, ← front, List.drop_drop]
  rw [head, tail, List.length_append, ← Nat.add_assoc, List.append_assoc (l.take off)]

theorem Written.refl (g : Geometry) (i : Nat) {off : Nat} (A : Volume) (le : off ≤ (A.din i).size) :
    Written g i off [] A A := by
  refine ⟨?_, ?_, fun _ _ _ => rfl⟩
  · simp [overwrite]
  · rw [List.length_nil, Nat.add_zero, Nat.max_eq_left le]

theorem Written.append {more : List UInt8} (h : Written g i off src A A') (le : off ≤ (A.din i).size)
    (h' : Written g i (off + src.length) more A' A'') : Written g i off (src ++ more) A A'' := by
  refine ⟨?_, ?_, fun j hj ne => (h'.others j hj ne).trans (h.others j hj ne)⟩
  · rw [h'.bytes, h.bytes, overwrite_overwrite _ _ _ (by rw [contents_length]; exact le)]
  · rw [h'.size, h.size, List.length_append, Nat.max_assoc, ← Nat.add_assoc, Nat.max_eq_right (Nat.le_add_right _ _)]

theorem Stores.written (h : Stores g A ip i off src t A') : Written g i off src A A' := ⟨h.bytes, h.size, h.others⟩

theorem writeSectors_chunk (size : Nat) (small : src.length ≤ writeMax) :
    writeSectors g size off src.length ≤ 7 + (g.dataStart - g.mapStart) := by
  have few : touched off src.length ≤ 4 := by
    unfold touched
    rw [writeMax_eq] at small
    simp only [BSIZE]
    split <;> omega
  exact (writeSectors_le g size off src.length).trans (by omega)

def begun (s : State) : State := { s with log := { s.log with busy := true } }

theorem Ready.locks (h : Ready g f ip i s A) : act .lockLog s = .returned () (begun s) := by
  simp only [act, h.idle]
  rfl

theorem length_chunk (rest : List UInt8) :
    (rest.take (min rest.length writeMax)).length = min rest.length writeMax := by
  rw [List.length_take]
  omega

variable {T : Terms signature State Panic}

theorem wp_ilock_ready {Q : Unit → State → Prop} (busy : ∀ t : State, t.log.busy = true → T.point t)
    (h : Ready g f ip i s A) (post : ∀ v : Inode, v.inum = i → 1 ≤ v.ref → v.busy = true → v.din = A.din i →
      Q () ((begun s).setInode ip v)) : machine.wp T (ilock ip) (begun s) Q := by
  have inum : ((begun s).icache ip).inum = i := h.inum
  refine wp_ilock_loads (fun _ => busy _ rfl) (A := A) (h.disk.of_eq rfl rfl rfl rfl rfl) h.held h.unlocked ?_ ?_ ?_ ?_
  · rw [inum]
    exact h.lt
  · rw [inum]
    exact h.allocated
  · rw [inum]
    exact h.copy
  · rw [inum]
    exact post _ inum h.held rfl rfl

theorem wp_chunk_end {r : Int} {Q : Int → State → Prop} (busy : ∀ t : State, t.log.busy = true → T.point t)
    (h : FileAt g s A ip i)
    (open_ : s.log.busy = true) (locked : (s.icache ip).busy = true) (held : 1 ≤ (s.icache ip).ref)
    (room : 7 + (g.dataStart - g.mapStart) ≤ min LOGSIZE (g.nlog - 1)) (within : (s.ftable f).off ≤ (A.din i).size)
    (post : ∀ t, Ready g f ip i t A → t.ftable = s.ftable → Q r t) :
    machine.wp T (do iunlock ip; commitTrans; return r) s Q := by
  have unlocks : act (.unlockInode ip) s = .returned () (s.setInode ip { s.icache ip with busy := false }) := by
    simp only [act]
    rw [if_neg (by rw [locked]; simpa using held)]
  refine wp_returns (busy s open_) unlocks ?_
  rw [done_bind]
  have entry : (s.setInode ip { s.icache ip with busy := false }).icache ip = { s.icache ip with busy := false } :=
    upd_same ..
  refine wp_then (wp_commitTrans (h.disk.of_eq rfl rfl rfl rfl rfl) open_ busy fun disk dirty _ after => ?_)
  refine post _ ⟨after, h.sound, h.lt, h.allocated, h.file, ?_, ?_, ?_, ?_, rfl, ?_, within⟩ rfl
  · exact (congrArg Inode.inum entry).trans h.inum
  · exact le_of_le_of_eq held (congrArg Inode.ref entry).symm
  · exact congrArg Inode.busy entry
  · exact fun _ => (congrArg Inode.din entry).trans h.din
  · have size := after.size
    unfold Room
    rw [size]
    simp only [List.length_nil, Nat.zero_add]
    exact le_min_iff.mp room

theorem Ready.locked {v : Inode} (h : Ready g f ip i s A) (inum : v.inum = i) (din : v.din = A.din i) :
    FileAt g ((begun s).setInode ip v) A ip i := by
  have entry : ((begun s).setInode ip v).icache ip = v := upd_same ..
  exact ⟨h.disk.of_eq rfl rfl rfl rfl rfl, h.sound, h.lt, by rw [entry, inum], by rw [entry, din], h.allocated, h.file⟩

theorem wp_chunk (busy : ∀ t : State, t.log.busy = true → T.point t) (full : ¬ T.fault .ballocFull)
    (h : Ready g f ip i s A) (at_off : (s.ftable f).off = off) (small : src.length ≤ writeMax)
    (fits : off + src.length ≤ MAXFILE * BSIZE)
    (stocked : Stocked g A (missing (A.din i).size (off + src.length) + n)) :
    machine.wp T (chunk f ip src) (begun s) fun r t => r = src.length ∧
      ∃ A', Ready g f ip i t A' ∧ Written g i off src A A' ∧ (t.ftable f).off = off + src.length ∧ Stocked g A' n := by
  rw [chunk]
  refine wp_then (wp_ilock_ready busy h fun v inum held locked din => ?_)
  have entry : ((begun s).setInode ip v).icache ip = v := upd_same ..
  have at_file := h.locked inum din
  refine wp_returns (busy _ rfl) rfl ?_
  have same : (((begun s).setInode ip v).ftable f).off = off := at_off
  rw [done_bind, same]
  have taken : ¬ Refused (A.din i).size off src.length := by
    have within := h.within
    rw [at_off] at within
    simp only [Refused, MAXFILE, NDIRECT, NINDIRECT, BSIZE] at fits ⊢
    omega
  have few : src.length < 2 ^ 32 := by
    rw [writeMax_eq] at small
    omega
  have room : Room ((begun s).setInode ip v) (writeSectors g (A.din i).size off src.length) :=
    h.room.mono (writeSectors_chunk _ small)
  refine wp_seq (wp_writei_stores busy full at_file rfl few taken stocked (Or.inr room)) ?_
  rintro r u ⟨rfl, A', stores, edits, left, -⟩
  have written := stores.written
  have table : u.ftable = s.ftable := edits.ftable
  have open_ : u.log.busy = true := edits.busy
  have now : u.icache ip = { v with din := A'.din i } := by rw [edits.entry, entry]
  have reaches : off + src.length ≤ (A'.din i).size := by
    rw [written.size]
    exact Nat.le_max_right ..
  have room : 7 + (g.dataStart - g.mapStart) ≤ min LOGSIZE (g.nlog - 1) := by
    have room := h.room
    unfold Room at room
    rw [h.disk.size] at room
    rw [le_min_iff]
    omega
  by_cases some : (src.length : Int) > 0
  · rw [if_pos some]
    have advanced : ((u.ftable f).off + (src.length : Int).toNat) % 2 ^ 32 = off + src.length := by
      rw [table, at_off, Int.toNat_natCast]
      simp only [MAXFILE, NDIRECT, NINDIRECT, BSIZE] at fits
      exact Nat.mod_eq_of_lt (by omega)
    have moved : (upd u.ftable f
        { u.ftable f with off := ((u.ftable f).off + (src.length : Int).toNat) % 2 ^ 32 } f).off =
        off + src.length := by rw [upd_same, advanced]
    refine wp_returns (busy u open_) rfl ?_
    refine wp_chunk_end (f := f) busy { stores.file with disk := stores.file.disk.of_eq rfl rfl rfl rfl rfl }
      open_ ?_ ?_ room
      (le_of_eq_of_le moved reaches) fun t ready same => ⟨rfl, A', ready, written, ?_, left⟩
    · rw [now]
      exact locked
    · rw [now]
      exact held
    · rw [same]
      exact moved
  · rw [if_neg some]
    have none : src.length = 0 := by omega
    have unmoved : (u.ftable f).off = off + src.length := by rw [table, at_off, none, Nat.add_zero]
    refine wp_chunk_end (f := f) busy stores.file open_ ?_ ?_ room (le_of_eq_of_le unmoved reaches)
      fun t ready same => ⟨rfl, A', ready, written, ?_, left⟩
    · rw [now]
      exact locked
    · rw [now]
      exact held
    · rw [same]
      exact unmoved

/-! ### Many writers -/

def joined (l : List (Nat × List UInt8)) : List UInt8 := l.flatMap Prod.snd

/-- Processes write into inode `i` of `A` from `off` on. The flag of the log makes each chunk a section. -/
def writers (g : Geometry) (f ip i : Nat) (A : Volume) (off e : Nat) (job : Nat → List (List UInt8)) :
    Sections State (List UInt8) where
  busy s := s.log.busy
  plan p := (job p).flatMap chunks
  always := Opened f ip
  inv s l := ∃ A', Ready g f ip i s A' ∧ Written g i off (joined l) A A' ∧ (s.ftable f).off = off + (joined l).length ∧
    Stocked g A' (missing (A'.din i).size e)

theorem missing_step {size e : Nat} {m : Nat} (le : m ≤ e) :
    missing size e = missing size m + missing (max size m) e := by
  unfold missing
  rw [Nat.max_assoc, Nat.max_eq_right le]
  have low : blocksOf size ≤ blocksOf (max size m) := blocksOf_mono (Nat.le_max_left ..)
  have high : blocksOf (max size m) ≤ blocksOf (max size e) := blocksOf_mono (by omega)
  omega

theorem joined_append (l : List (Nat × List UInt8)) (p : Nat) (c : List UInt8) :
    joined (l ++ [(p, c)]) = joined l ++ c := by
  simp [joined]

def total (n : Nat) (job : Nat → List (List UInt8)) : Nat := ∑ p ∈ Finset.range n, (job p).flatten.length

theorem length_flatMap_chunks (srcs : List (List UInt8)) :
    ((srcs.flatMap chunks).map List.length).sum = srcs.flatten.length := by
  rw [← List.length_flatten]
  congr 1
  induction srcs with
  | nil => rfl
  | cons src rest ih => rw [List.flatMap_cons, List.flatten_append, chunks_flatten, ih, List.flatten_cons]

variable {e p : Nat} {job : Nat → List (List UInt8)}

theorem joined_le {l : List (Nat × List UInt8)} (few : ∀ p, n ≤ p → job p = [])
    (ordered : (writers g f ip i A off e job).Ordered l) : (joined l).length ≤ total n job := by
  have sum := ordered.sum_le List.length (n := n) fun p beyond => by
    change (job p).flatMap chunks = []
    rw [few p beyond]
    rfl
  calc (joined l).length = (l.map fun x => x.2.length).sum := by simp [joined, List.length_flatMap]
    _ ≤ ∑ p ∈ Finset.range n, (((job p).flatMap chunks).map List.length).sum := sum
    _ = total n job := Finset.sum_congr rfl fun p _ => length_flatMap_chunks (job p)

theorem loop_eq (f ip : Nat) (src rest : List UInt8) (fuel : Nat) (some : rest.length ≠ 0) :
    filewrite.loop f src ip rest (fuel + 1) = step .lockLog >>= fun _ =>
      chunk f ip (rest.take (min rest.length writeMax)) >>= fun r =>
        if r < 0 then pure (-1)
        else if r ≠ (min rest.length writeMax : Nat) then panic .filewriteShort
        else filewrite.loop f src ip (rest.drop (min rest.length writeMax)) fuel := by
  rw [filewrite.loop, if_neg some, chunk, beginTrans]
  simp only [bind_eq, bind_assoc]
  congr 1
  funext _
  congr 1
  funext _
  congr 1
  funext file
  congr 1
  funext r
  split
  · simp only [bind_assoc, pure_eq, done_bind]
  · simp only [bind_assoc, pure_eq, done_bind]

theorem enters_lockLog : (writers g f ip i A off e job).Enters machine .lockLog := by
  intro s opened
  change if s.log.busy = true then act .lockLog s = .waiting else _
  split
  · rename_i busy
    simp only [act, busy, if_true]
  · rename_i idle
    refine ⟨(), begun s, ?_, rfl, opened⟩
    simp only [act, if_neg idle]
    rfl

theorem wp_round {l : List (Nat × List UInt8)} {c : List UInt8} (inv : (writers g f ip i A off e job).inv s l)
    (within : off ≤ (A.din i).size) (small : c.length ≤ writeMax) (room : off + (joined (l ++ [(p, c)])).length ≤ e)
    (fits : e ≤ MAXFILE * BSIZE) :
    machine.wp (Machine.strict (fun s => s.log.busy = true) fun _ => False) (chunk f ip c) (begun s) fun r t =>
      r = c.length ∧ t.log.busy = false ∧ (writers g f ip i A off e job).inv t (l ++ [(p, c)]) := by
  obtain ⟨A', ready, written, at_off, stocked⟩ := inv
  rw [joined_append, List.length_append, ← Nat.add_assoc] at room
  rw [missing_step room] at stocked
  refine wp_mono (wp_chunk (fun _ busy => busy) id ready at_off small (le_trans room fits) stocked) ?_
  rintro r t ⟨rfl, A'', ready', written', at_off', stocked'⟩
  refine ⟨rfl, ready'.idle, A'', ready', ?_, ?_, ?_⟩
  · rw [joined_append]
    exact written.append within written'
  · rw [joined_append, List.length_append, at_off', Nat.add_assoc]
  · rw [written'.size]
    exact stocked'

theorem keeps_loop {todo : List (List UInt8)} (few : ∀ p, n ≤ p → job p = []) (within : off ≤ (A.din i).size)
    (fits : off + total n job ≤ MAXFILE * BSIZE) (src rest : List UInt8) {fuel : Nat} (enough : rest.length ≤ fuel) :
    ((writers g f ip i A off (off + total n job) job).rules machine p).Keeps (filewrite.loop f src ip rest fuel)
      ⟨chunks.cut rest fuel ++ todo, none⟩ fun r u => r = src.length ∧ u = ⟨todo, none⟩ := by
  induction fuel generalizing rest with
  | zero => exact ⟨rfl, rfl⟩
  | succ fuel ih =>
    by_cases none : rest.length = 0
    · rw [filewrite.loop, chunks.cut, if_pos none, if_pos none]
      exact ⟨rfl, rfl⟩
    rw [loop_eq f ip src rest fuel none, chunks.cut, if_neg none]
    refine Sections.keeps_enter rfl enters_lockLog fun s _ s' l opened idle act inv ordered mine => ?_
    have now : s' = begun s := by
      simp only [Kernel.act] at act
      rw [if_neg (by simpa [writers] using idle)] at act
      cases act
      rfl
    subst now
    have length := length_chunk rest
    have room := joined_le few (ordered.next mine)
    have spec := wp_round (p := p) inv within (le_of_eq_of_le length (Nat.min_le_right ..)) (by omega) fits
    refine Rules.keeps_seq (Sections.keeps_section spec ?_ rfl opened fun _ _ post => post.2) ?_
    · exact (all_chunk f ip _).mono fun e leaves s r s' act => Opened.step leaves act
    · rintro r u ⟨rfl, t, rfl, -⟩
      rw [length, if_neg (by omega), if_neg (by simp)]
      exact ih _ (by rw [List.length_drop, writeMax_eq]; omega)

theorem keeps_filewrite {todo : List (List UInt8)} (few : ∀ p, n ≤ p → job p = []) (within : off ≤ (A.din i).size)
    (fits : off + total n job ≤ MAXFILE * BSIZE) (src : List UInt8) :
    ((writers g f ip i A off (off + total n job) job).rules machine p).Keeps (filewrite p f src)
      ⟨chunks src ++ todo, none⟩ fun r u => r = src.length ∧ u = ⟨todo, none⟩ := by
  refine Sections.keeps_quiet rfl (fun s _ => ⟨s.ftable f, rfl⟩) fun s file opened act => ?_
  cases act
  obtain ⟨type, writable, rfl⟩ := opened
  rw [if_neg (by rw [writable]; decide), type]
  exact keeps_loop few within fits src src Nat.le.refl

theorem follows_writes (few : ∀ p, n ≤ p → job p = []) (within : off ≤ (A.din i).size)
    (fits : off + total n job ≤ MAXFILE * BSIZE) (p : Nat) :
    (writers g f ip i A off (off + total n job) job).Follows machine p (writes p f (job p)) := by
  have all : ∀ srcs : List (List UInt8), ((writers g f ip i A off (off + total n job) job).rules machine p).Keeps
      (writes p f srcs) ⟨srcs.flatMap chunks, none⟩ fun _ u => u = ⟨[], none⟩ := by
    intro srcs
    induction srcs with
    | nil => exact rfl
    | cons src rest ih =>
      rw [writes, List.flatMap_cons]
      refine Rules.keeps_seq (keeps_filewrite few within fits src) ?_
      rintro r u ⟨rfl, rfl⟩
      rw [if_pos rfl]
      exact ih
  exact all (job p)

/-! ### One writer -/

theorem wp_filewrite_loop (h : Ready g f ip i s A) (at_off : (s.ftable f).off = off) (rest : List UInt8)
    (fits : off + rest.length ≤ MAXFILE * BSIZE) (stocked : Stocked g A (missing (A.din i).size (off + rest.length)))
    {fuel : Nat} (enough : rest.length ≤ fuel) :
    machine.wp (Machine.strict (fun _ => True) fun _ => False) (filewrite.loop f src ip rest fuel) s fun r t =>
      r = src.length ∧ ∃ A', Ready g f ip i t A' ∧ Written g i off rest A A' ∧
        (t.ftable f).off = off + rest.length := by
  have within := h.within
  rw [at_off] at within
  have stop : rest.length = 0 → ∃ A', Ready g f ip i s A' ∧ Written g i off rest A A' ∧
    (s.ftable f).off = off + rest.length := by
    intro none
    rw [List.eq_nil_of_length_eq_zero none]
    exact ⟨A, h, Written.refl g i A within, at_off⟩
  induction fuel generalizing s A off rest with
  | zero => exact ⟨rfl, stop (Nat.le_zero.mp enough)⟩
  | succ fuel ih =>
    by_cases none : rest.length = 0
    · rw [filewrite.loop, if_pos none]
      exact ⟨rfl, stop none⟩
    rw [loop_eq f ip src rest fuel none]
    have length := length_chunk rest
    have left : (rest.drop (min rest.length writeMax)).length = rest.length - min rest.length writeMax :=
      List.length_drop
    have whole : off + (rest.take (min rest.length writeMax)).length + (rest.drop (min rest.length writeMax)).length =
        off + rest.length := by omega
    refine wp_returns trivial h.locks ?_
    rw [done_bind]
    rw [← whole, missing_step (Nat.le_add_right _ _)] at stocked
    refine wp_seq (wp_chunk (fun _ _ => trivial) id h at_off (le_of_eq_of_le length (Nat.min_le_right ..))
      (by omega) stocked) ?_
    rintro r t ⟨rfl, A', ready, written, moved, stocked'⟩
    rw [length, if_neg (by omega), if_neg (by simp)]
    have reaches := ready.within
    rw [moved] at reaches
    rw [← written.size] at stocked'
    refine wp_mono (ih ready moved _ (by omega) stocked' (by rw [left, writeMax_eq]; omega) reaches ?_) ?_
    · intro done
      rw [List.eq_nil_of_length_eq_zero done]
      exact ⟨A', ready, Written.refl g i A' reaches, moved⟩
    · rintro r u ⟨rfl, A'', ready', written', moved'⟩
      refine ⟨rfl, A'', ready', ?_, by omega⟩
      have both := written.append within written'
      rwa [List.take_append_drop] at both

theorem run_filewrite (h : Ready g f ip i s A) (opened : Opened f ip s) (at_off : (s.ftable f).off = off)
    (fits : off + src.length ≤ MAXFILE * BSIZE) (stocked : Stocked g A (missing (A.din i).size (off + src.length))) :
    ∃ t A', machine.run (filewrite p f src) s = .returned src.length t ∧ OnDisk g t A' ∧ Written g i off src A A' ∧
      (t.ftable f).off = off + src.length := by
  have spec : machine.wp (Machine.strict (fun _ => True) fun _ => False) (filewrite p f src) s fun r t =>
      r = src.length ∧ ∃ A', Ready g f ip i t A' ∧ Written g i off src A A' ∧ (t.ftable f).off = off + src.length := by
    obtain ⟨type, writable, rfl⟩ := opened
    refine wp_returns trivial rfl ?_
    rw [done_bind, if_neg (by rw [writable]; decide), type]
    exact wp_filewrite_loop h at_off src fits stocked Nat.le.refl
  obtain ⟨r, t, run, rfl, A', ready, written, moved⟩ := wp_returned spec
  exact ⟨t, A', run, ready.disk, written, moved⟩

theorem run_writei_whole (h : Ready g f ip i s A) (at_off : (s.ftable f).off = off)
    (fits : off + src.length ≤ MAXFILE * BSIZE) (stocked : Stocked g A (missing (A.din i).size (off + src.length)))
    {r : Int} (run : machine.run (do beginTrans; ilock ip; writei ip src off) s = .returned r t) :
    r = src.length ∧ ∃ A', OnDisk g t A' ∧ Written g i off src A A' := by
  have within := h.within
  rw [at_off] at within
  have spec : machine.wp (Machine.strict (fun _ => True) (· = .logTooBig))
    (do beginTrans; ilock ip; writei ip src off) s
      fun r t => r = src.length ∧ ∃ A', OnDisk g t A' ∧ Written g i off src A A' := by
    refine wp_returns trivial h.locks ?_
    rw [done_bind]
    refine wp_then (wp_ilock_ready (fun _ _ => trivial) h fun v inum _ _ din => ?_)
    simp only [MAXFILE, NDIRECT, NINDIRECT, BSIZE] at fits
    refine wp_mono (wp_writei_stores (n := 0) (fun _ _ => trivial) (by decide) (h.locked inum din) rfl
      (by omega) ?_ stocked
      (Or.inl rfl)) ?_
    · simp only [Refused, MAXFILE, NDIRECT, NINDIRECT, BSIZE]
      omega
    · rintro r t ⟨rfl, A', stores, -⟩
      exact ⟨rfl, A', stores.file.disk, stores.written⟩
  exact @wp_run _ _ _ _ _ _ _ s t r _ spec (fun _ _ => trivial) run

/-- Processes write through one open file. At any time there is an order of the chunks written so far that
has each process's chunks in its own order; between transactions the file is the old one with these chunks
stored one after another from the old offset on, and the offset is behind them. Nobody panics, somebody can
go on as long as not all are done, and then all chunks are there. A call alone has the effect and the result
of one `writei`. -/
theorem filewrite_shared {c : Threads signature State} (ready : Ready g f ip i s A) (opened : Opened f ip s)
    (few : ∀ p, n ≤ p → job p = []) (fits : (s.ftable f).off + total n job ≤ MAXFILE * BSIZE)
    (stocked : Stocked g A (missing (A.din i).size ((s.ftable f).off + total n job)))
    (run : Threads.Reachable (fun _ => machine) (fun _ _ _ _ => False) (fun _ _ _ => True)
      ⟨s, fun p => writes p f (job p)⟩ c) :
    (∃ order : List (Nat × List UInt8),
      (∀ p, own p order <+: (job p).flatMap chunks) ∧
      (∀ p, c.thread p = .done () → own p order = (job p).flatMap chunks) ∧
      (c.state.log.busy = false → ∃ A', OnDisk g c.state A' ∧ Written g i (s.ftable f).off (joined order) A A' ∧
        (c.state.ftable f).off = (s.ftable f).off + (joined order).length) ∧
      ((∀ p, c.thread p = .done ()) → c.state.log.busy = false) ∧
      (∀ p e next m, c.thread p = .step e next → act e c.state ≠ .panicked m) ∧
      ((∃ p, c.thread p ≠ .done ()) →
        ∃ p e next r t, c.thread p = .step e next ∧ act e c.state = .returned r t)) ∧
    ∀ p src, (s.ftable f).off + src.length ≤ MAXFILE * BSIZE →
      Stocked g A (missing (A.din i).size ((s.ftable f).off + src.length)) →
      (∃ t A', machine.run (filewrite p f src) s = .returned src.length t ∧ OnDisk g t A' ∧
        Written g i (s.ftable f).off src A A' ∧ (t.ftable f).off = (s.ftable f).off + src.length) ∧
      ∀ r t, machine.run (do beginTrans; ilock ip; writei ip src (s.ftable f).off) s = .returned r t →
        r = src.length ∧ ∃ A', OnDisk g t A' ∧ Written g i (s.ftable f).off src A A' := by
  have start : (writers g f ip i A (s.ftable f).off ((s.ftable f).off + total n job) job).inv s [] :=
    ⟨A, ready, Written.refl g i A ready.within, rfl, stocked⟩
  obtain ⟨order, served⟩ := Sections.reachable_served run ready.idle opened start (follows_writes few ready.within fits)
  refine ⟨⟨order, served.ordered, served.done, ?_, served.finished, served.safe, served.live⟩, ?_⟩
  · intro idle
    obtain ⟨A', ready', written, moved, -⟩ := served.idle idle
    exact ⟨A', ready'.disk, written, moved⟩
  · intro p src fits' stocked'
    exact ⟨run_filewrite ready opened rfl fits' stocked', fun r t => run_writei_whole ready rfl fits' stocked'⟩

end

def fileShared : State :=
  { fileOpen with
    log := { fileOpen.log with busy := false }
    icache := upd fileOpen.icache 1 { fileOpen.icache 1 with busy := false }
    ftable := upd fileOpen.ftable 0 ⟨.inode, 2, true, true, 0, 1, 0⟩ }

def twoJobs : Nat → List (List UInt8)
  | 0 => [[1, 2, 3], [4]]
  | 1 => [[5, 6]]
  | _ => []

/-- The second process comes while the first one is in its first transaction, and writes before its second call. -/
theorem filewrite_shared_two :
    ∃ c, Threads.Reachable (fun _ => machine) (fun _ _ _ _ => False) (fun _ _ _ => True)
        ⟨fileShared, fun p => writes p 0 (twoJobs p)⟩ c ∧
      c.thread 0 = .done () ∧ c.thread 1 = .done () ∧ ∃ order A', (∀ p, own p order = (twoJobs p).flatMap chunks) ∧
        OnDisk Mkfs.geometry c.state A' ∧ bytes A' 2 = joined order ∧
          (c.state.ftable 0).off = (joined order).length := by
  obtain ⟨A, file, stocked, size⟩ := fileAt_open
  have entry : fileShared.icache 1 = { fileOpen.icache 1 with busy := false } := by
    simp only [fileShared, upd_same]
  have ready : Ready Mkfs.geometry 0 1 2 fileShared A :=
    { disk := file.disk.of_eq rfl rfl rfl rfl rfl
      sound := file.sound
      lt := file.lt
      allocated := file.allocated
      file := file.file
      inum := by rw [entry]; exact file.inum
      held := by rw [entry]; decide
      unlocked := by rw [entry]
      copy := fun _ => by rw [entry]; exact file.din
      idle := rfl
      room := ⟨by decide, by decide⟩
      within := Nat.zero_le _ }
  have few : ∀ p, 2 ≤ p → twoJobs p = [] := by
    intro p beyond
    obtain ⟨k, rfl⟩ := Nat.exists_eq_add_of_le' beyond
    rfl
  have enough : ∀ e, missing 0 e ≤ 983 → Stocked Mkfs.geometry A (missing (A.din 2).size e) := by
    intro e le
    rw [size]
    exact ⟨stocked.marked, le_trans le stocked.free⟩
  have done : (Threads.schedule (fun _ => machine) (fun _ => true) [(0, 20), (1, 1), (0, 44), (1, 41), (0, 42)]
      ⟨fileShared, fun p => writes p 0 (twoJobs p)⟩).any
        (fun c => (c.thread 0 matches .done _) && (c.thread 1 matches .done _) && !c.state.log.busy) = true := by
    decide +kernel
  obtain ⟨c, turns, done⟩ := (Option.any_eq_true ..).mp done
  have finished : ∀ {x : K Unit}, (x matches .done _) = true → x = .done () := by
    rintro (_ | _) is
    · rfl
    · cases is
  simp only [Bool.and_eq_true, Bool.not_eq_true'] at done
  obtain ⟨⟨first, second⟩, idle⟩ := done
  have run : Threads.Reachable (fun _ => machine) (fun _ _ _ _ => False) (fun _ _ _ => True) _ c :=
    Threads.reachable_schedule (fun _ _ _ _ => trivial) turns
  obtain ⟨⟨order, ordered, whole, written, -⟩, -⟩ := filewrite_shared (n := 2) ready ⟨rfl, rfl, rfl⟩ few (by decide)
    (enough _ (by decide)) run
  obtain ⟨A', disk, written, moved⟩ := written idle
  refine ⟨c, run, finished first, finished second, order, A', fun p => ?_, disk, ?_, ?_⟩
  · match p with
    | 0 => exact whole 0 (finished first)
    | 1 => exact whole 1 (finished second)
    | p + 2 => exact List.prefix_nil.mp (ordered (p + 2))
  · rw [written.bytes, show bytes A 2 = [] from contents_empty size]
    simp [fileShared, overwrite]
  · simp [moved, fileShared]

end Espl.Kernel
