import Espl.Kernel.Lookup
import Espl.Kernel.Start
import Espl.Kernel.FileBytes

/-!
# A fresh image

The kernel on the disk that `mkfs` writes: it finds each file by its name and reads the bytes the host had.
-/

namespace Espl.Kernel

open Machine
open Mkfs (HostFile entryName entries rootSize)

/-- The names on the command line are C strings, and their entries differ from each other and from `.` and
`..` in what an entry stores of them. -/
structure Named (files : List HostFile) : Prop where
  plain : ∀ f ∈ files, 0 ∉ f.name
  distinct : files.Pairwise fun f f' => (entryName f.name).take DIRSIZ ≠ (entryName f'.name).take DIRSIZ
  dot : ∀ f ∈ files, (entryName f.name).take DIRSIZ ≠ [46]
  dotdot : ∀ f ∈ files, (entryName f.name).take DIRSIZ ≠ [46, 46]

section

variable {files : List HostFile} {f f' : HostFile} {j : Nat}

theorem cstr_plain {t : List UInt8} (plain : 0 ∉ t) (n : Nat) : cstr t n = t.take n := by
  have all := @List.takeWhile_append_of_pos _ (fun b : UInt8 => decide (b ≠ 0)) t [] fun b member => by
    simpa using fun zero : b = 0 => plain (zero ▸ member)
  rw [List.append_nil, List.takeWhile_nil, List.append_nil] at all
  unfold cstr
  rw [all]

theorem Named.cstr (h : Named files) (member : f ∈ files) :
    cstr (entryName f.name) DIRSIZ = (entryName f.name).take DIRSIZ := by
  refine cstr_plain (fun zero => h.plain f member ?_) DIRSIZ
  unfold entryName at zero
  split at zero
  · exact List.mem_of_mem_tail zero
  · exact zero

theorem matches_entry {name name' : List UInt8} {inum : Nat} :
    Matches name ⟨inum, strncpy name' DIRSIZ⟩ ↔ inum ≠ 0 ∧ cstr name DIRSIZ = cstr name' DIRSIZ := by
  unfold Matches
  rw [namecmp_eq_zero, cstr_strncpy]

theorem entries_stored (few : files.length ≤ Mkfs.ninodes - 2) : ∀ de ∈ entries files, de.Stored := by
  intro de member
  simp only [entries, List.mem_cons, List.mem_mapIdx] at member
  rcases member with rfl | rfl | ⟨k, lt, rfl⟩
  · exact Dirent.stored_strncpy (by decide) _
  · exact Dirent.stored_strncpy (by decide) _
  · exact Dirent.stored_strncpy (by simp only [Mkfs.ninodes] at few; omega) _

theorem entries_getElem? (file : files[j]? = some f) :
    (entries files)[j + 2]? = some ⟨j + 2, strncpy (entryName f.name) DIRSIZ⟩ := by
  simp [entries, file]

theorem Named.split (h : Named files) (file : files[j]? = some f) :
    ∃ des rest, entries files = des ++ ⟨j + 2, strncpy (entryName f.name) DIRSIZ⟩ :: rest ∧ des.length = j + 2 ∧
      ∀ de ∈ des, ¬ Matches (entryName f.name) de := by
  obtain ⟨lt, same⟩ := List.getElem?_eq_some_iff.mp (entries_getElem? file)
  have self := h.cstr (List.mem_of_getElem? file)
  refine ⟨(entries files).take (j + 2), (entries files).drop (j + 3), ?_, by rw [List.length_take]; omega, ?_⟩
  · rw [← same, List.cons_getElem_drop_succ, List.take_append_drop]
  intro de member hit
  obtain ⟨k, member⟩ := List.mem_iff_getElem?.mp member
  rw [List.getElem?_take] at member
  split at member
  swap
  · cases member
  rename_i earlier
  cases k with
  | zero =>
    cases member
    exact h.dot f (List.mem_of_getElem? file) (self ▸ (matches_entry.mp hit).2)
  | succ k =>
    cases k with
    | zero =>
      cases member
      exact h.dotdot f (List.mem_of_getElem? file) (self ▸ (matches_entry.mp hit).2)
    | succ k =>
      obtain ⟨inside, rfl⟩ := List.getElem?_eq_some_iff.mp file
      have before : k < files.length := by omega
      rw [entries_getElem? (List.getElem?_eq_getElem before)] at member
      cases member
      rw [matches_entry, self, h.cstr (List.getElem_mem _)] at hit
      exact List.pairwise_iff_getElem.mp h.distinct k j before inside (by omega) hit.2.symm

end

section

variable {g : Geometry} {A : Volume} {s : State} {files : List HostFile} {m : Mkfs.State}

theorem run_ilock_first (ip : Nat) (disk : OnDisk g s A) (ref : 1 ≤ (s.icache ip).ref)
    (free : (s.icache ip).busy = false) (invalid : (s.icache ip).valid = false) (lt : (s.icache ip).inum < g.ninodes)
    (allocated : (A.din (s.icache ip).inum).type ≠ 0) :
    machine.run (ilock ip) s = .returned () (s.setInode ip
      { s.icache ip with busy := true, valid := true, din := A.din (s.icache ip).inum }) := by
  have wp : machine.wp (strict (fun _ => True) fun _ => False) (ilock ip) s fun _ t => t = s.setInode ip
      { s.icache ip with busy := true, valid := true, din := A.din (s.icache ip).inum } :=
    wp_ilock_loads (fun _ => trivial) disk ref free lt allocated (fun valid =>
      absurd (invalid.symm.trans valid) (by decide)) rfl
  obtain ⟨_, _, run, rfl⟩ := wp_returned wp
  exact run

theorem main_opens (run : Mkfs.main files = some m) (few : files.length ≤ Mkfs.ninodes - 2)
    (below : m.usedblocks ≤ 1014) :
    ∃ A, boot m.img = .returned () (started Mkfs.geometry m.img) ∧
      OnDisk Mkfs.geometry (started Mkfs.geometry m.img) A ∧
      (Open Mkfs.geometry A ROOTINO (A.din ROOTINO) (DESIZE * (files.length + 2)) ∧ (A.din ROOTINO).type = T_DIR ∧
        (A.din ROOTINO).size = rootSize files ∧
        contents A.data { A.din ROOTINO with size := DESIZE * (files.length + 2) } = (entries files).flatMap
          Dirent.toBytes) ∧
      ∀ j f, files[j]? = some f → Open Mkfs.geometry A (j + 2) (A.din (j + 2)) (A.din (j + 2)).size ∧
        (A.din (j + 2)).type = T_FILE ∧ contents A.data (A.din (j + 2)) = f.reads.flatten := by
  obtain ⟨A, finished, sound, same, -⟩ := Mkfs.main_finished run few below
  obtain ⟨dir, size⟩ := Mkfs.root_size (same ROOTINO (by decide))
  have type : (A.din ROOTINO).type ≠ 0 := by
    rw [dir]
    decide
  have fits := sound.fits ROOTINO (by decide)
  have owned := sound.owned.header (i := ROOTINO) (d := { A.din ROOTINO with size := rootSize files })
    (fun _ => rfl) fun _ => type
  have node := congrArg Node.contents (same ROOTINO (by decide))
  rw [Volume.node_alloc type, Mkfs.nodes_root] at node
  refine ⟨_, boot_eq (startable_finished finished below), onDisk_started finished.toReads, ?_, fun j f file => ?_⟩
  · rw [Volume.setDin_din, Volume.setDin_data, upd_same]
    refine ⟨⟨⟨by decide, type, ⟨fits.type, fits.major, fits.minor, fits.nlink, ?_, fits.addr⟩, ?_⟩, ?_⟩, dir, rfl, ?_⟩
    · simp only [rootSize, DESIZE, BSIZE, Mkfs.ninodes] at *
      omega
    · rw [Volume.setDin_din, upd_upd]
      exact owned
    · have mapped := sound.mapped ROOTINO (by decide) type
      rw [Volume.setDin_data, ← size]
      exact mapped
    · rw [← size]
      exact node
  · have lt := (List.getElem?_eq_some_iff.mp file).1
    have ne : j + 2 ≠ ROOTINO := by
      simp only [ROOTINO]
      omega
    have inode : j + 2 < Mkfs.ninodes := by
      simp only [Mkfs.ninodes] at few ⊢
      omega
    have node := same (j + 2) inode
    rw [Mkfs.nodes, if_neg ne, if_neg (by omega), Nat.add_sub_cancel, file] at node
    have type : (A.din (j + 2)).type = T_FILE := by rw [← Volume.node_type, node]
    have allocated : (A.din (j + 2)).type ≠ 0 := by
      rw [type]
      decide
    rw [Volume.node_alloc allocated] at node
    rw [Volume.setDin_din, Volume.setDin_data, upd_ne _ _ ne]
    refine ⟨⟨⟨inode, allocated, sound.fits _ inode, ?_⟩, sound.mapped _ inode allocated⟩, type,
      congrArg Node.contents node⟩
    rw [Volume.setDin_din, ← upd_ne A.din { A.din ROOTINO with size := rootSize files } ne, upd_self]
    exact owned

theorem iget_second {d : Nat → Block} {v : Inode} {inum : Nat} (root : v.inum = ROOTINO) (held : 0 < v.ref)
    (other : inum ≠ ROOTINO) :
    act (.iget inum) ((started g d).setInode 0 v) = .returned 1 (((started g d).setInode 0 v).setInode 1
      ⟨inum, 1, false, false, Dinode.empty⟩) := by
  have rest : ∀ i, i ≠ 0 → ((started g d).setInode 0 v).icache i = ⟨0, 0, false, false, Dinode.empty⟩ := by
    intro i ne
    simp only [State.setInode, started, upd_ne _ _ ne]
    rfl
  have missed : ((started g d).setInode 0 v).cached inum = none := by
    unfold State.cached
    rw [List.find?_eq_none]
    intro i _
    by_cases zero : i = 0
    · subst zero
      simp only [State.setInode, upd_same, root, decide_eq_true_eq]
      exact fun hit => other hit.2.symm
    · rw [rest i zero]
      simp
  have free : ((started g d).setInode 0 v).freeEntry = some 1 := by
    unfold State.freeEntry
    rw [show List.range NINODE = 0 :: 1 :: (List.range NINODE).drop 2 from rfl, List.find?_cons_of_neg,
      List.find?_cons_of_pos]
    · rw [rest 1 (by decide)]
      rfl
    · simp only [State.setInode, upd_same, decide_eq_true_eq]
      omega
  simp only [act, missed, free]
  rw [rest 1 (by decide)]

theorem run_readi_whole {ip i : Nat} {c : Dinode} (disk : OnDisk g s A) (din : (s.icache ip).din = c)
    (now_open : Open g A i c c.size) (file : c.type ≠ T_DEV) :
    machine.run (readi ip 0 c.size) s = .returned ((c.size : Int), contents A.data c) s := by
  obtain ⟨_, _, run, rfl, rfl⟩ := wp_returned (I := fun _ => True)
    (wp_readi_part (Q := fun r t => r = ((c.size : Int), contents A.data c) ∧ t = s) trivial disk din now_open file
      (Nat.le_of_eq (Nat.zero_add _)) Nat.le.refl ⟨by simp only [Nat.zero_add, contents], rfl⟩)
  exact run

def rootLocked (d : Nat → Block) (c : Dinode) : State :=
  (started Mkfs.geometry d).setInode 0 ⟨ROOTINO, 2, true, true, c⟩

theorem run_dirlookup_fresh {d : Nat → Block} {des rest : List Dirent} {de : Dirent} {name : List UInt8} {v : Nat}
    (disk : OnDisk Mkfs.geometry (started Mkfs.geometry d) A) (root : Open Mkfs.geometry A ROOTINO (A.din ROOTINO) v)
    (dir : (A.din ROOTINO).type = T_DIR) (le : v ≤ (A.din ROOTINO).size)
    (entries : contents A.data { A.din ROOTINO with size := v } = (des ++ de :: rest).flatMap Dirent.toBytes)
    (stored : ∀ e ∈ des ++ de :: rest, e.Stored) (none : ∀ e ∈ des, ¬ Matches name e) (found : Matches name de)
    (other : de.inum ≠ ROOTINO) :
    machine.run (dirlookup 0 name) (rootLocked d (A.din ROOTINO)) = .returned (some (1, des.length * DESIZE))
      ((rootLocked d (A.din ROOTINO)).setInode 1 ⟨de.inum, 1, false, false, Dinode.empty⟩) := by
  have length := congrArg List.length entries
  rw [contents_length, (dirents_flatMap stored).1, List.length_append, List.length_cons] at length
  have file : (A.din ROOTINO).type ≠ T_DEV := by
    rw [dir]
    decide
  have onDisk : OnDisk Mkfs.geometry (rootLocked d (A.din ROOTINO)) A := disk.of_eq rfl rfl rfl rfl rfl
  have lists : Lists (strict (fun _ => True) fun _ => False) 0 (rootLocked d (A.din ROOTINO)) 0
      (dirents (contents A.data { A.din ROOTINO with size := v })) := lists_open trivial onDisk rfl root file le
  rw [entries, (dirents_flatMap stored).2] at lists
  have enough : (des.length + 1) * DESIZE ≤ (A.din ROOTINO).size := by
    change v = _ at length
    simp only [DESIZE] at length ⊢
    omega
  obtain ⟨_, _, run, rfl, rfl⟩ := wp_returned (I := fun _ => True)
    (wp_dirlookup_found (Q := fun r t => r = some (1, des.length * DESIZE) ∧
      t = (rootLocked d (A.din ROOTINO)).setInode 1 ⟨de.inum, 1, false, false, Dinode.empty⟩) trivial dir lists enough
      none found (wp_returns trivial (iget_second rfl (show (0 : Int) < 2 by decide) other) ⟨rfl, rfl⟩))
  exact run

/-- The kernel finds every file of a fresh image by its name, as a file with the bytes that were read from
the host. -/
theorem main_readable {f : HostFile} {j : Nat} (run : Mkfs.main files = some m) (few : files.length ≤ Mkfs.ninodes - 2)
    (below : m.usedblocks ≤ 1014) (names : Named files) (file : files[j]? = some f) :
    ∃ s₀ dp s₁ s₂ ip off s₃ s₄, boot m.img = .returned () s₀ ∧
      machine.run (iget ROOTINO) s₀ = .returned dp s₁ ∧ machine.run (ilock dp) s₁ = .returned () s₂ ∧
      machine.run (dirlookup dp (entryName f.name)) s₂ = .returned (some (ip, off)) s₃ ∧
      machine.run (ilock ip) s₃ = .returned () s₄ ∧ (s₄.icache ip).din.type = T_FILE ∧
      machine.run (readi ip 0 (s₄.icache ip).din.size) s₄ = .returned (f.reads.flatten.length, f.reads.flatten) s₄ := by
  obtain ⟨A, boots, disk, ⟨root, dir, size, entries⟩, opens⟩ := main_opens run few below
  obtain ⟨now_open, type, bytes⟩ := opens j f file
  obtain ⟨des, rest, split, length, none⟩ := names.split file
  have stored := entries_stored few
  have le : DESIZE * (files.length + 2) ≤ (A.din ROOTINO).size := by
    rw [size]
    simp only [rootSize, DESIZE, BSIZE]
    omega
  rw [split] at entries stored
  have lock := run_ilock_first (s := (started Mkfs.geometry m.img).setInode 0 ⟨ROOTINO, 2, false, false, Dinode.empty⟩)
    0 (disk.of_eq rfl rfl rfl rfl rfl) (show (1 : Int) ≤ 2 by decide) rfl rfl root.inode root.allocated
  have once : ∀ v v', ((started Mkfs.geometry m.img).setInode 0 v).setInode 0
    v' = (started Mkfs.geometry m.img).setInode 0 v' := by
    intro v v'
    simp only [State.setInode, upd_upd]
  rw [once] at lock
  have found := run_dirlookup_fresh disk root dir le entries stored none (matches_entry.mpr ⟨Nat.succ_ne_zero _, rfl⟩)
    (by simp only [ROOTINO]; omega)
  have lock' := run_ilock_first (s :=
    (rootLocked m.img (A.din ROOTINO)).setInode 1 ⟨j + 2, 1, false, false, Dinode.empty⟩)
    1 (disk.of_eq rfl rfl rfl rfl rfl) (Int.le_refl 1) rfl rfl now_open.inode now_open.allocated
  have plain : (A.din (j + 2)).type ≠ T_DEV := by
    rw [type]
    decide
  refine ⟨_, 0, _, _, 1, _, _, _, boots, rfl, lock, found, lock', type, ?_⟩
  rw [← bytes, contents_length]
  exact run_readi_whole (c := A.din (j + 2)) (disk.of_eq rfl rfl rfl rfl rfl) rfl now_open plain

end

/-- A file of three bytes that the host returned in two pieces. -/
theorem main_readable_hi : ∃ m s₀ dp s₁ s₂ ip off s₃ s₄, Mkfs.main [⟨[95, 104, 105], [[104, 105], [33]]⟩] = some m ∧
    boot m.img = .returned () s₀ ∧ machine.run (iget ROOTINO) s₀ = .returned dp s₁ ∧
    machine.run (ilock dp) s₁ = .returned () s₂ ∧
      machine.run (dirlookup dp [104, 105]) s₂ = .returned (some (ip, off)) s₃ ∧
    machine.run (ilock ip) s₃ = .returned () s₄ ∧ (s₄.icache ip).din.type = T_FILE ∧
    machine.run (readi ip 0 (s₄.icache ip).din.size) s₄ = .returned (3, [104, 105, 33]) s₄ := by
  have made : (Mkfs.main [⟨[95, 104, 105], [[104, 105], [33]]⟩]).map (·.usedblocks) = some 31 := by decide +kernel
  obtain ⟨m, run, used⟩ := Option.map_eq_some_iff.mp made
  have names : Named [⟨[95, 104, 105], [[104, 105], [33]]⟩] := by constructor <;> decide
  obtain ⟨s₀, dp, s₁, s₂, ip, off, s₃, s₄, reads⟩ := main_readable (j := 0) run (by decide) (by omega) names rfl
  exact ⟨m, s₀, dp, s₁, s₂, ip, off, s₃, s₄, run, reads⟩

/-! ### Reads that allocate -/

/-- The disk of `s` is the fresh image, and entry `ip` of the cache is its inode `i`, which is no device. -/
structure Caches (img : Nat → Block) (s : State) (ip i : Nat) : Prop where
  disk : s.disk = (started Mkfs.geometry img).disk
  dirty : s.dirty = (started Mkfs.geometry img).dirty
  log : s.log = (started Mkfs.geometry img).log
  inode : i < Mkfs.ninodes
  din : (s.icache ip).din = Mkfs.inode img i
  allocated : (Mkfs.inode img i).type ≠ 0
  file : (Mkfs.inode img i).type ≠ T_DEV

/-- Reading leaves the disk and the log alone: no block is allocated. -/
structure ReadOnly (img : Nat → Block) : Prop where
  read : ∀ {s ip i}, Caches img s ip i → ∀ off n, n < 2 ^ 32 → ∃ r, machine.run (readi ip off n) s = .returned r s
  lookup : ∀ {s ip i}, Caches img s ip i → (Mkfs.inode img i).type = T_DIR → ∀ name,
    machine.run (dirlookup ip name) s = .panicked .igetNone ∨
    ∃ r t, machine.run (dirlookup ip name) s = .returned r t ∧ t.disk = s.disk ∧ t.dirty = s.dirty ∧ t.log = s.log

section

variable {A : Volume} {s : State} {ip i : Nat} {files : List HostFile} {m : Mkfs.State} {img : Nat → Block} {top : Nat}

theorem Caches.fileAt (h : Caches img s ip i) (finished : Mkfs.Finished img top A) (sound : Sound Mkfs.geometry A) :
    OnDisk Mkfs.geometry s A ∧ (s.icache ip).din = A.din i ∧ Open Mkfs.geometry A i (A.din i) (A.din i).size := by
  have din := finished.inode i h.inode
  refine ⟨(onDisk_started finished.toReads).of_eq h.disk h.dirty ?_ ?_ ?_, h.din.trans din,
    sound.open h.inode (din ▸ h.allocated)⟩
  · rw [h.log]
  · rw [h.log]
  · rw [h.log]

theorem iget_cases (s : State) (inum : Nat) : act (.iget inum) s = .panicked .igetNone ∨
    ∃ ip v, act (.iget inum) s = .returned ip (s.setInode ip v) := by
  simp only [act]
  split
  · exact Or.inr ⟨_, _, rfl⟩
  · split
    · exact Or.inr ⟨_, _, rfl⟩
    · exact Or.inl rfl

theorem ReadOnly.of_sound (finished : Mkfs.Finished img top A) (sound : Sound Mkfs.geometry A)
    (whole : ∀ i < Mkfs.ninodes, (A.din i).type = T_DIR → (A.din i).size % DESIZE = 0) : ReadOnly img := by
  constructor
  case read =>
    intro s ip i h off n small
    obtain ⟨disk, din, now_open⟩ := h.fileAt finished sound
    have reads : machine.wp (strict (fun _ => True) fun _ => False) (readi ip off n) s fun _ t => t = s :=
      wp_readi_file trivial disk din now_open (finished.inode i h.inode ▸ h.file) small rfl
    obtain ⟨r, t, run, rfl⟩ := wp_returned reads
    exact ⟨r, run⟩
  case lookup =>
    intro s ip i h dir name
    rw [finished.inode i h.inode] at dir
    obtain ⟨disk, din, now_open⟩ := h.fileAt finished sound
    have size : (s.icache ip).din.size = (dirents (contents A.data (A.din i))).length * DESIZE := by
      have := whole i h.inode dir
      rw [din, dirents_length, contents_length]
      simp only [DESIZE] at this ⊢
      omega
    have file : (A.din i).type ≠ T_DEV := by
      rw [dir]
      decide
    have looks : machine.wp (strict (fun _ => True) (· = .igetNone)) (dirlookup ip name) s
        fun _ t => t.disk = s.disk ∧ t.dirty = s.dirty ∧ t.log = s.log := by
      refine wp_dirlookup trivial (by rw [din, dir]) (lists_open trivial disk din now_open file Nat.le.refl) size
        (fun _ de _ _ _ _ => ?_) fun _ => ⟨rfl, rfl, rfl⟩
      rw [iget]
      obtain full | ⟨ip', v, got⟩ := iget_cases s de.inum
      · exact wp_panics trivial full rfl
      · exact wp_returns trivial got ⟨rfl, rfl, rfl⟩
    obtain ⟨r, t, run, same⟩ | ⟨_, run, rfl⟩ := wp_ends looks
    · exact Or.inr ⟨r, t, run, same⟩
    · exact Or.inl run

/-- The kernel may use the image, and never allocates when it reads it, unless the entries of the root directory
fill their last block. -/
theorem main_usable (run : Mkfs.main files = some m) (few : files.length ≤ Mkfs.ninodes - 2)
    (below : m.usedblocks ≤ 1014) : (Mkfs.Legal m.img ∧ ReadOnly m.img) ↔ (files.length + 2) % 32 ≠ 0 := by
  constructor
  · intro usable
    exact (Mkfs.main_legal run few below).mp usable.1
  · intro ragged
    obtain ⟨A, finished, sound, nodes⟩ := Mkfs.main_sound run few below ragged
    refine ⟨finished.legal sound, .of_sound finished sound fun i hi dir => ?_⟩
    have node := nodes i hi
    have root : i = ROOTINO := by
      by_contra ne
      rw [Mkfs.finalNodes, upd_ne _ _ ne] at node
      have type := congrArg Node.type node
      rw [Volume.node_type, dir, Mkfs.nodes, if_neg ne] at type
      split at type
      · cases type
      · split at type <;> cases type
    have allocated : (A.din i).type ≠ 0 := by
      rw [dir]
      decide
    have length := congrArg (fun x => x.contents.length) node
    rw [Volume.node_alloc allocated, contents_length, root, Mkfs.finalNodes, upd_same, List.length_append,
      Mkfs.entries_length, List.length_replicate] at length
    rw [root, length]
    simp only [rootSize, DESIZE, BSIZE]
    omega

end

/-- Thirty files fill the first block of the root directory: `main` counts a second one, and there is none. -/
theorem main_unusable : ∃ files m, files.length ≤ Mkfs.ninodes - 2 ∧ Mkfs.main files = some m ∧ m.usedblocks ≤ 1014 ∧
    ¬ (Mkfs.Legal m.img ∧ ReadOnly m.img) ∧ BSIZE < (Mkfs.inode m.img ROOTINO).size ∧
    blockOf m.img (Mkfs.inode m.img ROOTINO) 1 = 0 := by
  have few : ((List.range 30).map fun k => (⟨[97 + UInt8.ofNat k], []⟩ : HostFile)).length ≤ Mkfs.ninodes - 2 := by
    decide
  obtain ⟨m, run, below⟩ := Mkfs.main_some few (by decide +kernel)
  obtain ⟨-, long, none⟩ := Mkfs.main_gap run few below (by decide)
  exact ⟨_, m, few, run, below, fun usable => (Mkfs.main_legal run few below).mp usable.1 (by decide), long, none⟩

/-- One file leaves the first block with room. -/
theorem main_usable_one : ∃ m, Mkfs.main [⟨[97], []⟩] = some m ∧ Mkfs.Legal m.img ∧ ReadOnly m.img := by
  obtain ⟨m, run, below⟩ := Mkfs.main_some (show [(⟨[97], []⟩ : HostFile)].length ≤ _ by decide) (by decide)
  obtain ⟨legal, reads⟩ := (main_usable run (by decide) below).mpr (by decide)
  exact ⟨m, run, legal, reads⟩

end Espl.Kernel
