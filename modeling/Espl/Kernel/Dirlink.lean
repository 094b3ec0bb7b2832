import Espl.Kernel.FileBytes
import Espl.Disk.Directory
import Espl.Program.Slots

/-!
# A directory is a finite map

`dirlookup` finds the entry of a name, `dirlink` enters a name that is not there yet, and `sys_unlink`
stores zeros where `dirlookup` has found an entry. Each changes what is found under its own name only.
-/

namespace Espl.Kernel

open Program

abbrev entries (A : Volume) (i : Nat) : List Dirent := dirents (bytes A i)

def direntKey (de : Dirent) : Option (List UInt8) := if de.inum = 0 then none else some (cstr de.name DIRSIZ)

def entry (des : List Dirent) (name : List UInt8) : Option (Nat × Nat) :=
  (Slots.find direntKey des (cstr name DIRSIZ)).map fun k => ((des.getD k .zero).inum, k * DESIZE)

/-- What `dirlookup` returns for such an entry: the inode comes from `iget`. -/
def found (s : State) : Option (Nat × Nat) → Outcome State Panic (Option (Nat × Nat))
  | none => .returned none s
  | some (inum, off) => machine.run (do let ip ← iget inum; return some (ip, off)) s

def Finds (s : State) (dp : Nat) (m : List UInt8 → Option (Nat × Nat)) : Prop :=
  ∀ name, machine.run (dirlookup dp name) s = found s (m name)

/-- In a transaction, `dp` is directory `i` of the volume. Its size is that of whole entries, and no two
entries in use have the same name. -/
structure DirAt (g : Geometry) (s : State) (A : Volume) (dp i : Nat) : Prop extends FileAt g s A dp i where
  busy : s.log.busy = true
  marked : MetaUsed g A
  dir : (A.din i).type = T_DIR
  whole : (A.din i).size % DESIZE = 0
  distinct : Slots.Distinct direntKey (entries A i)

/-- Only entries of the inode cache that are not in use have changed. -/
def Unchanged (s t : State) : Prop :=
  ∃ icache, t = { s with icache := icache } ∧ ∀ ip, 0 < (s.icache ip).ref → icache ip = s.icache ip

section

variable {g : Geometry} {s : State} {A : Volume} {dp i k n : Nat} {name : List UInt8} {de : Dirent}

theorem direntKey_iff : direntKey de = some (cstr name DIRSIZ) ↔ de.inum ≠ 0 ∧ namecmp name de.name = 0 := by
  unfold direntKey
  rw [namecmp_eq_zero]
  split
  · simp [*]
  · simp [*, eq_comm]

namespace DirAt

variable (h : DirAt g s A dp i)

include h

theorem count : (A.din i).size = (entries A i).length * DESIZE := by
  have whole := h.whole
  rw [dirents_length, contents_length]
  simp only [DESIZE] at whole ⊢
  omega

theorem rounds : ((s.icache dp).din.size + DESIZE - 1) / DESIZE = (entries A i).length := by
  rw [h.din, h.count]
  simp only [DESIZE]
  omega

theorem run_readi (here : (entries A i)[k]? = some de) :
    ∃ bs, machine.run (readi dp (k * DESIZE) DESIZE) s = .returned (DESIZE, bs) s ∧ Dirent.ofBytes bs = de := by
  have lt := (List.getElem?_eq_some_iff.mp here).1
  have size := h.count
  have inside : (k + 1) * DESIZE ≤ (bytes A i).length := by
    rw [contents_length, size]
    exact Nat.mul_le_mul_right _ lt
  have most := (h.sound.mapped i h.lt h.allocated).size
  rw [dirents_getElem? inside] at here
  refine ⟨_, (Kernel.run_readi h.toFileAt (by decide)).trans ?_, Option.some.inj here⟩
  rw [readResult, if_neg, Nat.min_eq_left]
  · rw [Nat.succ_mul] at inside
    omega
  · rw [Nat.succ_mul] at inside
    rw [contents_length] at inside ⊢
    simp only [MAXFILE, NDIRECT, NINDIRECT, BSIZE] at most
    omega

theorem run_lookup_loop (rounds : k + n = (entries A i).length)
    (before : ∀ j de, j < k → (entries A i)[j]? = some de → direntKey de ≠ some (cstr name DIRSIZ)) :
    machine.run (dirlookup.loop dp name (k * DESIZE) n) s = found s (entry (entries A i) name) := by
  induction n generalizing k with
  | zero =>
    have none : entry (entries A i) name = none := by
      rw [entry, Option.map_eq_none_iff, Slots.find_eq_none]
      intro j de here
      have lt := (List.getElem?_eq_some_iff.mp here).1
      exact before j de (by omega) here
    rw [none]
    rfl
  | succ n ih =>
    have lt : k < (entries A i).length := by omega
    have here := List.getElem?_eq_getElem lt
    obtain ⟨bs, read, is⟩ := h.run_readi here
    rw [dirlookup.loop, bind_eq, Machine.run_bind, read]
    simp only [is, ne_eq, not_true_eq_false, if_false]
    -- the name is that of this entry, or the loop goes on
    have next : direntKey (entries A i)[k] ≠ some (cstr name DIRSIZ) →
        machine.run (dirlookup.loop dp name (k * DESIZE + DESIZE) n) s = found s (entry (entries A i) name) := by
      intro other
      rw [← Nat.succ_mul]
      refine ih (by omega) fun j de lt' found => ?_
      rcases Nat.lt_succ_iff_lt_or_eq.mp lt' with less | rfl
      · exact before j de less found
      · exact Option.some.inj (here.symm.trans found) ▸ other
    by_cases free : (entries A i)[k].inum = 0
    · rw [if_pos free]
      exact next fun same => (direntKey_iff.mp same).1 free
    · rw [if_neg free]
      by_cases same : namecmp name (entries A i)[k].name = 0
      · rw [if_pos same]
        have at_k : entry (entries A i) name = some ((entries A i)[k].inum, k * DESIZE) := by
          rw [entry, (Slots.find_eq_some h.distinct).mpr ⟨_, here, direntKey_iff.mpr ⟨free, same⟩⟩, Option.map_some,
            List.getD_eq_getElem _ _ lt]
        rw [at_k]
        rfl
      · rw [if_neg same]
        exact next fun found => same (direntKey_iff.mp found).2

theorem finds : Finds s dp (entry (entries A i)) := by
  intro name
  have run : machine.run (dirlookup.loop dp name (0 * DESIZE) _) s = _ :=
    h.run_lookup_loop (Nat.zero_add _) fun j _ lt => absurd lt (Nat.not_lt_zero j)
  rw [Nat.zero_mul, ← h.rounds] at run
  rw [← run, dirlookup]
  simp only [step, bind_eq, step_bind, done_bind, Machine.run, machine, act, h.din, h.dir,
    ne_eq, not_true_eq_false, if_false]

theorem run_empty (rounds : k + n = (entries A i).length) :
    ∃ j, machine.run (dirlink.empty dp (k * DESIZE) n) s = .returned (j * DESIZE) s ∧
      (j = (entries A i).length ∨ ∃ de, (entries A i)[j]? = some de ∧ de.inum = 0) := by
  induction n generalizing k with
  | zero => exact ⟨k, rfl, Or.inl rounds⟩
  | succ n ih =>
    have lt : k < (entries A i).length := by omega
    have here := List.getElem?_eq_getElem lt
    obtain ⟨bs, read, is⟩ := h.run_readi here
    rw [dirlink.empty, bind_eq, Machine.run_bind, read]
    simp only [is, ne_eq, not_true_eq_false, if_false]
    by_cases free : (entries A i)[k].inum = 0
    · rw [if_pos free]
      exact ⟨k, rfl, Or.inr ⟨_, here, free⟩⟩
    · rw [if_neg free, ← Nat.succ_mul]
      exact ih (by omega)

/-- An entry is stored in place of another, or behind the last one. -/
theorem run_store (stored : de.Stored) (le : k ≤ (entries A i).length)
    (fits : (k + 1) * DESIZE ≤ MAXFILE * BSIZE) (stocked : k = (entries A i).length → Stocked g A 2)
    (room : Room s (4 + (g.dataStart - g.mapStart)))
    (new : ∀ (j : Nat) x c, j ≠ k → (entries A i)[j]? = some x → direntKey x = some c → direntKey de ≠ some c) :
    ∃ t A', machine.run (writei dp de.toBytes (k * DESIZE)) s = .returned DESIZE t ∧ DirAt g t A' dp i ∧
      Slots.Replaces (entries A i) k de (entries A' i) ∧ ∀ j < g.ninodes, j ≠ i → A'.node j = A.node j := by
  have length := stored.length
  have size := h.count
  have whole : (bytes A i).length % DESIZE = 0 := by rw [contents_length, h.whole]
  have blocks : Stocked g A (blocksOf (max (A.din i).size (k * DESIZE + de.toBytes.length)) - blocksOf
    (A.din i).size + 0) := by
    rcases Nat.lt_or_eq_of_le le with lt | last
    · have inside : k * DESIZE + de.toBytes.length ≤ (A.din i).size := by
        rw [size, length, ← Nat.succ_mul]
        exact Nat.mul_le_mul_right _ lt
      rw [Nat.max_eq_left inside, Nat.sub_self]
      exact ⟨h.marked, Nat.zero_le _⟩
    · refine ⟨h.marked, le_trans ?_ (stocked last).free⟩
      rw [← last] at size
      rw [size, length]
      simp only [blocksOf, BSIZE, NDIRECT, DESIZE]
      split <;> split <;> omega
  have sectors : writeSectors g (A.din i).size (k * DESIZE) de.toBytes.length ≤ 4 + (g.dataStart - g.mapStart) := by
    have one : touched (k * DESIZE) de.toBytes.length = 1 := by
      rw [length]
      simp only [touched, BSIZE, DESIZE]
      rw [if_neg (by decide)]
      omega
    exact (writeSectors_le ..).trans (by omega)
  have small : de.toBytes.length < 2 ^ 32 := by rw [length]; decide
  have taken : ¬ Refused (A.din i).size (k * DESIZE) de.toBytes.length := by
    rw [length, size]
    unfold Refused
    simp only [MAXFILE, NDIRECT, NINDIRECT, BSIZE, DESIZE] at *
    omega
  have wrote := wp_writei_stores (T := Machine.strict (fun _ => True) fun _ => False) (n := 0) (fun _ _ => trivial) id
    h.toFileAt h.busy small taken blocks (Or.inr (room.mono sectors))
  obtain ⟨r, t, run, rfl, A', stores, edits, left, type⟩ := Machine.wp_returned wrote
  rw [length] at run
  have replaces : Slots.Replaces (entries A i) k de (entries A' i) := by
    rw [entries, entries, stores.bytes]
    rcases Nat.lt_or_eq_of_le le with lt | last
    · rw [dirents_overwrite (by rw [contents_length, size]; exact Nat.mul_le_mul_right _ lt) stored]
      exact Slots.replaces_set lt de
    · have behind : overwrite (bytes A i) (k * DESIZE) de.toBytes = bytes A i ++ de.toBytes := by
        rw [last, ← size, ← contents_length A.data, overwrite, List.take_length,
          List.drop_eq_nil_of_le (Nat.le_add_right ..), List.append_nil]
      rw [behind, dirents_append whole stored, last]
      exact Slots.replaces_append _ de
  refine ⟨t, A', run, ⟨stores.file, edits.busy.trans h.busy, left.marked, ?_, ?_,
    h.distinct.replace replaces new⟩, replaces, stores.others⟩
  · exact type.trans h.dir
  · rw [stores.size, length, size]
    simp only [DESIZE]
    omega

end DirAt

/-- A reference that `iget` has just taken is not the last one to a valid entry, so `iput` only drops it. -/
theorem run_iput_iget {inum ip : Nat} {u : State} (got : machine.run (iget inum) s = .returned ip u) :
    ∃ v, machine.run (iput ip) u = .returned () v ∧ Unchanged s v := by
  have drops : ∀ u : State, ¬ ((u.icache ip).ref = 1 ∧ (u.icache ip).valid ∧ (u.icache ip).din.nlink = 0) →
      machine.run (iput ip) u = .returned () (u.setInode ip { u.icache ip with ref := (u.icache ip).ref - 1 }) := by
    intro u more
    simp only [iput, step, bind_eq, step_bind, Machine.run, machine, act, if_neg more]
    rfl
  simp only [iget, step, Machine.run, machine, act] at got
  cases hit : s.cached inum with
  | some e =>
    rw [hit] at got
    cases got
    have used : 0 < (s.icache ip).ref ∧ (s.icache ip).inum = inum := by simpa using List.find?_some hit
    refine ⟨_, drops _ ?_, s.icache, ?_, fun _ _ => rfl⟩
    · simp only [State.setInode, upd_same]
      omega
    · simp [State.setInode]
  | none =>
    rw [hit] at got
    cases free : s.freeEntry with
    | none =>
      rw [free] at got
      cases got
    | some e =>
      rw [free] at got
      cases got
      have unused : (s.icache ip).ref = 0 := by simpa using List.find?_some free
      refine ⟨_, drops _ ?_, _, rfl, fun e used => ?_⟩
      · simp [State.setInode]
      · have ne : e ≠ ip := fun eq => absurd used (by rw [eq, unused]; decide)
        simp [State.setInode, upd_ne _ _ ne]

theorem DirAt.run_dirlink_found (h : DirAt g s A dp i) {x off inum ip : Nat} {u : State}
    (there : entry (entries A i) name = some (x, off)) (got : machine.run (iget x) s = .returned ip u) :
    ∃ v, machine.run (dirlink dp name inum) s = .returned (-1) v ∧ Unchanged s v := by
  obtain ⟨v, put, same⟩ := run_iput_iget got
  refine ⟨v, ?_, same⟩
  have looked : machine.run (dirlookup dp name) s = .returned (some (ip, off)) u := by
    rw [h.finds name, there]
    change machine.run ((iget x).bind fun ip => pure (some (ip, off))) s = _
    rw [Machine.run_bind, got]
    rfl
  rw [dirlink, bind_eq, Machine.run_bind, looked]
  change machine.run ((iput ip).bind fun _ => pure (-1)) u = _
  rw [Machine.run_bind, put]
  rfl

theorem entry_replace {des des' : List Dirent} (distinct : Slots.Distinct direntKey des)
    (distinct' : Slots.Distinct direntKey des') (replaces : Slots.Replaces des k de des') (name : List UInt8) :
    entry des' name = if direntKey de = some (cstr name DIRSIZ) then some (de.inum, k * DESIZE)
      else if Slots.find direntKey des (cstr name DIRSIZ) = some k then none else entry des name := by
  rw [entry, Slots.find_replace distinct distinct' replaces, entry]
  split
  · rw [Option.map_some, List.getD_eq_getElem?_getD, replaces.here]
    rfl
  · split
    · rfl
    · rename_i other
      cases is : Slots.find direntKey des (cstr name DIRSIZ) with
      | none => rfl
      | some j =>
        have ne : j ≠ k := fun eq => other (eq ▸ is)
        rw [Option.map_some, Option.map_some, List.getD_eq_getElem?_getD, List.getD_eq_getElem?_getD,
          replaces.others j ne]

namespace DirAt

variable (h : DirAt g s A dp i)

include h

theorem run_dirlink_new {inum : Nat} (absent : entry (entries A i) name = none)
    (pos : 0 < inum) (small : inum < 2 ^ 16) (below : (A.din i).size < MAXFILE * BSIZE) (stocked : Stocked g A 2)
    (room : Room s (4 + (g.dataStart - g.mapStart))) :
    ∃ t A' off, machine.run (dirlink dp name inum) s = .returned 0 t ∧ DirAt g t A' dp i ∧
      (∀ j < g.ninodes, j ≠ i → A'.node j = A.node j) ∧
      ∀ name', entry (entries A' i) name' =
        if namecmp name name' = 0 then some (inum, off) else entry (entries A i) name' := by
  have none := Slots.find_eq_none.mp (Option.map_eq_none_iff.mp absent)
  have key : ∀ c, direntKey ⟨inum, strncpy name DIRSIZ⟩ = some c ↔ cstr name DIRSIZ = c := by
    simp [direntKey, Nat.ne_of_gt pos, cstr_strncpy]
  have size := h.count
  obtain ⟨k, search, place⟩ := h.run_empty (k := 0) (Nat.zero_add _)
  have le : k ≤ (entries A i).length := by
    rcases place with rfl | ⟨de, here, -⟩
    · exact Nat.le.refl
    · exact Nat.le_of_lt (List.getElem?_eq_some_iff.mp here).1
  have unused : ∀ c, Slots.find direntKey (entries A i) c ≠ some k := by
    intro c there
    obtain ⟨de, here, live⟩ := (Slots.find_eq_some h.distinct).mp there
    rcases place with rfl | ⟨de', here', free⟩
    · exact absurd ((List.getElem?_eq_none Nat.le.refl).symm.trans here) nofun
    · rw [Option.some.inj (here.symm.trans here'), direntKey, if_pos free] at live
      cases live
  obtain ⟨t, A', wrote, after, replaces, others⟩ := h.run_store (k := k) (Dirent.stored_strncpy small name) le
    (by simp only [MAXFILE, NDIRECT, NINDIRECT, BSIZE, DESIZE] at *; omega) (fun _ => stocked) room
    fun j x c _ here live => (key c).not.mpr fun same => none j x here (same ▸ live)
  refine ⟨t, A', k * DESIZE, ?_, after, others, fun name' => ?_⟩
  · have looked : machine.run (dirlookup dp name) s = .returned .none s := by rw [h.finds name, absent]; rfl
    rw [Nat.zero_mul, ← h.rounds] at search
    rw [dirlink, bind_eq, Machine.run_bind, looked]
    change machine.run ((dirlink.empty dp 0 (((s.icache dp).din.size + DESIZE - 1) / DESIZE)).bind _) s = _
    rw [Machine.run_bind, search]
    change machine.run ((writei dp _ _).bind _) s = _
    rw [Machine.run_bind, wrote]
    rfl
  · rw [entry_replace h.distinct after.distinct replaces, if_neg (unused _)]
    simp only [key, namecmp_eq_zero]

theorem run_unlink {x off : Nat} (there : entry (entries A i) name = some (x, off))
    (room : Room s (4 + (g.dataStart - g.mapStart))) :
    ∃ t A', machine.run (writei dp Dirent.zero.toBytes off) s = .returned DESIZE t ∧ DirAt g t A' dp i ∧
      (∀ j < g.ninodes, j ≠ i → A'.node j = A.node j) ∧
      ∀ name', entry (entries A' i) name' = if namecmp name name' = 0 then none else entry (entries A i) name' := by
  have free : ∀ c, direntKey .zero ≠ some c := by simp [direntKey, Dirent.zero]
  obtain ⟨k, is, same⟩ := Option.map_eq_some_iff.mp there
  obtain rfl : k * DESIZE = off := (Prod.mk.inj same).2
  obtain ⟨de, here, live⟩ := (Slots.find_eq_some h.distinct).mp is
  have lt := (List.getElem?_eq_some_iff.mp here).1
  have most := (h.sound.mapped i h.lt h.allocated).size
  have size := h.count
  obtain ⟨t, A', wrote, after, replaces, others⟩ := h.run_store (k := k) Dirent.stored_zero (Nat.le_of_lt lt)
    (by simp only [MAXFILE, NDIRECT, NINDIRECT, BSIZE, DESIZE] at *; omega) (fun eq => absurd eq (Nat.ne_of_lt lt)) room
    fun j x c _ _ _ => free c
  refine ⟨t, A', wrote, after, others, fun name' => ?_⟩
  have own : Slots.find direntKey (entries A i) (cstr name' DIRSIZ) = some k ↔ namecmp name name' = 0 := by
    rw [namecmp_eq_zero]
    constructor
    · intro is'
      obtain ⟨de', here', live'⟩ := (Slots.find_eq_some h.distinct).mp is'
      rw [Option.some.inj (here'.symm.trans here), live] at live'
      exact Option.some.inj live'
    · rintro same
      rwa [← same]
  rw [entry_replace h.distinct after.distinct replaces, if_neg (free _)]
  simp only [own]

end DirAt

/-- A directory is a finite map. `dirlookup` finds what the map says. `dirlink` refuses a name that is there
and changes nothing; it enters any other one, and all other names keep their entries. Zeros stored at the
offset that `dirlookup` reports remove that name and no other. -/
theorem directory_map (h : DirAt g s A dp i) (room : Room s (4 + (g.dataStart - g.mapStart))) :
    Finds s dp (entry (entries A i)) ∧
    (∀ name x off, entry (entries A i) name = some (x, off) →
      (∀ inum ip u, machine.run (iget x) s = .returned ip u →
        ∃ v, machine.run (dirlink dp name inum) s = .returned (-1) v ∧ Unchanged s v) ∧
      ∃ t A', machine.run (writei dp Dirent.zero.toBytes off) s = .returned DESIZE t ∧ DirAt g t A' dp i ∧
        (∀ j < g.ninodes, j ≠ i → A'.node j = A.node j) ∧
        Finds t dp fun name' => if namecmp name name' = 0 then none else entry (entries A i) name') ∧
    ∀ name inum, entry (entries A i) name = none → 0 < inum → inum < 2 ^ 16 → (A.din i).size < MAXFILE * BSIZE →
      Stocked g A 2 → ∃ t A' off, machine.run (dirlink dp name inum) s = .returned 0 t ∧ DirAt g t A' dp i ∧
        (∀ j < g.ninodes, j ≠ i → A'.node j = A.node j) ∧
        Finds t dp fun name' => if namecmp name name' = 0 then some (inum, off) else entry (entries A i) name' := by
  refine ⟨h.finds, fun name x off there => ⟨fun inum ip u got => h.run_dirlink_found there got, ?_⟩,
    fun name inum absent pos small below stocked => ?_⟩
  · obtain ⟨t, A', wrote, after, others, same⟩ := h.run_unlink there room
    exact ⟨t, A', wrote, after, others, funext same ▸ after.finds⟩
  · obtain ⟨t, A', off, linked, after, others, same⟩ := h.run_dirlink_new absent pos small below stocked room
    exact ⟨t, A', off, linked, after, others, funext same ▸ after.finds⟩

end

def rootOpen : State :=
  { started Mkfs.geometry fileImage with
    log := ⟨1014, 10, true, []⟩
    icache := upd (started Mkfs.geometry fileImage).icache 0
      ⟨ROOTINO, 1, true, true, (fileImage (iblock ROOTINO)).dinode (ROOTINO % IPB)⟩ }

theorem dirAt_root : ∃ A, DirAt Mkfs.geometry rootOpen A 0 ROOTINO ∧ Stocked Mkfs.geometry A 2 ∧
    (A.din ROOTINO).size = 512 ∧ entry (entries A ROOTINO) [98] = none := by
  obtain ⟨A, finished, sound, stocked, nodes⟩ := fileImage_volume
  have node := nodes ROOTINO (by decide)
  have type : (A.din ROOTINO).type = T_DIR := by rw [← Volume.node_type, node]; rfl
  have allocated : (A.din ROOTINO).type ≠ 0 := by rw [type]; decide
  have contents : bytes A ROOTINO = (Mkfs.finalNodes [⟨[97], []⟩] ROOTINO).contents := by
    rw [← node, Volume.node_alloc allocated]
  have size : (A.din ROOTINO).size = 512 := by
    rw [← contents_length A.data]
    exact (congrArg List.length contents).trans (by decide +kernel)
  refine ⟨A, ⟨⟨?_, sound, by decide, rfl, finished.inode ROOTINO (by decide), allocated, by rw [type]; decide⟩, rfl,
    stocked.marked, type, by rw [size]; rfl, Slots.distinct_of_pairwise ?_⟩,
    ⟨stocked.marked, le_trans (by decide) stocked.free⟩, size, ?_⟩
  · exact (onDisk_started finished.toReads).of_eq rfl rfl rfl rfl rfl
  · rw [entries, contents]
    decide +kernel
  · rw [entries, contents]
    decide +kernel

/-- A second name for the file is entered. -/
theorem directory_map_second :
    ∃ t A off, machine.run (dirlink 0 [98] 2) rootOpen = .returned 0 t ∧ DirAt Mkfs.geometry t A 0 ROOTINO ∧
      machine.run (dirlookup 0 [98]) t = found t (some (2, off)) := by
  obtain ⟨A, dir, stocked, size, absent⟩ := dirAt_root
  obtain ⟨-, -, links⟩ := directory_map dir (show Room rootOpen (4 + 1) by unfold Room; decide)
  obtain ⟨t, A', off, linked, after, -, finds⟩ :=
    links [98] 2 absent (by decide) (by decide) (by rw [size]; decide) stocked
  exact ⟨t, A', off, linked, after, finds [98]⟩

end Espl.Kernel
