import Espl.Disk.Volume

/-!
# Files

What an inode is to the code above it: a type, a link count and a sequence of bytes. A sound volume
gives every inode such a node; here is what each operation on the volume does to the nodes.
-/

namespace Espl

structure Node where
  type : Nat
  major : Int
  minor : Int
  nlink : Int
  contents : List UInt8

def Node.free : Node := ⟨0, 0, 0, 0, []⟩

def overwrite (l : List UInt8) (off : Nat) (src : List UInt8) : List UInt8 :=
  l.take off ++ src ++ l.drop (off + src.length)

theorem overwrite_length (l : List UInt8) {off : Nat} (src : List UInt8) (le : off ≤ l.length) :
    (overwrite l off src).length = max l.length (off + src.length) := by
  simp only [overwrite, List.length_append, List.length_take, List.length_drop]
  omega

theorem overwrite_getD (l : List UInt8) {off : Nat} (src : List UInt8) (le : off ≤ l.length) (k : Nat) :
    (overwrite l off src).getD k 0 =
      if off ≤ k ∧ k < off + src.length then src.getD (k - off) 0 else l.getD k 0 := by
  simp only [overwrite, List.append_assoc, List.getD_eq_getElem?_getD, List.getElem?_append, List.getElem?_take,
    List.getElem?_drop, List.length_take, Nat.min_eq_left le]
  by_cases before : k < off
  · rw [if_pos before, if_pos before, if_neg (by omega)]
  · rw [if_neg before]
    by_cases inside : k < off + src.length
    · rw [if_pos (by omega), if_pos (by omega)]
    · rw [if_neg (by omega), if_neg (by omega), show off + src.length + (k - off - src.length) = k by omega]

theorem overwrite_end (l src : List UInt8) : overwrite l l.length src = l ++ src := by
  simp [overwrite]

namespace Volume

def node (A : Volume) (i : Nat) : Node :=
  if (A.din i).type = 0 then .free
  else ⟨(A.din i).type, (A.din i).major, (A.din i).minor, (A.din i).nlink, contents A.data (A.din i)⟩

theorem node_alloc {A : Volume} {i : Nat} (allocated : (A.din i).type ≠ 0) :
    A.node i = ⟨(A.din i).type, (A.din i).major, (A.din i).minor, (A.din i).nlink, Espl.contents A.data (A.din i)⟩ :=
  if_neg allocated

@[simp] theorem node_type (A : Volume) (i : Nat) : (A.node i).type = (A.din i).type := by
  unfold node
  split
  · rename_i free
    exact free.symm
  · rfl

theorem node_congr {A A' : Volume} {i : Nat} (din : A'.din i = A.din i)
    (bytes : (A.din i).type ≠ 0 → Espl.contents A'.data (A.din i) = Espl.contents A.data (A.din i)) :
    A'.node i = A.node i := by
  unfold node
  rw [din]
  split
  · rfl
  · rename_i allocated
    rw [bytes allocated]

end Volume

structure Sound (g : Geometry) (A : Volume) : Prop where
  fits : ∀ i < g.ninodes, (A.din i).Fits
  owned : Owned g A.din A.used A.data
  mapped : ∀ i < g.ninodes, (A.din i).type ≠ 0 → Mapped A.data (A.din i)

section

variable {g : Geometry} {A A' : Volume} {i : Nat}

theorem Sound.open (sound : Sound g A) (inode : i < g.ninodes) (allocated : (A.din i).type ≠ 0) :
    Open g A i (A.din i) (A.din i).size :=
  ⟨⟨inode, allocated, sound.fits i inode, by rw [upd_self]; exact sound.owned⟩, sound.mapped i inode allocated⟩

theorem Sound.replace {d : Dinode} (sound : Sound g A) (din : A'.din = upd A.din i d) (fits : d.Fits)
    (owned : Owned g (upd A.din i d) A'.used A'.data) (mapped : i < g.ninodes → d.type ≠ 0 → Mapped A'.data d)
    (apart : Apart g A.din i A.data A'.data) :
    Sound g A' ∧ ∀ j < g.ninodes, j ≠ i → A'.node j = A.node j := by
  refine ⟨⟨fun j hj => ?_, din ▸ owned, fun j hj allocated => ?_⟩, fun j hj ne => ?_⟩
  · rw [din]
    by_cases same : j = i
    · subst same
      rw [upd_same]
      exact fits
    · rw [upd_ne _ _ same]
      exact sound.fits j hj
  · rw [din] at allocated ⊢
    by_cases same : j = i
    · subst same
      rw [upd_same] at allocated ⊢
      exact mapped hj allocated
    · rw [upd_ne _ _ same] at allocated ⊢
      exact apart.mapped same hj allocated (sound.mapped j hj allocated)
  · refine Volume.node_congr (by rw [din, upd_ne _ _ ne]) fun allocated => ?_
    exact apart.contents ne hj allocated (sound.mapped j hj allocated)

theorem Written.contents {off : Nat} {src : List UInt8} {c d : Dinode} (h : Written g A i d d.size off src A' c)
    (le : off ≤ d.size) :
    contents A'.data { c with size := max d.size (off + src.length) } = overwrite (contents A.data d) off src := by
  have le' : off ≤ (Espl.contents A.data d).length := by rwa [contents_length]
  apply List.ext_getElem
  · rw [contents_length, overwrite_length _ _ le', contents_length]
  · intro k hk hk'
    rw [contents_length] at hk
    change k < max d.size (off + src.length) at hk
    rw [contents_getElem, ← List.getD_eq_getElem _ 0 hk', overwrite_getD _ _ le']
    refine (h.bytes k hk).trans ?_
    by_cases inside : off ≤ k ∧ k < off + src.length
    · rw [if_pos inside, if_pos inside]
    · have lt : k < (Espl.contents A.data d).length := by
        rw [contents_length]
        omega
      rw [if_neg inside, if_neg inside, List.getD_eq_getElem _ 0 lt, contents_getElem]

theorem Written.sound {off : Nat} {src : List UInt8} {c : Dinode} (sound : Sound g A)
    (h : Written g A i (A.din i) (A.din i).size off src A' c) (le : off ≤ (A.din i).size) :
    Sound g (A'.setDin i { c with size := max (A.din i).size (off + src.length) }) ∧
    ∀ j < g.ninodes, (A'.setDin i { c with size := max (A.din i).size (off + src.length) }).node j =
      upd A.node i { A.node i with contents := overwrite (A.node i).contents off src } j := by
  have bytes := h.contents le
  have size := h.now_open.mapped.size
  have fits := h.now_open.fits
  have allocated : c.type ≠ 0 := h.now_open.allocated
  let d : Dinode := { c with size := max (A.din i).size (off + src.length) }
  have fits' : d.Fits := by
    refine ⟨fits.type, fits.major, fits.minor, fits.nlink, ?_, fits.addr⟩
    simp only [MAXFILE, NDIRECT, NINDIRECT, BSIZE] at size
    simp only [d]
    omega
  have owned := h.now_open.owned.header (i := i) (d := d) (fun k => by rw [upd_same]; rfl)
    fun _ => by rw [upd_same]; exact allocated
  rw [upd_upd, h.din] at owned
  obtain ⟨sound', others⟩ := sound.replace (show (A'.setDin i d).din = _ by rw [Volume.setDin, h.din]) fits' owned
    (fun _ _ => h.now_open.mapped) h.apart
  refine ⟨sound', fun j hj => ?_⟩
  by_cases same : j = i
  · subst same
    have din : (A'.setDin j d).din j = d := upd_same _ _ _
    rw [upd_same, Volume.node_alloc (by rw [din]; exact allocated), Volume.node_alloc (h.header.type ▸ allocated), din]
    simp only [d, h.header.type, h.header.major, h.header.minor, h.header.nlink, Node.mk.injEq, true_and]
    exact bytes
  · rw [upd_ne _ _ same]
    exact others j hj same

theorem Sound.pad {size : Nat} (sound : Sound g A) (inode : i < g.ninodes) (allocated : (A.din i).type ≠ 0)
    (tail : ZeroTail A.data (A.din i) (A.din i).size) (le : (A.din i).size ≤ size)
    (same : (size + BSIZE - 1) / BSIZE = ((A.din i).size + BSIZE - 1) / BSIZE) :
    Sound g (A.setDin i { A.din i with size := size }) ∧
    ∀ j < g.ninodes, (A.setDin i { A.din i with size := size }).node j =
      upd A.node i { A.node i with
        contents := (A.node i).contents ++ List.replicate (size - (A.din i).size) 0 } j := by
  have mapped : Mapped A.data { A.din i with size := size } := Mapped.resize (sound.mapped i inode allocated) same
  have fits := sound.fits i inode
  have small := mapped.size
  obtain ⟨sound', others⟩ := sound.replace
    (show (A.setDin i { A.din i with size := size }).din = _ from rfl)
    ⟨fits.type, fits.major, fits.minor, fits.nlink, by
      simp only [MAXFILE, NDIRECT, NINDIRECT, BSIZE] at small ⊢
      omega, fits.addr⟩
    (sound.owned.header (fun _ => rfl) fun _ => allocated) (fun _ _ => mapped) (Apart.refl _ _ _ _)
  refine ⟨sound', fun j hj => ?_⟩
  by_cases eq : j = i
  · subst eq
    have din : (A.setDin j { A.din j with size := size }).din j = { A.din j with size := size } := upd_same _ _ _
    rw [upd_same, Volume.node_alloc (by rw [din]; exact allocated), Volume.node_alloc allocated, din]
    simp only [Node.mk.injEq, true_and]
    apply List.ext_getElem
    · simp only [contents_length, List.length_append, List.length_replicate]
      omega
    · intro k hk hk'
      rw [contents_length] at hk
      rw [contents_getElem, List.getElem_append]
      split
      · rw [contents_getElem]
        rfl
      · rename_i past
        rw [contents_length] at past
        rw [List.getElem_replicate]
        refine tail k (by omega) ?_
        rw [← same]
        simp only [BSIZE] at hk ⊢
        omega
  · rw [upd_ne _ _ eq]
    exact others j hj eq

theorem contents_empty {data : Nat → Block} {d : Dinode} (size : d.size = 0) : contents data d = [] := by
  simp [contents, size]

theorem mapped_empty {data : Nat → Block} {d : Dinode} (size : d.size = 0) (addr : ∀ k, d.addr k = 0) :
    Mapped data d := by
  have none : ∀ k, slot data d k = 0 := by
    intro k
    unfold slot
    rw [addr, addr]
    simp
  refine ⟨fun bn _ => ?_, ?_, by omega⟩
  · rw [blockOf, none, size]
    simp
  · rw [addr, size]
    simp

def Dinode.bare (d : Dinode) : Node := if d.type = 0 then .free else ⟨d.type, d.major, d.minor, d.nlink, []⟩

theorem Sound.clear {d : Dinode} (sound : Sound g A) (din : A'.din = upd A.din i d) (data : A'.data = A.data)
    (marks : ∀ b, (∀ k, ¬ Holds g A.din A.data i k b) → A'.used b = A.used b) (fits : d.Fits)
    (size : d.size = 0) (addr : ∀ k, d.addr k = 0) :
    Sound g A' ∧ ∀ j < g.ninodes, A'.node j = upd A.node i d.bare j := by
  have detached := sound.owned.detach (i := i) addr
  have owned : Owned g (upd A.din i d) A'.used A'.data := by
    rw [data]
    refine detached.congr id fun {j k b} held marked => ?_
    have ne : j ≠ i := by
      rintro rfl
      have at_slot := held.at_slot
      rw [upd_same, slot, addr, addr] at at_slot
      simp only [if_true, ite_self] at at_slot
      exact held.ne_zero at_slot.symm
    rw [marks b fun l held' => ne (sound.owned.unique ((holds_upd ne).mp held) held').1]
    exact marked
  obtain ⟨sound', others⟩ := sound.replace din fits owned (fun _ _ => mapped_empty size addr)
    (data ▸ Apart.refl g A.din i A.data)
  refine ⟨sound', fun j hj => ?_⟩
  by_cases same : j = i
  · subst same
    rw [Volume.node, din, upd_same, upd_same, Dinode.bare, contents_empty size]
  · rw [upd_ne _ _ same]
    exact others j hj same

end

end Espl
