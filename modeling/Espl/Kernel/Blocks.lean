import Espl.Kernel.Supply

/-!
# Files in blocks

`bmap`, `readi` and `writei` on a file. While an inode is written, its cached copy and the blocks on disk
are ahead of its inode on disk; that is so only inside a transaction.
-/

namespace Espl.Kernel

open Program
open Machine (wp_returns wp_then)

/-- `t` differs from `s` in what is logged and in the cached inode of entry `ip`, which is `c`. -/
def Edits (ip : Nat) (s t : State) (c : Dinode) : Prop :=
  ∃ disk dirty sectors, t = { s with
    disk := disk, dirty := dirty, log := { s.log with sectors := sectors }
    icache := upd s.icache ip { s.icache ip with din := c } }

def blocksOf (v : Nat) : Nat := (v + BSIZE - 1) / BSIZE + if NDIRECT * BSIZE < v then 1 else 0

def touched (off n : Nat) : Nat := if n = 0 then 0 else (off + n - 1) / BSIZE - off / BSIZE + 1

def Indexed (B : List Nat) (c : Dinode) : Prop := c.addr NDIRECT ≠ 0 ∧ c.addr NDIRECT ∈ B

section

variable {g : Geometry} {T : Terms signature State Panic} {s t u : State} {A A' : Volume} {B : List Nat}
  {ip i v bn n k x : Nat} {c c' : Dinode}

theorem Edits.refl (ip : Nat) (s : State) : Edits ip s s (s.icache ip).din :=
  ⟨s.disk, s.dirty, s.log.sectors, by rw [upd_self]⟩

theorem Edits.logs (h : Edits ip s t c) (logs : Logs t u) : Edits ip s u c := by
  obtain ⟨_, _, _, rfl⟩ := h
  obtain ⟨disk, dirty, sectors, rfl⟩ := logs
  exact ⟨disk, dirty, sectors, rfl⟩

theorem Edits.din (h : Edits ip s t c) : (t.icache ip).din = c := by
  obtain ⟨_, _, _, rfl⟩ := h
  simp only [upd_same]

theorem Edits.inum (h : Edits ip s t c) : (t.icache ip).inum = (s.icache ip).inum := by
  obtain ⟨_, _, _, rfl⟩ := h
  simp only [upd_same]

theorem Edits.busy (h : Edits ip s t c) : t.log.busy = s.log.busy := by
  obtain ⟨_, _, _, rfl⟩ := h
  rfl

theorem Edits.ftable (h : Edits ip s t c) : t.ftable = s.ftable := by
  obtain ⟨_, _, _, rfl⟩ := h
  rfl

theorem Edits.entry (h : Edits ip s t c) : t.icache ip = { s.icache ip with din := c } := by
  obtain ⟨_, _, _, rfl⟩ := h
  simp only [upd_same]

theorem Edits.setDin (h : Edits ip s t c) (c' : Dinode) :
    Edits ip s (t.setInode ip { t.icache ip with din := c' }) c' := by
  obtain ⟨disk, dirty, sectors, rfl⟩ := h
  exact ⟨disk, dirty, sectors, by simp only [State.setInode, upd_upd, upd_same]⟩

/-! ### Blocks of an inode -/

theorem wp_bmap_found {Q : Nat → State → Prop} (here : T.point s) (disk : OnDisk g s A) (din : (s.icache ip).din = c)
    (now_open : Open g A i c v) (lt : bn * BSIZE < v) (post : Q (blockOf A.data c bn) s) :
    machine.wp T (bmap ip bn) s Q := by
  have max : bn < MAXFILE := by
    have size := now_open.mapped.size
    simp only [MAXFILE, NDIRECT, NINDIRECT, BSIZE] at size lt ⊢
    omega
  have present := (now_open.mapped.block bn max).mpr lt
  change blockOf A.data c bn ≠ 0 at present
  rw [bmap]
  by_cases direct : bn < NDIRECT
  · rw [if_pos direct]
    rw [blockOf_direct _ _ direct] at present post
    refine wp_returns here rfl ?_
    simp only [din, done_bind, if_neg present]
    exact post
  · have ind : c.addr NDIRECT ≠ 0 := fun zero => present (blockOf_absent _ (by omega) zero)
    have inData := now_open.owned.inData (now_open.holds_indirect ind)
    rw [blockOf_entry _ (by omega) ind] at present post
    rw [if_neg direct, if_pos (by simp only [MAXFILE, NDIRECT, NINDIRECT] at *; omega), bmap.indirectBlock]
    refine wp_returns here rfl ?_
    simp only [din, bind_eq, done_bind, if_neg ind]
    refine wp_returns here rfl ?_
    simp only [disk.data _ inData, done_bind, if_neg present]
    exact post

theorem ne_of_used {b c : Nat} (free : A.used b = false) (used : A.used c = true) : c ≠ b := by
  rintro rfl
  rw [free] at used
  cases used

theorem blocksOf_mono {v w : Nat} (le : v ≤ w) : blocksOf v ≤ blocksOf w := by
  simp only [blocksOf, NDIRECT, BSIZE]
  split <;> split <;> omega

theorem blocksOf_next (bn : Nat) :
    blocksOf (max (bn * BSIZE) (bn * BSIZE + 1)) - blocksOf (bn * BSIZE) = if bn = NDIRECT then 2 else 1 := by
  simp only [blocksOf, NDIRECT, BSIZE]
  split <;> split <;> split <;> omega

/-- A write that needs no new block starts in a block that the file has. -/
theorem blocksOf_still {off n : Nat} (pos : 0 < n) (le : off ≤ v) (still : blocksOf (max v (off + n)) = blocksOf v) :
    off / BSIZE * BSIZE < v := by
  by_contra past
  have low := Nat.div_mul_le_self off BSIZE
  have end_ : v = off / BSIZE * BSIZE := by omega
  have next := blocksOf_next (off / BSIZE)
  rw [← end_] at next
  have grows := blocksOf_mono (show max v (v + 1) ≤ max v (off + n) by omega)
  split at next <;> omega

/-- `bmap` has returned `b`: the sectors `C` count among those that are logged anyway, and once `b` is
logged, `k` sectors are left, and `x'` for the indirect block if that is not one of them. -/
structure Budget (g : Geometry) (T : Terms signature State Panic) (B : List Nat) (c : Dinode) (n k x : Nat)
    (b : Nat) (u : State) (A' : Volume) (c' : Dinode) (C : List Nat) (x' : Nat) : Prop where
  now : Pays T (C ++ B) 1 u
  then_ : ∀ fill, Means g T (C ++ B) (u.logged b fill) A' n (k + x')
  indirect : C = [] ∧ x' = x ∧ c'.addr NDIRECT = c.addr NDIRECT ∨ Indexed (C ++ B) c'

theorem Budget.logged {b x' : Nat} {C : List Nat} (means : Means g T (b :: (C ++ B)) u A' n (k + x')) (pos : 0 < k)
    (indirect : C = [] ∧ x' = x ∧ c'.addr NDIRECT = c.addr NDIRECT ∨ Indexed (C ++ B) c') :
    Budget g T B c n k x b u A' c' C x' :=
  ⟨(Pays.drop (C := [b]) means.pays).mono (by omega),
    fun _ => ⟨means.feeds, Pays.drop (C := [b]) (means.pays.keep (Or.inl (.head _)))⟩, indirect⟩

theorem Budget.found {b : Nat} (means : Means g T B u A' n (k + 1 + x)) : Budget g T B c n k x b u A' c [] x := by
  have now : Means g T B u A' n (k + x + 1) := means.mono Nat.le.refl (by omega)
  exact ⟨now.pays.mono (by omega), fun _ => ⟨now.feeds, now.pays.spend⟩, Or.inl ⟨rfl, rfl, rfl⟩⟩

theorem wp_bmap {Q : Nat → State → Prop} (busy : ∀ t : State, t.log.busy = true → T.point t)
    (open_ : s.log.busy = true) (edits : Edits ip s t c) (disk : OnDisk g t A) (now_open : Open g A i c v)
    (lt : bn < MAXFILE) (le : bn * BSIZE ≤ v)
    (means : Means g T B t A (blocksOf (max v (bn * BSIZE + 1)) - blocksOf v + n) (k + 1 + x))
    (more : bn * BSIZE < v ∨ HasMap g B ∧ 0 < k ∧ (bn < NDIRECT ∨ Indexed B c ∨ x = 1))
    (post : ∀ b u A' c' C x', Extended g A i c v bn A' c' b → OnDisk g u A' → Edits ip s u c' →
      Budget g T B c n k x b u A' c' C x' → Q b u) :
    machine.wp T (bmap ip bn) t Q := by
  have still : ∀ {u c}, Edits ip s u c → u.log.busy = true := fun edits => edits.busy.trans open_
  have point : ∀ {u c}, Edits ip s u c → T.point u := fun edits => busy _ (still edits)
  by_cases found : bn * BSIZE < v
  · have same : max v (bn * BSIZE + 1) = v := Nat.max_eq_left found
    have none : blocksOf (max v (bn * BSIZE + 1)) - blocksOf v = 0 :=
      Nat.sub_eq_zero_of_le (Nat.le_of_eq (congrArg blocksOf same))
    rw [none, Nat.zero_add] at means
    exact wp_bmap_found (point edits) disk edits.din now_open found
      (post _ _ _ _ [] x (now_open.found found) disk edits (.found means))
  obtain ⟨maps, pos, ind⟩ := more.resolve_left found
  obtain ⟨l, rfl⟩ := Nat.exists_eq_add_one.mpr pos
  have end_ : v = bn * BSIZE := by omega
  subst end_
  have missing : blockOf A.data c bn = 0 := by
    by_contra present
    exact found (now_open.present lt present)
  rw [blocksOf_next] at means
  rw [bmap]
  by_cases direct : bn < NDIRECT
  · rw [if_neg (by omega)] at means
    rw [blockOf_direct _ _ direct] at missing
    rw [if_pos direct]
    refine wp_returns (point edits) rfl ?_
    simp only [edits.din, bind_eq, done_bind, missing, if_true]
    have now : Means g T B t A (n + 1) (l + x + 2) := means.mono (by omega) (by omega)
    refine wp_then (wp_balloc_fed busy (still edits) disk maps now fun b u free inData logs onDisk left => ?_)
    have edits' := edits.logs logs
    refine wp_returns (point edits') rfl (wp_returns (point edits') rfl ?_)
    refine post b _ _ _ [] x (now_open.direct direct free inData) (onDisk.of_eq rfl rfl rfl rfl rfl)
      (edits'.din ▸ edits'.setDin _)
      (.logged ((left.mono Nat.le.refl (by omega)).congr rfl rfl) pos (Or.inl ⟨rfl, rfl, ?_⟩))
    exact Dinode.addr_setAddr_ne _ _ (by omega)
  · have past : NDIRECT ≤ bn := by omega
    rw [if_neg direct, if_pos (by simp only [MAXFILE, NDIRECT, NINDIRECT] at *; omega), bmap.indirectBlock]
    refine wp_returns (point edits) rfl ?_
    simp only [edits.din, bind_eq, done_bind]
    by_cases absent : c.addr NDIRECT = 0
    · obtain ⟨rfl, -⟩ := now_open.no_indirect Nat.le.refl past absent
      obtain rfl : x = 1 := (ind.resolve_left direct).resolve_left fun indexed => indexed.1 absent
      rw [if_pos rfl] at means
      have now : Means g T B t A (n + 1 + 1) (l + 1 + 2) := means.mono (by omega) Nat.le.refl
      simp only [absent, if_true]
      refine wp_then (wp_then (wp_balloc_fed busy (still edits) disk maps now
        fun b u free inData logs onDisk left => ?_))
      have edits' := edits.logs logs
      refine wp_returns (point edits') rfl (wp_returns (point edits') rfl ?_)
      have edits'' := edits'.setDin ((u.icache ip).din.setAddr NDIRECT b)
      have onDisk' : OnDisk g (u.setInode ip { u.icache ip with din := (u.icache ip).din.setAddr NDIRECT b })
        (A.alloc b) :=
        onDisk.of_eq rfl rfl rfl rfl rfl
      have zero : (A.alloc b).data b = Block.zero := upd_same _ _ _
      refine (Machine.wp_done b _ _).mpr (wp_returns (point edits'') rfl ?_)
      simp only [onDisk'.data b inData, zero, Block.word_zero, done_bind, if_true]
      refine wp_then (wp_balloc_fed busy (still edits'') onDisk' (maps.append [b]) (left.congr rfl rfl)
        fun b' u' free' inData' logs' onDisk'' left' => ?_)
      have edits₃ := edits''.logs logs'
      have ne : b ≠ b' := ne_of_used free' (upd_same _ _ _)
      have kept : ((A.alloc b).alloc b').data b = Block.zero := (upd_ne _ _ ne).trans zero
      refine wp_returns (point edits₃) rfl ?_
      simp only [onDisk''.data b inData, kept, done_bind]
      refine wp_then (wp_paid busy (still edits₃) onDisk''.log (left'.pays.mono (by omega)) fun room => ?_)
      rw [edits'.din] at edits₃
      refine post b' _ _ _ [b] 0 (now_open.indirectEntry free inData free' inData') (onDisk''.setData room inData _)
        (edits₃.logs (logs_logged _ _ _)) (.logged ((left'.keep (.tail _ (.head _))).congr rfl rfl) pos (Or.inr ?_))
      refine ⟨?_, ?_⟩ <;> rw [Dinode.addr_setAddr_same _ _ Nat.le.refl]
      · exact inData.ne_zero
      · exact .head _
    · have held := now_open.holds_indirect absent
      have inData := now_open.owned.inData held
      obtain ⟨C, x', now, indexed⟩ : ∃ C x', Means g T (C ++ B) t A (n + 1) (l + x' + 2) ∧ Indexed (C ++ B) c := by
        have less : Means g T B t A (n + 1) (l + x + 2) := means.mono (by split <;> omega) (by omega)
        rcases ind.resolve_left direct with indexed | rfl
        · exact ⟨[], x, less, indexed⟩
        · exact ⟨[c.addr NDIRECT], 0, less.cons _, absent, .head _⟩
      rw [blockOf_entry _ past absent] at missing
      simp only [absent, if_false]
      refine wp_returns (point edits) rfl ?_
      simp only [disk.data _ inData, missing, done_bind, if_true]
      refine wp_then (wp_balloc_fed busy (still edits) disk (maps.append C) now
        fun b u free inData' logs onDisk left => ?_)
      have edits' := edits.logs logs
      have kept : (A.alloc b).data (c.addr NDIRECT) = A.data (c.addr NDIRECT) := now_open.alloc_data free held
      refine wp_returns (point edits') rfl ?_
      simp only [onDisk.data _ inData, kept, done_bind]
      refine wp_then (wp_paid busy (still edits') onDisk.log (left.pays.mono (by omega)) fun room => ?_)
      exact post b _ _ _ C x' (now_open.entry absent past lt free inData') (onDisk.setData room inData _)
        (edits'.logs (logs_logged _ _ _))
        (.logged (((left.mono Nat.le.refl (by omega)).keep (List.mem_cons_of_mem b indexed.2)).congr rfl rfl) pos
          (Or.inr indexed))

/-! ### Reads -/

theorem wp_readi_loop (here : T.point s) (disk : OnDisk g s A) (din : (s.icache ip).din = c)
    (now_open : Open g A i c v) (fuel : Nat) {Q : List UInt8 → State → Prop} {off n : Nat} (enough : n ≤ fuel)
    (inside : off + n ≤ v) (post : Q ((List.range n).map fun j => byteOf A.data c (off + j)) s) :
    machine.wp T (readi.loop ip off n fuel) s Q := by
  induction fuel generalizing Q off n with
  | zero =>
    obtain rfl : n = 0 := by omega
    exact post
  | succ fuel ih =>
    rw [readi.loop]
    by_cases none : n = 0
    · subst none
      exact post
    rw [if_neg none]
    have lt : off / BSIZE * BSIZE < v := by
      have := Nat.div_mul_le_self off BSIZE
      omega
    have held := now_open.holds_block (k := off) (by omega)
    have inData := now_open.owned.inData held
    refine wp_then (wp_bmap_found here disk din now_open lt ?_)
    refine wp_returns here rfl ?_
    simp only [bind_eq, done_bind, disk.data _ inData]
    have pos : 0 < min n (BSIZE - off % BSIZE) := by
      have := Nat.mod_lt off (show 0 < BSIZE by decide)
      omega
    refine wp_then (ih (by omega) (by omega) ?_)
    change Q _ s
    rw [slice_block _ _ (Nat.min_le_right _ _)]
    have split : n = min n (BSIZE - off % BSIZE) + (n - min n (BSIZE - off % BSIZE)) := by omega
    rw [split, List.range_add, List.map_append, List.map_map] at post
    simpa only [Function.comp_def, Nat.add_assoc] using post

theorem wp_readi_part {Q : Int × List UInt8 → State → Prop} {off n : Nat} (here : T.point s) (disk : OnDisk g s A)
    (din : (s.icache ip).din = c) (now_open : Open g A i c v) (file : c.type ≠ T_DEV) (inside : off + n ≤ v)
    (le : v ≤ c.size) (post : Q ((n : Int), (List.range n).map fun j => byteOf A.data c (off + j)) s) :
    machine.wp T (readi ip off n) s Q := by
  have size := now_open.mapped.size
  change v ≤ _ at size
  simp only [MAXFILE, NDIRECT, NINDIRECT, BSIZE] at size
  rw [readi]
  refine wp_returns here rfl ?_
  simp only [din, bind_eq, done_bind, if_neg file]
  rw [if_neg (by omega), if_neg (by omega)]
  exact wp_then (wp_readi_loop here disk din now_open _ Nat.le.refl inside post)

/-- What `readi` returns of a file with contents `l`. -/
def readResult (l : List UInt8) (off n : Nat) : Int × List UInt8 :=
  if l.length < off ∨ 2 ^ 32 ≤ off + n then (-1, []) else ((min n (l.length - off) : Nat), (l.drop off).take n)

theorem wp_readi_file {Q : Int × List UInt8 → State → Prop} {off n : Nat} (here : T.point s) (disk : OnDisk g s A)
    (din : (s.icache ip).din = c) (now_open : Open g A i c c.size) (file : c.type ≠ T_DEV) (small : n < 2 ^ 32)
    (post : Q (readResult (contents A.data c) off n) s) : machine.wp T (readi ip off n) s Q := by
  have size := now_open.mapped.size
  change c.size ≤ _ at size
  simp only [MAXFILE, NDIRECT, NINDIRECT, BSIZE] at size
  rw [readi]
  refine wp_returns here rfl ?_
  simp only [din, bind_eq, done_bind, if_neg file]
  rw [readResult, contents_length, contents_slice] at post
  by_cases bad : c.size < off ∨ 2 ^ 32 ≤ off + n
  · rw [if_pos bad] at post
    rw [if_pos (by omega)]
    exact post
  · rw [if_neg bad] at post
    have count : (if (off + n) % 2 ^ 32 > c.size then c.size - off else n) = min n (c.size - off) := by
      split <;> omega
    rw [if_neg (by omega), count]
    exact wp_then (wp_readi_loop here disk din now_open _ Nat.le.refl (by omega) post)

/-! ### Writes -/

theorem blocksOf_round {off m n : Nat} (pos : 0 < n) (round : m = min n (BSIZE - off % BSIZE)) :
    blocksOf (max v (off / BSIZE * BSIZE + 1)) = blocksOf (max v (off + m)) := by
  simp only [blocksOf, NDIRECT, BSIZE] at *
  split <;> split <;> omega

theorem touched_round {off m n : Nat} (pos : 0 < n) (round : m = min n (BSIZE - off % BSIZE)) :
    touched off n = touched (off + m) (n - m) + 1 := by
  simp only [touched, BSIZE] at *
  split <;> split <;> omega

theorem wp_writei_loop {Q : Unit → State → Prop} (busy : ∀ t : State, t.log.busy = true → T.point t)
    (open_ : s.log.busy = true) (fuel : Nat) {off : Nat} {src : List UInt8} (edits : Edits ip s t c)
    (disk : OnDisk g t A) (now_open : Open g A i c v) (le : off ≤ v) (fits : off + src.length ≤ MAXFILE * BSIZE)
    (enough : src.length ≤ fuel)
    (means : Means g T B t A (blocksOf (max v (off + src.length)) - blocksOf v + n) (k + touched off src.length + x))
    (more : blocksOf (max v (off + src.length)) = blocksOf v ∨
      HasMap g B ∧ 0 < k ∧ (off + src.length ≤ NDIRECT * BSIZE ∨ Indexed B c ∨ x = 1))
    (post : ∀ u A' c', Written g A i c v off src A' c' → OnDisk g u A' → Edits ip s u c' →
      Means g T B u A' n k → Q () u) :
    machine.wp T (writei.loop ip off src fuel) t Q := by
  induction fuel generalizing t A B c v off src x with
  | zero =>
    obtain rfl : src = [] := List.eq_nil_of_length_eq_zero (by omega)
    exact post t A c (now_open.written_nil le) disk edits (means.mono (Nat.le_add_left _ _) (by omega))
  | succ fuel ih =>
    rw [writei.loop]
    by_cases none : src.length = 0
    · rw [if_pos none]
      obtain rfl := List.eq_nil_of_length_eq_zero none
      exact post t A c (now_open.written_nil le) disk edits (means.mono (Nat.le_add_left _ _) (by omega))
    rw [if_neg none]
    have lt : off / BSIZE < MAXFILE := by
      simp only [MAXFILE, NDIRECT, NINDIRECT, BSIZE] at fits ⊢
      omega
    generalize count : min src.length (BSIZE - off % BSIZE) = m
    have small := Nat.mod_lt off (show 0 < BSIZE by decide)
    have length : (src.take m).length = m := by
      rw [List.length_take]
      omega
    have rest : (src.drop m).length = src.length - m := List.length_drop
    have all : max (max v (off + m)) (off + m + (src.length - m)) = max v (off + src.length) := by omega
    have grows := blocksOf_mono (show v ≤ max v (off + m) by omega)
    have grows' := blocksOf_mono (show max v (off + m) ≤ max v (off + src.length) by omega)
    have first : Means g T B t A (blocksOf (max v (off / BSIZE * BSIZE + 1)) - blocksOf v +
        (blocksOf (max v (off + src.length)) - blocksOf (max v (off + m)) + n))
        (k + touched (off + m) (src.length - m) + 1 + x) := by
      rw [blocksOf_round (by omega) count.symm]
      rw [touched_round (by omega) count.symm] at means
      exact means.mono (by omega) (by omega)
    have one : off / BSIZE * BSIZE < v ∨ HasMap g B ∧ 0 < k + touched (off + m) (src.length - m) ∧
        (off / BSIZE < NDIRECT ∨ Indexed B c ∨ x = 1) := by
      refine more.imp (blocksOf_still (by omega) le) (And.imp_right (And.imp (by omega) (Or.imp_left fun low => ?_)))
      simp only [NDIRECT, BSIZE] at *
      omega
    refine wp_then (wp_bmap busy open_ edits disk now_open lt ((Nat.div_mul_le_self _ _).trans le) first one
      fun b u A' c' C x' extended disk' edits' budget => ?_)
    have held := extended.now_open.holds_block (k := off / BSIZE * BSIZE) (by omega)
    rw [Nat.mul_div_cancel _ (by decide), extended.block] at held
    have inData := extended.now_open.owned.inData held
    have still := edits'.busy.trans open_
    refine wp_returns (busy u still) rfl ?_
    simp only [bind_eq, done_bind, disk'.data b inData]
    refine wp_then (wp_paid busy still disk'.log budget.now fun room => ?_)
    have written := extended.write le (show 0 < (src.take m).length by rw [length]; omega) (by rw [length]; omega)
    have next := written.now_open
    rw [length] at next
    refine ih (B := C ++ B) (x := x') (edits'.logs (logs_logged _ _ _)) (disk'.setData room inData _) next
      (Nat.le_max_right _ _)
      (by rw [rest]; omega) (by rw [rest]; omega) ?_ ?_ fun u' A'' c'' done disk'' edits'' left => ?_
    · rw [rest, all]
      exact (budget.then_ _).congr rfl rfl
    · rw [rest, all]
      refine more.imp (fun still => by omega) (And.imp (·.append C) (And.imp_right fun ind => ?_))
      rcases budget.indirect with ⟨rfl, rfl, addr⟩ | indexed
      · refine ind.imp (fun low => by omega) (Or.imp_left fun indexed => ?_)
        rwa [Indexed, addr]
      · exact Or.inr (Or.inl indexed)
    · have whole := written.trans (by rw [length]; exact done)
      rw [List.take_append_drop] at whole
      exact post u' A'' c'' whole disk'' edits'' ⟨left.feeds, left.pays.drop⟩

def Refused (size off n : Nat) : Prop := size < off ∨ 2 ^ 32 ≤ off + n ∨ MAXFILE * BSIZE < off + n

theorem wp_writei_file {Q : Int → State → Prop} {src : List UInt8} {off : Nat}
    (busy : ∀ t : State, t.log.busy = true → T.point t) (open_ : s.log.busy = true) (disk : OnDisk g s A)
    (sound : Sound g A) (lt : i < g.ninodes) (inum : (s.icache ip).inum = i) (din : (s.icache ip).din = A.din i)
    (allocated : (A.din i).type ≠ 0) (file : (A.din i).type ≠ T_DEV) (small : src.length < 2 ^ 32)
    (means : ¬ Refused (A.din i).size off src.length →
      Means g T B s A (blocksOf (max (A.din i).size (off + src.length)) - blocksOf (A.din i).size + n)
        (k + touched off src.length + x) ∧
      (blocksOf (max (A.din i).size (off + src.length)) = blocksOf (A.din i).size ∨
        HasMap g B ∧ (off + src.length ≤ NDIRECT * BSIZE ∨ x = 1)) ∧ ((A.din i).size < off + src.length → 0 < k))
    (fail : Refused (A.din i).size off src.length → Q (-1) s)
    (post : ¬ Refused (A.din i).size off src.length → ∀ t A' d, OnDisk g t A' → Edits ip s t d →
      A'.din = upd A.din i d → d.type ≠ 0 → Sound g A' →
      (∀ j < g.ninodes,
        A'.node j = upd A.node i { A.node i with contents := overwrite (A.node i).contents off src } j) →
      Feeds g T A' n → Q src.length t) :
    machine.wp T (writei ip src off) s Q := by
  have now_open := sound.open lt allocated
  have size := now_open.mapped.size
  change (A.din i).size ≤ _ at size
  simp only [MAXFILE, NDIRECT, NINDIRECT, BSIZE] at size
  rw [writei]
  refine wp_returns (busy s open_) rfl ?_
  simp only [bind_eq, done_bind, din, if_neg file]
  by_cases refused : Refused (A.din i).size off src.length
  · have fail := fail refused
    unfold Refused at refused
    by_cases bad : off > (A.din i).size ∨ (off + src.length) % 2 ^ 32 < off
    · rw [if_pos bad]
      exact fail
    · rw [if_neg bad, if_pos (by simp only [MAXFILE, NDIRECT, NINDIRECT, BSIZE] at *; omega)]
      exact fail
  obtain ⟨means, more, grow⟩ := means refused
  have post := post refused
  unfold Refused at refused
  have fits : off + src.length ≤ MAXFILE * BSIZE := by omega
  have le : off ≤ (A.din i).size := by omega
  rw [if_neg (by omega), if_neg (by rw [Nat.mod_eq_of_lt (by omega)]; omega)]
  have new : blocksOf (max (A.din i).size (off + src.length)) = blocksOf (A.din i).size ∨
      HasMap g B ∧ 0 < k ∧ (off + src.length ≤ NDIRECT * BSIZE ∨ Indexed B (A.din i) ∨ x = 1) := by
    by_cases larger : (A.din i).size < off + src.length
    · exact more.imp_right (And.imp_right fun ind => ⟨grow larger, ind.imp_right Or.inr⟩)
    · exact Or.inl (by rw [Nat.max_eq_left (by omega)])
  refine wp_then (wp_writei_loop busy open_ _ (din ▸ Edits.refl ip s) disk now_open le fits Nat.le.refl means
    new fun u A' c written disk' edits left => ?_)
  obtain ⟨sound', nodes⟩ := written.sound sound le
  have here := busy u (edits.busy.trans open_)
  have type : c.type ≠ 0 := written.now_open.allocated
  refine wp_returns here rfl ?_
  simp only [done_bind, edits.din, written.header.size]
  by_cases grows : src.length > 0 ∧ off + src.length > (A.din i).size
  · rw [if_pos grows]
    rw [Nat.max_eq_right (by omega)] at sound' nodes
    have edits' := edits.setDin { c with size := off + src.length }
    have new := sound'.fits i lt
    rw [Volume.setDin_din, upd_same] at new
    have disk'' : OnDisk g (u.setInode ip { u.icache ip with din := { c with size := off + src.length } }) A' :=
      disk'.of_eq rfl rfl rfl rfl rfl
    refine wp_returns here rfl ?_
    change machine.wp T ((iupdate ip).bind fun _ => pure (src.length : Int)) (u.setInode ip
      { u.icache ip with din := { (u.icache ip).din with size := off + src.length } }) Q
    rw [edits.din]
    have at_i := edits'.inum.trans inum
    refine wp_then (wp_iupdate busy (edits'.busy.trans open_) disk'' ((left.pays.congr rfl).mono (grow grows.2))
      (by rw [at_i]; exact lt) (by rw [edits'.din]; exact new) fun fill stored => ?_)
    rw [edits'.din, at_i] at stored
    rw [at_i]
    refine post _ _ _ stored (edits'.logs (logs_logged _ _ _)) ?_ type sound' nodes (left.feeds.congr rfl)
    rw [Volume.setDin_din, written.din]
  · rw [if_neg grows]
    have still : c = A.din i := written.still (by omega)
    rw [Nat.max_eq_left (by omega), still] at sound' nodes
    have back : A'.setDin i { A.din i with size := (A.din i).size } = A' := by
      rw [Volume.setDin, ← written.din, upd_self]
    rw [back] at sound' nodes
    refine post u A' c disk' edits ?_ type sound' nodes left.feeds
    rw [still, upd_self, written.din]

end

end Espl.Kernel
