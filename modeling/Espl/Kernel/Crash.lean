import Mathlib.Data.List.GetD
import Espl.Program.Hoare
import Espl.Kernel.Log

/-!
# Crash atomicity of the log

The machine may stop between any two steps of a transaction or of a recovery. What the log promises
is a property of the disk alone: `Redo d t` says that recovery from `d` brings back `t`.
-/

namespace Espl.Kernel

open Program
open Machine (wp_seq wp_returned wp_step)

/-! ### The header block -/

theorem word_setWords (l : List Nat) (b : Block) (k : Nat) {j : Nat} (room : k + l.length ≤ 128) (hj : j < 128) :
    (putHeader.setWords b k l).word j =
      if k ≤ j ∧ j < k + l.length then l.getD (j - k) 0 % 2 ^ 32 else b.word j := by
  induction l generalizing b k with
  | nil =>
    rw [putHeader.setWords, if_neg (by simp only [List.length_nil]; omega)]
  | cons x xs ih =>
    simp only [List.length_cons] at room
    rw [putHeader.setWords, ih _ _ (by omega)]
    by_cases first : j = k
    · subst first
      rw [if_neg (by omega), if_pos (by simp), Block.word_setWord_same _ _ hj]
      simp
    · rw [Block.word_setWord_ne _ _ hj first]
      by_cases inside : k + 1 ≤ j ∧ j < k + 1 + xs.length
      · rw [if_pos inside, if_pos (by simp; omega)]
        obtain ⟨m, hm⟩ : ∃ m, j - k = m + 1 := ⟨j - k - 1, by omega⟩
        rw [hm, List.getD_cons_succ, show j - (k + 1) = m by omega]
      · rw [if_neg inside, if_neg (by simp; omega)]

theorem word_putHeader_zero (b : Block) {l : List Nat} (room : l.length < 128) :
    (putHeader b l).word 0 = l.length := by
  rw [putHeader, word_setWords _ _ _ (by omega) (by decide), if_neg (by omega),
    Block.word_setWord_same _ _ (by decide)]
  omega

theorem headerSectors_putHeader (b : Block) {l : List Nat} (room : l.length < 128)
    (small : ∀ x ∈ l, x < 2 ^ 32) : headerSectors (putHeader b l) = l := by
  rw [headerSectors, word_putHeader_zero b room, if_pos (by omega)]
  apply List.ext_getElem
  · simp
  · intro i h1 h2
    have hi : i < l.length := h2
    simp only [List.getElem_map, List.getElem_range]
    rw [putHeader, word_setWords _ _ _ (by omega) (by omega), if_pos (by omega), Nat.add_sub_cancel,
      List.getD_eq_getElem _ _ hi, Nat.mod_eq_of_lt (small _ (List.getElem_mem hi))]

/-! ### The log between steps -/

/-- Sector `x` is no part of the log at `start`, neither its header nor one of its `size - 1` data blocks. -/
def Outside (start size x : Nat) : Prop := x < start ∨ start < x ∧ start + size ≤ x

def Kept (start size x : Nat) : Prop := x ≤ start ∨ start + size ≤ x

theorem Outside.kept {start size x : Nat} (h : Outside start size x) : Kept start size x := by
  rcases h with h | h
  · exact Or.inl (by omega)
  · exact Or.inr h.2

/-- The log of an open or closed transaction: each logged sector is dirty and has its contents in its
slot of the log. -/
structure LogInv (s : State) : Prop where
  nodup : s.log.sectors.Nodup
  outside : ∀ x ∈ s.log.sectors, Outside s.log.start s.log.size x
  small : ∀ x ∈ s.log.sectors, x < 2 ^ 32
  length_size : s.log.sectors.length ≤ s.log.size - 1
  length_max : s.log.sectors.length ≤ LOGSIZE
  dirty_mem : ∀ x, (s.dirty x).isSome ↔ x ∈ s.log.sectors
  slot : ∀ i x, s.log.sectors[i]? = some x → s.disk (s.log.start + i + 1) = s.buf x

theorem logInv_empty {s : State} (sectors : s.log.sectors = []) (clean : ∀ x, s.dirty x = none) : LogInv s := by
  refine ⟨?_, ?_, ?_, ?_, ?_, fun x => ?_, ?_⟩
  all_goals simp [sectors, clean]

def State.logged (s : State) (sec : Nat) (data : Block) : State :=
  let i := s.log.sectors.idxOf sec
  { s with
    disk := upd s.disk (s.log.start + i + 1) data
    dirty := upd (upd s.dirty (s.log.start + i + 1) none) sec (some data)
    log := { s.log with
      sectors := if i = s.log.sectors.length then s.log.sectors ++ [sec] else s.log.sectors.set i sec } }

theorem logged_sectors (s : State) (sec : Nat) (data : Block) :
    (s.logged sec data).log.sectors =
      if sec ∈ s.log.sectors then s.log.sectors else s.log.sectors ++ [sec] := by
  simp only [State.logged]
  by_cases member : sec ∈ s.log.sectors
  · have lt := List.idxOf_lt_length_of_mem member
    rw [if_neg (by omega), if_pos member]
    apply List.ext_getElem
    · simp
    · intro i h1 h2
      rw [List.getElem_set]
      split
      · rename_i eq
        subst eq
        exact (List.getElem_idxOf lt).symm
      · rfl
  · rw [if_pos (List.idxOf_eq_length member), if_neg member]

theorem logged_buf {s : State} {sec x : Nat} (data : Block) (room : s.log.sectors.length < s.log.size - 1)
    (hx : Kept s.log.start s.log.size x) : (s.logged sec data).buf x = if x = sec then data else s.buf x := by
  have le : s.log.sectors.idxOf sec ≤ s.log.sectors.length := List.idxOf_le_length
  have apart : x ≠ s.log.start + s.log.sectors.idxOf sec + 1 := by
    rcases hx with hx | hx <;> omega
  simp only [State.buf, State.logged]
  by_cases same : x = sec
  · subst same; simp
  · rw [upd_ne _ _ same, upd_ne _ _ apart, upd_ne _ _ apart, if_neg same]

theorem logged_inv {s : State} {sec : Nat} (data : Block) (h : LogInv s)
    (room : s.log.sectors.length < s.log.size - 1) (max : s.log.sectors.length < LOGSIZE)
    (outside : Outside s.log.start s.log.size sec) (small : sec < 2 ^ 32) : LogInv (s.logged sec data) := by
  have sectors := logged_sectors s sec data
  have le : s.log.sectors.idxOf sec ≤ s.log.sectors.length := List.idxOf_le_length
  have mem : ∀ x, x ∈ (s.logged sec data).log.sectors ↔ x = sec ∨ x ∈ s.log.sectors := by
    intro x
    rw [sectors]
    split
    · rename_i member
      exact ⟨Or.inr, fun h => h.elim (fun eq => eq ▸ member) id⟩
    · simp [or_comm]
  have length : (s.logged sec data).log.sectors.length ≤ s.log.sectors.length + 1 := by
    rw [sectors]
    split <;> simp
  refine ⟨?_, ?_, ?_, ?_, ?_, ?_, ?_⟩
  · rw [sectors]
    split
    · exact h.nodup
    · rename_i absent
      exact List.nodup_append.mpr ⟨h.nodup, by simp, by
        intro a ha b hb
        rw [List.mem_singleton.mp hb]
        rintro rfl
        exact absent ha⟩
  · intro x hx
    rcases (mem x).mp hx with rfl | hx
    · exact outside
    · exact h.outside x hx
  · intro x hx
    rcases (mem x).mp hx with rfl | hx
    · exact small
    · exact h.small x hx
  · exact length.trans (by change _ ≤ s.log.size - 1; omega)
  · omega
  · intro x
    rw [mem]
    simp only [State.logged]
    by_cases same : x = sec
    · subst same; simp
    · rw [upd_ne _ _ same]
      by_cases hit : x = s.log.start + s.log.sectors.idxOf sec + 1
      · have absent : x ∉ s.log.sectors := by
          intro member
          rcases h.outside x member with hx | hx <;> omega
        subst hit
        simp [same, absent]
      · rw [upd_ne _ _ hit, h.dirty_mem]
        simp [same]
  · intro i x get
    have member : x ∈ (s.logged sec data).log.sectors := List.mem_of_getElem? get
    have kept : Outside s.log.start s.log.size x := by
      rcases (mem x).mp member with rfl | hx
      · exact outside
      · exact h.outside x hx
    rw [logged_buf data room kept.kept]
    change upd s.disk (s.log.start + s.log.sectors.idxOf sec + 1) data (s.log.start + i + 1) = _
    by_cases same : x = sec
    · have slot : i = s.log.sectors.idxOf sec := by
        rw [same, sectors] at get
        split at get
        · rename_i present
          have lt := List.idxOf_lt_length_of_mem present
          obtain ⟨hi, eq⟩ := List.getElem?_eq_some_iff.mp get
          exact (List.Nodup.getElem_inj_iff h.nodup).mp (eq.trans (List.getElem_idxOf lt).symm)
        · rename_i absent
          rw [List.idxOf_eq_length absent]
          rw [List.getElem?_append] at get
          split at get
          · exact absurd (List.mem_of_getElem? get) absent
          · obtain ⟨hi, -⟩ := List.getElem?_eq_some_iff.mp get
            simp only [List.length_singleton] at hi
            omega
      rw [slot, upd_same, if_pos same]
    · have old : s.log.sectors[i]? = some x := by
        rw [sectors] at get
        split at get
        · exact get
        · rw [List.getElem?_append] at get
          split at get
          · exact get
          · obtain ⟨hi, eq⟩ := List.getElem?_eq_some_iff.mp get
            simp only [List.getElem_singleton] at eq
            exact absurd eq.symm same
      have other : i ≠ s.log.sectors.idxOf sec := by
        rintro rfl
        have lt : s.log.sectors.idxOf sec < s.log.sectors.length :=
          (List.getElem?_eq_some_iff.mp old).1
        rw [List.getElem?_eq_getElem lt, List.getElem_idxOf lt] at old
        exact same (Option.some.inj old).symm
      rw [upd_ne _ _ (by omega), if_neg same]
      exact h.slot i x old

/-! ### Points of a run -/

variable {T : Terms signature State Panic}

theorem wp_logWrite {s : State} {sec : Nat} {data : Block} {Q : Unit → State → Prop} (here : T.point s)
    (full : s.log.sectors.length ≥ LOGSIZE ∨ s.log.sectors.length ≥ s.log.size - 1 → T.fault .logTooBig)
    (closed : s.log.busy = false → T.fault .logOutside)
    (slot : s.log.busy = true → s.log.sectors.length < s.log.size - 1 → ∀ t : State, t.log.busy = true →
      t.disk = upd s.disk (s.log.start + s.log.sectors.idxOf sec + 1) data → T.point t)
    (post : s.log.busy = true → s.log.sectors.length < LOGSIZE → s.log.sectors.length < s.log.size - 1 →
      Q () (s.logged sec data)) :
    machine.wp T (logWrite sec data) s Q := by
  simp only [logWrite, step, bind_eq, step_bind, done_bind, wp_step,
    Machine.wp_done, machine, act]
  refine ⟨here, fun _ => ?_⟩
  by_cases big : s.log.sectors.length ≥ LOGSIZE ∨ s.log.sectors.length ≥ s.log.size - 1
  · rw [if_pos big]
    exact full big
  · rw [if_neg big]
    have room : s.log.sectors.length < s.log.size - 1 := by omega
    cases busy : s.log.busy with
    | false => exact closed busy
    | true =>
      exact ⟨here, fun _ => ⟨here, fun _ => ⟨here, fun _ => ⟨slot busy room _ busy rfl, fun _ =>
        ⟨slot busy room _ busy rfl, fun _ => post busy (by omega) room⟩⟩⟩⟩⟩

theorem wp_writeHead {s : State} {Q : Unit → State → Prop} (here : T.point s)
    (post : Q () { s with
      disk := upd s.disk s.log.start (putHeader (s.buf s.log.start) s.log.sectors)
      dirty := upd s.dirty s.log.start none }) :
    machine.wp T writeHead s Q := by
  simp only [writeHead, step, bind_eq, step_bind, done_bind, wp_step,
    Machine.wp_done, machine, act]
  exact ⟨here, fun _ => ⟨here, fun _ => ⟨here, fun _ => post⟩⟩⟩

theorem wp_install {t : Nat → Block} {start : Nat} (rest : List Nat) (tail : Nat) (s : State)
    {Q : Unit → State → Prop}
    (clean : ∀ i < rest.length, s.dirty (start + (tail + i) + 1) = none)
    (slot : ∀ i x, rest[i]? = some x → s.disk (start + (tail + i) + 1) = t x)
    (apart : ∀ x ∈ rest, ∀ i < rest.length, x ≠ start + (tail + i) + 1)
    (here : ∀ disk' dirty', (∀ x, disk' x = s.disk x ∨ x ∈ rest ∧ disk' x = t x) →
      T.point { s with disk := disk', dirty := dirty' })
    (post : ∀ disk' dirty', (∀ x, disk' x = if x ∈ rest then t x else s.disk x) →
      (∀ x, dirty' x = if x ∈ rest then none else s.dirty x) →
      Q () { s with disk := disk', dirty := dirty' }) :
    machine.wp T (installTrans.loop start tail rest) s Q := by
  induction rest generalizing tail s with
  | nil =>
    exact post s.disk s.dirty (by simp) (by simp)
  | cons sec rest ih =>
    have lbuf : s.buf (start + tail + 1) = t sec := by
      have := clean 0 (by simp)
      have := slot 0 sec (by simp)
      simp_all [State.buf]
    simp only [installTrans.loop, step, bind_eq, step_bind, done_bind,
      wp_step, machine, act]
    have now := here s.disk s.dirty (fun x => Or.inl rfl)
    refine ⟨now, fun _ => ⟨now, fun _ => ⟨now, fun _ => ?_⟩⟩⟩
    rw [lbuf]
    have far : ∀ i < rest.length, start + (tail + 1 + i) + 1 ≠ sec := by
      intro i hi eq
      exact apart sec (by simp) (i + 1) (by simpa using hi) (by omega)
    apply ih
    · intro i hi
      change upd s.dirty sec none _ = none
      rw [upd_ne _ _ (far i hi), show tail + 1 + i = tail + (i + 1) by omega]
      exact clean (i + 1) (by simpa using hi)
    · intro i x get
      have hi : i < rest.length := (List.getElem?_eq_some_iff.mp get).1
      change upd s.disk sec (t sec) _ = t x
      rw [upd_ne _ _ (far i hi), show tail + 1 + i = tail + (i + 1) by omega]
      exact slot (i + 1) x (by simpa using get)
    · intro x hx i hi eq
      exact apart x (by simp [hx]) (i + 1) (by simpa using hi) (by omega)
    · intro disk' dirty' h
      apply here disk' dirty'
      intro x
      rcases h x with same | ⟨member, eq⟩
      · by_cases first : x = sec
        · subst first
          exact Or.inr ⟨by simp, by simpa using same⟩
        · exact Or.inl (by rw [same]; exact upd_ne _ _ first)
      · exact Or.inr ⟨by simp [member], eq⟩
    · intro disk' dirty' hdisk hdirty
      apply post disk' dirty'
      · intro x
        rw [hdisk]
        by_cases later : x ∈ rest
        · simp [later]
        · by_cases first : x = sec
          · subst first; simp [later]
          · simp [later, first, upd_ne _ _ first]
      · intro x
        rw [hdirty]
        by_cases later : x ∈ rest
        · simp [later]
        · by_cases first : x = sec
          · subst first; simp [later]
          · simp [later, first, upd_ne _ _ first]

/-! ### What a disk recovers to -/

/-- Recovery from the disk `d` brings `t` back outside the log: the slots of the sectors the
header names hold `t`, and all other sectors do already. -/
structure Redo (start size : Nat) (d t : Nat → Block) : Prop where
  outside : ∀ x ∈ headerSectors (d start), Outside start size x
  length : (headerSectors (d start)).length ≤ size - 1
  slot : ∀ i x, (headerSectors (d start))[i]? = some x → d (start + i + 1) = t x
  home : ∀ x, Outside start size x → x ∉ headerSectors (d start) → d x = t x

theorem headerSectors_zero {b : Block} (h : b.word 0 = 0) : headerSectors b = [] := by
  simp [headerSectors, h]

theorem redo_of_empty {start size : Nat} {d t : Nat → Block} (empty : (d start).word 0 = 0)
    (home : ∀ x, Outside start size x → d x = t x) : Redo start size d t := by
  have l := headerSectors_zero empty
  exact ⟨by simp [l], by simp [l], by simp [l], fun x hx _ => home x hx⟩

theorem Redo.install {start size : Nat} {d d' t : Nat → Block} (h : Redo start size d t)
    (step : ∀ x, d' x = d x ∨ x ∈ headerSectors (d start) ∧ d' x = t x) : Redo start size d' t := by
  have inside : ∀ x, ¬ Outside start size x → d' x = d x := by
    intro x hx
    rcases step x with same | ⟨member, -⟩
    · exact same
    · exact absurd (h.outside x member) hx
  have zero : size = 0 ∨ ¬ Outside start size start := by
    unfold Outside; omega
  have header : headerSectors (d' start) = headerSectors (d start) := by
    rcases step start with same | ⟨member, -⟩
    · rw [same]
    · have out := h.outside _ member
      rcases out with out | out
      · omega
      · have := h.length
        have := List.length_pos_of_mem member
        omega
  refine ⟨by rw [header]; exact h.outside, by rw [header]; exact h.length, ?_, ?_⟩
  · intro i x get
    rw [header] at get
    have hi := (List.getElem?_eq_some_iff.mp get).1
    have := h.length
    rw [inside _ (by unfold Outside; omega)]
    exact h.slot i x get
  · intro x hx absent
    rw [header] at absent
    rcases step x with same | ⟨member, -⟩
    · rw [same]; exact h.home x hx absent
    · exact absurd member absent

/-! ### Recovery -/

theorem wp_redo {size : Nat} {s : State} {t : Nat → Block} {Q : Unit → State → Prop}
    (h : Redo s.log.start size s.disk t)
    (sectors : s.log.sectors = headerSectors (s.disk s.log.start))
    (clean : ∀ x, ¬ Outside s.log.start size x → s.dirty x = none)
    (here : ∀ u : State, u.log.busy = s.log.busy → Redo s.log.start size u.disk t → T.point u)
    (post : ∀ disk' dirty', (disk' s.log.start).word 0 = 0 → (∀ x, Outside s.log.start size x → disk' x = t x) →
      (∀ x, x ∉ s.log.sectors → s.dirty x = none → dirty' x = none) →
      (∀ x ∈ s.log.sectors, dirty' x = none) →
      Q () { s with disk := disk', dirty := dirty', log := { s.log with sectors := [] } }) :
    machine.wp T (installTrans.bind fun _ =>
      (step (.setSectors [])).bind fun _ => writeHead) s Q := by
  have length := h.length
  have inLog : ∀ i < s.log.sectors.length, ¬ Outside s.log.start size (s.log.start + (0 + i) + 1) := by
    intro i hi
    rw [sectors] at hi
    unfold Outside
    omega
  simp only [installTrans, step, bind_eq, step_bind, done_bind,
    wp_step, act]
  refine ⟨here _ rfl h, fun _ => ?_⟩
  refine wp_seq (Q := fun _ u => ∃ disk' dirty',
      u = { s with disk := disk', dirty := dirty' } ∧ Redo s.log.start size disk' t ∧
      (∀ x, Outside s.log.start size x → disk' x = t x) ∧
      ∀ x, dirty' x = if x ∈ s.log.sectors then none else s.dirty x) ?_ ?_
  · apply wp_install (t := t)
    · intro i hi
      exact clean _ (inLog i hi)
    · intro i x get
      rw [sectors] at get
      rw [Nat.zero_add]
      exact h.slot i x get
    · intro x hx i hi eq
      have out := h.outside x (sectors ▸ hx)
      rw [eq] at out
      exact inLog i hi out
    · intro disk' dirty' step
      rw [sectors] at step
      exact here _ rfl (h.install step)
    · intro disk' dirty' hdisk hdirty
      rw [sectors] at hdisk
      refine ⟨disk', dirty', rfl, h.install fun x => ?_, fun x hx => ?_, hdirty⟩
      · have := hdisk x
        split at this
        · rename_i member
          exact Or.inr ⟨member, this⟩
        · exact Or.inl this
      · have := hdisk x
        split at this
        · exact this
        · rename_i absent
          exact this.trans (h.home x hx absent)
  · rintro _ u ⟨disk', dirty', rfl, redo, home, hdirty⟩
    refine ⟨here _ rfl redo, fun _ => ?_⟩
    apply wp_writeHead
    · exact here _ rfl redo
    · apply post
      · rw [upd_same, word_putHeader_zero _ (by simp)]
        rfl
      · intro x hx
        have off : x ≠ s.log.start := by rcases hx with hx | hx <;> omega
        exact (upd_ne _ _ off).trans (home x hx)
      · intro x absent none
        exact upd_eq_of _ fun _ => (hdirty x).trans (by rw [if_neg absent, none])
      · intro x member
        exact upd_eq_of _ fun _ => (hdirty x).trans (if_pos member)

/-- Recovery keeps what the disk recovers to at each of its points, and ends with it in place and the
header empty. -/
theorem recover_redo {start size : Nat} {d t : Nat → Block} (h : Redo start size d t) :
    machine.wp (Machine.strict (fun u => Redo start size u.disk t) fun _ => False) recoverFromLog
      (booted start size d) fun _ u =>
        (u.disk start).word 0 = 0 ∧ ∀ x, Outside start size x → u.disk x = t x := by
  unfold recoverFromLog readHead
  simp only [step, bind_eq, step_bind, done_bind, wp_step, act]
  refine ⟨h, fun _ => ⟨h, fun _ => ⟨h, fun _ => ?_⟩⟩⟩
  refine wp_redo h rfl (fun _ _ => rfl) (fun _ _ redo => redo) ?_
  intro disk' dirty' header home _ _
  exact ⟨header, home⟩

/-- The machine stopped with the disk `d`; recovery started any number of times and was stopped each
time, the last time with the disk `e`. -/
inductive Stopped (start size : Nat) : (Nat → Block) → (Nat → Block) → Prop where
  | once (d : Nat → Block) : Stopped start size d d
  | again {d e : Nat → Block} {u : State} : u ∈ machine.visited recoverFromLog (booted start size d) →
      Stopped start size u.disk e → Stopped start size d e

theorem stopped_redo {start size : Nat} {d e t : Nat → Block} (stopped : Stopped start size d e)
    (h : Redo start size d t) : Redo start size e t := by
  induction stopped with
  | once d => exact h
  | again visited _ ih =>
    have redo := Machine.wp_visited (recover_redo h) (fun _ _ done => redo_of_empty done.1 done.2) visited
    exact ih redo

/-! ### Transactions -/

/-- `begin_trans`, a `log_write` for each pair of a sector and its new contents, `commit_trans`. -/
def transaction (ws : List (Nat × Block)) : K Unit := do
  beginTrans
  writes ws
  commitTrans
where
  writes : List (Nat × Block) → K Unit
    | [] => pure ()
    | (sec, data) :: ws => do
      logWrite sec data
      writes ws

/-- The disk `d` with each sector of `ws` replaced by the contents of its last write. -/
def applied : List (Nat × Block) → (Nat → Block) → Nat → Block
  | [], d => d
  | (sec, data) :: ws, d => applied ws (upd d sec data)

/-- No transaction is open and nothing of an earlier one is left in memory. -/
structure Idle (s : State) : Prop where
  busy : s.log.busy = false
  sectors : s.log.sectors = []
  dirty : ∀ x, s.dirty x = none

/-- Between `begin_trans` and `commit_trans`: the writes so far are in the log, what they make of the
disk `d₀` is what the buffers hold, and the disk itself has changed in log data blocks only. -/
structure Logging (d₀ d₁ : Nat → Block) (s : State) : Prop where
  inv : LogInv s
  busy : s.log.busy = true
  disk : ∀ x, Kept s.log.start s.log.size x → s.disk x = d₀ x
  buf : ∀ x, Outside s.log.start s.log.size x → s.buf x = d₁ x

theorem logging_begin {s : State} (idle : Idle s) :
    Logging s.disk s.disk { s with log := { s.log with busy := true } } := by
  have buf : ∀ x, s.buf x = s.disk x := fun x => by simp [State.buf, idle.dirty x]
  exact ⟨logInv_empty idle.sectors idle.dirty, rfl, fun _ _ => rfl, fun x _ => buf x⟩

theorem logging_write {d₀ d₁ : Nat → Block} {s : State} {sec : Nat} (data : Block) (h : Logging d₀ d₁ s)
    (max : s.log.sectors.length < LOGSIZE) (room : s.log.sectors.length < s.log.size - 1)
    (outside : Outside s.log.start s.log.size sec) (small : sec < 2 ^ 32) :
    Logging d₀ (upd d₁ sec data) (s.logged sec data) := by
  refine ⟨logged_inv data h.inv room max outside small, h.busy, fun x hx => ?_, fun x hx => ?_⟩
  · have le : s.log.sectors.idxOf sec ≤ s.log.sectors.length := List.idxOf_le_length
    have apart : x ≠ s.log.start + s.log.sectors.idxOf sec + 1 := by
      rcases hx with hx | hx
      · have : x ≤ s.log.start := hx
        omega
      · have : s.log.start + s.log.size ≤ x := hx
        omega
    exact (upd_ne _ _ apart).trans (h.disk x hx)
  · rw [logged_buf data room hx.kept]
    by_cases same : x = sec
    · rw [if_pos same, same, upd_same]
    · rw [if_neg same, upd_ne _ _ same]
      exact h.buf x hx

theorem Logging.redo {d₀ d₁ : Nat → Block} {s : State} (h : Logging d₀ d₁ s)
    (empty : (d₀ s.log.start).word 0 = 0) : Redo s.log.start s.log.size s.disk d₀ := by
  apply redo_of_empty
  · rw [h.disk _ (Or.inl Nat.le.refl)]
    exact empty
  · intro x hx
    exact h.disk x hx.kept

/-- The header write of `commit_trans` is the point from which recovery brings the new disk. -/
theorem Logging.commit {d₀ d₁ : Nat → Block} {s : State} (h : Logging d₀ d₁ s) (some : s.log.sectors ≠ []) :
    headerSectors (putHeader (s.buf s.log.start) s.log.sectors) = s.log.sectors ∧
    Redo s.log.start s.log.size
      (upd s.disk s.log.start (putHeader (s.buf s.log.start) s.log.sectors)) d₁ := by
  have max := h.inv.length_max
  have room := h.inv.length_size
  have pos := List.length_pos_iff.mpr some
  simp only [LOGSIZE] at max
  have header := headerSectors_putHeader (s.buf s.log.start) (l := s.log.sectors) (by omega) h.inv.small
  refine ⟨header, ?_⟩
  constructor
  · rw [upd_same, header]
    exact h.inv.outside
  · rw [upd_same, header]
    exact room
  · intro i x get
    rw [upd_same, header] at get
    rw [upd_ne _ _ (by omega), h.inv.slot i x get]
    exact h.buf x (h.inv.outside x (List.mem_of_getElem? get))
  · intro x hx absent
    rw [upd_same, header] at absent
    have clean : s.dirty x = none := by
      rw [← Option.not_isSome_iff_eq_none, h.inv.dirty_mem]
      exact absent
    rw [upd_ne _ _ (by rcases hx with hx | hx <;> omega), ← h.buf x hx, State.buf, clean]
    rfl

theorem wp_writes {d₀ d : Nat → Block} (ws : List (Nat × Block)) {s : State} {Q : Unit → State → Prop}
    (h : Logging d₀ d s) (empty : (d₀ s.log.start).word 0 = 0)
    (outside : ∀ w ∈ ws, Outside s.log.start s.log.size w.1) (small : ∀ w ∈ ws, w.1 < 2 ^ 32)
    (full : T.fault .logTooBig) (here : ∀ u : State, Redo s.log.start s.log.size u.disk d₀ → T.point u)
    (post : ∀ u, u.log.start = s.log.start → u.log.size = s.log.size → Logging d₀ (applied ws d) u → Q () u) :
    machine.wp T (transaction.writes ws) s Q := by
  induction ws generalizing d s with
  | nil => exact post s rfl rfl h
  | cons w ws ih =>
    have written := fun max room => logging_write w.2 h max room
      (outside w (List.mem_cons_self ..)) (small w (List.mem_cons_self ..))
    refine wp_seq (Q := fun _ u => u = s.logged w.1 w.2 ∧ Logging d₀ (upd d w.1 w.2) u) ?_ ?_
    · refine wp_logWrite (here s (h.redo empty)) (fun _ => full) (fun idle => ?_) (fun _ room u _ same => ?_)
        fun _ max room => ⟨rfl, written max room⟩
      · rw [h.busy] at idle
        cases idle
      · apply here u
        rw [same]
        -- the new slot is one of the log's data blocks, whatever the log holds by now
        refine redo_of_empty ?_ fun x hx => ?_
        · rw [upd_ne _ _ (by omega), h.disk _ (Or.inl Nat.le.refl)]
          exact empty
        · have le : s.log.sectors.idxOf w.1 ≤ s.log.sectors.length := List.idxOf_le_length
          rw [upd_ne _ _ (by rcases hx with hx | hx <;> omega)]
          exact h.disk x hx.kept
    · rintro _ u ⟨rfl, logging⟩
      exact ih logging empty (fun v hv => outside v (List.mem_cons_of_mem _ hv))
        (fun v hv => small v (List.mem_cons_of_mem _ hv)) here post

/-- `commit_trans` of the writes that make `d₁` of the disk: until its first header write recovery
undoes them, from then on it brings `d₁`. -/
theorem wp_commit {d₀ d₁ : Nat → Block} {s : State} {Q : Unit → State → Prop} (h : Logging d₀ d₁ s)
    (before : T.point s) (after : ∀ u : State, u.log.busy = true → Redo s.log.start s.log.size u.disk d₁ → T.point u)
    (post : ∀ disk' dirty', ((d₀ s.log.start).word 0 = 0 → (disk' s.log.start).word 0 = 0) →
      (∀ x, Outside s.log.start s.log.size x → disk' x = d₁ x) → (∀ x, dirty' x = none) →
      Q () { s with disk := disk', dirty := dirty', log := { s.log with busy := false, sectors := [] } }) :
    machine.wp T commitTrans s Q := by
  have clean : ∀ x, x ∉ s.log.sectors → s.dirty x = none := by
    intro x absent
    rw [← Option.not_isSome_iff_eq_none, h.inv.dirty_mem]
    exact absent
  simp only [commitTrans, step, bind_eq, step_bind, done_bind, wp_step,
    machine, act]
  refine ⟨before, fun _ => ?_⟩
  by_cases none : s.log.sectors = []
  · rw [if_neg (by simp [none])]
    have bare : ∀ x, s.dirty x = Option.none := fun x => clean x (by simp [none])
    have final := post s.disk s.dirty (fun empty => by rwa [h.disk _ (Or.inl Nat.le.refl)])
      (fun x hx => by rw [← h.buf x hx, State.buf, bare x]; rfl) bare
    rw [← none] at final
    exact (wp_step ..).mpr ⟨before, fun _ => final⟩
  · rw [if_pos (List.length_pos_iff.mpr none)]
    obtain ⟨header, redo⟩ := h.commit none
    refine wp_seq (Q := fun _ u => u = { s with
      disk := upd s.disk s.log.start (putHeader (s.buf s.log.start) s.log.sectors)
      dirty := upd s.dirty s.log.start Option.none }) (wp_writeHead before rfl) ?_
    · rintro _ _ rfl
      -- the install, the clearing of the header and the unlock, bracketed as `wp_redo` has them
      change machine.wp T (installTrans.bind fun _ =>
        ((step (.setSectors [])).bind fun _ => writeHead).bind fun _ => step .unlockLog) _ Q
      rw [← bind_assoc]
      refine wp_seq (Q := fun _ u => ∃ disk' dirty', (disk' s.log.start).word 0 = 0 ∧
        (∀ x, Outside s.log.start s.log.size x → disk' x = d₁ x) ∧ (∀ x, dirty' x = Option.none) ∧
        u = { s with disk := disk', dirty := dirty', log := { s.log with sectors := [] } }) ?_ ?_
      · apply wp_redo redo
        · exact header.symm.trans (congrArg headerSectors (upd_same _ _ _).symm)
        · intro x inside
          exact upd_eq_of _ fun _ => clean x fun member => inside (h.inv.outside x member)
        · exact fun u busy => after u (busy.trans h.busy)
        · intro disk' dirty' word home kept cleared
          refine ⟨disk', dirty', word, home, fun x => ?_, rfl⟩
          by_cases member : x ∈ s.log.sectors
          · exact cleared x member
          · apply kept x member
            exact upd_eq_of _ fun _ => clean x member
      · rintro _ _ ⟨disk', dirty', word, home, none', rfl⟩
        have now := redo_of_empty word home
        exact (wp_step ..).mpr ⟨after _ h.busy now, fun _ => post disk' dirty' (fun _ => word) home none'⟩

/-- At each of its points a transaction leaves a disk that recovers to the disk before it or to the
disk with all its writes. -/
theorem wp_transaction {ws : List (Nat × Block)} {s : State} (idle : Idle s)
    (empty : (s.disk s.log.start).word 0 = 0)
    (outside : ∀ w ∈ ws, Outside s.log.start s.log.size w.1) (small : ∀ w ∈ ws, w.1 < 2 ^ 32) :
    machine.wp (Machine.strict
        (fun u => Redo s.log.start s.log.size u.disk s.disk ∨
          Redo s.log.start s.log.size u.disk (applied ws s.disk)) fun m => m = .logTooBig)
      (transaction ws) s fun _ u => Redo s.log.start s.log.size u.disk (applied ws s.disk) := by
  have start := logging_begin idle
  have now : Redo s.log.start s.log.size s.disk s.disk := start.redo empty
  simp only [transaction, beginTrans, step, bind_eq, step_bind, done_bind,
    wp_step, machine, act, idle.busy]
  refine ⟨Or.inl now, fun _ => ?_⟩
  refine wp_seq (Q := fun _ u => u.log.start = s.log.start ∧ u.log.size = s.log.size ∧
    Logging s.disk (applied ws s.disk) u) ?_ ?_
  · exact wp_writes ws start empty outside small rfl (fun _ redo => Or.inl redo)
      fun u hstart hsize h => ⟨hstart, hsize, h⟩
  · rintro _ u ⟨hstart, hsize, h⟩
    rw [← hstart] at empty
    have redo := h.redo empty
    rw [hstart, hsize] at redo
    apply wp_commit h
    · exact Or.inl redo
    · intro v _ committed
      rw [hstart, hsize] at committed
      exact Or.inr committed
    · intro disk' dirty' word home _
      have redo := redo_of_empty (word empty) home
      rw [hstart, hsize] at redo
      exact redo

theorem crash_atomic {ws : List (Nat × Block)} {s t : State} {e : Nat → Block} (idle : Idle s)
    (empty : (s.disk s.log.start).word 0 = 0)
    (outside : ∀ w ∈ ws, Outside s.log.start s.log.size w.1) (small : ∀ w ∈ ws, w.1 < 2 ^ 32)
    (stop : t ∈ machine.visited (transaction ws) s) (stopped : Stopped s.log.start s.log.size t.disk e) :
    ∃ u, machine.run recoverFromLog (booted s.log.start s.log.size e) = .returned () u ∧
      (u.disk s.log.start).word 0 = 0 ∧
      ((∀ x, Outside s.log.start s.log.size x → u.disk x = s.disk x) ∨
        ∀ x, Outside s.log.start s.log.size x → u.disk x = applied ws s.disk x) := by
  have finish : ∀ {d : Nat → Block}, Redo s.log.start s.log.size t.disk d →
      ∃ u, machine.run recoverFromLog (booted s.log.start s.log.size e) = .returned () u ∧
        (u.disk s.log.start).word 0 = 0 ∧ ∀ x, Outside s.log.start s.log.size x → u.disk x = d x := by
    intro d redo
    obtain ⟨_, u, run, word, home⟩ := wp_returned (recover_redo (stopped_redo stopped redo))
    exact ⟨u, run, word, home⟩
  rcases Machine.wp_visited (wp_transaction idle empty outside small) (fun _ _ redo => Or.inr redo) stop
    with redo | redo
  · obtain ⟨u, run, word, home⟩ := finish redo
    exact ⟨u, run, word, Or.inl home⟩
  · obtain ⟨u, run, word, home⟩ := finish redo
    exact ⟨u, run, word, Or.inr home⟩

/-- Two writes of one sector, stopped in the middle of `commit_trans`. -/
theorem crash_atomic_twice :
    let ws := [(9, Block.zero), (9, Block.zero.setWord 0 7)]
    let points := machine.visited (transaction ws) (booted 2 4 fun _ => Block.zero)
    12 < points.length ∧
    ∃ u, machine.run recoverFromLog
        (booted 2 4 (points.getD 12 (booted 2 4 fun _ => Block.zero)).disk) = .returned () u ∧
      (u.disk 2).word 0 = 0 ∧
      ((∀ x, Outside 2 4 x → u.disk x = Block.zero) ∨
        ∀ x, Outside 2 4 x → u.disk x = applied ws (fun _ => Block.zero) x) := by
  intro ws points
  have long : 12 < points.length := by decide +kernel
  have header : ((booted 2 4 fun _ => Block.zero).disk 2).word 0 = 0 := by decide +kernel
  have member : points.getD 12 (booted 2 4 fun _ => Block.zero) ∈ points := by
    rw [List.getD_eq_getElem _ _ long]
    exact List.getElem_mem long
  exact ⟨long, crash_atomic (s := booted 2 4 fun _ => Block.zero) ⟨rfl, rfl, fun _ => rfl⟩ header
    (by simp [ws, Outside, booted]) (by simp [ws]) member (.once _)⟩

end Espl.Kernel
