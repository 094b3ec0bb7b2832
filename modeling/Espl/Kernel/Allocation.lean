import Espl.Kernel.Start
import Espl.Kernel.Supply

/-!
# Allocation of blocks

What `balloc` hands out on a disk that `mkfs` made, in every sequence of calls. The free map leaves the
blocks of the log free, so `balloc` stays in the data area as long as that has a free block, and no
longer.
-/

namespace Espl.Kernel

def SomeFree (g : Geometry) (s : State) : Prop :=
  ∃ b, g.InData b ∧ (s.buf (bblock b g.ninodes)).bit (b % BPB) = false

/-- Calls of `balloc` and `bfree` in transactions lead from `s` to `t`, and the calls of `balloc`, each
made in a state with `ok`, returned the blocks `out`. A block that is freed is one of those, or one that
a file had before. -/
inductive BlockRun (ok : State → Prop) (had : Nat → Prop) (s : State) : List Nat → State → Prop where
  | start : BlockRun ok had s [] s
  | begin {out : List Nat} {t u : State} (run : BlockRun ok had s out t)
      (call : machine.run beginTrans t = .returned () u) : BlockRun ok had s out u
  | commit {out : List Nat} {t u : State} (run : BlockRun ok had s out t) (open_ : t.log.busy = true)
      (call : machine.run commitTrans t = .returned () u) : BlockRun ok had s out u
  | balloc {out : List Nat} {t u : State} {b : Nat} (run : BlockRun ok had s out t) (good : ok t)
      (call : machine.run balloc t = .returned b u) : BlockRun ok had s (b :: out) u
  | bfree {out : List Nat} {t u : State} {b : Nat} (run : BlockRun ok had s out t) (mine : b ∈ out ∨ had b)
      (call : machine.run (bfree b) t = .returned () u) : BlockRun ok had s out u

def lenient : Terms signature State Panic := ⟨fun _ _ => True, fun _ => True, fun _ => True, True⟩

section

variable {g : Geometry} {s t u : State} {A : Volume} {b : Nat}

theorem someFree_iff (h : OnDisk g s A) : SomeFree g s ↔ ∃ b, g.InData b ∧ A.used b = false := by
  constructor
  · rintro ⟨b, inData, clear⟩
    exact ⟨b, inData, by rw [← h.used b inData.lt_size, clear]⟩
  · rintro ⟨b, inData, clear⟩
    exact ⟨b, inData, by rw [h.used b inData.lt_size, clear]⟩

theorem run_balloc (h : OnDisk g s A) (call : machine.run balloc s = .returned b t) :
    FirstFree g A b ∧ (g.InData b → OnDisk g t (A.alloc b)) :=
  Machine.wp_run (T := lenient) (Q := fun b t => FirstFree g A b ∧ (g.InData b → OnDisk g t (A.alloc b)))
    (wp_balloc h trivial (fun _ _ => trivial) (fun _ => trivial) (fun _ => trivial) (fun _ => trivial)
      fun _ _ first _ _ _ _ after => ⟨first, after⟩)
    (fun _ _ => trivial) call

theorem run_bfree (h : OnDisk g s A) (inData : g.InData b) (call : machine.run (bfree b) s = .returned () t) :
    OnDisk g t (A.free b) :=
  Machine.wp_run (T := lenient) (Q := fun _ t => OnDisk g t (A.free b))
    (wp_bfree h inData.lt_size trivial (fun _ _ => trivial) (fun _ => trivial) (fun _ => trivial)
      (fun _ => trivial) fun _ _ _ _ after => after)
    (fun _ _ => trivial) call

theorem run_beginTrans (h : OnDisk g s A) (call : machine.run beginTrans s = .returned () t) : OnDisk g t A :=
  Machine.wp_run (T := lenient) (Q := fun _ t => OnDisk g t A)
    (wp_beginTrans trivial (fun _ => trivial) fun _ => h.of_eq rfl rfl rfl rfl rfl) (fun _ _ => trivial) call

theorem run_commitTrans (h : OnDisk g s A) (open_ : s.log.busy = true)
    (call : machine.run commitTrans s = .returned () t) : OnDisk g t A :=
  Machine.wp_run (T := lenient) (Q := fun _ t => OnDisk g t A)
    (wp_commitTrans h open_ (fun _ _ => trivial) fun _ _ _ after => after) (fun _ _ => trivial) call

theorem blockRun_inside {had : Nat → Prop} {out : List Nat} (h : OnDisk g s A) (marked : MetaUsed g A)
    (owned : ∀ b, had b → g.InData b) (run : BlockRun (SomeFree g) had s out t) :
    (∀ b ∈ out, g.InData b) ∧ ∃ A', OnDisk g t A' ∧ MetaUsed g A' := by
  induction run with
  | start => exact ⟨by simp, A, h, marked⟩
  | begin _ call ih =>
    obtain ⟨inside, A', now, marked'⟩ := ih
    exact ⟨inside, A', run_beginTrans now call, marked'⟩
  | commit _ open_ call ih =>
    obtain ⟨inside, A', now, marked'⟩ := ih
    exact ⟨inside, A', run_commitTrans now open_ call, marked'⟩
  | @balloc out t u b _ good call ih =>
    obtain ⟨inside, A', now, marked'⟩ := ih
    obtain ⟨first, after⟩ := run_balloc now call
    have inData := (first.inData marked').mpr ((someFree_iff now).mp good)
    refine ⟨fun c member => ?_, A'.alloc b, after inData, fun c hc => ?_⟩
    · rcases List.mem_cons.mp member with rfl | old
      · exact inData
      · exact inside c old
    · rw [Volume.alloc_used, upd_ne _ _ (by have := inData.1; omega)]
      exact marked' c hc
  | @bfree out t u b _ mine call ih =>
    obtain ⟨inside, A', now, marked'⟩ := ih
    have inData := mine.elim (inside b) (owned b)
    refine ⟨inside, A'.free b, run_bfree now inData call, fun c hc => ?_⟩
    exact (upd_ne _ _ (by have := inData.1; omega)).trans (marked' c hc)

end

/-- On a disk that `mkfs` made, `balloc` hands out data blocks as long as there is a free one, and in no
other state. -/
theorem balloc_inside {files : List Mkfs.HostFile} {m : Mkfs.State} {s t : State} {out : List Nat}
    (run : Mkfs.main files = some m) (few : files.length ≤ Mkfs.ninodes - 2) (below : m.usedblocks ≤ 1014)
    (boots : boot m.img = .returned () s)
    (calls : BlockRun (SomeFree Mkfs.geometry) (fun b => 29 ≤ b ∧ b < m.usedblocks) s out t) :
    (∀ b ∈ out, Mkfs.geometry.InData b) ∧
    ∀ b u, machine.run balloc t = .returned b u → (Mkfs.geometry.InData b ↔ SomeFree Mkfs.geometry t) := by
  obtain ⟨A, finished, -⟩ := Mkfs.main_finished run few below
  rw [boot_eq (startable_finished finished below)] at boots
  cases boots
  have marked : MetaUsed Mkfs.geometry (A.setDin ROOTINO { A.din ROOTINO with size := Mkfs.rootSize files }) := by
    intro b hb
    exact (finished.marks b).mpr (lt_of_lt_of_le hb finished.low)
  obtain ⟨inside, A', now, marked'⟩ := blockRun_inside (onDisk_started finished.toReads) marked
    (fun b mine => ⟨mine.1, lt_of_lt_of_le mine.2 below⟩) calls
  refine ⟨inside, fun b u call => ?_⟩
  obtain ⟨first, -⟩ := run_balloc now call
  rw [first.inData marked', someFree_iff now]

/-! ### Filling the disk -/

/-- No transaction is open, nothing is logged, and exactly the blocks before `n` are in use. -/
structure Filled (s : State) (n : Nat) : Prop where
  idle : s.log.busy = false
  sectors : s.log.sectors = []
  disk : ∃ A, OnDisk Mkfs.geometry s A ∧ ∀ b < 1024, A.used b = true ↔ b < n

theorem Filled.balloc {t : State} {n : Nat} (h : Filled t n) (lt : n < 1024) :
    ∃ u v, machine.run beginTrans t = .returned () u ∧ machine.run balloc u = .returned n v ∧
      (29 ≤ n → n < 1014 → SomeFree Mkfs.geometry u ∧ v.log.busy = true ∧
        ∃ w, machine.run commitTrans v = .returned () w ∧ Filled w (n + 1)) := by
  obtain ⟨A, now, marks⟩ := h.disk
  have inside : OnDisk Mkfs.geometry { t with log := { t.log with busy := true } } A := now.of_eq rfl rfl rfl rfl rfl
  have room : Room { t with log := { t.log with busy := true } } 2 := by
    unfold Room
    simp only [h.sectors, now.size]
    decide
  have free : A.used n = false := by
    rw [Bool.eq_false_iff, ne_eq, marks n lt]
    exact Nat.lt_irrefl n
  obtain ⟨b, v, call, first, logs, after⟩ := Machine.wp_returned (I := fun _ => True)
    (wp_balloc (Q := fun b v => FirstFree Mkfs.geometry A b ∧ Logs { t with log := { t.log with busy := true } } v ∧
        (Mkfs.geometry.InData b → OnDisk Mkfs.geometry v (A.alloc b)))
      inside trivial (fun _ _ => trivial) (fun no => no room) (fun idle => by cases idle)
      (fun all => absurd (all n lt) (by rw [free]; decide)) fun _ _ first _ allocated _ _ after =>
        ⟨first, allocated.logs, after⟩)
  have same : b = n := by
    have low : ¬ b < n := fun less => by
      have used := (marks b (by omega)).mpr less
      rw [first.free] at used
      cases used
    have high : ¬ n < b := fun less => by
      rw [first.first n less] at free
      cases free
    omega
  subst same
  refine ⟨_, v, by simp [beginTrans, step, Machine.run, act, h.idle], call, fun low high => ?_⟩
  have inData := Mkfs.inData_iff.mpr ⟨low, high⟩
  have busy : v.log.busy = true := by
    obtain ⟨_, _, _, rfl⟩ := logs
    rfl
  refine ⟨(someFree_iff inside).mpr ⟨b, inData, free⟩, busy, ?_⟩
  obtain ⟨_, w, done, filled⟩ := Machine.wp_returned (I := fun _ => True)
    (wp_commitTrans (Q := fun _ w => Filled w (b + 1)) (after inData) busy (fun _ _ => trivial)
      fun _ _ _ onDisk => ⟨rfl, rfl, _, onDisk, fun c hc => by
        rw [Volume.alloc_used]
        by_cases eq : c = b
        · rw [eq, upd_same]
          simp
        · rw [upd_ne _ _ eq, marks c hc]
          omega⟩)
  exact ⟨w, done, filled⟩

theorem Filled.run {s : State} {n : Nat} (h : Filled s n) (low : 29 ≤ n) (had : Nat → Prop) (k : Nat)
    (room : n + k ≤ 1014) :
    ∃ out t, BlockRun (SomeFree Mkfs.geometry) had s out t ∧ out.length = k ∧ Filled t (n + k) := by
  induction k with
  | zero => exact ⟨[], s, .start, rfl, h⟩
  | succ k ih =>
    obtain ⟨out, t, calls, length, filled⟩ := ih (by omega)
    obtain ⟨u, v, begins, call, rest⟩ := filled.balloc (by omega)
    obtain ⟨some, busy, w, commits, filled'⟩ := rest (by omega) (by omega)
    exact ⟨_, w, ((calls.begin begins).balloc some call).commit busy commits, by simp [length], filled'⟩

theorem filled_empty : ∃ m s, Mkfs.main [] = some m ∧ m.usedblocks = 30 ∧ boot m.img = .returned () s ∧
    Filled s 30 := by
  obtain ⟨m, run, below⟩ := Mkfs.main_some (show ([] : List Mkfs.HostFile).length ≤ _ by decide) (by simp)
  have used : m.usedblocks = 30 := by
    have counted : (Mkfs.main []).map (·.usedblocks) = some 30 := by decide +kernel
    rw [run] at counted
    exact Option.some.inj counted
  obtain ⟨A, finished, -⟩ := Mkfs.main_finished run (by decide) below
  refine ⟨m, _, run, used, boot_eq (startable_finished finished below), rfl, rfl, _, onDisk_started finished.toReads,
    fun b _ => ?_⟩
  rw [finished.marks b, used]

theorem balloc_inside_one :
    ∃ m s out t, Mkfs.main [] = some m ∧ boot m.img = .returned () s ∧ out.length = 1 ∧
      BlockRun (SomeFree Mkfs.geometry) (fun b => 29 ≤ b ∧ b < m.usedblocks) s out t ∧
      (∀ b ∈ out, Mkfs.geometry.InData b) ∧
      ∀ b u, machine.run balloc t = .returned b u → (Mkfs.geometry.InData b ↔ SomeFree Mkfs.geometry t) := by
  obtain ⟨m, s, run, used, boots, filled⟩ := filled_empty
  obtain ⟨out, t, calls, length, -⟩ := filled.run (by decide) (fun b => 29 ≤ b ∧ b < m.usedblocks) 1 (by decide)
  exact ⟨m, s, out, t, run, boots, length, calls,
    balloc_inside run (by decide) (by rw [used]; decide) boots calls⟩

theorem BlockRun.mono {ok ok' : State → Prop} {had : Nat → Prop} {s t : State} {out : List Nat}
    (run : BlockRun ok had s out t) (imp : ∀ t, ok t → ok' t) : BlockRun ok' had s out t := by
  induction run with
  | start => exact .start
  | begin _ call ih => exact .begin ih call
  | commit _ open_ call ih => exact .commit ih open_ call
  | balloc _ good call ih => exact .balloc ih (imp _ good) call
  | bfree _ mine call ih => exact .bfree ih mine call

/-- On the image without files the 985th call of `balloc` returns the sector of the log header. -/
theorem balloc_log_header :
    ∃ m s out t, Mkfs.main [] = some m ∧ boot m.img = .returned () s ∧ s.log.start = 1014 ∧
      BlockRun (fun _ => True) (fun _ => False) s out t ∧ out.length = 985 ∧ 1014 ∈ out := by
  obtain ⟨m, s, run, -, boots, filled⟩ := filled_empty
  obtain ⟨out, t, calls, length, full⟩ := filled.run (by decide) (fun _ => False) 984 (by decide)
  obtain ⟨u, v, begins, call, -⟩ := full.balloc (by decide)
  obtain ⟨A, onDisk, -⟩ := filled.disk
  exact ⟨m, s, _, v, run, boots, onDisk.start,
    ((calls.mono fun _ _ => trivial).begin begins).balloc trivial call, by simp [length], List.mem_cons_self ..⟩

end Espl.Kernel
