import Espl.Sched.Lifecycle

/-!
# `kill` and the slots that `allocproc` returns

`kill` looks for a pid in every slot, also in free ones: those have pid 0, or the pid of a `fork` that
failed. Nothing resets `killed` when such a slot is used again.
-/

namespace Espl.Sched

open Function
open Threads

variable {s : Table} {p q : Nat} {pid : Int}

namespace Table

def findPid (s : Table) (pid : Int) : Option Nat := (List.range NPROC).find? fun q => (s.procs q).pid == pid

def hit (s : Table) (q : Nat) : Table := (s.setProc q fun x => { x with killed := true }).rouse q

end Table

def Proc.hit (x : Proc) : Proc :=
  { x with killed := true, state := if x.state = .sleeping then .runnable else x.state }

theorem hit_procs : (Table.hit s q).procs = update s.procs q (s.procs q).hit := by
  unfold Table.hit State.rouse
  rw [setProc_same]
  split
  · rename_i asleep
    replace asleep : (s.procs q).state = .sleeping := asleep
    simp only [State.setProc, update_self, update_idem, Proc.hit, if_pos asleep]
  · rename_i awake
    simp only [State.setProc, Proc.hit, if_neg awake]

theorem hit_lock : (Table.hit s q).lock = s.lock := by
  unfold Table.hit State.rouse
  split <;> rfl

theorem hit_ncli : (Table.hit s q).ncli = s.ncli := by
  unfold Table.hit State.rouse
  split <;> rfl

theorem run_kill_loop (n : Nat) {q : Nat} (held : s.lock .ptable = some p) (ncli : s.ncli p ≠ 0) :
    ∃ s', (tmachine p).run (Table.lift (kill.loop pid q n)) s =
        .returned (((List.range' q n).find? fun q => (s.procs q).pid == pid).elim (-1) fun _ => 0) s' ∧
      s'.procs = ((List.range' q n).find? fun q => (s.procs q).pid == pid).elim s.procs
        fun q => update s.procs q (s.procs q).hit := by
  have release : ∀ (u : Table) (r : Int), u.lock .ptable = some p → u.ncli p ≠ 0 →
      ∃ s', (tmachine p).run (Table.lift (Sched.release .ptable >>= fun _ => pure r)) u = .returned r s' ∧
        s'.procs = u.procs := by
    intro u r held ncli
    refine ⟨(u.setLock .ptable none).setNcli p (u.ncli p - 1), ?_, rfl⟩
    simp [Table.lift, Sched.release, Sched.step, Table.step, Program.interp, Machine.run, tmachine, tact, act, held,
      ncli]
  induction n generalizing q with
  | zero => exact release s (-1) held ncli
  | succ n ih =>
    have first : (tmachine p).run (Table.lift (kill.loop pid q (n + 1))) s =
        (tmachine p).run (Table.lift (if (s.procs q).pid = pid then
            Sched.step (.kill q) >>= fun _ => Sched.step (.rouse q) >>= fun _ =>
              Sched.release .ptable >>= fun _ => pure 0
          else kill.loop pid (q + 1) n)) s := rfl
    rw [first, List.range'_succ]
    by_cases found : (s.procs q).pid = pid
    · rw [if_pos found, List.find?_cons_of_pos (by simpa using found)]
      obtain ⟨s', run, procs⟩ := release (Table.hit s q) 0 (by rwa [hit_lock]) (by rwa [hit_ncli])
      exact ⟨s', run, procs.trans hit_procs⟩
    · rw [if_neg found, List.find?_cons_of_neg (by simpa using found)]
      exact ih

theorem run_kill (p : Nat) (pid : Int) (free : s.lock .ptable = none) :
    ∃ s', (tmachine p).run (TOp.code (.kill pid)) s =
        .returned ((Table.findPid s pid).elim (-1) fun _ => 0) s' ∧
      s'.procs = (Table.findPid s pid).elim s.procs fun q => update s.procs q (s.procs q).hit := by
  have first : (tmachine p).run (TOp.code (.kill pid)) s = (tmachine p).run (Table.lift (kill.loop pid 0 NPROC))
      ((s.setLock .ptable (some p)).setNcli p (s.ncli p + 1)) := by
    simp only [TOp.code, kill, Table.lift, Sched.acquire, Sched.step, Program.bind_eq, Program.step_bind,
      Program.done_bind, Program.interp, Table.step, Machine.run, tmachine, tact, act, free]
  rw [first, Table.findPid, List.range_eq_range']
  exact run_kill_loop NPROC (by simp) (by simp [State.setNcli])

/-- What `kill` should do: it returns 0 if some process has the pid, and touches such processes only. -/
def KillRight (s : Table) (pid r : Int) (s' : Table) : Prop :=
  (r = 0 ↔ ∃ q < NPROC, (s.procs q).state ≠ .unused ∧ (s.procs q).pid = pid) ∧
    ∀ q, s'.procs q ≠ s.procs q → (s.procs q).state ≠ .unused ∧ (s.procs q).pid = pid

/-- The first slot with the pid is not free; or it is free but killed already, and a process has the pid
too. -/
def Table.Meets (s : Table) (pid : Int) : Prop :=
  ∀ q, Table.findPid s pid = some q → (s.procs q).state ≠ .unused ∨
    ((s.procs q).killed = true ∧ ∃ r < NPROC, (s.procs r).state ≠ .unused ∧ (s.procs r).pid = pid)

theorem killRight_iff {r : Int} {s' : Table} (result : r = (Table.findPid s pid).elim (-1) fun _ => 0)
    (procs : s'.procs = (Table.findPid s pid).elim s.procs fun q => update s.procs q (s.procs q).hit) :
    KillRight s pid r s' ↔ Table.Meets s pid := by
  cases found : Table.findPid s pid with
  | none =>
    have absent : ∀ q < NPROC, (s.procs q).pid ≠ pid := by
      simpa [Table.findPid] using found
    rw [found] at result procs
    subst result
    refine iff_of_true ⟨iff_of_false (by decide) ?_, fun q changed => absurd (congrFun procs q) changed⟩ ?_
    · rintro ⟨q, lt, -, same⟩
      exact absent q lt same
    · intro q some
      rw [found] at some
      cases some
  | some q =>
    obtain ⟨here, lt⟩ : (s.procs q).pid = pid ∧ q < NPROC := by
      have here := List.find?_some found
      have member := List.mem_of_find?_eq_some found
      exact ⟨by simpa using here, by simpa using member⟩
    rw [found] at result procs
    subst result
    replace procs : s'.procs = update s.procs q (s.procs q).hit := procs
    have others : ∀ r, r ≠ q → s'.procs r = s.procs r := fun r ne => by rw [procs, update_of_ne ne]
    have mine : s'.procs q = (s.procs q).hit := by rw [procs, update_self]
    constructor
    · rintro ⟨returns, only⟩ r same
      obtain rfl : q = r := Option.some.inj (found.symm.trans same)
      refine or_iff_not_imp_left.mpr fun unused => ⟨?_, returns.mp rfl⟩
      have kept : s'.procs q = s.procs q := by
        by_contra changed
        exact unused (only q changed).1
      rw [← kept, mine]
      rfl
    · intro meets
      rcases meets q found with used | ⟨killed, process⟩
      · refine ⟨iff_of_true rfl ⟨q, lt, used, here⟩, fun r changed => ?_⟩
        by_cases eq : r = q
        · subst eq
          exact ⟨used, here⟩
        · exact absurd (others r eq) changed
      · by_cases used : (s.procs q).state = .unused
        · -- the slot is killed already, so nothing changes
          refine ⟨iff_of_true rfl process, fun r changed => absurd ?_ changed⟩
          by_cases eq : r = q
          · subst eq
            rw [mine, Proc.hit, used, ← killed]
            cases same : s.procs r
            simp_all
          · exact others r eq
        · refine ⟨iff_of_true rfl process, fun r changed => ?_⟩
          by_cases eq : r = q
          · subst eq
            exact ⟨used, here⟩
          · exact absurd (others r eq) changed

structure Clean (x : Proc) : Prop where
  killed : x.killed = false
  files : ∀ fd < NOFILE, x.ofile fd = none
  chan : x.chan = .null

/-- A `kill` is right exactly if the slot it finds is not free. In every interleaving whose `kill`s hit
neither free slots nor slots that `fork` is filling, `fork` gets clean slots from `allocproc`, and a child
that it starts is not killed and has no channel. -/
theorem kill_hygiene {c : Threads tsignature Table}
    (run : Reachable tmachine tcalls Aimed (initial tboot) c) :
    (∀ (s : Table) (p : Nat) (pid : Int), s.lock .ptable = none →
      ∃ r s', (tmachine p).run (TOp.code (.kill pid)) s = .returned r s' ∧
        (KillRight s pid r s' ↔ Table.Meets s pid)) ∧
    ∀ p q next,
      (c.thread p = .step (.setParent q) next → Clean (c.state.procs q)) ∧
      (c.thread p = .step (.setRunnable q) next →
        (c.state.procs q).killed = false ∧ (c.state.procs q).chan = .null) := by
  refine ⟨fun s p pid free => ?_, fun p q next => ?_⟩
  · obtain ⟨s', run, procs⟩ := run_kill p pid free
    exact ⟨_, s', run, killRight_iff rfl procs⟩
  · have aimed : Reachable tmachine tcalls (fun c p e => True → Aimed c p e) (initial tboot) c :=
      reachable_mono run fun c p e aimed _ => aimed
    obtain ⟨t, within, -⟩ := reachable_orderly (J := fun _ => True) trivial (fun _ _ _ _ => trivial) aimed
    have slot := within.1.slot q
    constructor
    · intro fills
      obtain ⟨-, owns, -⟩ := within.allowed fills
      obtain ⟨-, embryo, -, parent⟩ := (within.1.thread p).own _ owns
      exact ⟨slot.killed trivial (Or.inr embryo), slot.files (Or.inr (Or.inr ⟨embryo, parent⟩)),
        slot.chan (Or.inr (Or.inl embryo))⟩
    · intro fills
      obtain ⟨-, owns⟩ := within.allowed fills
      obtain ⟨-, embryo, -⟩ := (within.1.thread p).own _ owns
      exact ⟨slot.killed trivial (Or.inr embryo), slot.chan (Or.inr (Or.inl embryo))⟩

def fills (c : Threads tsignature Table) (p q : Nat) : Bool :=
  match c.thread p with
  | .step (.setParent r) _ => r == q
  | _ => false

theorem fills_eq_true {c : Threads tsignature Table} (h : fills c p q = true) :
    ∃ next, c.thread p = .step (.setParent q) next := by
  unfold fills at h
  split at h
  · rename_i r next is
    obtain rfl : r = q := by simpa using h
    exact ⟨next, is⟩
  · cases h

/-- The first process calls `kill(0)`: no process has this pid, but `kill` returns 0. The next child is
killed before it starts. -/
theorem kill_free_slot :
    ∃ c d, Reachable tmachine tcalls (fun _ _ _ => True) (initial tboot) c ∧
      (∀ q < NPROC, (c.state.procs q).state ≠ .unused → (c.state.procs q).pid ≠ 0) ∧
      (∃ s', (tmachine 0).run (TOp.code (.kill 0)) c.state = .returned 0 s' ∧ (s'.procs 1).killed = true) ∧
      Reachable tmachine tcalls (fun _ _ _ => True) c d ∧
      (∃ next, d.thread 0 = .step (.setParent 1) next) ∧ (d.state.procs 1).killed = true := by
  have found : ((play (fun _ => true) [.start 0, .steps 0 2] (initial tboot)).any fun c =>
      (c.state.lock .ptable = none ∧ Table.findPid c.state 0 = some 1 ∧
        ∀ q < NPROC, (c.state.procs q).state ≠ .unused → (c.state.procs q).pid ≠ 0) ∧
      (play (fun _ => true) [.call 0 (.step (.kill 0) fun _ => .step (.fork true true) fun _ => .done ()),
        .steps 0 11] c).any fun d => fills d 0 1 = true ∧ (d.state.procs 1).killed = true) = true := by
    decide +kernel
  obtain ⟨c, plays, reached⟩ := (Option.any_eq_true _ _).mp found
  obtain ⟨⟨free, first, none⟩, later⟩ := of_decide_eq_true reached
  obtain ⟨d, plays', reached'⟩ := (Option.any_eq_true _ _).mp later
  obtain ⟨fills, killed⟩ := of_decide_eq_true reached'
  obtain ⟨s', run, procs⟩ := run_kill 0 0 free
  rw [first] at run procs
  refine ⟨c, d, reachable_play (fun _ _ _ _ => trivial) plays, none, ⟨s', run, ?_⟩,
    reachable_play (fun _ _ _ _ => trivial) plays', fills_eq_true fills, killed⟩
  rw [procs]
  rfl

def TStep.harmless : TStep → Bool
  | .core (.kill _) => false
  | _ => true

theorem aimed_of_harmless {c : Threads tsignature Table} {e : TStep} (h : e.harmless = true) : Aimed c p e := by
  rintro q rfl
  cases h

/-- The first `fork` after boot gets slot 1. -/
theorem kill_hygiene_fork :
    ∃ c, Reachable tmachine tcalls Aimed (initial tboot) c ∧
      (∃ next, c.thread 0 = .step (.setParent 1) next) ∧ Clean (c.state.procs 1) ∧
      ∃ r s', tboot.lock .ptable = none ∧ (tmachine 0).run (TOp.code (.kill 1)) tboot = .returned r s' ∧
        (KillRight tboot 1 r s' ↔ Table.Meets tboot 1) := by
  have found : ((play TStep.harmless [.start 0, .steps 0 2,
      .call 0 (.step (.fork true true) fun _ => .done ()), .steps 0 5] (initial tboot)).any fun c =>
      fills c 0 1) = true := by
    decide +kernel
  obtain ⟨c, plays, reached⟩ := (Option.any_eq_true _ _).mp found
  obtain ⟨next, is⟩ := fills_eq_true reached
  have run := reachable_play (fun c p e => aimed_of_harmless (c := c) (p := p)) plays
  obtain ⟨calls, clean⟩ := kill_hygiene run
  obtain ⟨r, s', kills, right⟩ := calls tboot 0 1 rfl
  exact ⟨c, run, ⟨next, is⟩, (clean 0 1 next).1 is, r, s', rfl, kills, right⟩

end Espl.Sched
