import Espl.Sched.Lifecycle

/-!
# Pids, exits and waits

Pids of processes in the table are positive and different, every process but the first has a parent
that can still call `wait`, and every child that exits is returned by one `wait`, a call of its parent.
-/

namespace Espl.Sched

open Rules

namespace Event

def isAlloc : Event → Bool
  | .alloc _ => true
  | _ => false

def isWaited (pid : Int) : Event → Bool
  | .waited _ n _ => n == pid
  | _ => false

end Event

def allocs (history : List Event) : Nat := history.countP Event.isAlloc

def exits (history : List Event) (pid : Int) : Nat := history.count (.exit pid)

def waits (history : List Event) (pid : Int) : Nat := history.countP (Event.isWaited pid)

section Counts

variable (history : List Event) (pid n : Int)

theorem allocs_alloc : allocs (.alloc n :: history) = allocs history + 1 := List.countP_cons_of_pos rfl

theorem allocs_exit : allocs (.exit n :: history) = allocs history := List.countP_cons_of_neg nofun

theorem allocs_waited (p : Nat) (parent : Option Nat) : allocs (.waited p n parent :: history) = allocs history :=
  List.countP_cons_of_neg nofun

theorem allocs_failed (p : Nat) (children killed : Bool) :
    allocs (.waitFailed p children killed :: history) = allocs history :=
  List.countP_cons_of_neg nofun

theorem exits_alloc : exits (.alloc n :: history) pid = exits history pid := by simp [exits]

theorem exits_exit : exits (.exit n :: history) pid = exits history pid + if n = pid then 1 else 0 := by
  simp [exits, List.count_cons]

theorem exits_waited (p : Nat) (parent : Option Nat) :
    exits (.waited p n parent :: history) pid = exits history pid := by simp [exits]

theorem exits_failed (p : Nat) (children killed : Bool) :
    exits (.waitFailed p children killed :: history) pid = exits history pid := by simp [exits]

theorem waits_alloc : waits (.alloc n :: history) pid = waits history pid := List.countP_cons_of_neg nofun

theorem waits_exit : waits (.exit n :: history) pid = waits history pid := List.countP_cons_of_neg nofun

theorem waits_waited (p : Nat) (parent : Option Nat) :
    waits (.waited p n parent :: history) pid = waits history pid + if n = pid then 1 else 0 := by
  simp [waits, List.countP_cons, Event.isWaited]

theorem waits_failed (p : Nat) (children killed : Bool) :
    waits (.waitFailed p children killed :: history) pid = waits history pid :=
  List.countP_cons_of_neg nofun

theorem waited_of_waits (some : 0 < waits history pid) : ∃ p parent, .waited p pid parent ∈ history := by
  obtain ⟨e, member, is⟩ := List.countP_pos_iff.mp some
  cases e with
  | waited p n parent =>
    obtain rfl : n = pid := by simpa [Event.isWaited] using is
    exact ⟨p, parent, member⟩
  | alloc _ | exit _ | waitFailed _ _ _ => cases is

end Counts

variable {aimed : Prop} {s s' : Table} {p q : Nat} {t : Nat → TLocal}

/-! ### What a step does to the books -/

/-- A step of `p` gives out a pid, ends `p`, frees a child of `p`, lets `wait` fail, or leaves pids and
books alone and makes no zombies. -/
inductive Effect (s : Table) (p : Nat) (s' : Table) : Prop where
  | quiet (data : s'.data = s.data)
      (slot : ∀ q, (s'.procs q).pid = (s.procs q).pid ∧
        ((s'.procs q).state = .zombie ↔ (s.procs q).state = .zombie) ∧
        ((s.procs q).state = .unused → (s'.procs q).state = .unused))
  | take (q : Nat) (unused : (s.procs q).state = .unused)
      (data : s'.data = ⟨wrapInt (s.data.nextpid + 1), .alloc s.data.nextpid :: s.data.history⟩)
      (slot : ∀ r, s'.procs r =
        if r = q then { s.procs q with state := .embryo, pid := s.data.nextpid } else s.procs r)
  | exit (running : (s.procs p).state = .running)
      (data : s'.data = ⟨s.data.nextpid, .exit (s.procs p).pid :: s.data.history⟩)
      (slot : ∀ r, s'.procs r = if r = p then { s.procs p with state := .zombie } else s.procs r)
  | free (q : Nat) (child : (s.procs q).parent = some p) (zombie : (s.procs q).state = .zombie)
      (data : s'.data = ⟨s.data.nextpid, .waited p (s.procs q).pid (some p) :: s.data.history⟩)
      (slot : ∀ r, s'.procs r =
        if r = q then { s.procs q with state := .unused, pid := 0, parent := none, killed := false } else s.procs r)
  | fail (reason : Table.hasChild s p = false ∨ (s.procs p).killed = true)
      (data : s'.data =
        ⟨s.data.nextpid, .waitFailed p (Table.hasChild s p) (s.procs p).killed :: s.data.history⟩)
      (slot : ∀ r, s'.procs r = s.procs r)

theorem setProc_procs (f : Proc → Proc) (r : Nat) :
    (s.setProc q f).procs r = if r = q then f (s.procs q) else s.procs r := by
  split
  · rename_i eq
    rw [eq, setProc_same]
  · rename_i ne
    exact setProc_ne _ _ ne

theorem Effect.same (procs : s'.procs = s.procs) (data : s'.data = s.data) : Effect s p s' :=
  .quiet data fun q => by simp [procs]

theorem Effect.setProc {f : Proc → Proc} (pid : (f (s.procs q)).pid = (s.procs q).pid)
    (zombie : (f (s.procs q)).state = .zombie ↔ (s.procs q).state = .zombie)
    (unused : (s.procs q).state = .unused → (f (s.procs q)).state = .unused)
    (procs : s'.procs = (s.setProc q f).procs) (data : s'.data = s.data) : Effect s p s' := by
  refine .quiet data fun r => ?_
  rw [procs]
  by_cases eq : r = q
  · subst eq
    rw [setProc_same]
    exact ⟨pid, zombie, unused⟩
  · simp [setProc_ne _ _ eq]

theorem Effect.setState {state : ProcState} {f : Proc → Proc} (is : (s.procs q).state = state)
    (procs : s'.procs = (s.setProc q f).procs) (data : s'.data = s.data)
    (pid : (f (s.procs q)).pid = (s.procs q).pid) (used : state ≠ .unused) (living : state ≠ .zombie)
    (next : (f (s.procs q)).state ≠ .zombie) : Effect s p s' :=
  .setProc pid (iff_of_false next (is ▸ living)) (fun free => absurd (is.symm.trans free) used) procs data

theorem effect_core {e : Step Books} {r : Answer e} (inv : TInv aimed s t) (may : (t p).coreAllowed e)
    (returned : act p e s = .returned r s') : Effect s p s' := by
  cases e with
  | killed | pid _ | mark =>
    cases returned
    exact .same rfl rfl
  | acquire l =>
    obtain ⟨-, rfl⟩ := act_acquire returned
    exact .same rfl rfl
  | release l =>
    obtain ⟨-, rfl⟩ := act_release returned
    exact .same rfl rfl
  | setChan _ | kill _ =>
    cases returned
    exact .setProc rfl Iff.rfl id rfl rfl
  | setState state =>
    cases returned
    obtain ⟨up, -, state⟩ := may
    have fits := (inv.self p).phase
    rw [up] at fits
    exact .setState fits.1 rfl rfl rfl (by simp) (by simp) (by rcases state with rfl | rfl <;> simp)
  | sched =>
    obtain ⟨-, rfl⟩ := act_sched returned
    exact .same rfl rfl
  | resume =>
    obtain ⟨runs, -, rfl⟩ := act_resume returned
    exact .setState (f := fun x => { x with state := .running }) runs rfl rfl rfl (by simp) (by simp) (by simp)
  | wake q chan =>
    cases returned
    unfold State.wake
    split
    · rename_i asleep
      exact .setState asleep.1 rfl rfl rfl (by simp) (by simp) (by simp)
    · exact .same rfl rfl
  | rouse q =>
    cases returned
    unfold State.rouse
    split
    · rename_i asleep
      exact .setState asleep rfl rfl rfl (by simp) (by simp) (by simp)
    · exact .same rfl rfl
  | get | upd _ => exact may.elim
  | stop => exact r.elim

theorem hasChild_false (none : ∀ q < NPROC, (s.procs q).parent ≠ some p) : Table.hasChild s p = false := by
  simp only [Table.hasChild, List.any_eq_false, List.mem_range, beq_iff_eq]
  exact none

theorem effect_step {e : TStep} {r : TStep.Answer e} (inv : TInv aimed s t) (may : (t p).allowed e)
    (returned : tact p e s = .returned r s') : Effect s p s' := by
  cases e with
  | core e =>
    obtain ⟨returned, -⟩ := tact_core returned
    exact effect_core inv may returned
  | self | parent =>
    cases returned
    exact .same rfl rfl
  | setContext _ | setParent _ | closeFile _ | setFile _ _ =>
    cases returned
    exact .setProc rfl Iff.rfl id rfl rfl
  | checkInit =>
    simp only [tact] at returned
    split at returned <;> cases returned
    exact .same rfl rfl
  | tryTake q =>
    simp only [tact] at returned
    split at returned <;> cases returned
    · rename_i unused
      exact .take q unused rfl
        (setProc_procs fun x => { x with state := .embryo, pid := s.data.nextpid })
    · exact .same rfl rfl
  | giveBack q =>
    cases returned
    obtain ⟨-, e, owns, rfl, -⟩ := may
    have embryo := ((inv.thread p).own e owns).2.1
    exact .setState embryo rfl rfl rfl (by simp) (by simp) (by simp)
  | dupFile q fd =>
    cases returned
    unfold Table.dupFile
    split
    · exact .setProc rfl Iff.rfl id rfl rfl
    · exact .same rfl rfl
  | setRunnable q =>
    cases returned
    have embryo := ((inv.thread p).own _ may.2).2.1
    exact .setState embryo rfl rfl rfl (by simp) (by simp) (by simp)
  | adopt q =>
    simp only [tact] at returned
    split at returned <;> cases returned
    · exact .setProc rfl Iff.rfl id rfl rfl
    · exact .same rfl rfl
  | setZombie =>
    cases returned
    have fits := (inv.self p).phase
    rw [may.1] at fits
    exact .exit fits.1 rfl (setProc_procs fun x => { x with state := .zombie })
  | reap q =>
    simp only [tact] at returned
    split at returned
    · rename_i child
      split at returned <;> cases returned
      · rename_i zombie
        exact .free q child zombie (by rw [← child]; rfl)
          (setProc_procs fun x => { x with state := .unused, pid := 0, parent := none, killed := false })
      · exact .same rfl rfl
    · cases returned
      exact .same rfl rfl
  | waitFails =>
    cases returned
    refine .fail (may.2.2.imp (fun all => hasChild_false fun q lt => ?_) fun doomed => (inv.self p).doomed doomed)
      rfl fun _ => rfl
    exact (inv.thread p).childless q (by rwa [all])
  | start =>
    simp only [tact] at returned
    split at returned <;> cases returned
    rename_i runs
    exact .setState (f := fun x => { x with state := .running, fresh := false }) runs.2.1 rfl rfl rfl (by simp)
      (by simp) (by simp)
  | panic m => exact r.elim

/-! ### The books are right -/

structure Pids (s : Table) : Prop where
  next : s.data.nextpid = allocs s.data.history + 1
  range : ∀ q, 0 ≤ (s.procs q).pid ∧ (s.procs q).pid < s.data.nextpid
  positive : ∀ q, (s.procs q).state ≠ .unused → 0 < (s.procs q).pid
  distinct : ∀ p q, (s.procs p).pid = (s.procs q).pid → 0 < (s.procs p).pid → p = q

def Settled (s : Table) (pid : Int) : Prop :=
  (waits s.data.history pid = 1 ∧ ∀ q, (s.procs q).state = .zombie → (s.procs q).pid ≠ pid) ∨
    (waits s.data.history pid = 0 ∧ ∃ q, (s.procs q).state = .zombie ∧ (s.procs q).pid = pid)

structure Exits (s : Table) : Prop where
  new : ∀ pid, s.data.nextpid ≤ pid → exits s.data.history pid = 0
  living : ∀ q, (s.procs q).state ≠ .unused → (s.procs q).state ≠ .zombie → exits s.data.history (s.procs q).pid = 0
  zombie : ∀ q, (s.procs q).state = .zombie → 0 < exits s.data.history (s.procs q).pid
  settled : ∀ pid, 0 < exits s.data.history pid → exits s.data.history pid = 1 ∧ Settled s pid
  waited : ∀ caller pid parent, .waited caller pid parent ∈ s.data.history →
    parent = some caller ∧ 0 < exits s.data.history pid
  failed : ∀ caller children killed, .waitFailed caller children killed ∈ s.data.history →
    children = false ∨ killed = true

theorem Effect.allocs_le (effect : Effect s p s') : allocs s.data.history ≤ allocs s'.data.history := by
  cases effect with
  | quiet data slot => exact Nat.le_of_eq (by rw [data])
  | take q unused data slot => rw [data, allocs_alloc]; omega
  | exit running data slot => exact Nat.le_of_eq (by rw [data, allocs_exit])
  | free q child zombie data slot => exact Nat.le_of_eq (by rw [data, allocs_waited])
  | fail reason data slot => exact Nat.le_of_eq (by rw [data, allocs_failed])

theorem wrapInt_of_lt {n : Int} (low : -2 ^ 31 ≤ n) (high : n < 2 ^ 31) : wrapInt n = n :=
  Int.bmod_eq_of_le (by omega) (by omega)

theorem Pids.step (h : Pids s) (effect : Effect s p s') (few : allocs s'.data.history < 2 ^ 31 - 1) : Pids s' := by
  obtain ⟨next, range, positive, distinct⟩ := h
  cases effect with
  | quiet data slot => constructor <;> grind
  | take q unused data slot =>
    rw [data, allocs_alloc] at few
    rw [wrapInt_of_lt (by omega) (by omega)] at data
    have count := allocs_alloc s.data.history s.data.nextpid
    constructor <;> grind
  | exit running data slot =>
    have count := allocs_exit s.data.history (s.procs p).pid
    constructor <;> grind
  | free q child zombie data slot =>
    have count := allocs_waited s.data.history (s.procs q).pid p (some p)
    constructor <;> grind
  | fail reason data slot =>
    have count := allocs_failed s.data.history p (Table.hasChild s p) (s.procs p).killed
    constructor <;> grind

theorem Exits.step (h : Exits s) (pids : Pids s) (effect : Effect s p s') (few : allocs s'.data.history < 2 ^ 31 - 1) :
    Exits s' := by
  obtain ⟨new, living, zombies, settled, waited, failed⟩ := h
  obtain ⟨next, range, positive, distinct⟩ := pids
  unfold Settled at settled
  cases effect with
  | quiet data slot => constructor <;> grind [Settled]
  | take q unused data slot =>
    rw [data, allocs_alloc] at few
    rw [wrapInt_of_lt (by omega) (by omega)] at data
    constructor <;> grind [Settled, exits_alloc, waits_alloc]
  | exit running data slot =>
    have unwaited : waits s.data.history (s.procs p).pid = 0 := by
      grind [waited_of_waits]
    constructor <;> grind [Settled, exits_exit, waits_exit]
  | free q child zombie data slot =>
    constructor <;> grind [Settled, exits_waited, waits_waited]
  | fail reason data slot =>
    constructor <;> grind [Settled, exits_failed, waits_failed]

theorem pids_boot : Pids tboot := by
  have slot : ∀ q, (tboot.procs q).pid = if q = 0 then 1 else 0 := fun q => by
    simp only [tboot]
    split <;> rfl
  have free : ∀ q, q ≠ 0 → (tboot.procs q).state = .unused := fun q ne => by simp [tboot, ne]
  have next : tboot.data.nextpid = 2 := rfl
  exact ⟨rfl, by grind, by grind, by grind⟩

theorem exits_boot : Exits tboot := by
  have none : ∀ pid, exits tboot.data.history pid = 0 := fun pid => exits_alloc [] pid 1
  have living : ∀ q, (tboot.procs q).state ≠ .zombie := fun q => by
    simp only [tboot]
    split <;> simp
  refine ⟨fun pid _ => none pid, fun q _ _ => none _, fun q zombie => absurd zombie (living q), fun pid some => ?_,
    fun _ _ _ member => ?_, fun _ _ _ member => ?_⟩
  · rw [none] at some
    cases some
  · simp [tboot] at member
  · simp [tboot] at member

theorem books_step (effect : Effect s p s') (before : allocs s.data.history < 2 ^ 31 - 1 → Pids s ∧ Exits s)
    (few : allocs s'.data.history < 2 ^ 31 - 1) : Pids s' ∧ Exits s' := by
  obtain ⟨pids, exits⟩ := before (Nat.lt_of_le_of_lt effect.allocs_le few)
  exact ⟨pids.step effect few, exits.step pids effect few⟩

/-! ### Every call of `wait` is recorded once -/

def outcome : (e : TStep) → TStep.Answer e → Option Int
  | .reap _, .zombie pid => some pid
  | .waitFails, _ => some (-1)
  | _, _ => none

def recorder : Rules tsignature (List Int) := ⟨fun _ _ => True, fun l e r l' => l' = (outcome e r).toList ++ l⟩

theorem recorder_lift {α : Type} (code : Code Books α) {l : List Int} :
    recorder.Keeps (Table.lift code) l fun _ l' => l' = l := by
  induction code generalizing l with
  | done a => rfl
  | step e next ih => exact ⟨trivial, fun r l' moved => moved ▸ ih r⟩

theorem recorder_scan (n : Nat) {q : Nat} {kids : Bool} :
    recorder.Keeps (Table.wait.scan kids q n) [] fun found l =>
      l = match found with
        | .ok pid => [pid]
        | .error _ => [] := by
  induction n generalizing q kids with
  | zero => rfl
  | succ n ih =>
    refine keeps_step trivial ?_
    rintro found _ rfl
    cases found with
    | other | child => exact ih
    | zombie pid => rfl

theorem recorder_wait (fuel : Nat) : recorder.Keeps (Table.wait fuel) [] fun r l => l = [r] := by
  have loop : ∀ fuel, recorder.Keeps (Table.wait.loop fuel) [] fun r l => l = [r] := by
    intro fuel
    induction fuel with
    | zero => exact ⟨trivial, nofun⟩
    | succ fuel ih =>
      refine keeps_seq (recorder_scan NPROC) ?_
      rintro found _ rfl
      cases found with
      | ok pid => exact keeps_seq (recorder_lift _) fun _ _ same => same
      | error kids =>
        refine keeps_step trivial ?_
        rintro killed _ rfl
        split
        · refine keeps_step trivial ?_
          rintro _ _ rfl
          exact keeps_seq (recorder_lift _) fun _ _ same => same
        · refine keeps_step trivial ?_
          rintro p _ rfl
          refine keeps_seq (recorder_lift _) ?_
          rintro _ _ rfl
          exact ih
  refine keeps_seq (recorder_lift _) ?_
  rintro _ _ rfl
  exact loop fuel

/-! ### The process table -/

/-- In every interleaving, while pids do not wrap around: processes have positive, different pids; every
process but the first has a parent that is in the table and has not exited; a process that has exited is
returned by one `wait`, called by its parent, and is a zombie until then; `wait` fails only without
children or when killed. -/
theorem process_table {c : Threads tsignature Table}
    (run : Threads.Reachable tmachine tcalls (fun _ _ _ => True) (Threads.initial tboot) c)
    (few : allocs c.state.data.history < 2 ^ 31 - 1) :
    (∀ q, (c.state.procs q).state ≠ .unused → 0 < (c.state.procs q).pid) ∧
    (∀ p q, p ≠ q → (c.state.procs p).state ≠ .unused → (c.state.procs q).state ≠ .unused →
      (c.state.procs p).pid ≠ (c.state.procs q).pid) ∧
    (∀ q, q ≠ initproc → (c.state.procs q).state ≠ .unused → (c.state.procs q).state ≠ .embryo →
      ∃ y, (c.state.procs q).parent = some y ∧ (c.state.procs y).state ≠ .unused ∧
        (c.state.procs y).state ≠ .zombie) ∧
    (∀ pid, 0 < exits c.state.data.history pid → exits c.state.data.history pid = 1 ∧ Settled c.state pid) ∧
    (∀ caller pid parent, .waited caller pid parent ∈ c.state.data.history →
      parent = some caller ∧ 0 < exits c.state.data.history pid) ∧
    (∀ caller children killed, .waitFailed caller children killed ∈ c.state.data.history →
      children = false ∨ killed = true) ∧
    ∀ fuel, recorder.Keeps (Table.wait fuel) [] fun r l => l = [r] := by
  have aimless : Threads.Reachable tmachine tcalls (fun c p e => False → Aimed c p e) (Threads.initial tboot) c :=
    Threads.reachable_mono run fun c p e _ => False.elim
  obtain ⟨t, ⟨inv, -⟩, books⟩ := reachable_orderly
    (J := fun s => allocs s.data.history < 2 ^ 31 - 1 → Pids s ∧ Exits s) (fun _ => ⟨pids_boot, exits_boot⟩)
    (fun inv may act before few => books_step (effect_step inv may act) before few) aimless
  obtain ⟨pids, exits⟩ := books few
  refine ⟨pids.positive, fun p q ne used _ same => ne (pids.distinct p q same (pids.positive p used)),
    fun q other used filled => ?_, exits.settled, exits.waited, exits.failed, recorder_wait⟩
  have slot := inv.slot q
  cases parent : (c.state.procs q).parent with
  | none => exact absurd (slot.orphan other parent) (by simp [used, filled])
  | some y =>
    refine ⟨y, rfl, ?_⟩
    rcases (slot.parent y parent).2 with alive | alive | alive <;> simp [alive]

def family : List Play :=
  [.start 0, .steps 0 2, .call 0 (.step (.fork true true) fun _ => .step (.wait 2) fun _ => .done ()), .steps 0 24,
    .start 1, .steps 1 2, .call 1 (.step .exit nofun), .steps 1 149, .steps 0 4]

theorem process_table_family :
    ∃ c, Threads.Reachable tmachine tcalls (fun _ _ _ => True) (Threads.initial tboot) c ∧
      c.state.data.history = [.waited 0 2 (some 0), .exit 2, .alloc 2, .alloc 1] ∧
      allocs c.state.data.history < 2 ^ 31 - 1 ∧ Settled c.state 2 := by
  have found : (play (fun _ => true) family (Threads.initial tboot)).any
      (fun c => c.state.data.history = [.waited 0 2 (some 0), .exit 2, .alloc 2, .alloc 1]) = true := by
    decide +kernel
  obtain ⟨c, plays, reached⟩ := (Option.any_eq_true _ _).mp found
  have history := of_decide_eq_true reached
  have run : Threads.Reachable tmachine tcalls (fun _ _ _ => True) (Threads.initial tboot) c :=
    reachable_play (fun _ _ _ _ => trivial) plays
  have few : allocs c.state.data.history < 2 ^ 31 - 1 := by
    rw [history]
    decide
  have exited : 0 < exits c.state.data.history 2 := by
    rw [history]
    decide
  exact ⟨c, run, history, few, ((process_table run few).2.2.2.1 2 exited).2⟩

end Espl.Sched
