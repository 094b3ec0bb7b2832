import Espl.Sched.Lifecycle

/-!
# What a process sees under the table's lock

`wait` goes to sleep after it has seen every slot, and `exit` reads its parent and wakes it before it
becomes a zombie. These are the rules that the code of the calls follows while it has `ptable.lock`.
-/

namespace Espl.Sched

open Rules (keeps_step keeps_seq keeps_mono keeps_last)

/-- What a process has done since it took `ptable.lock`: the slots it has seen without a dead child of its
own, whether it goes to sleep in `wait` and is on its own channel, the parent it has read, the processes it
has woken from their own channels, and does the first process still have to hear of a dead child. -/
structure Vigil where
  held : Bool := false
  seen : Nat := 0
  wait : Bool := false
  on : Bool := false
  parent : Option (Option Nat) := none
  woken : List Nat := []
  owes : Bool := false

namespace Vigil

def coreAllowed (v : Vigil) : Step Books → Prop
  | .acquire l => l = .ptable → v = {}
  | .release l => l = .ptable → v.wait = false ∧ v.owes = false
  | .setChan chan => v.held = true ∨ chan = .null
  | .setState _ => v.woken = [] ∧ (v.wait = true → v.on = true)
  | .sched => v.owes = false
  | .wake _ _ => v.held = true ∧ v.wait = false
  | .stop => v.held = true
  | _ => True

def coreMoves (p : Nat) (v : Vigil) : (e : Step Books) → Answer e → Vigil → Prop
  | .acquire l, _, v' => v' = if l = .ptable then { held := true } else v
  | .release l, _, v' => v' = if l = .ptable then {} else v
  | .setChan chan, _, v' => v' = { v with on := chan = .proc p }
  | .sched, _, v' => v' = { wait := v.wait }
  | .resume, _, v' => v' = { held := v.wait }
  | .wake q chan, _, v' =>
    v' = if chan = .proc q then { v with woken := q :: v.woken, owes := v.owes && q != initproc } else v
  | _, _, v' => v' = v

def allowed (v : Vigil) : TStep → Prop
  | .core e => v.coreAllowed e
  | .self => v.held = true ∧ v.seen = NPROC
  | .parent => v.held = true
  | .adopt _ => v.held = true
  | .setZombie =>
    v.wait = false ∧ v.owes = false ∧ ∃ o, v.parent = some o ∧ ∀ y, o = some y → y < NPROC → y ∈ v.woken
  | .reap _ => v.held = true
  | _ => True

def moves (p : Nat) (v : Vigil) : (e : TStep) → TStep.Answer e → Vigil → Prop
  | .core e, r, v' => v.coreMoves p e r v'
  | .self, r, v' => r = p ∧ v' = { v with wait := true }
  | .parent, r, v' => v' = { v with parent := some r }
  | .adopt _, r, v' => v' = { v with owes := v.owes || r }
  | .reap _, .zombie _, v' => v' = v
  | .reap q, _, v' => v' = { v with seen := if q = v.seen then q + 1 else v.seen }
  | .start, _, v' => v' = {}
  | _, _, v' => v' = v

def rules (p : Nat) : Rules tsignature Vigil := ⟨allowed, moves p⟩

def core (p : Nat) : Rules (signature Books) Vigil := ⟨coreAllowed, coreMoves p⟩

variable {p : Nat} {v : Vigil}

theorem keeps_lift {α : Type} {code : Code Books α} {Q : α → Vigil → Prop} (h : (core p).Keeps code v Q) :
    (rules p).Keeps (Table.lift code) v Q := by
  refine keeps_mono (Rules.keeps_interp (L := fun t u : Vigil => u = t) h rfl ?_) ?_
  · rintro e t _ may rfl
    exact ⟨may, fun r t' moves => ⟨t', rfl, moves⟩⟩
  · rintro a _ ⟨t', rfl, post⟩
    exact post

theorem core_acquire : (core p).Keeps (acquire .ptable) {} fun _ u => u = { held := true } :=
  ⟨fun _ => rfl, fun _ _ moved => moved⟩

theorem core_release (wait : v.wait = false) (owes : v.owes = false) :
    (core p).Keeps (release .ptable) v fun _ u => u = {} :=
  ⟨fun _ => ⟨wait, owes⟩, fun _ _ moved => moved⟩

structure Wakes (v u : Vigil) : Prop where
  same : u = { v with woken := u.woken, owes := u.owes }
  keeps : ∀ y ∈ v.woken, y ∈ u.woken
  owes : v.owes = false → u.owes = false

theorem core_wakeup1 (chan : Chan) (held : v.held = true) (wait : v.wait = false) :
    (core p).Keeps (wakeup1 chan) v fun _ u => Wakes v u ∧
      ∀ y < NPROC, chan = .proc y → y ∈ u.woken ∧ (y = initproc → u.owes = false) := by
  have loop : ∀ n q (v : Vigil), v.held = true → v.wait = false → (core p).Keeps (wakeup1.loop chan q n) v fun _ u =>
      Wakes v u ∧ ∀ y, q ≤ y → y < q + n → chan = .proc y → y ∈ u.woken ∧ (y = initproc → u.owes = false) := by
    intro n
    induction n with
    | zero => exact fun q v _ _ => ⟨⟨rfl, fun _ => id, id⟩, fun y ge lt => by omega⟩
    | succ n ih =>
      intro q v held wait
      refine keeps_step ⟨held, wait⟩ fun _ u moved => ?_
      by_cases hit : chan = .proc q
      · obtain rfl : u = { v with woken := q :: v.woken, owes := v.owes && q != initproc } := moved.trans (if_pos hit)
        refine keeps_mono (ih (q + 1) _ held wait) ?_
        rintro _ w ⟨wakes, rest⟩
        refine ⟨⟨?_, fun y member => wakes.keeps y (List.mem_cons_of_mem _ member), fun none =>
          wakes.owes (by simp [none])⟩, ?_⟩
        · rw [wakes.same]
        · intro y ge lt on
          obtain rfl : q = y := Chan.proc.inj (hit.symm.trans on)
          exact ⟨wakes.keeps q List.mem_cons_self, fun first => wakes.owes (by simp [first])⟩
      · obtain rfl : u = v := moved.trans (if_neg hit)
        refine keeps_mono (ih (q + 1) _ held wait) ?_
        rintro _ w ⟨wakes, rest⟩
        refine ⟨wakes, fun y ge lt on => rest y ?_ (by omega) on⟩
        by_contra less
        exact hit (on.trans (congrArg Chan.proc (by omega)))
  refine keeps_mono (loop NPROC 0 v held wait) ?_
  rintro _ u ⟨wakes, rest⟩
  exact ⟨wakes, fun y lt => rest y (Nat.zero_le _) (by omega)⟩

theorem core_wakeup (chan : Chan) : (core p).Keeps (wakeup chan) {} fun _ u => u = {} := by
  refine keeps_seq core_acquire ?_
  rintro _ _ rfl
  refine keeps_seq (core_wakeup1 chan rfl rfl) ?_
  rintro _ u ⟨wakes, -⟩
  exact core_release (by rw [wakes.same]) (wakes.owes rfl)

theorem core_kill (pid : Int) : (core p).Keeps (kill pid) {} fun _ u => u = {} := by
  have last : ∀ r : Int, (core p).Keeps (release .ptable >>= fun _ => pure r) { held := true } fun _ u => u = {} :=
    fun r => keeps_seq (core_release rfl rfl) fun _ _ same => same
  have loop : ∀ n q, (core p).Keeps (kill.loop pid q n) { held := true } fun _ u => u = {} := by
    intro n
    induction n with
    | zero => exact fun _ => last (-1)
    | succ n ih =>
      intro q
      refine keeps_step trivial ?_
      rintro found _ rfl
      split
      · refine keeps_step trivial ?_
        rintro _ _ rfl
        refine keeps_step trivial ?_
        rintro _ _ rfl
        exact last 0
      · exact ih (q + 1)
  refine keeps_seq core_acquire ?_
  rintro _ _ rfl
  exact loop NPROC 0

theorem core_yield : (core p).Keeps yield {} fun _ u => u = {} := by
  refine keeps_seq core_acquire ?_
  rintro _ _ rfl
  refine keeps_step ⟨rfl, nofun⟩ ?_
  rintro _ _ rfl
  refine keeps_step rfl ?_
  rintro _ _ rfl
  refine keeps_step trivial ?_
  rintro _ _ rfl
  exact core_release rfl rfl

theorem core_sleep (chan : Chan) (n : Nat) : (core p).Keeps (sleep chan (.other n)) {} fun _ u => u = {} := by
  unfold sleep
  simp only [ne_eq, reduceCtorEq, not_false_eq_true, if_true]
  refine keeps_seq core_acquire ?_
  rintro _ _ rfl
  refine keeps_step nofun fun _ u moved => ?_
  obtain rfl : u = { held := true } := moved
  refine keeps_step (Or.inl rfl) ?_
  rintro _ _ rfl
  refine keeps_step ⟨rfl, nofun⟩ ?_
  rintro _ _ rfl
  refine keeps_step rfl ?_
  rintro _ _ rfl
  refine keeps_step trivial ?_
  rintro _ _ rfl
  refine keeps_step (Or.inr rfl) ?_
  rintro _ _ rfl
  refine keeps_step (fun _ => ⟨rfl, rfl⟩) fun _ u moved => ?_
  obtain rfl : u = {} := moved
  exact keeps_last nofun fun _ _ moved => moved

theorem core_sleep_wait (held : v.held = true) (wait : v.wait = true) (woken : v.woken = []) (owes : v.owes = false) :
    (core p).Keeps (sleep (.proc p) .ptable) v fun _ u => u = { held := true } := by
  unfold sleep
  simp only [ne_eq, not_true_eq_false, if_false]
  refine keeps_step (Or.inl held) ?_
  rintro _ _ rfl
  refine keeps_step ⟨woken, fun _ => by simp⟩ ?_
  rintro _ _ rfl
  refine keeps_step owes ?_
  rintro _ _ rfl
  refine keeps_step trivial ?_
  rintro _ _ rfl
  refine keeps_last (Or.inr rfl) ?_
  rintro _ _ rfl
  simp [wait]

theorem keeps_work (o : WOp) : (rules p).Keeps o.code {} fun _ u => u = {} := by
  cases o with
  | acquire _ | release _ => exact keeps_lift ⟨nofun, fun _ _ moved => moved⟩
  | sleep chan n => exact keeps_lift (core_sleep chan n)
  | wakeup chan => exact keeps_lift (core_wakeup chan)
  | yield => exact keeps_lift core_yield

theorem keeps_allocproc (stack : Bool) : (rules p).Keeps (Table.allocproc stack) {} fun _ u => u = {} := by
  have find : ∀ n q, (rules p).Keeps (Table.allocproc.find q n) { held := true } fun _ u => u = {} := by
    intro n
    induction n with
    | zero =>
      exact fun q => keeps_seq (keeps_lift (core_release rfl rfl)) fun _ _ same => same
    | succ n ih =>
      intro q
      refine keeps_step trivial ?_
      rintro found _ rfl
      cases found with
      | true => exact keeps_seq (keeps_lift (core_release rfl rfl)) fun _ _ same => same
      | false => exact ih (q + 1)
  refine keeps_seq (keeps_lift core_acquire) ?_
  rintro _ _ rfl
  refine keeps_seq (find NPROC 0) ?_
  rintro found _ rfl
  cases found with
  | none => exact rfl
  | some q =>
    cases stack with
    | true | false => exact keeps_step trivial fun _ _ same => same

theorem keeps_fork (stack copy : Bool) : (rules p).Keeps (Table.fork stack copy) {} fun _ u => u = {} := by
  have files : ∀ q n fd, (rules p).Keeps (Table.fork.files q fd n) {} fun _ u => u = {} := by
    intro q n
    induction n with
    | zero => exact fun _ => rfl
    | succ n ih =>
      intro fd
      refine keeps_step trivial ?_
      rintro _ _ rfl
      exact ih (fd + 1)
  refine keeps_seq (keeps_allocproc stack) ?_
  rintro found _ rfl
  cases found with
  | none => exact rfl
  | some np =>
    cases copy with
    | true =>
      refine keeps_step trivial ?_
      rintro _ _ rfl
      refine keeps_seq (files np NOFILE 0) ?_
      rintro _ _ rfl
      refine keeps_step trivial ?_
      rintro pid _ rfl
      exact keeps_step trivial fun _ _ same => same
    | false => exact keeps_step trivial fun _ _ same => same

theorem keeps_exit {Q : Empty → Vigil → Prop} : (rules p).Keeps Table.exit {} Q := by
  have files : ∀ n fd, (rules p).Keeps (Table.exit.files fd n) {} fun _ u => u = {} := by
    intro n
    induction n with
    | zero => exact fun _ => rfl
    | succ n ih =>
      intro fd
      refine keeps_step trivial ?_
      rintro _ _ rfl
      exact ih (fd + 1)
  have children : ∀ n q (v : Vigil), v.held = true → v.wait = false → v.owes = false →
      (rules p).Keeps (Table.exit.children q n) v fun _ u => Wakes v u := by
    intro n
    induction n with
    | zero => exact fun q v _ _ _ => ⟨rfl, fun _ => id, id⟩
    | succ n ih =>
      intro q v held wait owes
      refine keeps_step held ?_
      rintro zombie _ rfl
      cases zombie with
      | true =>
        refine keeps_seq (keeps_lift (core_wakeup1 (.proc initproc) held wait)) ?_
        rintro _ u ⟨wakes, heard⟩
        have clear := (heard initproc (by decide) rfl).2 rfl
        have held' : u.held = true := by rw [wakes.same]; exact held
        have wait' : u.wait = false := by rw [wakes.same]; exact wait
        refine keeps_mono (ih (q + 1) u held' wait' clear) fun _ w wakes' => ⟨?_, ?_, fun _ => wakes'.owes clear⟩
        · rw [wakes'.same, wakes.same]
        · exact fun y member => wakes'.keeps y (wakes.keeps y member)
      | false =>
        have same : { v with owes := v.owes || false } = v := by rw [Bool.or_false]
        rw [same]
        exact ih (q + 1) v held wait owes
  refine keeps_step trivial ?_
  rintro _ _ rfl
  refine keeps_seq (files NOFILE 0) ?_
  rintro _ _ rfl
  refine keeps_seq (keeps_lift core_acquire) ?_
  rintro _ _ rfl
  refine keeps_step rfl ?_
  rintro parent _ rfl
  refine keeps_seq (keeps_lift (core_wakeup1 (parent.elim .null .proc) rfl rfl)) ?_
  rintro _ u ⟨wakes, heard⟩
  have held : u.held = true := by rw [wakes.same]
  have wait : u.wait = false := by rw [wakes.same]
  refine keeps_seq (children NPROC 0 u held wait (wakes.owes rfl)) fun _ w wakes' => ?_
  refine keeps_step ⟨by rw [wakes'.same]; exact wait, wakes'.owes (wakes.owes rfl), parent, ?_, ?_⟩ ?_
  · rw [wakes'.same, wakes.same]
  · rintro y rfl lt
    exact wakes'.keeps y (heard y lt rfl).1
  · rintro _ _ rfl
    refine keeps_seq (keeps_lift (Q := fun _ _ => True) ⟨wakes'.owes (wakes.owes rfl), fun _ _ _ =>
      ⟨trivial, fun _ _ _ => trivial⟩⟩)
      fun _ _ _ => ⟨trivial, nofun⟩

theorem keeps_wait (fuel : Nat) : (rules p).Keeps (Table.wait fuel) {} fun _ u => u = {} := by
  have scan : ∀ n q kids, q + n = NPROC → (rules p).Keeps (Table.wait.scan kids q n) { held := true, seen := q }
    fun found u =>
      (∃ k, u = { held := true, seen := k }) ∧ ∀ kids, found = .error kids → u = { held := true, seen := NPROC } := by
    intro n
    induction n with
    | zero =>
      rintro q kids rfl
      exact ⟨⟨_, rfl⟩, fun _ _ => rfl⟩
    | succ n ih =>
      intro q kids end_
      refine keeps_step rfl fun found u moved => ?_
      cases found with
      | other =>
        obtain rfl : u = { held := true, seen := q + 1 } := moved.trans (by simp)
        exact ih (q + 1) kids (by omega)
      | child =>
        obtain rfl : u = { held := true, seen := q + 1 } := moved.trans (by simp)
        exact ih (q + 1) true (by omega)
      | zombie pid =>
        obtain rfl : u = { held := true, seen := q } := moved
        exact ⟨⟨q, rfl⟩, fun _ same => (by cases same)⟩
  have loop : ∀ fuel, (rules p).Keeps (Table.wait.loop fuel) { held := true } fun _ u => u = {} := by
    intro fuel
    induction fuel with
    | zero => exact ⟨rfl, nofun⟩
    | succ fuel ih =>
      refine keeps_seq (scan NPROC 0 false (Nat.zero_add _)) ?_
      rintro found _ ⟨⟨k, rfl⟩, all⟩
      cases found with
      | ok pid => exact keeps_seq (keeps_lift (core_release rfl rfl)) fun _ _ same => same
      | error kids =>
        obtain rfl : k = NPROC := congrArg seen (all kids rfl)
        refine keeps_step trivial ?_
        rintro killed _ rfl
        split
        · refine keeps_step trivial ?_
          rintro _ _ rfl
          exact keeps_seq (keeps_lift (core_release rfl rfl)) fun _ _ same => same
        · refine keeps_step ⟨rfl, rfl⟩ ?_
          rintro _ _ ⟨rfl, rfl⟩
          refine keeps_seq (keeps_lift (core_sleep_wait rfl rfl rfl rfl)) ?_
          rintro _ _ rfl
          exact ih
  refine keeps_seq (keeps_lift core_acquire) ?_
  rintro _ _ rfl
  exact loop fuel

theorem keeps_op (o : TOp) : (rules p).Keeps o.code {} fun _ u => u = {} := by
  cases o with
  | fork stack copy => exact keeps_fork stack copy
  | exit => exact keeps_exit
  | wait fuel => exact keeps_wait fuel
  | kill pid => exact keeps_lift (core_kill pid)
  | killed | setFile _ _ => exact ⟨trivial, fun _ _ same => same⟩
  | work o => exact keeps_work o

theorem keeps_forkret : (rules p).Keeps Table.forkret v fun _ u => u = {} := by
  refine keeps_step trivial ?_
  rintro _ _ rfl
  exact keeps_lift (core_release rfl rfl)

end Vigil

end Espl.Sched
