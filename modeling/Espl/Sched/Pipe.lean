import Espl.Sched.Sleep

/-!
# Pipes

`pipewrite`, `piperead` and `pipeclose` of `pipe.c` on one pipe, by any number of processes that can be
killed at any time. Readers sleep on `&p->nread` while the pipe is empty, writers on `&p->nwrite` while
it is full.
-/

namespace Espl.Sched

open Threads
open Rules (keeps_step keeps_seq)

abbrev PIPESIZE : UInt32 := 512

structure Pipe where
  data : Nat → UInt8
  nread : UInt32
  nwrite : UInt32
  readopen : Bool
  writeopen : Bool

namespace Pipe

def lock : Lock := .other 0

def nreadChan : Chan := .data 0

def nwriteChan : Chan := .data 1

def empty (p : Pipe) : Bool := p.nread == p.nwrite

def full (p : Pipe) : Bool := p.nwrite == p.nread + PIPESIZE

/-- `p->data[p->nwrite++ % PIPESIZE] = b`. The code has just found the pipe not full. -/
def put (b : UInt8) (p : Pipe) : Pipe :=
  if p.full then p
  else { p with data := Function.update p.data (p.nwrite % PIPESIZE).toNat b, nwrite := p.nwrite + 1 }

/-- `p->nread++`. The code has just found the pipe not empty. -/
def advance (p : Pipe) : Pipe := if p.empty then p else { p with nread := p.nread + 1 }

/-- `p->data[p->nread % PIPESIZE]`. -/
def front (p : Pipe) : UInt8 := p.data (p.nread % PIPESIZE).toNat

end Pipe

open Pipe

abbrev PipeCode : Type → Type := Program (ops Pipe)

/-- The inner loop of `pipewrite`: whether there is room now, or the caller gives up. -/
def pipewrite.room : Nat → PipeCode Bool
  | 0 => .step .stop nofun
  | fuel + 1 => do
    let p : Pipe ← op .get
    if p.full then do
      let killed : Bool ← op .killed
      if !p.readopen || killed then do
        op .mark
        op (.release lock)
        return false
      else do
        op (.wakeup nreadChan)
        op (.sleep nwriteChan lock)
        pipewrite.room fuel
    else return true

def pipewrite.loop (fuel : Nat) : List UInt8 → PipeCode Bool
  | [] => return true
  | b :: rest => do
    let room : Bool ← pipewrite.room fuel
    if room then do
      op (.upd (put b))
      pipewrite.loop fuel rest
    else return false

/-- `pipewrite` of the bytes `src`; each wait is cut off after `fuel` rounds. -/
def pipewrite (fuel : Nat) (src : List UInt8) : PipeCode Int := do
  op (.acquire lock)
  let written : Bool ← pipewrite.loop fuel src
  if written then do
    op (.wakeup nreadChan)
    op (.release lock)
    return src.length
  else return -1

/-- The first loop of `piperead`: whether there is something to read or the writers are gone, or the
caller gives up. -/
def piperead.ready : Nat → PipeCode Bool
  | 0 => .step .stop nofun
  | fuel + 1 => do
    let p : Pipe ← op .get
    if p.empty && p.writeopen then do
      let killed : Bool ← op .killed
      if killed then do
        op (.release lock)
        return false
      else do
        op (.sleep nreadChan lock)
        piperead.ready fuel
    else return true

def piperead.copy (read : List UInt8) : Nat → PipeCode (List UInt8)
  | 0 => return read
  | n + 1 => do
    let p : Pipe ← op .get
    if p.empty then return read
    else do
      op (.upd advance)
      piperead.copy (read ++ [p.front]) n

/-- `piperead` of at most `n` bytes: the bytes, or none for `-1`. -/
def piperead (fuel : Nat) (n : Int) : PipeCode (Option (List UInt8)) := do
  op (.acquire lock)
  let ready : Bool ← piperead.ready fuel
  if ready then do
    let read ← piperead.copy [] n.toNat
    op (.wakeup nwriteChan)
    op (.release lock)
    return some read
  else return none

def pipeclose (writable : Bool) : PipeCode Unit := do
  op (.acquire lock)
  if writable then do
    op (.upd fun p => { p with writeopen := false })
    op (.wakeup nreadChan)
  else do
    op (.upd fun p => { p with readopen := false })
    op (.wakeup nwriteChan)
  -- the page goes back to the allocator if both ends are closed
  op (.release lock)

inductive PipeCall : PipeCode Unit → Prop where
  | write (fuel : Nat) (src : List UInt8) : PipeCall (pipewrite fuel src >>= fun _ => pure ())
  | read (fuel : Nat) (n : Int) : PipeCall (piperead fuel n >>= fun _ => pure ())
  | close (writable : Bool) : PipeCall (pipeclose writable)
  | kill (pid : Int) : PipeCall (op (.kill pid) >>= fun _ => pure ())

def pipeCalls (p : Nat) (_ : State Pipe) (current prog : Code Pipe Unit) : Prop :=
  p < NPROC ∧ current = .done () ∧ ∃ body, PipeCall body ∧ prog = body.interp Op.code

def Dozing (c : Threads (signature Pipe) (State Pipe)) (chan : Chan) (p : Nat) : Prop :=
  c.state.Asleep chan p ∨ (∃ next, c.thread p = .step (.setChan chan) next) ∨
    (c.state.procs p).chan = chan ∧ ∃ next, c.thread p = .step (.setState .sleeping) next

/-- A `pipewrite` that gives up leaves no reader asleep. -/
def Noticed (c : Threads (signature Pipe) (State Pipe)) (_ : Nat) (e : Step Pipe) : Prop :=
  e = .mark → ∀ q, ¬ Dozing c nreadChan q

/-! ### Readers and writers wait for something -/

def readers : Watch Pipe := ⟨lock, fun p => !(p.empty && p.writeopen), nreadChan, True, True⟩

def writers : Watch Pipe := ⟨lock, fun p => !(p.full && p.readopen), nwriteChan, True, False⟩

theorem full_not_empty {p : Pipe} (full : p.full = true) : p.empty = false := by
  simp only [Pipe.full, Pipe.empty, beq_iff_eq] at full ⊢
  rw [full]
  simp only [beq_eq_false_iff_ne, ne_eq]
  intro same
  have size := congrArg UInt32.toNat same
  have lt := p.nread.toNat_lt
  simp only [UInt32.toNat_add, PIPESIZE, UInt32.reduceToNat] at size
  omega

theorem readers_quiet_advance : readers.Quiet advance := by
  intro p cond
  unfold advance at cond
  split at cond
  · exact cond
  · rename_i some
    simp [readers, some]

theorem writers_quiet_put (b : UInt8) : writers.Quiet (put b) := by
  intro p cond
  unfold put at cond
  split at cond
  · exact cond
  · rename_i room
    simp [writers, room]

/-- Inside a critical section of the pipe; `due` says whether a wakeup may be outstanding. -/
def Held.Within (due : Prop) (u : Held) : Prop := u.lk = true ∧ u.pt = false ∧ (u.due = true → due)

def Held.Out (u : Held) : Prop := u.lk = false ∧ u.pt = false ∧ u.due = false

theorem readers_room (fuel : Nat) {u : Held} (h : u.Within True) :
    readers.callers.Keeps (pipewrite.room fuel) u fun ok u => if ok then u.Within True else u.Out := by
  induction fuel generalizing u with
  | zero => exact ⟨trivial, nofun⟩
  | succ fuel ih =>
    refine keeps_step trivial ?_
    rintro (p : Pipe) _ rfl
    split
    · rename_i full
      refine keeps_step trivial ?_
      rintro (killed : Bool) _ rfl
      split
      · refine keeps_step trivial ?_
        rintro _ _ (⟨_, rfl⟩ | ⟨unmarked, _⟩)
        · refine keeps_step (fun _ _ => rfl) ?_
          rintro _ _ rfl
          exact ⟨by simp [Watch.leave, readers], by simp [Watch.leave, h.2.1], rfl⟩
        · exact absurd trivial unmarked
      · refine keeps_step trivial ?_
        rintro _ _ rfl
        refine keeps_step ⟨fun same => (by cases same), fun same => (by cases same), fun _ =>
          ⟨by decide, fun _ => ?_⟩⟩ ?_
        · refine ⟨by simp [readers], fun calm => ?_⟩
          simp [Watch.leave, readers, full_not_empty full] at calm
        · rintro _ _ rfl
          exact ih ⟨by simp [Watch.hold, readers], by simp [Watch.hold, Watch.leave, lock], fun _ => trivial⟩
    · exact ⟨h.1, h.2.1, fun _ => trivial⟩

theorem writers_room (fuel : Nat) {u : Held} (h : u.Within False) :
    writers.callers.Keeps (pipewrite.room fuel) u fun ok u => if ok then u.Within False else u.Out := by
  have paid : u.due = false := by
    cases due : u.due with
    | false => rfl
    | true => exact (h.2.2 due).elim
  induction fuel generalizing u with
  | zero => exact ⟨trivial, nofun⟩
  | succ fuel ih =>
    refine keeps_step trivial ?_
    rintro (p : Pipe) _ rfl
    split
    · rename_i full
      refine keeps_step trivial ?_
      rintro (killed : Bool) _ rfl
      split
      · refine keeps_step trivial ?_
        rintro _ _ (⟨marked, _⟩ | ⟨_, rfl⟩)
        · exact marked.elim
        · refine keeps_step (fun _ _ => paid) ?_
          rintro _ _ rfl
          exact ⟨by simp [Watch.leave, writers], by simp [Watch.leave, h.2.1], paid⟩
      · rename_i goes
        refine keeps_step trivial ?_
        rintro _ _ rfl
        refine keeps_step ⟨fun _ => ⟨rfl, ?_⟩, fun same => (by cases same), fun _ => ⟨by decide, fun _ => ?_⟩⟩ ?_
        · simp only [Bool.or_eq_true, Bool.not_eq_true', not_or, Bool.not_eq_false] at goes
          simp [Watch.leave, writers, h.1, full, goes.1, lock]
        · exact ⟨by simp [paid], fun _ => rfl⟩
        · rintro _ _ rfl
          refine ih ⟨by simp [Watch.hold, writers], by simp [Watch.hold, Watch.leave, lock], fun due => ?_⟩ ?_
          · simp [Watch.hold, Watch.leave, paid] at due
          · simp [Watch.hold, Watch.leave, paid]
    · exact ⟨h.1, h.2.1, h.2.2⟩

theorem readers_ready (fuel : Nat) {u : Held} (h : u.Within False) :
    readers.callers.Keeps (piperead.ready fuel) u fun ok u => if ok then u.Within False else u.Out := by
  have paid : u.due = false := by simpa using h.2.2
  induction fuel generalizing u with
  | zero => exact ⟨trivial, nofun⟩
  | succ fuel ih =>
    refine keeps_step trivial ?_
    rintro (p : Pipe) _ rfl
    split
    · rename_i waits
      refine keeps_step trivial ?_
      rintro (killed : Bool) _ rfl
      split
      · refine keeps_step (fun _ _ => paid) ?_
        rintro _ _ rfl
        exact ⟨by simp [Watch.leave, readers], by simp [Watch.leave, h.2.1], paid⟩
      · refine keeps_step ⟨fun _ => ⟨rfl, ?_⟩, fun same => (by cases same), fun _ => ⟨by decide, fun _ => ?_⟩⟩ ?_
        · simp [readers, h.1, waits]
        · exact ⟨paid, fun _ => rfl⟩
        · rintro _ _ rfl
          refine ih ⟨by simp [Watch.hold, readers], by simp [Watch.hold, Watch.leave, lock], fun due => ?_⟩ ?_
          · simp [Watch.hold, Watch.leave, paid] at due
          · simp [Watch.hold, Watch.leave, paid]
    · exact ⟨h.1, h.2.1, h.2.2⟩

theorem writers_ready (fuel : Nat) {u : Held} (h : u.Within False) :
    writers.callers.Keeps (piperead.ready fuel) u fun ok u => if ok then u.Within False else u.Out := by
  have paid : u.due = false := by simpa using h.2.2
  induction fuel generalizing u with
  | zero => exact ⟨trivial, nofun⟩
  | succ fuel ih =>
    refine keeps_step trivial ?_
    rintro (p : Pipe) _ rfl
    split
    · rename_i waits
      have room : p.full = false := by
        cases full : p.full with
        | false => rfl
        | true => simp [full_not_empty full] at waits
      refine keeps_step trivial ?_
      rintro (killed : Bool) _ rfl
      split
      · refine keeps_step (fun _ _ => paid) ?_
        rintro _ _ rfl
        exact ⟨by simp [Watch.leave, writers], by simp [Watch.leave, h.2.1], paid⟩
      · refine keeps_step ⟨fun same => (by cases same), fun same => (by cases same),
          fun _ => ⟨by decide, fun _ => ⟨paid, fun calm => ?_⟩⟩⟩ ?_
        · simp [writers, room] at calm
        · rintro _ _ rfl
          refine ih ⟨by simp [Watch.hold, writers], by simp [Watch.hold, Watch.leave, lock], fun due => ?_⟩ ?_
          · simp [Watch.hold, Watch.leave, paid] at due
          · simp [Watch.hold, Watch.leave, paid]
    · exact ⟨h.1, h.2.1, h.2.2⟩

section

variable {W : Watch Pipe} {D : Prop} {u : Held}

theorem Held.Within.upd {f : Pipe → Pipe} {u' : Held} (h : u.Within D) (may : W.Quiet f ∨ D)
    (moved : W.afterCall u (.upd f) () u') : u'.Within D := by
  rcases moved with ⟨_, rfl⟩ | ⟨loud, rfl⟩
  · exact h
  · exact ⟨h.1, h.2.1, fun _ => may.resolve_left loud⟩

theorem keeps_loop (fuel : Nat) (src : List UInt8) (h : u.Within D) (quiet : ∀ b, W.Quiet (put b) ∨ D)
    (room : ∀ u : Held, u.Within D →
      W.callers.Keeps (pipewrite.room fuel) u fun ok u => if ok then u.Within D else u.Out) :
    W.callers.Keeps (pipewrite.loop fuel src) u fun ok u => if ok then u.Within D else u.Out := by
  induction src generalizing u with
  | nil => exact h
  | cons b rest ih =>
    refine keeps_seq (room u h) fun ok u' within => ?_
    cases ok with
    | false => exact within
    | true =>
      refine keeps_step (Or.inl within.1) fun r u'' moved => ?_
      exact ih (Held.Within.upd within (quiet b) moved)

theorem keeps_copy (n : Nat) {read : List UInt8} (h : u.Within D) (quiet : W.Quiet advance ∨ D) :
    W.callers.Keeps (piperead.copy read n) u fun _ u => u.Within D := by
  induction n generalizing u read with
  | zero => exact h
  | succ n ih =>
    refine keeps_step trivial ?_
    rintro (p : Pipe) _ rfl
    split
    · exact h
    · refine keeps_step (Or.inl h.1) fun r u'' moved => ?_
      exact ih (Held.Within.upd (u := { u with calm := u.lk && !W.cond p }) h quiet moved)

theorem keeps_finish {α : Type} {a : α} {chan : Chan} (mine : W.lk = lock) (h : u.Within D) (pays : D → chan = W.chan) :
    W.callers.Keeps (op (.wakeup chan) >>= fun _ => op (.release lock) >>= fun _ => pure a) u fun _ u => u.Out := by
  have paid : (u.due && chan != W.chan) = false := by
    cases owed : u.due with
    | false => rfl
    | true => simp [pays (h.2.2 owed)]
  refine keeps_step trivial ?_
  rintro _ _ rfl
  refine keeps_step (fun _ _ => paid) ?_
  rintro _ _ rfl
  exact ⟨by simp [Watch.leave, mine], by simp [Watch.leave, h.2.1], by simpa [Watch.leave] using paid⟩

theorem follows_pipewrite (mine : W.lk = lock) (fuel : Nat) (src : List UInt8) (quiet : ∀ b, W.Quiet (put b) ∨ D)
    (pays : D → nreadChan = W.chan)
    (room : ∀ u : Held, u.Within D →
      W.callers.Keeps (pipewrite.room fuel) u fun ok u => if ok then u.Within D else u.Out) :
    W.Follows (pipewrite fuel src >>= fun _ => pure ()) := by
  refine keeps_seq (Q := fun _ u => u.Out) ?_ fun _ _ out => out
  refine keeps_step (fun _ => by decide) ?_
  rintro _ _ rfl
  refine keeps_seq (keeps_loop fuel src ⟨by simp [Watch.hold, mine], rfl, nofun⟩ quiet room) fun ok u' within => ?_
  cases ok with
  | false => exact within
  | true => exact keeps_finish mine within pays

theorem follows_piperead (mine : W.lk = lock) (fuel : Nat) (n : Int) (quiet : W.Quiet advance ∨ D)
    (pays : D → nwriteChan = W.chan)
    (ready : ∀ u : Held, u.Within False →
      W.callers.Keeps (piperead.ready fuel) u fun ok u => if ok then u.Within False else u.Out) :
    W.Follows (piperead fuel n >>= fun _ => pure ()) := by
  refine keeps_seq (Q := fun _ u => u.Out) ?_ fun _ _ out => out
  refine keeps_step (fun _ => by decide) ?_
  rintro _ _ rfl
  refine keeps_seq (ready _ ⟨by simp [Watch.hold, mine], rfl, nofun⟩) fun ok u' within => ?_
  cases ok with
  | false => exact within
  | true =>
    have inside : u'.Within D := ⟨within.1, within.2.1, fun owed => (within.2.2 owed).elim⟩
    refine keeps_seq (keeps_copy n.toNat inside quiet) fun read u'' within' => ?_
    exact keeps_finish mine within' pays

theorem follows_kill (pid : Int) : W.Follows (op (.kill pid) >>= fun _ => pure ()) := by
  refine keeps_step trivial ?_
  rintro _ _ rfl
  exact ⟨rfl, rfl, rfl⟩

theorem follows_pipeclose (mine : W.lk = lock) (writable : Bool)
    (closeWrite : W.Quiet (fun p => { p with writeopen := false }) ∨ nreadChan = W.chan)
    (closeRead : W.Quiet (fun p => { p with readopen := false }) ∨ nwriteChan = W.chan) :
    W.Follows (pipeclose writable) := by
  refine keeps_step (fun _ => by decide) ?_
  rintro _ _ rfl
  have start : ∀ D, Held.Within D (W.hold lock {}) := fun _ => ⟨by simp [Watch.hold, mine], rfl, nofun⟩
  cases writable with
  | true =>
    refine keeps_step (Or.inl (start True).1) fun r u' moved => ?_
    exact keeps_finish (a := ()) mine (Held.Within.upd (start (nreadChan = W.chan)) closeWrite moved) id
  | false =>
    refine keeps_step (Or.inl (start True).1) fun r u' moved => ?_
    exact keeps_finish (a := ()) mine (Held.Within.upd (start (nwriteChan = W.chan)) closeRead moved) id

end

theorem readers_follow {body : PipeCode Unit} (call : PipeCall body) : readers.Follows body := by
  cases call with
  | write fuel src =>
    exact follows_pipewrite (D := True) rfl fuel src (fun _ => Or.inr trivial) (fun _ => rfl) fun _ => readers_room fuel
  | read fuel n =>
    exact follows_piperead (D := False) rfl fuel n (Or.inl readers_quiet_advance) False.elim fun _ => readers_ready fuel
  | close writable => exact follows_pipeclose rfl writable (Or.inr rfl) (Or.inl fun p cond => cond)
  | kill pid => exact follows_kill pid

theorem writers_follow {body : PipeCode Unit} (call : PipeCall body) : writers.Follows body := by
  cases call with
  | write fuel src =>
    exact follows_pipewrite (D := False) rfl fuel src (fun b => Or.inl (writers_quiet_put b)) False.elim
      fun _ => writers_room fuel
  | read fuel n =>
    exact follows_piperead (D := True) rfl fuel n (Or.inr trivial) (fun _ => rfl) fun _ => writers_ready fuel
  | close writable => exact follows_pipeclose rfl writable (Or.inl fun p cond => cond) (Or.inr rfl)
  | kill pid => exact follows_kill pid

/-! ### Every interleaving -/

theorem pipeCalls_calls {W : Watch Pipe} (follow : ∀ {body}, PipeCall body → W.Follows body) {p : Nat}
    {s : State Pipe} {current prog : Code Pipe Unit} (call : pipeCalls p s current prog) :
    W.calls p s current prog := by
  obtain ⟨lt, idle, body, call, same⟩ := call
  exact ⟨lt, idle, body, follow call, same⟩

theorem reachable_calls {W : Watch Pipe} (follow : ∀ {body}, PipeCall body → W.Follows body)
    {A : Threads (signature Pipe) (State Pipe) → Nat → Step Pipe → Prop} {c c' : Threads (signature Pipe) (State Pipe)}
    (run : Reachable (machine Pipe) pipeCalls A c c') : Reachable (machine Pipe) W.calls A c c' := by
  refine Relation.ReflTransGen.mono (fun a b turn => ?_) _ _ run
  cases turn with
  | call call => exact .call (pipeCalls_calls follow call)
  | step at_step meets act => exact .step at_step meets act

theorem dozing_of_dozes {W : Watch Pipe} {c : Threads (signature Pipe) (State Pipe)} {t : Nat → Local} {q : Nat}
    (prompt : W.prompt) (within : Threads.Within W.rules W.Inv Watch.Rests c t) (dozes : W.Dozes c.state t q) :
    Dozing c W.chan q := by
  rcases dozes with asleep | gone
  · exact Or.inl asleep
  · cases at_ : c.thread q with
    | done a =>
      have out := (within.rests at_).2.1
      rw [(within.1.own q).gone gone] at out
      cases out
    | step e next =>
      have may := within.allowed at_
      cases e with
      | setChan chan =>
        obtain rfl := may.2 prompt gone
        exact Or.inr (Or.inl ⟨next, at_⟩)
      | setState state =>
        obtain ⟨rfl, on⟩ := may.2.2.2 prompt gone
        exact Or.inr (Or.inr ⟨(within.1.own q).on.mp on, next, at_⟩)
      | sched | resume => exact absurd gone (may prompt)
      | release _ | wake _ _ | upd _ => exact absurd gone (may.2.1 prompt)
      | mark => exact absurd gone may.2
      | _ => exact absurd gone (may.2 prompt)

theorem waits_of_free {W : Watch Pipe} {c : Threads (signature Pipe) (State Pipe)} {t : Nat → Local} {p : Nat}
    (prompt : W.prompt) (within : Threads.Within W.rules W.Inv Watch.Rests c t) (free : c.state.lock W.lk = none)
    (asleep : c.state.Asleep W.chan p) : W.cond c.state.data = false := by
  by_contra yes
  obtain ⟨q, due⟩ := within.1.pending p (Or.inl asleep) (by simpa using yes)
  have held := (within.1.own q).lk ((within.1.own q).prompt prompt due)
  rw [free] at held
  cases held

/-- Unless a `pipewrite` gives up while a reader sleeps, readers sleep on an empty pipe with writers and
writers on a full pipe with readers. -/
theorem pipe_sleepers {s : State Pipe} {c : Threads (signature Pipe) (State Pipe)}
    (awake : ∀ p, (s.procs p).state ≠ .sleeping)
    (run : Reachable (machine Pipe) pipeCalls Noticed (.initial s) c) (free : c.state.lock lock = none) :
    (∀ p, c.state.Asleep nreadChan p → c.state.data.nread = c.state.data.nwrite ∧ c.state.data.writeopen = true) ∧
    ∀ p, c.state.Asleep nwriteChan p →
      c.state.data.nwrite = c.state.data.nread + PIPESIZE ∧ c.state.data.readopen = true := by
  obtain ⟨t, reads⟩ := Watch.reachable_inv (W := readers) (fun _ => by decide) awake
    (reachable_calls readers_follow run) fun _ c t p within noticed q dozes =>
      noticed rfl q (dozing_of_dozes (W := readers) trivial within dozes)
  obtain ⟨t', writes⟩ := Watch.reachable_inv (W := writers) (fun _ => by decide) awake
    (reachable_calls writers_follow run) False.elim
  refine ⟨fun p asleep => ?_, fun p asleep => ?_⟩
  · have waits := waits_of_free (W := readers) trivial reads free asleep
    simpa [readers, Pipe.empty] using waits
  · have waits := waits_of_free (W := writers) trivial writes free asleep
    simpa [writers, Pipe.full] using waits

def pipeStart : State Pipe where
  lock _ := none
  ncli _ := 0
  procs p := { state := .running, chan := .null, killed := false, pid := p + 1 }
  data := ⟨fun _ => 0, 0, 0, true, true⟩

/-- Process 0 reads, process 1 writes `n` bytes and process 2 kills process 1. -/
def pipeThreads (n : Nat) : Nat → Code Pipe Unit :=
  Function.update (Function.update (Function.update (fun _ => .done ())
    0 ((piperead 1 1 >>= fun _ => pure ()).interp Op.code))
    1 ((pipewrite 1 (List.replicate n 0) >>= fun _ => pure ()).interp Op.code))
    2 ((op (.kill 2) >>= fun _ => pure ()).interp Op.code)

theorem reachable_pipeThreads {A : Threads (signature Pipe) (State Pipe) → Nat → Step Pipe → Prop} (n : Nat) :
    Reachable (machine Pipe) pipeCalls A (.initial pipeStart) ⟨pipeStart, pipeThreads n⟩ := by
  have reads : pipeCalls 0 pipeStart (.done ()) _ := ⟨by decide, rfl, _, .read 1 1, rfl⟩
  have writes : pipeCalls 1 pipeStart (.done ()) _ := ⟨by decide, rfl, _, .write 1 (List.replicate n 0), rfl⟩
  have kills : pipeCalls 2 pipeStart (.done ()) _ := ⟨by decide, rfl, _, .kill 2, rfl⟩
  exact ((Reachable.call Relation.ReflTransGen.refl reads).call writes).call kills

/-- The reader sleeps on the empty pipe, the writer is killed while it fills the pipe and gives up. -/
theorem pipewrite_killed :
    ∃ c, Reachable (machine Pipe) pipeCalls (fun _ _ _ => True) (.initial pipeStart) c ∧
      c.state.lock lock = none ∧ c.state.Asleep nreadChan 0 ∧
      c.state.data.nwrite = c.state.data.nread + PIPESIZE ∧ c.state.data.nread ≠ c.state.data.nwrite := by
  have found : (schedule (machine Pipe) (fun _ => true) [(0, 8), (2, 6), (1, 1029)]
      ⟨pipeStart, pipeThreads 513⟩).any (fun c => c.state.lock lock = none ∧ c.state.Asleep nreadChan 0 ∧
        c.state.data.nwrite = c.state.data.nread + PIPESIZE ∧ c.state.data.nread ≠ c.state.data.nwrite) = true := by
    decide +kernel
  obtain ⟨c, turns, reached⟩ := (Option.any_eq_true _ _).mp found
  exact ⟨c, (reachable_pipeThreads 513).trans (reachable_schedule (fun _ _ _ _ => trivial) turns),
    of_decide_eq_true reached⟩

def Step.plain : Step Pipe → Bool
  | .mark => false
  | _ => true

/-- The pipe is full and process 1 has been killed. -/
def pipeFull : State Pipe where
  lock _ := none
  ncli _ := 0
  procs p := { state := .running, chan := .null, killed := p = 1, pid := p + 1 }
  data := ⟨fun _ => 0, 0, 512, true, true⟩

/-- The killed writer gives up while nobody reads, another one sleeps. -/
theorem pipe_sleepers_writer :
    ∃ c, Reachable (machine Pipe) pipeCalls Noticed (.initial pipeFull) c ∧ c.state.lock lock = none ∧
      c.state.Asleep nwriteChan 0 ∧
      (∀ p, c.state.Asleep nreadChan p → c.state.data.nread = c.state.data.nwrite ∧ c.state.data.writeopen = true) ∧
      ∀ p, c.state.Asleep nwriteChan p →
        c.state.data.nwrite = c.state.data.nread + PIPESIZE ∧ c.state.data.readopen = true := by
  have write : ∀ p < NPROC, pipeCalls p pipeFull (.done ()) _ := fun p lt => ⟨lt, rfl, _, .write 1 [0], rfl⟩
  obtain ⟨c₁, gives, found⟩ : ∃ c₁, Reachable (machine Pipe) pipeCalls Noticed (.initial pipeFull) c₁ ∧
      (schedule (machine Pipe) Step.plain [(0, 74)] c₁).any
        (fun c => c.state.lock lock = none ∧ c.state.Asleep nwriteChan 0) = true := by
    refine ⟨_, .trans ((Reachable.call .refl (write 0 (by decide))).call (write 1 (by decide))) <|
      .head (.step (p := 1) rfl (fun mark => by cases mark) rfl) <| .head
        (.step (p := 1) rfl (fun mark => by cases mark) rfl) <|
      .head (.step (p := 1) rfl (fun mark => by cases mark) rfl) <| .head (.step (p := 1) rfl (fun _ => ?_) rfl) <|
      .head (.step (p := 1) rfl (fun mark => by cases mark) rfl) .refl, by decide +kernel⟩
    rintro q (asleep | ⟨next, is⟩ | ⟨-, next, is⟩)
    · cases asleep.1
    all_goals rcases q with _ | _ | q <;> cases is
  obtain ⟨c, turns, reached⟩ := (Option.any_eq_true _ _).mp found
  obtain ⟨free, asleep⟩ := of_decide_eq_true reached
  have run := gives.trans (reachable_schedule (fun _ _ _ plain mark => by subst mark; cases plain) turns)
  exact ⟨c, run, free, asleep, pipe_sleepers (fun _ h => (by cases h)) run free⟩

end Espl.Sched
