import Espl.Program.RingBuffer
import Espl.Sched.Monitor
import Espl.Sched.Pipe

/-!
# Pipes are first in, first out

The code of `pipe.c` with notes of the bytes that writers store and of what readers return. The counters
`nread` and `nwrite` run freely and wrap around; what lies between them is what has been stored and not
yet returned.
-/

namespace Espl.Sched

open Monitor
open Rules
open Pipe Program

/-- A `piperead` of at most `n` bytes that has returned: the bytes, and as it returned whether the write
end was open, the bytes stored by then and the bytes returned before. -/
structure Read where
  n : Int
  bytes : List UInt8
  writeopen : Bool
  stored : List UInt8
  returned : List UInt8

structure History where
  stored : List UInt8 := []
  reads : List Read := []

def History.returned (h : History) : List UInt8 := (h.reads.map Read.bytes).flatten

inductive Transfer where
  | stored (b : UInt8)
  | read (n : Int) (bytes : List UInt8)

def Transfer.log : Transfer → Pipe → History → History
  | .stored b, _, h => { h with stored := h.stored ++ [b] }
  | .read n bytes, p, h => { h with reads := h.reads ++ [⟨n, bytes, p.writeopen, h.stored, h.returned⟩] }

/-! ### The code with notes -/

abbrev TracedCode : Type → Type := Program ((ops Pipe).noted Transfer)

def Traced.pipewrite.loop (fuel : Nat) : List UInt8 → TracedCode Bool
  | [] => return true
  | b :: rest => do
    let room : Bool ← (Sched.pipewrite.room fuel).lift
    if room then do
      perform (.upd (put b))
      note (.stored b)
      Traced.pipewrite.loop fuel rest
    else return false

def Traced.pipewrite (fuel : Nat) (src : List UInt8) : TracedCode Int := do
  perform (.acquire lock)
  let written : Bool ← Traced.pipewrite.loop fuel src
  if written then do
    perform (.wakeup nreadChan)
    perform (.release lock)
    return src.length
  else return -1

def Traced.piperead (fuel : Nat) (n : Int) : TracedCode (Option (List UInt8)) := do
  perform (.acquire lock)
  let ready : Bool ← (Sched.piperead.ready fuel).lift
  if ready then do
    let read ← (Sched.piperead.copy [] n.toNat).lift
    perform (.wakeup nwriteChan)
    note (.read n read)
    perform (.release lock)
    return some read
  else return none

inductive TracedCall : TracedCode Unit → Prop where
  | write (fuel : Nat) (src : List UInt8) : TracedCall (Traced.pipewrite fuel src >>= fun _ => pure ())
  | read (fuel : Nat) (n : Int) : TracedCall (Traced.piperead fuel n >>= fun _ => pure ())
  | close (writable : Bool) : TracedCall (pipeclose writable).lift
  | kill (pid : Int) : TracedCall (perform (.kill pid) >>= fun _ => pure ())

abbrev TracedState : Type := State Pipe × History

abbrev TracedProg : Type := Program ((signature Pipe).noted Transfer) Unit

def tracedCalls (p : Nat) (_ : TracedState) (current prog : TracedProg) : Prop :=
  p < NPROC ∧ current = .done () ∧ ∃ body, TracedCall body ∧ prog = body.interp (noted Op.code)

def tracedMachine (p : Nat) : Machine ((signature Pipe).noted Transfer) TracedState Panic :=
  (machine Pipe p).noted fun note s => note.log s.data

theorem erase_pipewrite_loop (fuel : Nat) (src : List UInt8) :
    (Traced.pipewrite.loop fuel src).erase = pipewrite.loop fuel src := by
  induction src with
  | nil => rfl
  | cons b rest ih =>
    simp only [Traced.pipewrite.loop, pipewrite.loop, bind_eq, erase_bind, erase_lift]
    congr 1
    funext room
    cases room with
    | false => rfl
    | true =>
      simp only [if_true, erase_bind, erase_note, done_bind, ih]
      rfl

theorem erase_pipewrite (fuel : Nat) (src : List UInt8) : (Traced.pipewrite fuel src).erase = pipewrite fuel src := by
  simp only [Traced.pipewrite, pipewrite, bind_eq, erase_bind, erase_pipewrite_loop]
  congr 2
  funext _
  congr 1
  funext written
  cases written with
  | false => rfl
  | true =>
    simp only [if_true, erase_bind]
    rfl

theorem erase_piperead (fuel : Nat) (n : Int) : (Traced.piperead fuel n).erase = piperead fuel n := by
  simp only [Traced.piperead, piperead, bind_eq, erase_bind, erase_lift]
  congr 2
  funext _
  congr 1
  funext ready
  cases ready with
  | false => rfl
  | true =>
    simp only [if_true, erase_bind, erase_lift, erase_note, done_bind]
    rfl

theorem exists_traced {body : PipeCode Unit} (call : PipeCall body) : ∃ body', TracedCall body' ∧
    body'.erase = body := by
  cases call with
  | write fuel src => exact ⟨_, .write fuel src, by simp only [bind_eq, erase_bind, erase_pipewrite]; rfl⟩
  | read fuel n => exact ⟨_, .read fuel n, by simp only [bind_eq, erase_bind, erase_piperead]; rfl⟩
  | close writable => exact ⟨_, .close writable, erase_lift _⟩
  | kill pid => exact ⟨_, .kill pid, rfl⟩

/-- Every run of the code of `pipe.c` is a run of the code with notes, seen without them. -/
theorem reachable_traced {A : Threads (signature Pipe) (State Pipe) → Nat → Step Pipe → Prop} {s : State Pipe}
    {c : Threads (signature Pipe) (State Pipe)} (run : Threads.Reachable (machine Pipe) pipeCalls A (.initial s) c) :
    ∃ d, Threads.Reachable tracedMachine tracedCalls (fun _ _ _ => True) (.initial (s, {})) d ∧ d.Erases c := by
  refine Threads.reachable_erases run ⟨rfl, fun _ => rfl⟩ ?_
  intro p s l current prog settled call
  obtain ⟨lt, done, body, call, rfl⟩ := call
  obtain ⟨body', call', rfl⟩ := exists_traced call
  refine ⟨_, erase_interp Op.code body', lt, ?_, body', call', rfl⟩
  cases current with
  | done a => rfl
  | step e next =>
    cases e with
    | act e => cases done
    | note n => exact settled.elim

/-! ### The bytes in the ring -/

namespace Pipe

def used (p : Pipe) : Nat := RingBuffer.gap p.nread p.nwrite

def queue (p : Pipe) : List UInt8 := RingBuffer.between 512 p.data p.nread p.nwrite

theorem room_of_not_full {p : Pipe} (bound : p.used ≤ 512) (room : p.full = false) : p.used < 512 := by
  have lt := p.nread.toNat_lt
  have lt' := p.nwrite.toNat_lt
  refine Nat.lt_of_le_of_ne bound fun same => ?_
  rw [used, RingBuffer.gap_eq] at same
  simp only [full, beq_eq_false_iff_ne, ne_eq] at room
  apply room
  apply UInt32.toNat_inj.mp
  simp only [UInt32.toNat_add, PIPESIZE, UInt32.reduceToNat]
  omega

theorem queue_put {p : Pipe} (bound : p.used ≤ 512) (room : p.full = false) (b : UInt8) :
    (put b p).used = p.used + 1 ∧ (put b p).queue = p.queue ++ [b] := by
  have lt := room_of_not_full bound room
  have small : RingBuffer.gap p.nread p.nwrite + 1 < 2 ^ 32 := by
    have : RingBuffer.gap p.nread p.nwrite < 512 := lt
    omega
  simp only [put, room, Bool.false_eq_true, if_false, used, queue, UInt32.toNat_mod, PIPESIZE, UInt32.reduceToNat]
  exact ⟨RingBuffer.gap_succ_right small, RingBuffer.between_push (by decide) lt small b⟩

theorem queue_advance {p : Pipe} (some : p.empty = false) :
    (advance p).used + 1 = p.used ∧ p.queue = p.front :: (advance p).queue := by
  have ne : p.nread ≠ p.nwrite := by simpa [empty] using some
  simp only [advance, some, Bool.false_eq_true, if_false, used, queue, front, UInt32.toNat_mod, PIPESIZE,
    UInt32.reduceToNat]
  exact ⟨RingBuffer.gap_succ_left ne, RingBuffer.between_pop (by decide) ne⟩

theorem queue_of_empty {p : Pipe} (empty : p.empty = true) : p.queue = [] := by
  have same : p.nread = p.nwrite := by simpa [Pipe.empty] using empty
  rw [queue, same, RingBuffer.between_self]

end Pipe

/-! ### One process at a time -/

/-- A read of something that returned nothing found the write end closed and all that had been stored
returned. -/
def Read.Drained (r : Read) : Prop := 0 < r.n → r.bytes = [] → r.writeopen = false ∧ r.stored = r.returned

structure Bounded (p : Pipe) (h : History) : Prop where
  bound : p.used ≤ 512
  order : h.returned <+: h.stored
  drained : ∀ r ∈ h.reads, r.Drained

/-- The bytes stored are those returned, those that a read in progress has taken and those in the pipe. -/
def Whole (taken : List UInt8) (p : Pipe) (h : History) : Prop := h.stored = h.returned ++ taken ++ p.queue

def fifo : Monitor Pipe Transfer History where
  lk := lock
  log := Transfer.log
  inv := Whole []
  always := Bounded
  rely _ _ _ := True
  plain := by decide
  rely_refl _ _ := trivial
  rely_trans _ _ _ _ _ _ := trivial

/-- In a critical section, with the bytes `taken` out of the pipe. -/
def Midway (taken : List UInt8) (u : Hold Pipe History) : Prop :=
  u.held = true ∧ Bounded u.data u.past ∧ Whole taken u.data u.past

theorem Midway.proper {u : Hold Pipe History} (h : Midway [] u) : fifo.Proper u := ⟨h.1, h.2.2⟩

theorem midway_of_entered {p : Nat} {u u' : Hold Pipe History} (h : fifo.Entered p u u') : Midway [] u' :=
  ⟨h.1.1, h.2.1, h.1.2⟩

abbrev fifoRules (p : Nat) : Rules (ops Pipe) (Hold Pipe History) :=
  ⟨fun u o => fifo.mayCall p u (.act o), fun u o r u' => fifo.afterCall p u (.act o) r u'⟩

variable {p : Nat} {u : Hold Pipe History}

theorem fifo_room (fuel : Nat) (h : Midway [] u) :
    (fifoRules p).Keeps (pipewrite.room fuel) u fun ok u' =>
      if ok then Midway [] u' ∧ u'.data.full = false else u'.held = false := by
  induction fuel generalizing u with
  | zero => exact ⟨trivial, nofun⟩
  | succ fuel ih =>
    refine keeps_step trivial ?_
    rintro (x : Pipe) _ ⟨seen, rfl⟩
    obtain rfl := seen h.1
    split
    · refine keeps_step trivial ?_
      rintro (killed : Bool) _ rfl
      split
      · refine keeps_step trivial ?_
        rintro _ _ rfl
        refine keeps_step (fun _ => h.proper) ?_
        rintro _ _ rfl
        rfl
      · refine keeps_step trivial ?_
        rintro _ _ rfl
        refine keeps_step ⟨by decide, fun _ => h.proper⟩ fun _ u' entered => ?_
        exact ih (midway_of_entered entered)
    · rename_i room
      exact ⟨h, by simpa using room⟩

theorem fifo_loop (fuel : Nat) (src : List UInt8) (h : Midway [] u) :
    (fifo.callers p).Keeps (Traced.pipewrite.loop fuel src) u fun ok u' =>
      if ok then Midway [] u' else u'.held = false := by
  induction src generalizing u with
  | nil => exact h
  | cons b rest ih =>
    refine keeps_seq (keeps_lift (fifo_room fuel h)) fun ok u₁ room => ?_
    cases ok with
    | false => exact room
    | true =>
      obtain ⟨⟨held, ⟨bound, order, drained⟩, whole⟩, room⟩ := room
      obtain ⟨used, queue⟩ := queue_put bound room b
      have bound' : (put b u₁.data).used ≤ 512 := by
        have lt := room_of_not_full bound room
        omega
      have order' : u₁.past.returned <+: u₁.past.stored ++ [b] := order.trans (List.prefix_append ..)
      refine keeps_upd ⟨held, ⟨bound', order, drained⟩, fun _ _ => trivial⟩ ?_
      refine keeps_note (W := fifo) ⟨held, ⟨bound', order', drained⟩, fun _ _ => trivial⟩ ?_
      refine ih ⟨held, ⟨bound', order', drained⟩, ?_⟩
      change u₁.past.stored ++ [b] = u₁.past.returned ++ [] ++ (put b u₁.data).queue
      rw [queue, whole, List.append_assoc]

theorem fifo_ready (fuel : Nat) (h : Midway [] u) :
    (fifoRules p).Keeps (piperead.ready fuel) u fun ok u' =>
      if ok then Midway [] u' ∧ (u'.data.empty = true → u'.data.writeopen = false) else u'.held = false := by
  induction fuel generalizing u with
  | zero => exact ⟨trivial, nofun⟩
  | succ fuel ih =>
    refine keeps_step trivial ?_
    rintro (x : Pipe) _ ⟨seen, rfl⟩
    obtain rfl := seen h.1
    split
    · refine keeps_step trivial ?_
      rintro (killed : Bool) _ rfl
      split
      · refine keeps_step (fun _ => h.proper) ?_
        rintro _ _ rfl
        rfl
      · refine keeps_step ⟨by decide, fun _ => h.proper⟩ fun _ u' entered => ?_
        exact ih (midway_of_entered entered)
    · rename_i ready
      exact ⟨h, by simpa using ready⟩

theorem fifo_copy (n : Nat) {taken : List UInt8} (h : Midway taken u) :
    (fifoRules p).Keeps (piperead.copy taken n) u fun read u' =>
      Midway read u' ∧ taken <+: read ∧ (read = [] → 0 < n → u'.data = u.data ∧ u.data.empty = true) := by
  induction n generalizing u taken with
  | zero => exact ⟨h, List.prefix_refl _, fun _ => nofun⟩
  | succ n ih =>
    refine keeps_step trivial ?_
    rintro (x : Pipe) u ⟨seen, rfl⟩
    obtain rfl := seen h.1
    split
    · rename_i empty
      exact ⟨h, List.prefix_refl _, fun _ _ => ⟨rfl, empty⟩⟩
    · rename_i some
      obtain ⟨held, ⟨bound, order, drained⟩, whole⟩ := h
      obtain ⟨used, queue⟩ := queue_advance (by simpa using some)
      have bound' : (advance u.data).used ≤ 512 := by omega
      refine keeps_step ⟨held, ⟨bound', order, drained⟩, fun _ _ => trivial⟩ ?_
      rintro _ _ rfl
      have whole' : Whole (taken ++ [u.data.front]) (advance u.data) u.past := by
        rw [Whole, whole, queue]
        simp
      refine keeps_mono (ih ⟨held, ⟨bound', order, drained⟩, whole'⟩) ?_
      rintro read u' ⟨mid, further, _⟩
      refine ⟨mid, (List.prefix_append ..).trans further, fun none => ?_⟩
      rw [none] at further
      simp at further

theorem follows_traced_pipewrite (fuel : Nat) (src : List UInt8) :
    fifo.Follows p (Traced.pipewrite fuel src >>= fun _ => pure ()) := by
  intro u _
  refine keeps_seq (Q := fun _ u' => u'.held = false) ?_ fun _ u' (out : u'.held = false) => out
  refine keeps_acquire (W := fifo) fun u₁ entered => ?_
  refine keeps_seq (fifo_loop fuel src (midway_of_entered entered)) fun ok u₂ mid => ?_
  cases ok with
  | false => exact mid
  | true =>
    refine keeps_wakeup ?_
    exact keeps_release (W := fifo) (Midway.proper mid) rfl

theorem follows_traced_piperead (fuel : Nat) (n : Int) :
    fifo.Follows p (Traced.piperead fuel n >>= fun _ => pure ()) := by
  intro u _
  refine keeps_seq (Q := fun _ u' => u'.held = false) ?_ fun _ u' (out : u'.held = false) => out
  refine keeps_acquire (W := fifo) fun u₁ entered => ?_
  refine keeps_seq (keeps_lift (fifo_ready fuel (midway_of_entered entered))) fun ok u₂ ready => ?_
  cases ok with
  | false => exact ready
  | true =>
    obtain ⟨mid, closed⟩ := ready
    refine keeps_seq (keeps_lift (fifo_copy n.toNat mid)) fun read u₃ copied => ?_
    obtain ⟨⟨held, ⟨bound, order, drained⟩, whole⟩, _, nothing⟩ := copied
    refine keeps_wakeup ?_
    have returned : (Transfer.log (.read n read) u₃.data u₃.past).returned = u₃.past.returned ++ read := by
      simp [Transfer.log, History.returned]
    have bounded : Bounded u₃.data (Transfer.log (.read n read) u₃.data u₃.past) := by
      refine ⟨bound, ?_, fun r member => ?_⟩
      · rw [returned]
        exact ⟨_, whole.symm⟩
      · rcases List.mem_append.mp member with old | new
        · exact drained r old
        · obtain rfl := List.mem_singleton.mp new
          intro positive (none : read = [])
          obtain ⟨same, empty⟩ := nothing none (Int.pos_iff_toNat_pos.mp positive)
          refine ⟨same ▸ closed empty, ?_⟩
          rw [Whole, none, queue_of_empty (same ▸ empty)] at whole
          simpa using whole
    refine keeps_note (W := fifo) ⟨held, bounded, fun _ _ => trivial⟩ ?_
    refine keeps_release (W := fifo) ⟨held, ?_⟩ rfl
    change u₃.past.stored = (Transfer.log (.read n read) u₃.data u₃.past).returned ++ [] ++ u₃.data.queue
    rw [returned, List.append_nil]
    exact whole

theorem follows_traced_pipeclose (writable : Bool) : fifo.Follows p (pipeclose writable).lift := by
  intro u _
  refine keeps_lift (keeps_step (R := fifoRules p) trivial fun _ u₁ entered => ?_)
  obtain ⟨held, bounded, whole⟩ := midway_of_entered entered
  cases writable with
  | true | false =>
    refine keeps_step ⟨held, ⟨bounded.bound, bounded.order, bounded.drained⟩, fun _ _ => trivial⟩ ?_
    rintro _ _ rfl
    refine keeps_step trivial ?_
    rintro _ _ rfl
    exact keeps_last (fun _ => ⟨held, whole⟩) (by rintro _ _ rfl; rfl)

theorem follows_traced {body : TracedCode Unit} (call : TracedCall body) : fifo.Follows p body := by
  cases call with
  | write fuel src => exact follows_traced_pipewrite fuel src
  | read fuel n => exact follows_traced_piperead fuel n
  | close writable => exact follows_traced_pipeclose writable
  | kill pid => exact Monitor.follows_kill pid

/-- In every interleaving the pipe never holds more than `PIPESIZE` bytes, the bytes that reads have
returned are the first of those that were stored, with nothing in between lost while nobody is at work
on the pipe, and a read that returns nothing has found the writers gone and the pipe drained. -/
theorem pipe_fifo {s : State Pipe} {c : Threads ((signature Pipe).noted Transfer) TracedState}
    (free : s.lock lock = none) (fresh : s.data.nread = s.data.nwrite)
    (run : Threads.Reachable tracedMachine tracedCalls (fun _ _ _ => True) (.initial (s, {})) c) :
    c.state.1.data.nwrite - c.state.1.data.nread ≤ PIPESIZE ∧
      c.state.2.returned <+: c.state.2.stored ∧
      (c.state.1.lock lock = none → c.state.2.stored = c.state.2.returned ++ c.state.1.data.queue) ∧
      ∀ r ∈ c.state.2.reads, 0 < r.n → r.bytes = [] → r.writeopen = false ∧ r.stored = r.returned := by
  have empty : s.data.queue = [] := by rw [queue, fresh, RingBuffer.between_self]
  have none_used : s.data.used = 0 := by rw [used, fresh, RingBuffer.gap_self]
  have inv : Whole [] s.data {} := by rw [Whole, empty]; rfl
  have always : Bounded s.data {} := ⟨by omega, List.prefix_refl _, nofun⟩
  obtain ⟨⟨bound, order, drained⟩, whole⟩ := reachable (W := fifo) run free inv always (fun _ _ _ _ => trivial) (by
    intro p s current prog call
    obtain ⟨_, done, body, call, rfl⟩ := call
    exact ⟨done, body, follows_traced call, rfl⟩)
  refine ⟨?_, order, fun idle => ?_, drained⟩
  · rw [UInt32.le_iff_toNat_le]
    exact bound
  · have split := whole idle
    rw [show fifo.inv = Whole [] from rfl, Whole, List.append_nil] at split
    exact split

def wrapStart : State Pipe := { pipeStart with data := ⟨fun _ => 0, 0xffffffff, 0xffffffff, true, true⟩ }

/-- Two bytes are written past the end of the counters and one of them is read. -/
theorem pipe_fifo_wrap :
    ∃ c, Threads.Reachable tracedMachine tracedCalls (fun _ _ _ => True) (.initial (wrapStart, {})) c ∧
      (c.state.1.data.nwrite = 1 ∧ c.state.2.returned = [7] ∧ c.state.2.stored = [7, 8]) ∧
      c.state.1.data.nwrite - c.state.1.data.nread ≤ PIPESIZE ∧
      c.state.2.returned <+: c.state.2.stored ∧
      (c.state.1.lock lock = none → c.state.2.stored = c.state.2.returned ++ c.state.1.data.queue) ∧
      ∀ r ∈ c.state.2.reads, 0 < r.n → r.bytes = [] → r.writeopen = false ∧ r.stored = r.returned := by
  let writes : TracedProg := (Traced.pipewrite 1 [7, 8] >>= fun _ => pure ()).interp (noted Op.code)
  let reads : TracedProg := (Traced.piperead 1 1 >>= fun _ => pure ()).interp (noted Op.code)
  have found : (Threads.schedule tracedMachine (fun _ => true) [(0, 74), (1, 72)]
      ⟨(wrapStart, {}), Function.update (Function.update (fun _ => .done ()) 0 writes) 1 reads⟩).any (fun c =>
        c.state.1.data.nwrite = 1 ∧ c.state.2.returned = [7] ∧ c.state.2.stored = [7, 8]) = true := by
    decide +kernel
  obtain ⟨c, turns, reached⟩ := (Option.any_eq_true _ _).mp found
  have called : tracedCalls 0 (wrapStart, {}) (.done ()) writes := ⟨by decide, rfl, _, .write 1 [7, 8], rfl⟩
  have called' : tracedCalls 1 (wrapStart, {}) (.done ()) reads := ⟨by decide, rfl, _, .read 1 1, rfl⟩
  have run : Threads.Reachable tracedMachine tracedCalls (fun _ _ _ => True) (.initial (wrapStart, {})) c :=
    ((Threads.Reachable.call Relation.ReflTransGen.refl called).call called').trans
      (Threads.reachable_schedule (fun _ _ _ _ => trivial) turns)
  exact ⟨c, run, of_decide_eq_true reached, pipe_fifo rfl rfl run⟩

end Espl.Sched
