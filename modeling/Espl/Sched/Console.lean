import Espl.Program.RingBuffer
import Espl.Sched.Monitor

/-!
# The console

`consoleintr` and `consoleread` of `console.c` on the ring buffer `input`, compared with an editor that
has a queue of committed characters and a line that is still being edited. The notes in the code say when
the editor is given a key and when it serves a reader. Echo to the screen is left out, and so are the
locks of the console's inode.
-/

namespace Espl.Sched.Console

open Monitor
open Program RingBuffer
open Function (update update_self update_of_ne)

abbrev INPUT_BUF : UInt32 := 128

def ctrl (c : Char) : UInt8 := c.val.toUInt8 - '@'.val.toUInt8

def newline : UInt8 := '\n'.val.toUInt8

def carriageReturn : UInt8 := '\r'.val.toUInt8

def delete : UInt8 := 0x7f

structure Input where
  buf : Nat → UInt8
  r : UInt32
  w : UInt32
  e : UInt32

def lock : Lock := .other 0

def chan : Chan := .data 0

/-! ### The editor -/

/-- Characters that wait for a reader, and the line that can still be edited. -/
structure Editor where
  committed : List UInt8
  line : List UInt8

namespace Editor

def full (x : Editor) : Prop := 128 ≤ x.committed.length + x.line.length

instance (x : Editor) : Decidable x.full := inferInstanceAs (Decidable (_ ≤ _))

def commit (x : Editor) : Editor := ⟨x.committed ++ x.line, []⟩

/-- A character at the end of the line. It commits the line if it is a newline or the end of the input
or fills the buffer. -/
def type (c : UInt8) (x : Editor) : Editor :=
  let x : Editor := { x with line := x.line ++ [c] }
  if c = newline ∨ c = ctrl 'D' ∨ x.full then x.commit else x

def key (c : UInt8) (x : Editor) : Editor :=
  if c = ctrl 'P' then x
  else if c = ctrl 'U' then { x with line := [] }
  else if c = ctrl 'H' ∨ c = delete then { x with line := x.line.dropLast }
  else if c = 0 ∨ x.full then x
  else x.type (if c = carriageReturn then newline else c)

end Editor

structure Reading where
  n : Int
  got : List UInt8

structure Delivery where
  reader : Nat
  n : Int
  bytes : List UInt8

structure Desk where
  editor : Editor
  reading : Nat → Option Reading
  delivered : List Delivery

inductive Event where
  | key (c : UInt8)
  | start (p : Nat) (n : Int)
  | serve (p : Nat)
  | abort (p : Nat)

namespace Desk

def pop (d : Desk) : Desk := { d with editor := { d.editor with committed := d.editor.committed.tail } }

def deliver (p : Nat) (n : Int) (bytes : List UInt8) (d : Desk) : Desk :=
  { d with reading := update d.reading p none, delivered := d.delivered ++ [⟨p, n, bytes⟩] }

/-- The reader `p` with what it has got is given the next committed character `c`. The end of the input
ends a read; it stays for the next one if this one has got something. A newline ends a read too. -/
def give (p : Nat) (x : Reading) (c : UInt8) (d : Desk) : Desk :=
  if c = ctrl 'D' then (if x.got = [] then d.pop else d).deliver p x.n x.got
  else if c = newline ∨ x.got.length + 1 = x.n.toNat then d.pop.deliver p x.n (x.got ++ [c])
  else { d.pop with reading := update d.reading p (some ⟨x.n, x.got ++ [c]⟩) }

def step : Event → Desk → Desk
  | .key c, d => { d with editor := d.editor.key c }
  | .start p n, d =>
    if n ≤ 0 then d.deliver p n [] else { d with reading := update d.reading p (some ⟨n, []⟩) }
  | .serve p, d =>
    match d.reading p, d.editor.committed with
    | some x, c :: _ => d.give p x c
    | _, _ => d
  | .abort p, d => { d with reading := update d.reading p none }

end Desk

/-! ### The code -/

inductive Remark where
  | event (e : Event)
  | returned (d : Delivery)

structure Record where
  desk : Desk
  returned : List Delivery

def Remark.log : Remark → Input → Record → Record
  | .event e, _, h => { h with desk := h.desk.step e }
  | .returned d, _, h => { h with returned := h.returned ++ [d] }

abbrev ConsoleCode : Type → Type := Program ((ops Input).noted Remark)

/-- The loop for control-U over the uncommitted characters, of which there are `n`. -/
def consoleintr.kill : Nat → ConsoleCode Unit
  | 0 => return ()
  | n + 1 => do
    let input : Input ← perform .get
    if input.e ≠ input.w ∧ input.buf ((input.e - 1) % INPUT_BUF).toNat ≠ newline then do
      perform (.upd fun input => { input with e := input.e - 1 })
      consoleintr.kill n
    else return ()

def consoleintr.type (c : UInt8) : ConsoleCode Unit := do
  let input : Input ← perform .get
  if c ≠ 0 ∧ input.e - input.r < INPUT_BUF then do
    let c := if c = carriageReturn then newline else c
    perform (.upd fun input =>
      { input with buf := update input.buf (input.e % INPUT_BUF).toNat c, e := input.e + 1 })
    let input : Input ← perform .get
    if c = newline ∨ c = ctrl 'D' ∨ input.e = input.r + INPUT_BUF then do
      perform (.upd fun input => { input with w := input.e })
      perform (.wakeup chan)
    else return ()
  else return ()

def consoleintr.key (c : UInt8) : ConsoleCode Unit := do
  note (.event (.key c))
  if c = ctrl 'P' then return ()
  else if c = ctrl 'U' then do
    let input : Input ← perform .get
    consoleintr.kill (gap input.w input.e)
  else if c = ctrl 'H' ∨ c = delete then do
    let input : Input ← perform .get
    if input.e ≠ input.w then perform (.upd fun input => { input with e := input.e - 1 })
    else return ()
  else consoleintr.type c

def consoleintr.loop : List UInt8 → ConsoleCode Unit
  | [] => return ()
  | c :: rest => do
    consoleintr.key c
    consoleintr.loop rest

def consoleintr (chars : List UInt8) : ConsoleCode Unit := do
  perform (.acquire lock)
  consoleintr.loop chars
  perform (.release lock)

/-- The inner loop of `consoleread`: whether there is something to read, or the caller gives up. -/
def consoleread.wait (p : Nat) : Nat → ConsoleCode Bool
  | 0 => .step (.act .stop) nofun
  | fuel + 1 => do
    let input : Input ← perform .get
    if input.r = input.w then do
      let killed : Bool ← perform .killed
      if killed then do
        note (.event (.abort p))
        perform (.release lock)
        return false
      else do
        perform (.sleep chan lock)
        consoleread.wait p fuel
    else return true

def consoleread.loop (p fuel : Nat) (target : Int) (got : List UInt8) : Nat → ConsoleCode (Option (List UInt8))
  | 0 => return some got
  | n + 1 => do
    let ready : Bool ← consoleread.wait p fuel
    if ready then do
      let input : Input ← perform .get
      let c := input.buf (input.r % INPUT_BUF).toNat
      perform (.upd fun input => { input with r := input.r + 1 })
      note (.event (.serve p))
      if c = ctrl 'D' then
        -- saved for next time, so that the caller gets a 0-byte result then
        if (n + 1 : Int) < target then do
          perform (.upd fun input => { input with r := input.r - 1 })
          return some got
        else return some got
      else if c = newline then return some (got ++ [c])
      else consoleread.loop p fuel target (got ++ [c]) n
    else return none

/-- `consoleread` of `n` bytes by process `p`: the bytes, or none for `-1`; each wait is cut off after
`fuel` rounds. -/
def consoleread (p fuel : Nat) (n : Int) : ConsoleCode (Option (List UInt8)) := do
  perform (.acquire lock)
  note (.event (.start p n))
  let read : Option (List UInt8) ← consoleread.loop p fuel n [] n.toNat
  match read with
  | some bytes => do
    note (.returned ⟨p, n, bytes⟩)
    perform (.release lock)
    return some bytes
  | none => return none

inductive ConsoleCall (p : Nat) : ConsoleCode Unit → Prop where
  | intr (chars : List UInt8) : ConsoleCall p (consoleintr chars)
  | read (fuel : Nat) (n : Int) : ConsoleCall p (consoleread p fuel n >>= fun _ => pure ())
  | kill (pid : Int) : ConsoleCall p (perform (.kill pid) >>= fun _ => pure ())

abbrev ConsoleState : Type := State Input × Record

abbrev ConsoleProg : Type := Program ((signature Input).noted Remark) Unit

def consoleCalls (p : Nat) (_ : ConsoleState) (current prog : ConsoleProg) : Prop :=
  current = .done () ∧ ∃ body, ConsoleCall p body ∧ prog = body.interp (noted Op.code)

def consoleMachine (p : Nat) : Machine ((signature Input).noted Remark) ConsoleState Panic :=
  (machine Input p).noted fun remark s => remark.log s.data

/-! ### What the editor delivers -/

/-- No more than asked for, no end of input, and a newline only at the end. -/
def Delivery.Neat (d : Delivery) : Prop :=
  d.bytes.length ≤ d.n.toNat ∧ ctrl 'D' ∉ d.bytes ∧ newline ∉ d.bytes.dropLast

def Reading.Neat (x : Reading) : Prop := x.got.length < x.n.toNat ∧ ctrl 'D' ∉ x.got ∧ newline ∉ x.got

structure Desk.Neat (d : Desk) : Prop where
  reading : ∀ p x, d.reading p = some x → x.Neat
  delivered : ∀ x ∈ d.delivered, x.Neat

namespace Desk.Neat

variable {d : Desk}

theorem pop (h : d.Neat) : d.pop.Neat := ⟨h.reading, h.delivered⟩

theorem update (h : d.Neat) (p : Nat) {x : Option Reading} (neat : ∀ y, x = some y → y.Neat) :
    Desk.Neat { d with reading := Function.update d.reading p x } := by
  refine ⟨fun q y found => ?_, h.delivered⟩
  change Function.update d.reading p x q = some y at found
  by_cases same : q = p
  · subst same
    rw [update_self] at found
    exact neat y found
  · rw [update_of_ne same] at found
    exact h.reading q y found

theorem deliver (h : d.Neat) {p : Nat} {n : Int} {bytes : List UInt8} (neat : Delivery.Neat ⟨p, n, bytes⟩) :
    (d.deliver p n bytes).Neat := by
  refine ⟨(h.update p fun _ none => by cases none).reading, fun x member => ?_⟩
  rcases List.mem_append.mp member with old | new
  · exact h.delivered x old
  · obtain rfl := List.mem_singleton.mp new
    exact neat

theorem give (h : d.Neat) {p : Nat} {x : Reading} (neat : x.Neat) (c : UInt8) : (d.give p x c).Neat := by
  obtain ⟨short, no_end, no_newline⟩ := neat
  unfold Desk.give
  split
  · refine deliver ?_ ⟨short.le, no_end, fun member => no_newline (List.dropLast_subset _ member)⟩
    split
    · exact h.pop
    · exact h
  · rename_i proper
    have no_end' : ctrl 'D' ∉ x.got ++ [c] := by
      simp only [List.mem_append, List.mem_singleton, not_or]
      exact ⟨no_end, fun same => proper same.symm⟩
    split
    · refine h.pop.deliver ⟨?_, no_end', ?_⟩
      · rw [List.length_append]
        exact short
      · rw [List.dropLast_concat]
        exact no_newline
    · rename_i goes_on
      rw [not_or] at goes_on
      refine h.pop.update p fun y eq => ?_
      obtain rfl := Option.some.inj eq
      refine ⟨?_, no_end', ?_⟩
      · simp only [List.length_append, List.length_singleton]
        exact Nat.lt_of_le_of_ne short goes_on.2
      · simp only [List.mem_append, List.mem_singleton, not_or]
        exact ⟨no_newline, fun same => goes_on.1 same.symm⟩

theorem step (h : d.Neat) (e : Event) : (d.step e).Neat := by
  cases e with
  | key c => exact ⟨h.reading, h.delivered⟩
  | start p n =>
    simp only [Desk.step]
    split
    · exact h.deliver ⟨Nat.zero_le _, List.not_mem_nil, List.not_mem_nil⟩
    · refine h.update p fun y eq => ?_
      obtain rfl := Option.some.inj eq
      refine ⟨?_, List.not_mem_nil, List.not_mem_nil⟩
      simp only [List.length_nil]
      omega
  | serve p =>
    simp only [Desk.step]
    split
    · rename_i x c _ found _
      exact h.give (h.reading p x found) c
    · exact h
  | abort p => exact h.update p fun _ none => by cases none

end Desk.Neat

/-! ### The ring buffer as the editor -/

structure Shows (x : Input) (ed : Editor) : Prop where
  committed : ed.committed = between 128 x.buf x.r x.w
  line : ed.line = between 128 x.buf x.w x.e
  bound : gap x.r x.w + gap x.w x.e ≤ 128
  no_newline : newline ∉ ed.line
  full : gap x.r x.w + gap x.w x.e = 128 → x.w = x.e

theorem ring_dvd : 128 ∣ 2 ^ 32 := by decide

namespace Shows

variable {x : Input} {ed : Editor}

theorem gap_eq (h : Shows x ed) : gap x.r x.e = gap x.r x.w + gap x.w x.e := gap_add (by have := h.bound; omega)

theorem kill (h : Shows x ed) : Shows { x with e := x.w } { ed with line := [] } := by
  have bound := h.bound
  refine ⟨h.committed, (between_self ..).symm, ?_, List.not_mem_nil, fun _ => rfl⟩
  simp only [gap_self]
  omega

theorem backspace (h : Shows x ed) (some : x.e ≠ x.w) :
    Shows { x with e := x.e - 1 } { ed with line := ed.line.dropLast } := by
  have bound := h.bound
  have shorter := gap_pred_right some.symm
  refine ⟨h.committed, ?_, ?_, fun member => h.no_newline (List.dropLast_subset _ member), fun full => ?_⟩
  · rw [h.line, between_pred ring_dvd some.symm, List.dropLast_concat]
  · simp only
    omega
  · simp only at full
    omega

theorem pop (h : Shows x ed) (some : x.r ≠ x.w) :
    ed.committed = x.buf (x.r % INPUT_BUF).toNat :: ed.committed.tail ∧
      Shows { x with r := x.r + 1 } { ed with committed := ed.committed.tail } := by
  have bound := h.bound
  have shorter := gap_succ_left some
  have split := h.committed
  rw [between_pop ring_dvd some] at split
  refine ⟨?_, ?_, h.line, ?_, h.no_newline, fun full => ?_⟩
  · rw [split, UInt32.toNat_mod]
    rfl
  · rw [split]
    rfl
  · simp only
    omega
  · simp only at full
    omega

end Shows

def Input.put (c : UInt8) (x : Input) : Input :=
  { x with buf := update x.buf (x.e % INPUT_BUF).toNat c, e := x.e + 1 }

namespace Shows

variable {x : Input} {ed : Editor}

theorem not_full_iff (h : Shows x ed) : x.e - x.r < INPUT_BUF ↔ ¬ ed.full := by
  rw [UInt32.lt_iff_toNat_lt]
  change gap x.r x.e < 128 ↔ ¬ 128 ≤ ed.committed.length + ed.line.length
  rw [h.committed, h.line, length_between, length_between, h.gap_eq, not_le]

theorem put_bound (h : Shows x ed) (room : ¬ ed.full) (c : UInt8) :
    gap (x.put c).r (x.put c).w + gap (x.put c).w (x.put c).e = gap x.r x.w + gap x.w x.e + 1 ∧
      gap x.r x.w + gap x.w x.e < 128 := by
  have lt := h.not_full_iff.mpr room
  rw [UInt32.lt_iff_toNat_lt] at lt
  change gap x.r x.e < 128 at lt
  rw [h.gap_eq] at lt
  have next : gap x.w (x.e + 1) = gap x.w x.e + 1 := gap_succ_right (by omega)
  refine ⟨?_, lt⟩
  change gap x.r x.w + gap x.w (x.e + 1) = _
  rw [next, Nat.add_assoc]

theorem put_between (h : Shows x ed) (room : ¬ ed.full) (c : UInt8) :
    between 128 (x.put c).buf x.r x.w = ed.committed ∧ between 128 (x.put c).buf x.w (x.e + 1) = ed.line ++ [c] := by
  obtain ⟨_, lt⟩ := h.put_bound room c
  have place : (x.e % INPUT_BUF).toNat = x.e.toNat % 128 := UInt32.toNat_mod ..
  have before : gap x.r x.w ≤ gap x.r x.e := by
    rw [h.gap_eq]
    omega
  have close : gap x.r x.e < 128 := by
    rw [h.gap_eq]
    exact lt
  simp only [Input.put, place]
  exact ⟨by rw [between_update ring_dvd before close, h.committed],
    by rw [between_push ring_dvd (by omega) (by omega), h.line]⟩

theorem fills_iff (h : Shows x ed) (room : ¬ ed.full) (c : UInt8) :
    (x.put c).e = (x.put c).r + INPUT_BUF ↔ Editor.full { ed with line := ed.line ++ [c] } := by
  obtain ⟨sum, lt⟩ := h.put_bound room c
  have len : Editor.full { ed with line := ed.line ++ [c] } ↔ gap x.r x.e = 127 := by
    change 128 ≤ ed.committed.length + (ed.line ++ [c]).length ↔ _
    rw [List.length_append, h.committed, h.line, length_between, length_between, h.gap_eq, List.length_singleton]
    omega
  have lt' := x.e.toNat_lt
  have lt'' := x.r.toNat_lt
  rw [len, RingBuffer.gap_eq, ← UInt32.toNat_inj]
  simp only [Input.put, UInt32.toNat_add, INPUT_BUF, UInt32.reduceToNat]
  omega

theorem put (h : Shows x ed) (room : ¬ ed.full) {c : UInt8} (ordinary : c ≠ newline)
    (part : ¬ Editor.full { ed with line := ed.line ++ [c] }) : Shows (x.put c) { ed with line := ed.line ++ [c] } := by
  obtain ⟨committed, line⟩ := h.put_between room c
  obtain ⟨sum, lt⟩ := h.put_bound room c
  refine ⟨committed.symm, line.symm, by omega, ?_, fun full => ?_⟩
  · simp only [List.mem_append, List.mem_singleton, not_or]
    exact ⟨h.no_newline, fun same => ordinary same.symm⟩
  · refine absurd ?_ part
    change 128 ≤ ed.committed.length + (ed.line ++ [c]).length
    rw [List.length_append, h.committed, h.line, length_between, length_between, List.length_singleton]
    omega

theorem commit (h : Shows x ed) (room : ¬ ed.full) (c : UInt8) :
    Shows { x.put c with w := (x.put c).e } (Editor.commit { ed with line := ed.line ++ [c] }) := by
  obtain ⟨committed, line⟩ := h.put_between room c
  obtain ⟨sum, lt⟩ := h.put_bound room c
  have small : gap x.r x.w + gap x.w (x.e + 1) < 2 ^ 32 := by
    change gap x.r x.w + gap x.w (x.e + 1) = _ at sum
    omega
  refine ⟨?_, (between_self ..).symm, ?_, List.not_mem_nil, fun _ => rfl⟩
  · change ed.committed ++ (ed.line ++ [c]) = between 128 (x.put c).buf x.r (x.e + 1)
    rw [between_append ring_dvd small, committed, line]
  · change gap x.r (x.e + 1) + gap (x.e + 1) (x.e + 1) ≤ 128
    rw [gap_self, gap_add small]
    change gap x.r x.w + gap x.w (x.e + 1) = _ at sum
    omega

end Shows

/-! ### One process at a time -/

def Event.Of (p : Nat) : Event → Prop
  | .key _ => True
  | .start q _ => q = p
  | .serve q => q = p
  | .abort q => q = p

theorem Desk.give_frame (d : Desk) (p : Nat) (x : Reading) (c : UInt8) :
    d.delivered <+: (d.give p x c).delivered ∧ ∀ q, q ≠ p → (d.give p x c).reading q = d.reading q := by
  unfold Desk.give
  split
  · refine ⟨?_, fun q ne => ?_⟩
    · split <;> exact List.prefix_append ..
    · split <;> exact update_of_ne ne ..
  · split
    · exact ⟨List.prefix_append .., fun q ne => update_of_ne ne ..⟩
    · exact ⟨List.prefix_refl _, fun q ne => update_of_ne ne ..⟩

theorem Desk.step_frame (d : Desk) {p : Nat} {e : Event} (of : e.Of p) :
    d.delivered <+: (d.step e).delivered ∧ ∀ q, q ≠ p → (d.step e).reading q = d.reading q := by
  cases e with
  | key c => exact ⟨List.prefix_refl _, fun _ _ => rfl⟩
  | start p n =>
    obtain rfl := of
    simp only [Desk.step]
    split
    · exact ⟨List.prefix_append .., fun q ne => update_of_ne ne ..⟩
    · exact ⟨List.prefix_refl _, fun q ne => update_of_ne ne ..⟩
  | serve p =>
    obtain rfl := of
    simp only [Desk.step]
    split
    · exact d.give_frame ..
    · exact ⟨List.prefix_refl _, fun _ _ => rfl⟩
  | abort p =>
    obtain rfl := of
    exact ⟨List.prefix_refl _, fun q ne => update_of_ne ne ..⟩

structure Steady (x : Input) (h : Record) : Prop where
  bound : gap x.r x.w + gap x.w x.e ≤ 128
  returned : h.returned <+: h.desk.delivered
  neat : h.desk.Neat

/-- The ring buffer is as the editor has it, and `consoleread` has returned what the editor delivered. -/
def Agrees (x : Input) (h : Record) : Prop := Shows x h.desk.editor ∧ h.returned = h.desk.delivered

def discipline : Monitor Input Remark Record where
  lk := lock
  log := Remark.log
  inv := Agrees
  always := Steady
  rely p y z := z.2.desk.reading p = y.2.desk.reading p
  plain := by decide
  rely_refl _ _ := rfl
  rely_trans _ _ _ _ h h' := h'.trans h

/-- In a critical section, with the ring buffer in agreement with the editor. -/
structure Inside (u : Hold Input Record) : Prop where
  held : u.held = true
  shows : Shows u.data u.past.desk.editor
  returned : u.past.returned = u.past.desk.delivered
  neat : u.past.desk.Neat

variable {p : Nat} {u : Hold Input Record}

theorem Inside.proper (h : Inside u) : discipline.Proper u := ⟨h.held, h.shows, h.returned⟩

theorem Inside.steady (h : Inside u) : Steady u.data u.past := ⟨h.shows.bound, h.returned ▸ List.prefix_refl _, h.neat⟩

theorem inside_of_entered {u' : Hold Input Record} (h : discipline.Entered p u u') : Inside u' :=
  ⟨h.1.1, h.1.2.1, h.1.2.2, h.2.1.neat⟩

theorem mayNote {e : Event} (held : u.held = true) (steady : Steady u.data u.past) (of : e.Of p) :
    discipline.MayChange p u u.data (Remark.log (.event e) u.data u.past) := by
  obtain ⟨more, others⟩ := u.past.desk.step_frame of
  exact ⟨held, ⟨steady.bound, steady.returned.trans more, steady.neat.step e⟩, others⟩

theorem mayUpd {x : Input} (held : u.held = true) (steady : Steady u.data u.past)
    (bound : gap x.r x.w + gap x.w x.e ≤ 128) : discipline.MayChange p u x u.past :=
  ⟨held, ⟨bound, steady.returned, steady.neat⟩, fun _ _ => rfl⟩

theorem Steady.of_bound {x x' : Input} {h : Record} (steady : Steady x h)
    (bound : gap x'.r x'.w + gap x'.w x'.e ≤ 128) : Steady x' h := ⟨bound, steady.returned, steady.neat⟩

theorem keeps_kill (n : Nat) (held : u.held = true) (steady : Steady u.data u.past)
    (no_newline : newline ∉ between 128 u.data.buf u.data.w u.data.e) (count : gap u.data.w u.data.e ≤ n) :
    (discipline.callers p).Keeps (consoleintr.kill n) u fun _ u' =>
      u' = { u with data := { u.data with e := u.data.w } } := by
  induction n generalizing u with
  | zero =>
    have same := gap_eq_zero.mp (Nat.le_zero.mp count)
    change u = _
    rw [same]
  | succ n ih =>
    refine keeps_get held ?_
    split
    · rename_i more
      have shorter := gap_pred_right more.1.symm
      have bound : gap u.data.r u.data.w + gap u.data.w (u.data.e - 1) ≤ 128 := by
        have bound := steady.bound
        omega
      refine keeps_upd (mayUpd held steady bound) ?_
      refine ih held (steady.of_bound bound) (fun member => no_newline ?_) ?_
      · rw [between_pred ring_dvd more.1.symm]
        exact List.mem_append_left _ member
      · simp only
        omega
    · rename_i stops
      have same : u.data.e = u.data.w := by
        by_contra more
        have last : u.data.buf ((u.data.e - 1) % INPUT_BUF).toNat = newline := by
          by_contra other
          exact stops ⟨more, other⟩
        apply no_newline
        rw [between_pred ring_dvd (Ne.symm more), ← last, UInt32.toNat_mod]
        exact List.mem_append_right _ (List.mem_singleton.mpr rfl)
      change u = _
      rw [← same]

theorem keeps_type {c : UInt8} {ed : Editor} (held : u.held = true) (steady : Steady u.data u.past)
    (returned : u.past.returned = u.past.desk.delivered) (shows : Shows u.data ed)
    (key : u.past.desk.editor = if c = 0 ∨ ed.full then ed else ed.type (if c = carriageReturn then newline else c)) :
    (discipline.callers p).Keeps (consoleintr.type c) u fun _ u' => Inside u' := by
  refine keeps_get held ?_
  split
  · rename_i fits
    have room := shows.not_full_iff.mp fits.2
    rw [if_neg (not_or.mpr ⟨fits.1, room⟩)] at key
    generalize (if c = carriageReturn then newline else c) = d at key ⊢
    obtain ⟨sum, lt⟩ := shows.put_bound room d
    have put_steady : Steady (u.data.put d) u.past := steady.of_bound (by omega)
    refine keeps_upd (mayUpd held steady put_steady.bound) ?_
    refine keeps_get held ?_
    change (discipline.callers p).Keeps
      (ite (d = newline ∨ d = ctrl 'D' ∨ (u.data.put d).e = (u.data.put d).r + INPUT_BUF) _ _) _ _
    simp only [shows.fills_iff room] 
    rw [Editor.type] at key
    split
    · rename_i commits
      rw [if_pos commits] at key
      have whole := shows.commit room d
      refine keeps_upd (u := { u with data := u.data.put d }) (mayUpd held put_steady whole.bound) ?_
      refine Rules.keeps_last trivial ?_
      rintro _ _ rfl
      exact ⟨held, key ▸ whole, returned, steady.neat⟩
    · rename_i stays
      rw [if_neg stays] at key
      simp only [not_or] at stays
      exact ⟨held, key ▸ shows.put room stays.1 stays.2.2, returned, steady.neat⟩
  · rename_i full
    refine ⟨held, ?_, returned, steady.neat⟩
    rw [key, if_pos ?_]
    · exact shows
    · by_contra fits
      rw [not_or] at fits
      exact full ⟨fits.1, shows.not_full_iff.mpr fits.2⟩

theorem keeps_key (c : UInt8) (h : Inside u) :
    (discipline.callers p).Keeps (consoleintr.key c) u fun _ u' => Inside u' := by
  have may := mayNote (p := p) (e := .key c) h.held h.steady trivial
  obtain ⟨held, shows, returned, neat⟩ := h
  refine keeps_note may ?_
  have steady := may.2.1
  have editor : (Remark.log (.event (.key c)) u.data u.past).desk.editor = u.past.desk.editor.key c := rfl
  rw [Editor.key] at editor
  split
  · rename_i listing
    rw [if_pos listing] at editor
    exact ⟨held, editor ▸ shows, returned, steady.neat⟩
  · rename_i no_listing
    rw [if_neg no_listing] at editor
    split
    · rename_i kills
      rw [if_pos kills] at editor
      refine keeps_get held ?_
      have no_newline := shows.no_newline
      rw [shows.line] at no_newline
      refine Rules.keeps_mono (keeps_kill _ held steady no_newline le_rfl) ?_
      rintro _ _ rfl
      exact ⟨held, editor ▸ shows.kill, returned, steady.neat⟩
    · rename_i no_kill
      rw [if_neg no_kill] at editor
      split
      · rename_i erases
        rw [if_pos erases] at editor
        refine keeps_get held ?_
        split
        · rename_i more
          have shorter := shows.backspace more
          refine Rules.keeps_last (mayUpd held steady shorter.bound) ?_
          rintro _ _ rfl
          exact ⟨held, editor ▸ shorter, returned, steady.neat⟩
        · rename_i none
          have same : u.data.e = u.data.w := by simpa using none
          have line : u.past.desk.editor.line = [] := by rw [shows.line, same, between_self]
          rw [line, List.dropLast_nil, ← line] at editor
          exact ⟨held, editor ▸ shows, returned, steady.neat⟩
      · rename_i no_erase
        rw [if_neg no_erase] at editor
        exact keeps_type held steady returned shows editor

theorem keeps_intr_loop (chars : List UInt8) (h : Inside u) :
    (discipline.callers p).Keeps (consoleintr.loop chars) u fun _ u' => Inside u' := by
  induction chars generalizing u with
  | nil => exact h
  | cons c rest ih => exact Rules.keeps_seq (keeps_key c h) fun _ _ => ih

theorem follows_consoleintr (chars : List UInt8) : discipline.Follows p (consoleintr chars) := by
  intro u _
  refine keeps_acquire (W := discipline) fun u₁ entered => ?_
  refine Rules.keeps_seq (keeps_intr_loop chars (inside_of_entered entered)) fun _ u₂ inside => ?_
  refine Rules.keeps_last (fun _ => inside.proper) ?_
  rintro _ _ rfl
  rfl

structure Serving (p : Nat) (x : Reading) (u : Hold Input Record) : Prop extends Inside u where
  reading : u.past.desk.reading p = some x

theorem keeps_wait (fuel : Nat) {x : Reading} (h : Serving p x u) :
    (discipline.callers p).Keeps (consoleread.wait p fuel) u fun ready u' =>
      if ready then Serving p x u' ∧ u'.data.r ≠ u'.data.w else u'.held = false := by
  induction fuel generalizing u with
  | zero => exact ⟨trivial, nofun⟩
  | succ fuel ih =>
    refine keeps_get h.held ?_
    split
    · refine keeps_killed fun killed => ?_
      split
      · have may := mayNote (p := p) (e := .abort p) h.held h.steady rfl
        refine keeps_note may ?_
        exact keeps_release (W := discipline) ⟨h.held, h.shows, h.returned⟩ rfl
      · refine keeps_sleep (W := discipline) h.proper fun u' entered => ?_
        exact ih ⟨inside_of_entered entered, entered.2.2.trans h.reading⟩
    · rename_i some
      exact ⟨h, some⟩

/-- The editor has finished the read of `p` with `bytes`; `consoleread` has still to return them. -/
structure Finished (p : Nat) (n : Int) (bytes : List UInt8) (u : Hold Input Record) : Prop where
  held : u.held = true
  shows : Shows u.data u.past.desk.editor
  delivered : u.past.desk.delivered = u.past.returned ++ [⟨p, n, bytes⟩]
  neat : u.past.desk.Neat

def Going (p : Nat) (target : Int) (got : List UInt8) (n : Nat) (u : Hold Input Record) : Prop :=
  match n with
  | 0 => Finished p target got u
  | n + 1 => Serving p ⟨target, got⟩ u ∧ got.length + (n + 1) = target.toNat

def Ended (p : Nat) (target : Int) (u : Hold Input Record) : Option (List UInt8) → Prop
  | some bytes => Finished p target bytes u
  | none => u.held = false

theorem Desk.step_serve {d : Desk} {x : Reading} {c : UInt8} {rest : List UInt8} (reading : d.reading p = some x)
    (head : d.editor.committed = c :: rest) : d.step (.serve p) = d.give p x c := by
  simp only [Desk.step, reading, head]

theorem keeps_read_loop (fuel : Nat) (target : Int) (got : List UInt8) (n : Nat) (h : Going p target got n u) :
    (discipline.callers p).Keeps (consoleread.loop p fuel target got n) u fun read u' => Ended p target u' read := by
  induction n generalizing u got with
  | zero => exact h
  | succ n ih =>
    obtain ⟨serving, count⟩ := h
    refine Rules.keeps_seq (keeps_wait fuel serving) fun ready u waited => ?_
    cases ready with
    | false => exact waited
    | true =>
      obtain ⟨⟨⟨held, shows, returned, neat⟩, reading⟩, some⟩ := waited
      obtain ⟨head, rest⟩ := shows.pop some
      have steady : Steady u.data u.past := ⟨shows.bound, returned ▸ List.prefix_refl _, neat⟩
      have popped := steady.of_bound rest.bound
      have may := mayNote (p := p) (e := .serve p) (u := { u with data := { u.data with r := u.data.r + 1 } })
        held popped rfl
      have served := Desk.step_serve reading head
      refine keeps_get held (keeps_upd (mayUpd held steady rest.bound) (keeps_note may ?_))
      have neat' := may.2.1.neat
      change (discipline.callers p).Keeps _ ⟨u.held, { u.data with r := u.data.r + 1 },
        ⟨u.past.desk.step (.serve p), u.past.returned⟩⟩ _
      change (u.past.desk.step (.serve p)).Neat at neat'
      have steady' := may.2.1
      change Steady _ ⟨u.past.desk.step (.serve p), u.past.returned⟩ at steady'
      generalize u.past.desk.step (.serve p) = desk at served neat' steady' ⊢
      generalize u.data.buf (u.data.r % INPUT_BUF).toNat = c at served ⊢
      rw [Desk.give] at served
      split
      · rename_i ends
        rw [if_pos ends] at served
        split
        · rename_i saved
          have something : got ≠ [] := by
            rintro rfl
            simp only [List.length_nil] at count
            omega
          rw [if_neg something] at served
          subst served
          have back : u.data.r + 1 - 1 = u.data.r := UInt32.add_sub_cancel ..
          refine keeps_upd (mayUpd held steady' ?_) ?_
          · simp only [back]
            exact shows.bound
          · refine ⟨held, ?_, ?_, neat'⟩
            · simp only [back]
              exact shows
            · simp only [Desk.deliver, returned]
        · rename_i fresh
          have nothing : got = [] := by
            rw [← List.length_eq_zero_iff]
            omega
          rw [if_pos nothing] at served
          subst served
          exact ⟨held, rest, by simp only [Desk.deliver, Desk.pop, returned], neat'⟩
      · rename_i proper
        rw [if_neg proper] at served
        split
        · rename_i line
          rw [if_pos (Or.inl line)] at served
          subst served
          exact ⟨held, rest, by simp only [Desk.deliver, Desk.pop, returned], neat'⟩
        · rename_i goes_on
          refine ih (got ++ [c]) ?_
          cases n with
          | zero =>
            rw [if_pos (Or.inr count)] at served
            subst served
            exact ⟨held, rest, by simp only [Desk.deliver, Desk.pop, returned], neat'⟩
          | succ n =>
            have more : ¬ (c = newline ∨ got.length + 1 = target.toNat) := by
              rw [not_or]
              exact ⟨goes_on, by omega⟩
            rw [if_neg more] at served
            subst served
            refine ⟨⟨⟨held, rest, returned, neat'⟩, update_self ..⟩, ?_⟩
            rw [List.length_append, List.length_singleton]
            omega

theorem follows_consoleread (fuel : Nat) (n : Int) :
    discipline.Follows p (consoleread p fuel n >>= fun _ => pure ()) := by
  intro u _
  refine Rules.keeps_seq (Q := fun _ u' => u'.held = false) ?_ fun _ u' (out : u'.held = false) => out
  refine keeps_acquire (W := discipline) fun u entered => ?_
  have inside := inside_of_entered entered
  have may := mayNote (p := p) (e := .start p n) inside.held inside.steady rfl
  refine keeps_note may ?_
  have neat := may.2.1.neat
  have going : Going p n [] n.toNat { u with past := Remark.log (.event (.start p n)) u.data u.past } := by
    simp only [Remark.log, Desk.step] at neat ⊢
    by_cases positive : n ≤ 0
    · rw [Int.toNat_of_nonpos positive]
      simp only [if_pos positive] at neat ⊢
      exact ⟨inside.held, inside.shows, by simp only [Desk.deliver, inside.returned], neat⟩
    · obtain ⟨k, count⟩ : ∃ k, n.toNat = k + 1 := ⟨n.toNat - 1, by omega⟩
      simp only [if_neg positive] at neat ⊢
      rw [count]
      exact ⟨⟨⟨inside.held, inside.shows, inside.returned, neat⟩, update_self ..⟩, by simp [count]⟩
  refine Rules.keeps_seq (keeps_read_loop fuel n [] n.toNat going) fun read u ended => ?_
  cases read with
  | none => exact ended
  | some bytes =>
    obtain ⟨held, shows, delivered, neat⟩ := ended
    have may : discipline.MayChange p u u.data (Remark.log (.returned ⟨p, n, bytes⟩) u.data u.past) :=
      ⟨held, ⟨shows.bound, delivered ▸ List.prefix_refl _, neat⟩, fun _ _ => rfl⟩
    refine keeps_note may ?_
    exact keeps_release (W := discipline) ⟨held, shows, delivered.symm⟩ rfl

theorem follows_console {body : ConsoleCode Unit} (call : ConsoleCall p body) : discipline.Follows p body := by
  cases call with
  | intr chars => exact follows_consoleintr chars
  | read fuel n => exact follows_consoleread fuel n
  | kill pid => exact follows_kill pid

def Record.start : Record := ⟨⟨⟨[], []⟩, fun _ => none, []⟩, []⟩

/-- In every interleaving of interrupts and reads the counters are in order, `consoleread` returns what
the editor delivers, and with the lock free the ring buffer holds what the editor has. -/
theorem console_editor {s : State Input} {c : Threads ((signature Input).noted Remark) ConsoleState}
    (free : s.lock lock = none) (empty : s.data.r = s.data.w ∧ s.data.w = s.data.e)
    (run : Threads.Reachable consoleMachine consoleCalls (fun _ _ _ => True) (.initial (s, .start)) c) :
    (c.state.1.data.w - c.state.1.data.r ≤ c.state.1.data.e - c.state.1.data.r ∧
      c.state.1.data.e - c.state.1.data.r ≤ INPUT_BUF) ∧
    c.state.2.returned <+: c.state.2.desk.delivered ∧
    (∀ d ∈ c.state.2.returned, d.bytes.length ≤ d.n.toNat ∧ ctrl 'D' ∉ d.bytes ∧ newline ∉ d.bytes.dropLast) ∧
    (c.state.1.lock lock = none →
      (c.state.1.data.e = c.state.1.data.r + INPUT_BUF → c.state.1.data.w = c.state.1.data.e) ∧
      c.state.2.returned = c.state.2.desk.delivered ∧
      c.state.2.desk.editor.committed = between 128 c.state.1.data.buf c.state.1.data.r c.state.1.data.w ∧
      c.state.2.desk.editor.line = between 128 c.state.1.data.buf c.state.1.data.w c.state.1.data.e) := by
  have shows : Shows s.data ⟨[], []⟩ := by
    obtain ⟨r_eq, w_eq⟩ := empty
    refine ⟨?_, ?_, ?_, List.not_mem_nil, fun _ => w_eq⟩
    · rw [r_eq, between_self]
    · rw [w_eq, between_self]
    · rw [r_eq, w_eq, gap_self]
      decide
  obtain ⟨⟨bound, returned, neat⟩, agrees⟩ := reachable (W := discipline) run free ⟨shows, rfl⟩
    ⟨shows.bound, List.prefix_refl _, nofun, nofun⟩ (fun _ _ _ _ => trivial) (by
      intro p s current prog call
      obtain ⟨done, body, call, rfl⟩ := call
      exact ⟨done, body, follows_console call, rfl⟩)
  have sum : gap c.state.1.data.r c.state.1.data.e = _ := gap_add (w := c.state.1.data.w) (by omega)
  refine ⟨⟨?_, ?_⟩, returned, fun d member => neat.delivered d (returned.subset member), fun idle => ?_⟩
  · rw [UInt32.le_iff_toNat_le]
    change gap c.state.1.data.r c.state.1.data.w ≤ gap c.state.1.data.r c.state.1.data.e
    omega
  · rw [UInt32.le_iff_toNat_le]
    change gap c.state.1.data.r c.state.1.data.e ≤ 128
    omega
  · obtain ⟨shows, same⟩ := agrees idle
    refine ⟨fun full => shows.full ?_, same, shows.committed, shows.line⟩
    have lt := c.state.1.data.r.toNat_lt
    rw [← sum, gap_eq, full, UInt32.toNat_add]
    simp only [INPUT_BUF, UInt32.reduceToNat]
    omega

/-- Running processes and an empty console whose counters are about to wrap around. -/
def consoleStart : State Input where
  lock _ := none
  ncli _ := 0
  procs p := { state := .running, chan := .null, killed := false, pid := p + 1 }
  data := ⟨fun _ => 0, 0xffffffff, 0xffffffff, 0xffffffff⟩

/-- A letter, a second one that is rubbed out and a newline are typed and read. -/
theorem console_editor_line :
    ∃ c, Threads.Reachable consoleMachine consoleCalls (fun _ _ _ => True) (.initial (consoleStart, .start)) c ∧
      (c.state.1.data.e = 1 ∧ c.state.2.returned.map Delivery.bytes = [[97, newline]]) ∧
      (c.state.1.data.w - c.state.1.data.r ≤ c.state.1.data.e - c.state.1.data.r ∧
        c.state.1.data.e - c.state.1.data.r ≤ INPUT_BUF) ∧
      c.state.2.returned <+: c.state.2.desk.delivered ∧
      (∀ d ∈ c.state.2.returned, d.bytes.length ≤ d.n.toNat ∧ ctrl 'D' ∉ d.bytes ∧ newline ∉ d.bytes.dropLast) ∧
      (c.state.1.lock lock = none →
        (c.state.1.data.e = c.state.1.data.r + INPUT_BUF → c.state.1.data.w = c.state.1.data.e) ∧
        c.state.2.returned = c.state.2.desk.delivered ∧
        c.state.2.desk.editor.committed = between 128 c.state.1.data.buf c.state.1.data.r c.state.1.data.w ∧
        c.state.2.desk.editor.line = between 128 c.state.1.data.buf c.state.1.data.w c.state.1.data.e) := by
  let types : ConsoleProg := (consoleintr [97, 98, ctrl 'H', newline]).interp (noted Op.code)
  let reads : ConsoleProg := (consoleread 1 1 10 >>= fun _ => pure ()).interp (noted Op.code)
  have found : (Threads.schedule consoleMachine (fun _ => true) [(0, 84), (1, 12)]
      ⟨(consoleStart, .start), update (update (fun _ => .done ()) 0 types) 1 reads⟩).any (fun c =>
        c.state.1.data.e = 1 ∧ c.state.2.returned.map Delivery.bytes = [[97, newline]]) = true := by
    decide +kernel
  obtain ⟨c, turns, reached⟩ := (Option.any_eq_true _ _).mp found
  have called : consoleCalls 0 (consoleStart, .start) (.done ()) types := ⟨rfl, _, .intr _, rfl⟩
  have called' : consoleCalls 1 (consoleStart, .start) (.done ()) reads := ⟨rfl, _, .read 1 10, rfl⟩
  have run : Threads.Reachable consoleMachine consoleCalls (fun _ _ _ => True) (.initial (consoleStart, .start)) c :=
    ((Threads.Reachable.call Relation.ReflTransGen.refl called).call called').trans
      (Threads.reachable_schedule (fun _ _ _ _ => trivial) turns)
  exact ⟨c, run, of_decide_eq_true reached, console_editor rfl ⟨rfl, rfl⟩ run⟩

end Espl.Sched.Console
