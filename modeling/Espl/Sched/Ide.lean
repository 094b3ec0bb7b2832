import Mathlib.Algebra.Ring.Nat
import Mathlib.Data.List.Nodup
import Mathlib.Data.List.Perm.Subperm
import Espl.Program.Links
import Espl.Sched.Monitor

/-!
# The disk driver

`idestart`, `ideintr` and `iderw` of `ide.c` with a drive that carries out commands, compared with the
`iderw` of `memide.c`, which copies a sector at once. A process that calls `iderw` has the buffer B_BUSY,
so that its contents pass to the driver with the call and come back with the return.
-/

namespace Espl.Sched.Ide

open Monitor
open Program Links
open Function (update update_self update_of_ne update_eq_self)

abbrev NBUF : Nat := 10

variable {B : Type}

/-- A `struct buf` without its links; `B` is the type of the contents of a sector. -/
structure Buf (B : Type) where
  busy : Bool
  valid : Bool
  dirty : Bool
  dev : Nat
  sector : Nat
  data : B

/-! ### The disk in memory -/

inductive RwPanic where
  | notBusy | nothingToDo | notDisk1 | outOfRange
  deriving DecidableEq

def memide.transfer (memdisk : Nat → B) (b : Buf B) : (Nat → B) × Buf B :=
  if b.dirty then (update memdisk b.sector b.data, { b with dirty := false, valid := true })
  else (memdisk, { b with data := memdisk b.sector, valid := true })

def memide.iderw (disksize : Nat) (memdisk : Nat → B) (b : Buf B) : Except RwPanic ((Nat → B) × Buf B) :=
  if !b.busy then .error .notBusy
  else if b.valid && !b.dirty then .error .nothingToDo
  else if b.dev ≠ 1 then .error .notDisk1
  else if disksize ≤ b.sector then .error .outOfRange
  else .ok (memide.transfer memdisk b)

def memide.all (disksize : Nat) (memdisk : Nat → B) (requests : List (Buf B)) :
    Except RwPanic ((Nat → B) × List (Buf B)) :=
  requests.foldlM (fun done b => do
    let (memdisk, b) ← memide.iderw disksize done.1 b
    return (memdisk, done.2 ++ [b])) (memdisk, [])

/-! ### The drive -/

/-- A command with the sector that it names; a write has the contents. -/
structure Command (B : Type) where
  dev : Nat
  sector : Nat
  data : Option B

/-- The queue, the buffers that are with the driver, and the drive: commands it has been given and not
completed, the contents it has ready to be read, and the disks. -/
structure Driver (B : Type) where
  queue : Links
  bufs : Nat → Buf B
  commands : List (Command B)
  port : B
  disk : Nat → Nat → B

/-- The drive completes a command without error. -/
def Driver.complete (x : Driver B) : Driver B :=
  match x.commands with
  | [] => x
  | ⟨dev, sector, some data⟩ :: rest =>
    { x with commands := rest, disk := update x.disk dev (update (x.disk dev) sector data) }
  | ⟨dev, sector, none⟩ :: rest => { x with commands := rest, port := x.disk dev sector }

/-- The command that the registers name: one bit for the disk and 28 for the sector. -/
def Buf.command (b : Buf B) : Command B :=
  ⟨b.dev % 2, b.sector % 2 ^ 28, if b.dirty then some b.data else none⟩

def Driver.idestart (b : Nat) (x : Driver B) : Driver B := { x with commands := x.commands ++ [(x.bufs b).command] }

def Driver.setBuf (b : Nat) (f : Buf B → Buf B) (x : Driver B) : Driver B :=
  { x with bufs := update x.bufs b (f (x.bufs b)) }

def Driver.setQueue (k : Link) (b : Option Nat) (x : Driver B) : Driver B := { x with queue := x.queue.set k b }

/-! ### The code -/

/-- A call of `iderw` begins by `p` with its buffer, or ends; the drive raises an interrupt; the handler
is done with a buffer. -/
inductive Mark (B : Type) where
  | begin (p b : Nat) (buf : Buf B)
  | interrupt
  | served (b : Nat)
  | finish (p b : Nat)

/-- The calls in progress, with the number of their request, all requests in the order of the queue, the
buffers that the handler has served and what the calls have returned. -/
structure Journal (B : Type) where
  caller : Nat → Option (Nat × Nat)
  queued : List (Nat × Buf B)
  served : List Nat
  returned : List (Nat × Buf B)

def Mark.log : Mark B → Driver B → Journal B → Journal B
  | .begin p b buf, _, h =>
    { h with caller := update h.caller b (some (p, h.queued.length)), queued := h.queued ++ [(b, buf)] }
  | .interrupt, _, h => h
  | .served b, _, h => { h with served := h.served ++ [b] }
  | .finish _ b, x, h =>
    { h with
      caller := update h.caller b none
      returned := h.returned ++ ((h.caller b).map fun call => (call.2, x.bufs b)).toList }

/-- Calls in progress are on different buffers, and there is one interrupt for each command. -/
def Mark.Expected : Mark B → Driver B → Journal B → Prop
  | .begin _ b _, _, h => h.caller b = none
  | .interrupt, x, _ => x.commands ≠ []
  | _, _, _ => True

abbrev IdeCode (B : Type) : Type → Type := Program ((ops (Driver B)).noted (Mark B))

def idelock : Lock := .other 0

def chan (b : Nat) : Chan := .data b

def panic {α : Type} : IdeCode B α := .step (.act .stop) nofun

def ideintr.restart : IdeCode B Unit := do
  let x : Driver B ← perform .get
  match x.queue.first with
  | none => perform (.release idelock)
  | some b => do
    perform (.upd (Driver.idestart b))
    perform (.release idelock)

/-- The rest of `ideintr` once the buffer has its data: wake the process that waits for it. -/
def ideintr.wake (b : Nat) : IdeCode B Unit := do
  perform (.upd (Driver.setBuf b fun buf => { buf with valid := true, dirty := false }))
  note (.served b)
  perform (.wakeup (chan b))
  ideintr.restart

def ideintr : IdeCode B Unit := do
  perform (.acquire idelock)
  -- the drive has completed the command before it raised the interrupt
  note .interrupt
  perform (.upd Driver.complete)
  let x : Driver B ← perform .get
  match x.queue.first with
  | none => perform (.release idelock)
  | some b => do
    perform (.upd (Driver.setQueue .first (x.queue.next b)))
    let x : Driver B ← perform .get
    if (x.bufs b).dirty then ideintr.wake b
    else do
      perform (.upd fun x => x.setBuf b fun buf => { buf with data := x.port })
      ideintr.wake b

/-- The loop of `iderw` to the end of the queue. There are no more than `NBUF` buffers to pass. -/
def iderw.walk : Nat → Link → IdeCode B Link
  | 0, _ => panic
  | fuel + 1, pp => do
    let x : Driver B ← perform .get
    match x.queue.get pp with
    | none => return pp
    | some b => iderw.walk fuel (.next b)

def iderw.wait (b : Nat) : Nat → IdeCode B Unit
  | 0 => panic
  | fuel + 1 => do
    let x : Driver B ← perform .get
    if (x.bufs b).valid && !(x.bufs b).dirty then return ()
    else do
      perform (.sleep (chan b) idelock)
      iderw.wait b fuel

def iderw.await (p fuel b : Nat) : IdeCode B (Buf B) := do
  iderw.wait b fuel
  let x : Driver B ← perform .get
  note (.finish p b)
  perform (.release idelock)
  return x.bufs b

/-- `iderw` by process `p` on the buffer `b` with the contents `buf`; it returns the contents. The wait is
cut off after `fuel` rounds. -/
def iderw (havedisk1 : Bool) (p fuel b : Nat) (buf : Buf B) : IdeCode B (Buf B) := do
  if !buf.busy then panic
  else if buf.valid && !buf.dirty then panic
  else if buf.dev ≠ 0 && !havedisk1 then panic
  else do
    perform (.acquire idelock)
    note (.begin p b buf)
    perform (.upd (Driver.setBuf b fun _ => buf))
    perform (.upd (Driver.setQueue (.next b) none))
    let pp ← iderw.walk (NBUF + 1) .first
    perform (.upd (Driver.setQueue pp (some b)))
    let x : Driver B ← perform .get
    if x.queue.first = some b then perform (.upd (Driver.idestart b)) else pure ()
    iderw.await p fuel b

inductive IdeCall (disksize p : Nat) : IdeCode B Unit → Prop where
  | rw (havedisk1 : Bool) (fuel b : Nat) (buf : Buf B) (cached : b < NBUF) (disk1 : buf.dev = 1)
      (inside : buf.sector < disksize) : IdeCall disksize p (iderw havedisk1 p fuel b buf >>= fun _ => pure ())
  | intr : IdeCall disksize p ideintr
  | kill (pid : Int) : IdeCall disksize p (perform (.kill pid) >>= fun _ => pure ())

abbrev IdeState (B : Type) : Type := State (Driver B) × Journal B

abbrev IdeProg (B : Type) : Type := Program ((signature (Driver B)).noted (Mark B)) Unit

def ideCalls (disksize p : Nat) (_ : IdeState B) (current prog : IdeProg B) : Prop :=
  current = .done () ∧ ∃ body, IdeCall disksize p body ∧ prog = body.interp (noted Op.code)

def ideMachine (B : Type) (p : Nat) : Machine ((signature (Driver B)).noted (Mark B)) (IdeState B) Panic :=
  (machine (Driver B) p).noted fun mark s => mark.log s.data

def Expected (c : Threads ((signature (Driver B)).noted (Mark B)) (IdeState B)) (_ : Nat) :
    Noted (signature (Driver B)) (Mark B) → Prop
  | .note mark => mark.Expected c.state.1.data c.state.2
  | .act _ => True

/-! ### Requests one after the other -/

structure Fits (disksize : Nat) (b : Buf B) : Prop where
  busy : b.busy = true
  pending : ¬ (b.valid = true ∧ b.dirty = false)
  disk1 : b.dev = 1
  inside : b.sector < disksize

variable {disksize : Nat} {memdisk : Nat → B}

theorem memide.iderw_of_fits {b : Buf B} (fits : Fits disksize b) (memdisk : Nat → B) :
    memide.iderw disksize memdisk b = .ok (memide.transfer memdisk b) := by
  obtain ⟨busy, pending, disk1, inside⟩ := fits
  have some : (b.valid && !b.dirty) = false := by simpa using pending
  simp only [memide.iderw, busy, some, disk1, Bool.not_true, Bool.false_eq_true, if_false, ne_eq, not_true,
    if_neg (Nat.not_le.mpr inside)]

theorem memide.all_concat {requests : List (Buf B)} {b : Buf B} {done : (Nat → B) × List (Buf B)}
    (before : memide.all disksize memdisk requests = .ok done) (fits : Fits disksize b) :
    memide.all disksize memdisk (requests ++ [b]) =
      .ok ((memide.transfer done.1 b).1, done.2 ++ [(memide.transfer done.1 b).2]) := by
  rw [memide.all] at before ⊢
  rw [List.foldlM_append, before]
  change (memide.iderw disksize done.1 b >>= fun after => pure (after.1, done.2 ++ [after.2])) >>= pure = _
  rw [memide.iderw_of_fits fits]
  rfl

theorem memide.transfer_done (memdisk : Nat → B) (b : Buf B) :
    (memide.transfer memdisk b).2.valid = true ∧ (memide.transfer memdisk b).2.dirty = false := by
  unfold memide.transfer
  split
  · exact ⟨rfl, rfl⟩
  · rename_i clean
    exact ⟨rfl, by simpa using clean⟩

namespace Journal

def memide (disksize : Nat) (memdisk : Nat → B) (h : Journal B) : Except RwPanic ((Nat → B) × List (Buf B)) :=
  memide.all disksize memdisk ((h.queued.take h.served.length).map Prod.snd)

def waiting (h : Journal B) : List Nat := (h.queued.drop h.served.length).map Prod.fst

end Journal

variable (disksize memdisk) in
/-- What holds after every step: requests are served in the order of the queue, and calls have returned
what the disk in memory gives. -/
structure Settled (h : Journal B) : Prop where
  order : h.served <+: h.queued.map Prod.fst
  results : ∃ done, h.memide disksize memdisk = .ok done ∧ done.2.length = h.served.length ∧
    ∀ r ∈ h.returned, r.2.valid = true ∧ r.2.dirty = false ∧ done.2[r.1]? = some r.2

variable (disksize memdisk) in
structure Synced (x : Driver B) (h : Journal B) : Prop where
  lists : x.queue.Lists h.waiting
  waits : ∀ i b buf, h.queued[i]? = some (b, buf) → h.served.length ≤ i →
    b < NBUF ∧ (∃ p, h.caller b = some (p, i)) ∧ x.bufs b = buf ∧ Fits disksize buf
  request : ∀ b p i, h.caller b = some (p, i) → ∃ buf, h.queued[i]? = some (b, buf)
  result : ∀ b p i, h.caller b = some (p, i) → i < h.served.length →
    (x.bufs b).valid = true ∧ (x.bufs b).dirty = false ∧
      ∀ done, h.memide disksize memdisk = .ok done → done.2[i]? = some (x.bufs b)
  disk : ∃ results, h.memide disksize memdisk = .ok (x.disk 1, results)

/-- The drive has the command of the request at the head of the queue and no other, and none if no request waits. -/
def Started (x : Driver B) (h : Journal B) : Prop :=
  x.commands = (h.waiting.head?.map fun b => (x.bufs b).command).toList

variable {x : Driver B} {h : Journal B}

theorem Settled.served_le (s : Settled disksize memdisk h) : h.served.length ≤ h.queued.length := by
  simpa using s.order.length_le

theorem mem_waiting {b : Nat} (member : b ∈ h.waiting) :
    ∃ i buf, h.queued[i]? = some (b, buf) ∧ h.served.length ≤ i := by
  obtain ⟨⟨_, buf⟩, inside, rfl⟩ := List.mem_map.mp member
  obtain ⟨i, found⟩ := List.mem_iff_getElem?.mp inside
  rw [List.getElem?_drop] at found
  exact ⟨_, buf, found, Nat.le_add_right ..⟩

theorem getElem?_waiting {i b : Nat} (found : h.waiting[i]? = some b) :
    ∃ buf, h.queued[h.served.length + i]? = some (b, buf) := by
  rw [Journal.waiting, List.getElem?_map, List.getElem?_drop] at found
  obtain ⟨⟨_, buf⟩, at_i, rfl⟩ := Option.map_eq_some_iff.mp found
  exact ⟨buf, at_i⟩

theorem Synced.nodup (s : Synced disksize memdisk x h) : h.waiting.Nodup := by
  rw [List.nodup_iff_getElem?_ne_getElem?]
  intro i j lt inside same
  obtain ⟨b, at_j⟩ : ∃ b, h.waiting[j]? = some b := ⟨_, List.getElem?_eq_getElem inside⟩
  rw [at_j] at same
  obtain ⟨buf, first⟩ := getElem?_waiting same
  obtain ⟨buf', second⟩ := getElem?_waiting at_j
  obtain ⟨p, caller⟩ := (s.waits _ b buf first (Nat.le_add_right ..)).2.1
  obtain ⟨q, caller'⟩ := (s.waits _ b buf' second (Nat.le_add_right ..)).2.1
  rw [caller] at caller'
  simp only [Option.some.injEq, Prod.mk.injEq] at caller'
  omega

theorem Synced.length_le (s : Synced disksize memdisk x h) : h.waiting.length ≤ NBUF := by
  have subset : h.waiting ⊆ List.range NBUF := by
    intro b member
    obtain ⟨i, buf, found, later⟩ := mem_waiting member
    exact List.mem_range.mpr (s.waits i b buf found later).1
  simpa using (List.subperm_of_subset s.nodup subset).length_le

theorem Synced.not_waiting (s : Synced disksize memdisk x h) {b : Nat} (free : h.caller b = none) : b ∉ h.waiting := by
  intro member
  obtain ⟨i, buf, found, later⟩ := mem_waiting member
  obtain ⟨p, caller⟩ := (s.waits i b buf found later).2.1
  rw [free] at caller
  cases caller

theorem getElem?_append_some {α : Type} {l m : List α} {i : Nat} {a : α} (found : l[i]? = some a) :
    (l ++ m)[i]? = some a := by
  rw [List.getElem?_append_left (List.getElem?_eq_some_iff.mp found).1, found]

/-! ### A new request -/

section

variable {p b : Nat} {buf : Buf B}

theorem log_begin_memide (s : Settled disksize memdisk h) :
    (Mark.log (.begin p b buf) x h).memide disksize memdisk = h.memide disksize memdisk := by
  simp only [Journal.memide, Mark.log, List.take_append_of_le_length s.served_le]

theorem log_begin_waiting (s : Settled disksize memdisk h) :
    (Mark.log (.begin p b buf) x h).waiting = h.waiting ++ [b] := by
  simp only [Journal.waiting, Mark.log, List.drop_append_of_le_length s.served_le, List.map_append, List.map_cons,
    List.map_nil]

theorem settled_begin (s : Settled disksize memdisk h) : Settled disksize memdisk (Mark.log (.begin p b buf) x h) := by
  refine ⟨?_, ?_⟩
  · simp only [Mark.log, List.map_append]
    exact s.order.trans (List.prefix_append ..)
  · rw [log_begin_memide s]
    exact s.results

theorem synced_begin {x' : Driver B} (s : Synced disksize memdisk x h) (settled : Settled disksize memdisk h)
    (free : h.caller b = none) (cached : b < NBUF) (fits : Fits disksize buf)
    (queue : x'.queue = (x.queue.set (.next b) none).set (after h.waiting) (some b))
    (bufs : x'.bufs = update x.bufs b buf) (disk : x'.disk = x.disk) :
    Synced disksize memdisk x' (Mark.log (.begin p b buf) x h) := by
  have fresh := s.not_waiting free
  refine ⟨?_, fun i c buf' found later => ?_, fun c q i caller => ?_, fun c q i caller served => ?_, ?_⟩
  · rw [log_begin_waiting settled, queue]
    refine Links.Lists.concat ?_ s.nodup fresh (update_self ..)
    refine From.congr s.lists fun a member => update_of_ne ?_ ..
    rintro rfl
    exact fresh member
  · change (h.queued ++ [(b, buf)])[i]? = some (c, buf') at found
    by_cases old : i < h.queued.length
    · rw [List.getElem?_append_left old] at found
      obtain ⟨lt, ⟨q, caller⟩, contents, fits'⟩ := s.waits i c buf' found later
      have ne : c ≠ b := by
        rintro rfl
        rw [free] at caller
        cases caller
      refine ⟨lt, ⟨q, ?_⟩, ?_, fits'⟩
      · simpa only [Mark.log, update_of_ne ne] using caller
      · rw [bufs, update_of_ne ne, contents]
    · have last : i = h.queued.length := by
        have lt := (List.getElem?_eq_some_iff.mp found).1
        simp only [List.length_append, List.length_singleton] at lt
        omega
      subst last
      rw [List.getElem?_concat_length] at found
      obtain ⟨rfl, rfl⟩ := Prod.mk.inj (Option.some.inj found)
      refine ⟨cached, ⟨p, update_self ..⟩, ?_, fits⟩
      rw [bufs, update_self]
  · by_cases same : c = b
    · subst same
      simp only [Mark.log, update_self] at caller
      obtain ⟨rfl, rfl⟩ := Prod.mk.inj (Option.some.inj caller)
      exact ⟨buf, List.getElem?_concat_length ..⟩
    · simp only [Mark.log, update_of_ne same] at caller
      obtain ⟨buf', found⟩ := s.request c q i caller
      exact ⟨buf', getElem?_append_some found⟩
  · by_cases same : c = b
    · subst same
      simp only [Mark.log, update_self] at caller
      obtain ⟨rfl, rfl⟩ := Prod.mk.inj (Option.some.inj caller)
      exact absurd settled.served_le (Nat.not_le.mpr served)
    · simp only [Mark.log, update_of_ne same] at caller
      rw [log_begin_memide settled, bufs, update_of_ne same]
      exact s.result c q i caller served
  · rw [log_begin_memide settled, disk]
    exact s.disk

theorem started_begin {x' : Driver B} (settled : Settled disksize memdisk h) (fresh : b ∉ h.waiting) (s : Started x h)
    (bufs : x'.bufs = update x.bufs b buf)
    (commands : x'.commands = if h.waiting = [] then x.commands ++ [buf.command] else x.commands) :
    Started x' (Mark.log (.begin p b buf) x h) := by
  rw [Started, log_begin_waiting settled, commands, s, bufs]
  cases waiting : h.waiting with
  | nil => simp
  | cons a rest =>
    have ne : a ≠ b := by
      rintro rfl
      exact fresh (waiting ▸ List.mem_cons_self)
    simp [update_of_ne ne]

end

/-! ### A request is served -/

section

variable {b : Nat} {buf : Buf B}

theorem log_served_take (found : h.queued[h.served.length]? = some (b, buf)) :
    (h.queued.take (h.served ++ [b]).length).map Prod.snd = (h.queued.take h.served.length).map Prod.snd ++ [buf] := by
  rw [List.length_append, List.length_singleton, List.take_add_one, found]
  simp

theorem log_served_memide {done : (Nat → B) × List (Buf B)} (found : h.queued[h.served.length]? = some (b, buf))
    (fits : Fits disksize buf) (before : h.memide disksize memdisk = .ok done) :
    (Mark.log (.served b) x h).memide disksize memdisk =
      .ok ((memide.transfer done.1 buf).1, done.2 ++ [(memide.transfer done.1 buf).2]) := by
  change memide.all disksize memdisk ((h.queued.take (h.served ++ [b]).length).map Prod.snd) = _
  rw [log_served_take found]
  exact memide.all_concat before fits

theorem waiting_of_served (found : h.queued[h.served.length]? = some (b, buf)) :
    h.waiting = b :: (Mark.log (.served b) x h).waiting := by
  obtain ⟨lt, at_⟩ := List.getElem?_eq_some_iff.mp found
  simp only [Journal.waiting, Mark.log, List.length_append, List.length_singleton]
  rw [List.drop_eq_getElem_cons lt, at_, List.map_cons]

theorem settled_served (s : Settled disksize memdisk h) (found : h.queued[h.served.length]? = some (b, buf))
    (fits : Fits disksize buf) : Settled disksize memdisk (Mark.log (.served b) x h) := by
  obtain ⟨done, before, count, returned⟩ := s.results
  refine ⟨?_, _, log_served_memide found fits before, ?_, fun r member => ?_⟩
  · obtain ⟨rest, split⟩ := s.order
    have here : (h.queued.map Prod.fst)[h.served.length]? = some b := by rw [List.getElem?_map, found]; rfl
    rw [← split, List.getElem?_append_right Nat.le.refl, Nat.sub_self] at here
    cases rest with
    | nil => cases here
    | cons c rest =>
      obtain rfl := Option.some.inj here
      exact ⟨rest, by simpa [Mark.log] using split⟩
  · simp [Mark.log, count]
  · obtain ⟨valid, clean, result⟩ := returned r member
    exact ⟨valid, clean, getElem?_append_some result⟩

theorem synced_served {x' : Driver B} (s : Synced disksize memdisk x h) (settled : Settled disksize memdisk h)
    (found : h.queued[h.served.length]? = some (b, buf))
    (queue : x'.queue = x.queue.set .first (x.queue.next b))
    (bufs : x'.bufs = update x.bufs b (memide.transfer (x.disk 1) buf).2)
    (disk : x'.disk 1 = (memide.transfer (x.disk 1) buf).1) :
    Synced disksize memdisk x' (Mark.log (.served b) x h) := by
  obtain ⟨_, ⟨p, caller⟩, _, fits⟩ := s.waits _ b buf found Nat.le.refl
  obtain ⟨results, before⟩ := s.disk
  obtain ⟨done, before', count, _⟩ := settled.results
  obtain rfl := Except.ok.inj (before.symm.trans before')
  have after := log_served_memide (x := x) found fits before
  refine ⟨?_, fun i c buf' found' later => ?_, s.request, fun c q i caller' served => ?_, ?_⟩
  · have lists := s.lists
    rw [Links.Lists, waiting_of_served (x := x) found] at lists
    rw [queue]
    exact lists.2
  · simp only [Mark.log, List.length_append, List.length_singleton] at later
    obtain ⟨lt, ⟨q, caller'⟩, contents, fits'⟩ := s.waits i c buf' found' (by omega)
    have ne : c ≠ b := by
      rintro rfl
      rw [caller] at caller'
      simp only [Option.some.injEq, Prod.mk.injEq] at caller'
      omega
    refine ⟨lt, ⟨q, caller'⟩, ?_, fits'⟩
    rw [bufs, update_of_ne ne, contents]
  · rw [after]
    simp only [Mark.log, List.length_append, List.length_singleton] at caller' served
    by_cases same : c = b
    · subst same
      rw [caller] at caller'
      simp only [Option.some.injEq, Prod.mk.injEq] at caller'
      rw [bufs, update_self, ← caller'.2]
      obtain ⟨valid, clean⟩ := memide.transfer_done (x.disk 1) buf
      refine ⟨valid, clean, fun done eq => ?_⟩
      obtain rfl := Except.ok.inj eq
      rw [← count, List.getElem?_concat_length]
    · have earlier : i < h.served.length := by
        refine Nat.lt_of_le_of_ne (Nat.lt_succ_iff.mp served) fun same' => same ?_
        obtain ⟨buf', found'⟩ := s.request c q i caller'
        rw [same', found] at found'
        exact (congrArg Prod.fst (Option.some.inj found')).symm
      obtain ⟨valid, clean, result⟩ := s.result c q i caller' earlier
      rw [bufs, update_of_ne same]
      refine ⟨valid, clean, fun done eq => ?_⟩
      obtain rfl := Except.ok.inj eq
      exact getElem?_append_some (result _ before)
  · rw [after, disk]
    exact ⟨_, rfl⟩

end

/-! ### One process at a time -/

variable (disksize memdisk) in
def ide : Monitor (Driver B) (Mark B) (Journal B) where
  lk := idelock
  log := Mark.log
  inv x h := Synced disksize memdisk x h ∧ Started x h
  always _ h := Settled disksize memdisk h
  rely p y z := ∀ b i, y.2.caller b = some (p, i) → z.2.caller b = some (p, i)
  assume := Mark.Expected
  plain := by decide
  rely_refl _ _ _ _ caller := caller
  rely_trans _ _ _ _ h h' b i caller := h' b i (h b i caller)

variable {p b : Nat} {buf : Buf B} {u : Hold (Driver B) (Journal B)}

theorem mayUpd {x : Driver B} (held : u.held = true) (settled : Settled disksize memdisk u.past) :
    (ide disksize memdisk).MayChange p u x u.past := ⟨held, settled, fun _ _ _ _ caller => caller⟩

theorem keeps_walk (fuel : Nat) (l₁ l₂ : List Nat) (held : u.held = true) (lists : u.data.queue.Lists (l₁ ++ l₂))
    (enough : l₂.length < fuel) :
    ((ide disksize memdisk).callers p).Keeps (iderw.walk fuel (after l₁)) u fun pp u' =>
      pp = after (l₁ ++ l₂) ∧ u' = u := by
  induction fuel generalizing l₁ l₂ with
  | zero => cases enough
  | succ fuel ih =>
    refine keeps_get held ?_
    have next := lists.get_after
    cases l₂ with
    | nil =>
      rw [show u.data.queue.get (after l₁) = none from next, List.append_nil]
      exact ⟨rfl, rfl⟩
    | cons c l₂ =>
      rw [next.1, List.append_cons]
      rw [List.append_cons] at lists
      have step := ih (l₁ ++ [c]) l₂ lists (Nat.lt_of_succ_lt_succ enough)
      rwa [after_concat] at step

structure Calling (disksize : Nat) (memdisk : Nat → B) (p b i : Nat) (u : Hold (Driver B) (Journal B)) : Prop where
  held : u.held = true
  settled : Settled disksize memdisk u.past
  synced : Synced disksize memdisk u.data u.past
  started : Started u.data u.past
  caller : u.past.caller b = some (p, i)

theorem keeps_wait (fuel : Nat) {i : Nat} (h : Calling disksize memdisk p b i u) :
    ((ide disksize memdisk).callers p).Keeps (iderw.wait b fuel) u fun _ u' =>
      Calling disksize memdisk p b i u' ∧ (u'.data.bufs b).valid = true ∧ (u'.data.bufs b).dirty = false := by
  induction fuel generalizing u with
  | zero => exact ⟨trivial, nofun⟩
  | succ fuel ih =>
    refine keeps_get h.held ?_
    split
    · rename_i done
      simp only [Bool.and_eq_true, Bool.not_eq_true'] at done
      exact ⟨h, done⟩
    · refine keeps_sleep (W := ide disksize memdisk) ⟨h.held, h.synced, h.started⟩ fun u' entered => ?_
      obtain ⟨⟨held, synced, started⟩, settled, rely⟩ := entered
      exact ih ⟨held, settled, synced, started, rely b i h.caller⟩

theorem Calling.served {i : Nat} (h : Calling disksize memdisk p b i u) (valid : (u.data.bufs b).valid = true)
    (clean : (u.data.bufs b).dirty = false) : i < u.past.served.length := by
  by_contra later
  obtain ⟨buf, found⟩ := h.synced.request b p i h.caller
  obtain ⟨_, _, contents, fits⟩ := h.synced.waits i b buf found (Nat.le_of_not_lt later)
  exact fits.pending ⟨contents ▸ valid, contents ▸ clean⟩

theorem synced_finish {i : Nat} (s : Synced disksize memdisk x h) (caller : h.caller b = some (p, i))
    (served : i < h.served.length) : Synced disksize memdisk x (Mark.log (.finish p b) x h) := by
  have others : ∀ c q j, (Mark.log (.finish p b) x h).caller c = some (q, j) → h.caller c = some (q, j) := by
    intro c q j caller'
    by_cases same : c = b
    · subst same
      simp [Mark.log] at caller'
    · simpa only [Mark.log, update_of_ne same] using caller'
  refine ⟨s.lists, fun j c buf found later => ?_, fun c q j caller' => s.request c q j (others c q j caller'),
    fun c q j caller' => s.result c q j (others c q j caller'), s.disk⟩
  obtain ⟨lt, ⟨q, caller'⟩, rest⟩ := s.waits j c buf found later
  have ne : c ≠ b := by
    rintro rfl
    rw [caller] at caller'
    simp only [Option.some.injEq, Prod.mk.injEq] at caller'
    exact absurd later (Nat.not_le.mpr (caller'.2 ▸ served))
  exact ⟨lt, ⟨q, by simpa only [Mark.log, update_of_ne ne] using caller'⟩, rest⟩

theorem first_concat {q : Links} {l : List Nat} (lists : q.Lists l) (fresh : b ∉ l) :
    (q.set (after l) (some b)).first = some b ↔ l = [] := by
  cases l with
  | nil => simp [after, Links.set]
  | cons a l =>
    obtain ⟨last, eq⟩ : ∃ last, (a :: l).getLast? = some last := ⟨_, List.getLast?_cons ..⟩
    have first : q.first = some a := lists.1
    have ne : a ≠ b := by
      rintro rfl
      exact fresh List.mem_cons_self
    simp [after, eq, Links.set, first, ne]

theorem mayBegin (held : u.held = true) (settled : Settled disksize memdisk u.past)
    (free : u.past.caller b = none) :
    (ide disksize memdisk).MayChange p u u.data (Mark.log (.begin p b buf) u.data u.past) := by
  refine ⟨held, settled_begin settled, fun q _ c i caller => ?_⟩
  have ne : c ≠ b := by
    rintro rfl
    rw [show u.past.caller c = _ from caller] at free
    cases free
  simpa only [Mark.log, update_of_ne ne] using caller

theorem mayFinish {i : Nat} (h : Calling disksize memdisk p b i u) (valid : (u.data.bufs b).valid = true)
    (clean : (u.data.bufs b).dirty = false) :
    (ide disksize memdisk).MayChange p u u.data (Mark.log (.finish p b) u.data u.past) := by
  obtain ⟨done, memide, count, returned⟩ := h.settled.results
  refine ⟨h.held, ⟨h.settled.order, done, memide, count, fun r member => ?_⟩, fun q ne c j caller => ?_⟩
  · rcases List.mem_append.mp member with old | new
    · exact returned r old
    · simp only [h.caller, Option.map_some, Option.toList_some, List.mem_singleton] at new
      subst new
      exact ⟨valid, clean, (h.synced.result b p i h.caller (h.served valid clean)).2.2 done memide⟩
  · have ne' : c ≠ b := by
      rintro rfl
      have same := h.caller.symm.trans caller
      simp only [Option.some.injEq, Prod.mk.injEq] at same
      exact ne same.1.symm
    simpa only [Mark.log, update_of_ne ne'] using caller

theorem keeps_await (fuel : Nat) {i : Nat} (h : Calling disksize memdisk p b i u) :
    ((ide disksize memdisk).callers p).Keeps (iderw.await p fuel b) u fun _ u' => u'.held = false := by
  refine Rules.keeps_seq (keeps_wait fuel h) fun _ u done => ?_
  obtain ⟨calling, valid, clean⟩ := done
  refine keeps_get calling.held (keeps_note (mayFinish calling valid clean) ?_)
  have synced := synced_finish calling.synced calling.caller (calling.served valid clean)
  exact keeps_release (W := ide disksize memdisk) ⟨calling.held, synced, calling.started⟩ rfl

theorem follows_iderw (havedisk1 : Bool) (fuel : Nat) (cached : b < NBUF) (disk1 : buf.dev = 1)
    (inside : buf.sector < disksize) :
    (ide disksize memdisk).Follows p (iderw havedisk1 p fuel b buf >>= fun _ => pure ()) := by
  intro u _
  refine Rules.keeps_seq (Q := fun _ u' => u'.held = false) ?_ fun _ u' (out : u'.held = false) => out
  unfold iderw
  split
  · exact ⟨trivial, nofun⟩
  · rename_i busy
    split
    · exact ⟨trivial, nofun⟩
    · rename_i pending
      split
      · exact ⟨trivial, nofun⟩
      · have fits : Fits disksize buf := ⟨by simpa using busy, by simpa using pending, disk1, inside⟩
        refine keeps_acquire (W := ide disksize memdisk) fun u entered => ?_
        obtain ⟨⟨held, synced, started⟩, settled, _⟩ := entered
        refine keeps_note_assuming held (mayBegin held settled) fun free => ?_
        have settled' : Settled disksize memdisk (Mark.log (.begin p b buf) u.data u.past) := settled_begin settled
        have fresh := synced.not_waiting free
        have lists : (u.data.queue.set (.next b) none).Lists u.past.waiting := by
          refine From.congr synced.lists fun a member => update_of_ne ?_ ..
          rintro rfl
          exact fresh member
        refine keeps_upd (mayUpd held settled') (keeps_upd (mayUpd held settled') ?_)
        refine Rules.keeps_seq
          (keeps_walk (NBUF + 1) [] u.past.waiting held lists (Nat.lt_succ_of_le synced.length_le)) ?_
        rintro _ _ ⟨rfl, rfl⟩
        refine keeps_upd (mayUpd held settled') (keeps_get held ?_)
        split
        · rename_i first
          have none := (first_concat lists fresh).mp first
          refine keeps_upd (mayUpd held settled') (keeps_await (i := u.past.queued.length) fuel ?_)
          refine ⟨held, settled', synced_begin synced settled free cached fits rfl rfl rfl, ?_, update_self ..⟩
          refine started_begin settled fresh started rfl ?_
          rw [if_pos none]
          change u.data.commands ++ [(update u.data.bufs b buf b).command] = _
          rw [update_self]
        · rename_i other
          have some : u.past.waiting ≠ [] := fun none => other ((first_concat lists fresh).mpr none)
          refine keeps_await (i := u.past.queued.length) fuel ?_
          refine ⟨held, settled', synced_begin synced settled free cached fits rfl rfl rfl, ?_, update_self ..⟩
          refine started_begin settled fresh started rfl ?_
          rw [if_neg some]
          rfl

/-! ### The handler -/

theorem keeps_restart (held : u.held = true) (settled : Settled disksize memdisk u.past)
    (synced : Synced disksize memdisk u.data u.past) (idle : u.data.commands = []) :
    ((ide disksize memdisk).callers p).Keeps ideintr.restart u fun _ u' => u'.held = false := by
  refine keeps_get held ?_
  have lists := synced.lists
  cases waiting : u.past.waiting with
  | nil =>
    rw [waiting] at lists
    rw [show u.data.queue.first = none from lists]
    refine Rules.keeps_last (fun _ => ⟨held, synced, ?_⟩) (by rintro _ _ rfl; rfl)
    rw [Started, waiting, idle]
    rfl
  | cons b rest =>
    rw [waiting] at lists
    rw [show u.data.queue.first = some b from lists.1]
    refine keeps_upd (mayUpd held settled) ?_
    refine Rules.keeps_last (fun _ =>
      ⟨held, ⟨synced.lists, synced.waits, synced.request, synced.result, synced.disk⟩, ?_⟩)
      (by rintro _ _ rfl; rfl)
    rw [Started, waiting]
    simp [Driver.idestart, idle]

theorem complete_of_fits (fits : Fits disksize buf) (small : disksize ≤ 2 ^ 23) (command : x.commands = [buf.command]) :
    x.complete = if buf.dirty then
        { x with commands := [], disk := update x.disk 1 (update (x.disk 1) buf.sector buf.data) }
      else { x with commands := [], port := x.disk 1 buf.sector } := by
  have sector : buf.sector % 2 ^ 28 = buf.sector := Nat.mod_eq_of_lt (by have := fits.inside; omega)
  rw [Buf.command, fits.disk1, sector] at command
  unfold Driver.complete
  rw [command]
  cases buf.dirty with
  | true => rfl
  | false => rfl

theorem keeps_wake {got : Buf B} (held : u.held = true) (settled : Settled disksize memdisk u.past)
    (synced : Synced disksize memdisk x u.past) (found : u.past.queued[u.past.served.length]? = some (b, buf))
    (queue : u.data.queue = x.queue.set .first (x.queue.next b)) (bufs : u.data.bufs = update x.bufs b got)
    (transfer : memide.transfer (x.disk 1) buf = (u.data.disk 1, { got with valid := true, dirty := false }))
    (idle : u.data.commands = []) :
    ((ide disksize memdisk).callers p).Keeps (ideintr.wake b) u fun _ u' => u'.held = false := by
  obtain ⟨_, _, _, fits⟩ := synced.waits _ b buf found Nat.le.refl
  have served : Settled disksize memdisk (Mark.log (.served b) x u.past) := settled_served settled found fits
  refine keeps_upd (mayUpd held settled) ?_
  refine keeps_note ⟨held, served, fun _ _ _ _ caller => caller⟩ (keeps_wakeup ?_)
  refine keeps_restart held served (synced_served synced settled found queue ?_ ?_) idle
  · rw [transfer]
    simp [Driver.setBuf, bufs]
  · rw [transfer]
    rfl

theorem follows_ideintr (small : disksize ≤ 2 ^ 23) : (ide disksize memdisk).Follows p ideintr := by
  intro u _
  refine keeps_acquire (W := ide disksize memdisk) fun u entered => ?_
  obtain ⟨⟨held, synced, started⟩, settled, _⟩ := entered
  refine keeps_note_assuming held (fun _ => mayUpd held settled) fun (active : u.data.commands ≠ []) => ?_
  cases waiting : u.past.waiting with
  | nil =>
    rw [Started, waiting] at started
    exact absurd started active
  | cons b rest =>
    obtain ⟨buf, found⟩ := getElem?_waiting (h := u.past) (i := 0) (b := b) (by rw [waiting]; rfl)
    obtain ⟨_, _, contents, fits⟩ := synced.waits _ b buf found Nat.le.refl
    have first : u.data.queue.first = some b := by
      have lists := synced.lists
      rw [waiting] at lists
      exact lists.1
    have command : u.data.commands = [buf.command] := by
      rw [Started, waiting] at started
      simpa [contents] using started
    have completed := complete_of_fits fits small command
    refine keeps_upd (mayUpd held settled) (keeps_get held ?_)
    dsimp only
    cases dirty : buf.dirty with
    | true =>
      rw [dirty, if_pos rfl] at completed
      rw [completed]
      dsimp only
      rw [first]
      refine keeps_upd (mayUpd held settled) (keeps_get held ?_)
      have there : (u.data.bufs b).dirty = true := by rw [contents, dirty]
      split
      · refine keeps_wake held settled synced found rfl (update_eq_self b u.data.bufs).symm ?_ rfl
        simp [memide.transfer, dirty, Driver.setQueue, contents]
      · rename_i clean
        exact absurd there clean
    | false =>
      rw [dirty, if_neg (by decide)] at completed
      rw [completed]
      dsimp only
      rw [first]
      refine keeps_upd (mayUpd held settled) (keeps_get held ?_)
      have there : ¬ (u.data.bufs b).dirty = true := by rw [contents, dirty]; decide
      split
      · rename_i written
        exact absurd written there
      · refine keeps_upd (mayUpd held settled) (keeps_wake held settled synced found rfl rfl ?_ rfl)
        simp [memide.transfer, dirty, Driver.setQueue, Driver.setBuf, contents]

theorem follows_ide (small : disksize ≤ 2 ^ 23) {body : IdeCode B Unit} (call : IdeCall disksize p body) :
    (ide disksize memdisk).Follows p body := by
  cases call with
  | rw havedisk1 fuel b buf cached disk1 inside => exact follows_iderw havedisk1 fuel cached disk1 inside
  | intr => exact follows_ideintr small
  | kill pid => exact follows_kill pid

def Journal.start : Journal B := ⟨fun _ => none, [], [], []⟩

variable (disksize memdisk) in
/-- Requests are served in the order of the queue, each once. The disk and what the calls have returned are as if
the disk in memory had been given the requests that are served one after the other. Whenever the driver is not at
work, the drive is at the first request that is left, so that it rests only when all have been served. -/
structure Refines (s : State (Driver B)) (h : Journal B) : Prop where
  order : h.served <+: h.queued.map Prod.fst
  results : ∃ done, h.memide disksize memdisk = .ok done ∧
    (∀ r ∈ h.returned, r.2.valid = true ∧ r.2.dirty = false ∧ done.2[r.1]? = some r.2) ∧
    (s.lock idelock = none → s.data.disk 1 = done.1)
  queue : s.lock idelock = none → s.data.queue.Lists h.waiting ∧ Started s.data h
  rests : s.lock idelock = none → s.data.commands = [] → h.served = h.queued.map Prod.fst

theorem Started.rests (started : Started x h) (order : h.served <+: h.queued.map Prod.fst) (idle : x.commands = []) :
    h.served = h.queued.map Prod.fst := by
  have none : h.waiting = [] := by
    rw [Started, idle] at started
    cases waiting : h.waiting with
    | nil => rfl
    | cons b rest =>
      rw [waiting] at started
      cases started
  apply order.eq_of_length_le
  rw [Journal.waiting, List.map_eq_nil_iff, List.drop_eq_nil_iff] at none
  rwa [List.length_map]

/-- In every interleaving of calls on different buffers with one interrupt for each command the driver serves the
requests as the disk in memory does. -/
theorem ide_refines_memide (small : disksize ≤ 2 ^ 23) {s : State (Driver B)}
    {c : Threads ((signature (Driver B)).noted (Mark B)) (IdeState B)} (free : s.lock idelock = none)
    (idle : s.data.queue.first = none ∧ s.data.commands = [])
    (run : Threads.Reachable (ideMachine B) (ideCalls disksize) Expected (.initial (s, .start)) c) :
    Refines disksize (s.data.disk 1) c.state.1 c.state.2 := by
  have settled : Settled disksize (s.data.disk 1) (.start : Journal B) := ⟨List.prefix_refl _, _, rfl, rfl, nofun⟩
  have synced : Synced disksize (s.data.disk 1) s.data .start := ⟨idle.1, nofun, nofun, nofun, _, rfl⟩
  obtain ⟨⟨order, done, memide, count, returned⟩, inv⟩ := reachable (W := ide disksize (s.data.disk 1)) run free
    ⟨synced, idle.2⟩ settled (fun _ _ _ expected => expected) (by
      intro p s current prog call
      obtain ⟨done, body, call, rfl⟩ := call
      exact ⟨done, body, follows_ide small call, rfl⟩)
  refine ⟨order, ⟨done, memide, returned, fun idle => ?_⟩, fun idle => ?_, fun idle => (inv idle).2.rests order⟩
  · obtain ⟨results, disk⟩ := (inv idle).1.disk
    exact congrArg Prod.fst (Except.ok.inj (disk.symm.trans memide))
  · exact ⟨(inv idle).1.lists, (inv idle).2⟩

def expected : Noted (signature (Driver B)) (Mark B) → IdeState B → Bool
  | .note (.begin _ b _), s => (s.2.caller b).isNone
  | .note .interrupt, s => !s.1.data.commands.isEmpty
  | _, _ => true

theorem expected_of_test {c : Threads ((signature (Driver B)).noted (Mark B)) (IdeState B)} {p : Nat}
    {e : Noted (signature (Driver B)) (Mark B)} (passed : expected e c.state = true) : Expected c p e := by
  cases e with
  | act e => trivial
  | note mark =>
    cases mark with
    | begin q b buf => exact Option.isNone_iff_eq_none.mp passed
    | interrupt =>
      intro none
      simp [expected, none] at passed
    | served _ | finish _ _ => trivial

def ideStart : State (Driver UInt8) where
  lock _ := none
  ncli _ := 0
  procs p := { state := .running, chan := .null, killed := false, pid := p + 1 }
  data := ⟨⟨none, fun _ => none⟩, fun _ => ⟨false, false, false, 0, 0, 0⟩, [], 0, fun _ _ => 0⟩

/-- Process 0 writes sector 3 and process 2, behind it in the queue, reads it. The first interrupt starts the read,
and after the second one both return. -/
theorem ide_refines_memide_two :
    ∃ c, Threads.Reachable (ideMachine UInt8) (ideCalls 8) Expected (.initial (ideStart, .start)) c ∧
      (c.state.2.served = [5, 6] ∧ c.state.2.returned.map (fun r => (r.1, r.2.data)) = [(0, 9), (1, 9)] ∧
        c.state.1.data.disk 1 3 = 9 ∧ c.state.1.lock idelock = none) ∧
      Refines 8 (ideStart.data.disk 1) c.state.1 c.state.2 := by
  let buf : Buf UInt8 := ⟨true, false, true, 1, 3, 9⟩
  let buf' : Buf UInt8 := ⟨true, false, false, 1, 3, 0⟩
  let writes : IdeProg UInt8 := (iderw true 0 2 5 buf >>= fun _ => pure ()).interp (noted Op.code)
  let reads : IdeProg UInt8 := (iderw true 2 2 6 buf' >>= fun _ => pure ()).interp (noted Op.code)
  let intr : IdeProg UInt8 := ideintr.interp (noted Op.code)
  have found : (Threads.schedule (fun p => (ideMachine UInt8 p).guarded expected) (fun _ => true)
      [(0, 14), (2, 14), (1, 77), (3, 77), (0, 8), (2, 8)]
      ⟨(ideStart, .start), update (update (update (update (fun _ => .done ())
        0 writes) 2 reads) 1 intr) 3 intr⟩).any (fun c =>
        c.state.2.served = [5, 6] ∧ c.state.2.returned.map (fun r => (r.1, r.2.data)) = [(0, 9), (1, 9)] ∧
          c.state.1.data.disk 1 3 = 9 ∧ c.state.1.lock idelock = none) = true := by
    decide +kernel
  obtain ⟨c, turns, reached⟩ := (Option.any_eq_true _ _).mp found
  have called : ideCalls 8 0 (ideStart, .start) (.done ()) writes :=
    ⟨rfl, _, .rw true 2 5 buf (by decide) rfl (by decide), rfl⟩
  have called' : ideCalls 8 2 (ideStart, .start) (.done ()) reads :=
    ⟨rfl, _, .rw true 2 6 buf' (by decide) rfl (by decide), rfl⟩
  have interrupts : ∀ p, ideCalls 8 p (ideStart, .start) (.done ()) intr := fun _ => ⟨rfl, _, .intr, rfl⟩
  have run : Threads.Reachable (ideMachine UInt8) (ideCalls 8) Expected (.initial (ideStart, .start)) c :=
    ((((Threads.Reachable.call Relation.ReflTransGen.refl called).call called').call (interrupts 1)).call
      (interrupts 3)).trans (Threads.reachable_guarded (fun _ _ _ passed => expected_of_test passed)
        (Threads.reachable_schedule (fun _ _ _ _ => trivial) turns))
  exact ⟨c, run, of_decide_eq_true reached, ide_refines_memide (by decide) rfl ⟨rfl, rfl⟩ run⟩

end Espl.Sched.Ide
