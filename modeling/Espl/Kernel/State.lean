import Espl.Disk.Layout
import Espl.Kernel.Memory

/-!
# Kernel state and its atomic steps

The state the kernel's system calls share: the disk with its buffer cache, the log, the inode cache,
the file table, the pipes, the process table and physical memory. A step is one access the code makes
under a lock or to memory only it uses; everything in `log.c`, `fs.c`, `file.c`, `pipe.c`, `sysfile.c`
and `proc.c` is a program of these steps.

A buffer that is not dirty holds what the disk holds, so of the cache only the dirty buffers are
state: `dirty` has the contents of those that `log_write` pinned. A sleep is a step that cannot be
taken yet.
-/

namespace Espl.Kernel

abbrev LOGSIZE : Nat := 10
abbrev NINODE : Nat := 50
abbrev NFILE : Nat := 100
abbrev NOFILE : Nat := 16
abbrev NDEV : Nat := 10
abbrev CONSOLE : Int := 1
abbrev NPROC : Nat := 64
abbrev PIPESIZE : Nat := 512

inductive Panic where
  | logTooBig | logOutside | ballocFull | bfreeFree | iallocNone | igetNone | ilock | ilockNoType
  | iunlock | iputBusy | bmapRange | dirlookupNotDir | dirlinkRead | dirlink | unlinkNlink
  | isdiremptyReadi | unlinkWritei | createIalloc | createDots | createDirlink | filedup | fileclose
  | fileread | filewrite | filewriteShort | initExiting
  | vm (m : Vm.Panic)
  deriving DecidableEq, Repr

/-- `struct log`; `sectors` is `lh`, its length `lh.n`. -/
structure Log where
  start : Nat
  size : Nat
  busy : Bool
  sectors : List Nat

/-- An inode cache entry: `flags` as `busy` and `valid`, the copy of the disk inode as `din`. -/
structure Inode where
  inum : Nat
  ref : Int
  busy : Bool
  valid : Bool
  din : Dinode

inductive FileType where
  | none | pipe | inode
  deriving DecidableEq, Repr

structure File where
  type : FileType
  ref : Int
  readable : Bool
  writable : Bool
  pipe : Nat
  ip : Nat
  off : Nat

structure Pipe where
  data : Nat → UInt8
  nread : Nat
  nwrite : Nat
  readopen : Bool
  writeopen : Bool

namespace Pipe

/-- The copy loop of `pipewrite` up to where the pipe is full; the bytes that are left over. -/
def fill : Pipe → List UInt8 → Pipe × List UInt8
  | pi, [] => (pi, [])
  | pi, b :: bs =>
    if pi.nwrite = (pi.nread + PIPESIZE) % 2 ^ 32 then
      (pi, b :: bs)
    else
      fill { pi with data := upd pi.data (pi.nwrite % PIPESIZE) b, nwrite := (pi.nwrite + 1) % 2 ^ 32 } bs

def drain : Pipe → Nat → List UInt8 × Pipe
  | pi, 0 => ([], pi)
  | pi, n + 1 =>
    if pi.nread = pi.nwrite then
      ([], pi)
    else
      let rest := drain { pi with nread := (pi.nread + 1) % 2 ^ 32 } n
      (pi.data (pi.nread % PIPESIZE) :: rest.1, rest.2)

end Pipe

/-- `enum procstate`; a process that runs or sleeps is `runnable` here. -/
inductive ProcState where
  | unused | embryo | runnable | zombie
  deriving DecidableEq, Repr

/-- `struct proc`, with the two registers of the trap frame that `exec` sets; `kstack` and `pgdir` are
pages. -/
structure Proc where
  state : ProcState
  pid : Nat
  parent : Option Nat
  killed : Bool
  kstack : Nat
  pgdir : Nat
  sz : Nat
  eip : Nat
  esp : Nat
  name : List UInt8
  ofile : Nat → Option Nat
  cwd : Option Nat

abbrev initproc : Nat := 0

structure State where
  disk : Nat → Block
  dirty : Nat → Option Block
  log : Log
  icache : Nat → Inode
  ftable : Nat → File
  pipes : Nat → Pipe
  procs : Nat → Proc
  nextpid : Nat
  mem : Mem
  /-- The characters that the reads of the console will find; `none` where the reader is killed as it waits. -/
  input : List (Option UInt8)

/-- The accesses. `balloc`, `allocated`, `linking` and `unlinking` do nothing: they mark where `balloc`
starts and returns a block, where a call is about to add an entry to the directory `dp`, and where one is
about to remove the entry of `ip`. -/
inductive Step where
  | panic (m : Panic)
  | bread (sec : Nat)
  | bwrite (sec : Nat) (data : Block)
  | setDirty (sec : Nat) (data : Block)
  | log
  | logSlot (sec : Nat)
  | logRecord (i sec : Nat)
  | setSectors (l : List Nat)
  | lockLog
  | unlockLog
  | balloc
  | allocated (b : Nat)
  | linking (dp : Nat)
  | unlinking (ip : Nat)
  | iget (inum : Nat)
  | idup (ip : Nat)
  | lockInode (ip : Nat)
  | unlockInode (ip : Nat)
  | inode (ip : Nat)
  | load (ip : Nat) (d : Dinode)
  | setDin (ip : Nat) (d : Dinode)
  | addr (ip i : Nat)
  | indirect (sec i : Nat)
  | putTest (ip : Nat)
  | putFree (ip : Nat)
  | consread
  | consback (c : UInt8)
  | filealloc
  | file (f : Nat)
  | setFile (f : Nat) (v : File)
  | addOff (f n : Nat)
  | filedup (f : Nat)
  | fileput (f : Nat)
  | setPipe (pi : Nat) (v : Pipe)
  | pipeclose (pi : Nat) (writable : Bool)
  | pipewrite (p pi : Nat) (src : List UInt8)
  | piperead (p pi n : Nat)
  | proc (p : Nat)
  | setProc (p : Nat) (f : Proc → Proc)
  | allocproc
  | zombie (p : Nat)
  | findZombie (p : Nat)
  | mem (e : Vm.Step)

@[reducible] def Answer : Step → Type
  | .panic _ => Empty
  | .bread _ => Block
  | .log => Log
  | .logSlot _ => Nat
  | .iget _ => Nat
  | .inode _ => Inode
  | .addr _ _ => Nat
  | .indirect _ _ => Nat
  | .putTest _ => Bool
  | .consread => Option UInt8
  | .filealloc => Option Nat
  | .file _ => File
  | .fileput _ => Option File
  | .pipeclose _ _ => Bool
  | .pipewrite _ _ _ => Option (List UInt8)
  | .piperead _ _ _ => Option (List UInt8)
  | .proc _ => Proc
  | .allocproc => Option Nat
  | .findZombie _ => Option Nat
  | .mem e => Vm.Answer e
  | _ => Unit

abbrev signature : Signature := ⟨Step, Answer⟩

abbrev K := Program signature

namespace State

def buf (s : State) (sec : Nat) : Block := (s.dirty sec).getD (s.disk sec)

def setInode (s : State) (ip : Nat) (v : Inode) : State := { s with icache := upd s.icache ip v }

def cached (s : State) (inum : Nat) : Option Nat :=
  (List.range NINODE).find? fun i => decide (0 < (s.icache i).ref ∧ (s.icache i).inum = inum)

def freeEntry (s : State) : Option Nat :=
  (List.range NINODE).find? fun i => decide ((s.icache i).ref = 0)

def freeFile (s : State) : Option Nat :=
  (List.range NFILE).find? fun f => decide ((s.ftable f).ref = 0)

def freeProc (s : State) : Option Nat :=
  (List.range NPROC).find? fun p => decide ((s.procs p).state = .unused)

def zombieChild (s : State) (p : Nat) : Option Nat :=
  (List.range NPROC).find? fun q => decide ((s.procs q).parent = some p ∧ (s.procs q).state = .zombie)

def hasKids (s : State) (p : Nat) : Bool :=
  (List.range NPROC).any fun q => decide ((s.procs q).parent = some p)

end State

def act : (e : Step) → State → Outcome State Panic (Answer e)
  | .panic m, _ => .panicked m
  | .bread sec, s => .returned (s.buf sec) s
  | .bwrite sec data, s =>
    .returned () { s with disk := upd s.disk sec data, dirty := upd s.dirty sec none }
  | .setDirty sec data, s => .returned () { s with dirty := upd s.dirty sec (some data) }
  | .log, s => .returned s.log s
  | .logSlot sec, s =>
    if s.log.sectors.length ≥ LOGSIZE ∨ s.log.sectors.length ≥ s.log.size - 1 then .panicked .logTooBig
    else if s.log.busy = false then .panicked .logOutside
    else .returned (s.log.sectors.idxOf sec) s
  | .logRecord i sec, s =>
    .returned () { s with log := { s.log with
      sectors := if i = s.log.sectors.length then s.log.sectors ++ [sec] else s.log.sectors.set i sec } }
  | .setSectors l, s => .returned () { s with log := { s.log with sectors := l } }
  | .lockLog, s =>
    if s.log.busy then .waiting else .returned () { s with log := { s.log with busy := true } }
  | .unlockLog, s => .returned () { s with log := { s.log with busy := false } }
  | .balloc, s => .returned () s
  | .allocated _, s => .returned () s
  | .linking _, s => .returned () s
  | .unlinking _, s => .returned () s
  | .iget inum, s =>
    match s.cached inum with
    | some ip => .returned ip (s.setInode ip { s.icache ip with ref := (s.icache ip).ref + 1 })
    | none =>
      match s.freeEntry with
      | some ip => .returned ip (s.setInode ip
          { s.icache ip with inum := inum, ref := 1, busy := false, valid := false })
      | none => .panicked .igetNone
  | .idup ip, s => .returned () (s.setInode ip { s.icache ip with ref := (s.icache ip).ref + 1 })
  | .lockInode ip, s =>
    if (s.icache ip).ref < 1 then .panicked .ilock
    else if (s.icache ip).busy then .waiting
    else .returned () (s.setInode ip { s.icache ip with busy := true })
  | .unlockInode ip, s =>
    if (s.icache ip).busy = false ∨ (s.icache ip).ref < 1 then .panicked .iunlock
    else .returned () (s.setInode ip { s.icache ip with busy := false })
  | .inode ip, s => .returned (s.icache ip) s
  | .load ip d, s => .returned () (s.setInode ip { s.icache ip with din := d, valid := true })
  | .setDin ip d, s => .returned () (s.setInode ip { s.icache ip with din := d })
  | .addr ip i, s => .returned ((s.icache ip).din.addr i) s
  | .indirect sec i, s => .returned ((s.buf sec).word i) s
  | .putTest ip, s =>
    if (s.icache ip).ref = 1 ∧ (s.icache ip).valid ∧ (s.icache ip).din.nlink = 0 then
      if (s.icache ip).busy then .panicked .iputBusy
      else .returned true (s.setInode ip { s.icache ip with busy := true })
    else .returned false (s.setInode ip { s.icache ip with ref := (s.icache ip).ref - 1 })
  | .putFree ip, s =>
    .returned () (s.setInode ip
      { s.icache ip with busy := false, valid := false, ref := (s.icache ip).ref - 1 })
  | .consread, s =>
    match s.input with
    | [] => .waiting
    | c :: rest => .returned c { s with input := rest }
  | .consback c, s => .returned () { s with input := some c :: s.input }
  | .filealloc, s =>
    match s.freeFile with
    | some f => .returned (some f) { s with ftable := upd s.ftable f { s.ftable f with ref := 1 } }
    | none => .returned none s
  | .file f, s => .returned (s.ftable f) s
  | .setFile f v, s => .returned () { s with ftable := upd s.ftable f { v with ref := (s.ftable f).ref } }
  | .addOff f n, s =>
    .returned () { s with ftable := upd s.ftable f { s.ftable f with off := ((s.ftable f).off + n) % 2 ^ 32 } }
  | .filedup f, s =>
    if (s.ftable f).ref < 1 then .panicked .filedup
    else .returned () { s with ftable := upd s.ftable f { s.ftable f with ref := (s.ftable f).ref + 1 } }
  | .fileput f, s =>
    if (s.ftable f).ref < 1 then .panicked .fileclose
    else if (s.ftable f).ref - 1 > 0 then
      .returned none { s with ftable := upd s.ftable f { s.ftable f with ref := (s.ftable f).ref - 1 } }
    else .returned (some (s.ftable f))
      { s with ftable := upd s.ftable f { s.ftable f with ref := 0, type := .none } }
  | .setPipe pi v, s => .returned () { s with pipes := upd s.pipes pi v }
  | .pipeclose pi writable, s =>
    let v := if writable then { s.pipes pi with writeopen := false } else { s.pipes pi with readopen := false }
    .returned (!v.readopen && !v.writeopen) { s with pipes := upd s.pipes pi v }
  | .pipewrite p pi src, s =>
    let gone := !(s.pipes pi).readopen || (s.procs p).killed
    let (v, rest) := (s.pipes pi).fill src
    if rest = src ∧ src ≠ [] then
      if gone then .returned none s else .waiting
    else if rest ≠ [] ∧ gone then
      .returned none { s with pipes := upd s.pipes pi v }
    else
      .returned (some rest) { s with pipes := upd s.pipes pi v }
  | .piperead p pi n, s =>
    if (s.pipes pi).nread = (s.pipes pi).nwrite ∧ (s.pipes pi).writeopen then
      if (s.procs p).killed then .returned none s else .waiting
    else
      let (bs, v) := (s.pipes pi).drain n
      .returned (some bs) { s with pipes := upd s.pipes pi v }
  | .proc p, s => .returned (s.procs p) s
  | .setProc p f, s => .returned () { s with procs := upd s.procs p (f (s.procs p)) }
  | .allocproc, s =>
    match s.freeProc with
    | some p => .returned (some p) { s with
        procs := upd s.procs p { s.procs p with state := .embryo, pid := s.nextpid }
        nextpid := s.nextpid + 1 }
    | none => .returned none s
  | .zombie p, s =>
    .returned () { s with procs := fun q =>
      let v := if (s.procs q).parent = some p then { s.procs q with parent := some initproc } else s.procs q
      if q = p then { v with state := .zombie } else v }
  | .findZombie p, s =>
    match s.zombieChild p with
    | some q => .returned (some q) s
    | none => if s.hasKids p = false ∨ (s.procs p).killed then .returned none s else .waiting
  | .mem e, s =>
    match Vm.act e s.mem with
    | .returned r m => .returned r { s with mem := m }
    | .panicked m => .panicked (.vm m)
    | .waiting => .waiting

abbrev machine : Machine signature State Panic := ⟨act⟩

/-- The kernel before its first process, once it has found the log: of an earlier run only the disk `d`
is left. -/
def booted (start size : Nat) (d : Nat → Block) : State where
  disk := d
  dirty := fun _ => none
  log := ⟨start, size, false, []⟩
  icache := fun _ => ⟨0, 0, false, false, Dinode.empty⟩
  ftable := fun _ => ⟨.none, 0, false, false, 0, 0, 0⟩
  pipes := fun _ => ⟨fun _ => 0, 0, 0, false, false⟩
  procs := fun _ => ⟨.unused, 0, none, false, 0, 0, 0, 0, 0, [], fun _ => none, none⟩
  nextpid := 1
  mem := ⟨⟨0x200, 0x300000, by decide, by decide, by decide⟩, [], fun _ _ => Pte.zero, fun _ _ => 0⟩
  input := []

def step (e : Step) : K (Answer e) := Program.step (G := signature) e .done

def vm {α : Type} (p : V α) : K α := p.interp (H := signature) fun e => step (.mem e)

/-- `panic(m)`: the machine stops, so it answers anything. -/
def panic {α : Type} (m : Panic) : K α := Program.step (G := signature) (.panic m) fun r => nomatch (r : Empty)

end Espl.Kernel
