import Espl.Kernel.State

/-!
# `log.c`
-/

namespace Espl.Kernel

/-- `hb->n` and `hb->sector[]` stored into a header block; the rest of the block stays. -/
def putHeader (b : Block) (l : List Nat) : Block :=
  setWords (b.setWord 0 l.length) 1 l
where
  setWords (b : Block) (k : Nat) : List Nat → Block
    | [] => b
    | x :: xs => setWords (b.setWord k x) (k + 1) xs

/-- The sectors a header block names; a negative `n` names none. -/
def headerSectors (b : Block) : List Nat :=
  if b.word 0 < 2 ^ 31 then (List.range (b.word 0)).map fun i => b.word (i + 1) else []

def installTrans : K Unit := do
  let log ← step .log
  loop log.start 0 log.sectors
where
  loop (start tail : Nat) : List Nat → K Unit
    | [] => pure ()
    | sec :: rest => do
      let lbuf ← step (.bread (start + tail + 1))
      let _ ← step (.bread sec)
      step (.bwrite sec lbuf)
      loop start (tail + 1) rest

def readHead : K Unit := do
  let log ← step .log
  let buf ← step (.bread log.start)
  step (.setSectors (headerSectors buf))

def writeHead : K Unit := do
  let log ← step .log
  let buf ← step (.bread log.start)
  step (.bwrite log.start (putHeader buf log.sectors))

def recoverFromLog : K Unit := do
  readHead
  installTrans
  step (.setSectors [])
  writeHead

def beginTrans : K Unit := step .lockLog

def commitTrans : K Unit := do
  let log ← step .log
  if log.sectors.length > 0 then
    writeHead
    installTrans
    step (.setSectors [])
    writeHead
  step .unlockLog

/-- `log_write(b)` for a buffer of sector `sec` that holds `data`. -/
def logWrite (sec : Nat) (data : Block) : K Unit := do
  let i ← step (.logSlot sec)
  let log ← step .log
  let _ ← step (.bread (log.start + i + 1))
  step (.bwrite (log.start + i + 1) data)
  step (.logRecord i sec)
  step (.setDirty sec data)

end Espl.Kernel
