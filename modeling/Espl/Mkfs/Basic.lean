import Espl.Disk.Layout

/-!
# `mkfs.c`

The image is a function from sectors to blocks; a failed `assert` is `none`. A host file is the list
of the pieces its `read` calls return.
-/

namespace Espl.Mkfs

abbrev nblocks : Nat := 985
abbrev nlog : Nat := 10
abbrev ninodes : Nat := 200
abbrev size : Nat := 1024

structure State where
  img : Nat → Block
  freeblock : Nat
  usedblocks : Nat
  freeinode : Nat

structure HostFile where
  name : List UInt8
  reads : List (List UInt8)

def wsect (s : State) (sec : Nat) (buf : Block) : State :=
  { s with img := fun k => if k = sec then buf else s.img k }

def rsect (s : State) (sec : Nat) : Block := s.img sec

def i2b (inum : Nat) : Nat := inum / IPB + 2

def winode (s : State) (inum : Nat) (d : Dinode) : State :=
  wsect s (i2b inum) ((rsect s (i2b inum)).setDinode (inum % IPB) d)

def rinode (s : State) (inum : Nat) : Dinode := (rsect s (i2b inum)).dinode (inum % IPB)

def ialloc (s : State) (type : Nat) : Nat × State :=
  (s.freeinode,
    winode { s with freeinode := s.freeinode + 1 } s.freeinode { Dinode.empty with type := type, nlink := 1 })

def nextBlock (s : State) : Nat × State :=
  (s.freeblock, { s with freeblock := s.freeblock + 1, usedblocks := s.usedblocks + 1 })

def blockFor (s : State) (din : Dinode) (fbn : Nat) : Nat × Dinode × State :=
  if fbn < NDIRECT then
    if din.addr fbn = 0 then
      let (b, s) := nextBlock s
      (b, din.setAddr fbn b, s)
    else
      (din.addr fbn, din, s)
  else
    let (din, s) :=
      if din.addr NDIRECT = 0 then
        let (b, s) := nextBlock s
        (din.setAddr NDIRECT b, s)
      else
        (din, s)
    let indirect := rsect s (din.addr NDIRECT)
    if indirect.word (fbn - NDIRECT) = 0 then
      let (b, s) := nextBlock s
      (b, din, wsect s (din.addr NDIRECT) (indirect.setWord (fbn - NDIRECT) b))
    else
      (indirect.word (fbn - NDIRECT), din, s)

def iappendLoop (s : State) (din : Dinode) (off : Nat) (p : List UInt8) : Nat → Option (Nat × Dinode × State)
  | 0 => some (off, din, s)
  | fuel + 1 =>
    if p.length = 0 then
      some (off, din, s)
    else
      let fbn := off / 512
      if fbn < MAXFILE then
        let (x, din, s) := blockFor s din fbn
        let n1 := min p.length ((fbn + 1) * 512 - off)
        let buf := rsect s x
        let s := wsect s x (buf.splice (off - fbn * 512) (p.take n1))
        iappendLoop s din (off + n1) (p.drop n1) fuel
      else
        none

def iappend (s : State) (inum : Nat) (p : List UInt8) : Option State := do
  let din := rinode s inum
  let (off, din, s) ← iappendLoop s din din.size p p.length
  return winode s inum { din with size := off }

def markUsed (buf : Block) : Nat → Block
  | 0 => buf
  | i + 1 => (markUsed buf i).setBit i

def balloc (s : State) (used : Nat) : Option State :=
  if used < 512 * 8 then
    some (wsect s (ninodes / IPB + 3) (markUsed Block.zero used))
  else
    none

/-- The name a host file gets: one leading `_` is dropped. -/
def entryName (name : List UInt8) : List UInt8 := if name.head? = some 95 then name.tail else name

def addFile (s : State) (f : HostFile) : Option State :=
  if f.name.contains 47 then
    none
  else do
    let (inum, s) := ialloc s T_FILE
    let s ← iappend s ROOTINO (Dirent.toBytes ⟨inum, strncpy (entryName f.name) DIRSIZ⟩)
    f.reads.foldlM (fun s buf => iappend s inum buf) s

def blank : State where
  img := fun k => if k = 1 then Superblock.toBlock ⟨size, nblocks, ninodes, nlog⟩ else Block.zero
  freeblock := ninodes / IPB + 3 + (size / (512 * 8) + 1)
  usedblocks := ninodes / IPB + 3 + (size / (512 * 8) + 1)
  freeinode := 1

/-- `main`: the image and the globals at `exit(0)`. -/
def main (files : List HostFile) : Option State := do
  let (rootino, s) := ialloc blank T_DIR
  let s ← iappend s rootino (Dirent.toBytes ⟨rootino, strncpy [46] DIRSIZ⟩)
  let s ← iappend s rootino (Dirent.toBytes ⟨rootino, strncpy [46, 46] DIRSIZ⟩)
  let s ← files.foldlM addFile s
  let din := rinode s rootino
  let s := winode s rootino { din with size := (din.size / BSIZE + 1) * BSIZE }
  balloc s s.usedblocks

end Espl.Mkfs
