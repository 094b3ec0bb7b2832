import Espl.Kernel.Log

/-!
# `fs.c`

`dev` is always `ROOTDEV` and is left out. A pointer to a cache entry is its index; a null pointer
is `none`. `readi` returns what it copies out together with its result.
-/

namespace Espl.Kernel

def readsb : K Superblock := do
  let bp ← step (.bread 1)
  return Superblock.ofBlock bp

def bzero (bno : Nat) : K Unit := do
  let _ ← step (.bread bno)
  logWrite bno Block.zero

/-! ### Blocks -/

/-- The inner loop of `balloc`: the first clear bit among the `k` bits from `bi` on. -/
def clearBitFrom (bp : Block) (bi : Nat) : Nat → Option Nat
  | 0 => none
  | k + 1 => if bp.bit bi = false then some bi else clearBitFrom bp (bi + 1) k

def balloc : K Nat := do
  step .balloc
  let sb ← readsb
  scan sb 0 ((sb.size + BPB - 1) / BPB)
where
  scan (sb : Superblock) (b : Nat) : Nat → K Nat
    | 0 => panic .ballocFull
    | k + 1 => do
      let bp ← step (.bread (bblock b sb.ninodes))
      match clearBitFrom bp 0 (min BPB (sb.size - b)) with
      | some bi => do
        logWrite (bblock b sb.ninodes) (bp.setBit bi)
        bzero (b + bi)
        step (.allocated (b + bi))
        return b + bi
      | none => scan sb (b + BPB) k

def bfree (b : Nat) : K Unit := do
  let sb ← readsb
  let bp ← step (.bread (bblock b sb.ninodes))
  let bi := b % BPB
  if bp.bit bi = false then
    panic .bfreeFree
  else
    logWrite (bblock b sb.ninodes) (bp.clearBit bi)

/-! ### Inodes -/

def iget (inum : Nat) : K Nat := step (.iget inum)

def idup (ip : Nat) : K Nat := do
  step (.idup ip)
  return ip

def ialloc (type : Nat) : K Nat := do
  let sb ← readsb
  scan type 1 (sb.ninodes - 1)
where
  scan (type inum : Nat) : Nat → K Nat
    | 0 => panic .iallocNone
    | k + 1 => do
      let bp ← step (.bread (iblock inum))
      if (bp.dinode (inum % IPB)).type = 0 then
        logWrite (iblock inum) (bp.setDinode (inum % IPB) { Dinode.empty with type := type })
        iget inum
      else
        scan type (inum + 1) k

def iupdate (ip : Nat) : K Unit := do
  let inode ← step (.inode ip)
  let bp ← step (.bread (iblock inode.inum))
  logWrite (iblock inode.inum) (bp.setDinode (inode.inum % IPB) inode.din)

def ilock (ip : Nat) : K Unit := do
  step (.lockInode ip)
  let inode ← step (.inode ip)
  if inode.valid = false then
    let bp ← step (.bread (iblock inode.inum))
    let dip := bp.dinode (inode.inum % IPB)
    step (.load ip dip)
    if dip.type = 0 then
      panic .ilockNoType

def iunlock (ip : Nat) : K Unit := step (.unlockInode ip)

/-! ### Inode content -/

def bmap (ip bn : Nat) : K Nat := do
  if bn < NDIRECT then
    let addr ← step (.addr ip bn)
    if addr = 0 then
      let addr ← balloc
      let inode ← step (.inode ip)
      step (.setDin ip (inode.din.setAddr bn addr))
      return addr
    else
      return addr
  else if bn - NDIRECT < NINDIRECT then
    let ind ← indirectBlock
    let addr ← step (.indirect ind (bn - NDIRECT))
    if addr = 0 then
      let addr ← balloc
      let bp ← step (.bread ind)
      logWrite ind (bp.setWord (bn - NDIRECT) addr)
      return addr
    else
      return addr
  else
    panic .bmapRange
where
  indirectBlock : K Nat := do
    let addr ← step (.addr ip NDIRECT)
    if addr = 0 then
      let addr ← balloc
      let inode ← step (.inode ip)
      step (.setDin ip (inode.din.setAddr NDIRECT addr))
      return addr
    else
      return addr

def itrunc (ip : Nat) : K Unit := do
  direct 0 NDIRECT
  let inode ← step (.inode ip)
  if inode.din.addr NDIRECT ≠ 0 then
    let bp ← step (.bread (inode.din.addr NDIRECT))
    entries bp 0 NINDIRECT
    bfree (inode.din.addr NDIRECT)
    let inode ← step (.inode ip)
    step (.setDin ip (inode.din.setAddr NDIRECT 0))
  let inode ← step (.inode ip)
  step (.setDin ip { inode.din with size := 0 })
  iupdate ip
where
  direct (i : Nat) : Nat → K Unit
    | 0 => pure ()
    | k + 1 => do
      let inode ← step (.inode ip)
      if inode.din.addr i ≠ 0 then
        bfree (inode.din.addr i)
        let inode ← step (.inode ip)
        step (.setDin ip (inode.din.setAddr i 0))
      direct (i + 1) k
  entries (bp : Block) (j : Nat) : Nat → K Unit
    | 0 => pure ()
    | k + 1 => do
      if bp.word j ≠ 0 then
        bfree (bp.word j)
      entries bp (j + 1) k

def iput (ip : Nat) : K Unit := do
  let last ← step (.putTest ip)
  if last then
    itrunc ip
    let inode ← step (.inode ip)
    step (.setDin ip { inode.din with type := 0 })
    iupdate ip
    step (.putFree ip)

def iunlockput (ip : Nat) : K Unit := do
  iunlock ip
  iput ip

/-- The result with the bytes that are stored, also those before a `-1`. `n` is an `int`, so from `2 ^ 31` on
it is negative and nothing is read. -/
def consoleread (ip n : Nat) : K (Int × List UInt8) := do
  iunlock ip
  let target := if n < 2 ^ 31 then n else 0
  let read ← loop target target
  ilock ip
  return read
where
  loop (target : Nat) : Nat → K (Int × List UInt8)
    | 0 => return (target, [])
    | n + 1 => do
      match ← step .consread with
      | none => return (-1, [])
      | some c =>
        if c = 4 then
          -- ^D is saved for next time, so that the caller gets a 0-byte result then
          if n + 1 < target then
            step (.consback c)
          return (target - (n + 1), [])
        else if c = 10 then
          return (target - n, [c])
        else
          let (r, bs) ← loop target n
          return (r, c :: bs)

def consolewrite (ip : Nat) (src : List UInt8) : K Int := do
  iunlock ip
  ilock ip
  return src.length

/-- `off` and `n` are 32-bit. -/
def readi (ip off n : Nat) : K (Int × List UInt8) := do
  let inode ← step (.inode ip)
  if inode.din.type = T_DEV then
    if inode.din.major < 0 ∨ inode.din.major ≥ NDEV ∨ inode.din.major ≠ CONSOLE then
      return (-1, [])
    else
      consoleread ip n
  else if off > inode.din.size ∨ (off + n) % 2 ^ 32 < off then
    return (-1, [])
  else
    let n := if (off + n) % 2 ^ 32 > inode.din.size then inode.din.size - off else n
    let bs ← loop off n n
    return (n, bs)
where
  loop (off n : Nat) : Nat → K (List UInt8)
    | 0 => pure []
    | fuel + 1 => do
      if n = 0 then
        return []
      else
        let addr ← bmap ip (off / BSIZE)
        let bp ← step (.bread addr)
        let m := min n (BSIZE - off % BSIZE)
        let rest ← loop (off + m) (n - m) fuel
        return bp.slice (off % BSIZE) m ++ rest

def writei (ip : Nat) (src : List UInt8) (off : Nat) : K Int := do
  let inode ← step (.inode ip)
  let n := src.length
  if inode.din.type = T_DEV then
    if inode.din.major < 0 ∨ inode.din.major ≥ NDEV ∨ inode.din.major ≠ CONSOLE then
      return -1
    else
      consolewrite ip src
  else if off > inode.din.size ∨ (off + n) % 2 ^ 32 < off then
    return -1
  else if (off + n) % 2 ^ 32 > MAXFILE * BSIZE then
    return -1
  else
    loop off src n
    let inode ← step (.inode ip)
    if n > 0 ∧ off + n > inode.din.size then
      step (.setDin ip { inode.din with size := off + n })
      iupdate ip
    return n
where
  loop (off : Nat) (src : List UInt8) : Nat → K Unit
    | 0 => pure ()
    | fuel + 1 => do
      if src.length = 0 then
        return ()
      else
        let addr ← bmap ip (off / BSIZE)
        let bp ← step (.bread addr)
        let m := min src.length (BSIZE - off % BSIZE)
        logWrite addr (bp.splice (off % BSIZE) (src.take m))
        loop (off + m) (src.drop m) fuel

/-! ### Directories -/

def dirlookup (dp : Nat) (name : List UInt8) : K (Option (Nat × Nat)) := do
  let inode ← step (.inode dp)
  if inode.din.type ≠ T_DIR then
    panic .dirlookupNotDir
  else
    loop 0 ((inode.din.size + DESIZE - 1) / DESIZE)
where
  loop (off : Nat) : Nat → K (Option (Nat × Nat))
    | 0 => pure none
    | k + 1 => do
      let (r, bs) ← readi dp off DESIZE
      if r ≠ DESIZE then
        panic .dirlinkRead
      else
        let de := Dirent.ofBytes bs
        if de.inum = 0 then
          loop (off + DESIZE) k
        else if namecmp name de.name = 0 then
          let ip ← iget de.inum
          return some (ip, off)
        else
          loop (off + DESIZE) k

def dirlink (dp : Nat) (name : List UInt8) (inum : Nat) : K Int := do
  match ← dirlookup dp name with
  | some (ip, _) => do
    iput ip
    return -1
  | none => do
    let inode ← step (.inode dp)
    let off ← empty 0 ((inode.din.size + DESIZE - 1) / DESIZE)
    let r ← writei dp (Dirent.toBytes ⟨inum, strncpy name DIRSIZ⟩) off
    if r ≠ DESIZE then
      panic .dirlink
    else
      return 0
where
  /-- The search for an empty entry from `off` on, `k` rounds of it. -/
  empty (off : Nat) : Nat → K Nat
    | 0 => pure off
    | k + 1 => do
      let (r, bs) ← readi dp off DESIZE
      if r ≠ DESIZE then
        panic .dirlinkRead
      else if (Dirent.ofBytes bs).inum = 0 then
        return off
      else
        empty (off + DESIZE) k

/-! ### Paths -/

def SLASH : UInt8 := 47

def skipelem (path : List UInt8) : Option (List UInt8 × List UInt8) :=
  let s := path.dropWhile (· = SLASH)
  if s = [] then
    none
  else
    some ((s.dropWhile (· ≠ SLASH)).dropWhile (· = SLASH), (s.takeWhile (· ≠ SLASH)).take DIRSIZ)

/-- The entry for the path and the last element; `p` is the calling process. -/
def namex (p : Nat) (path : List UInt8) (nameiparent : Bool) : K (Option (Nat × List UInt8)) := do
  if path.head? = some SLASH then
    let ip ← iget ROOTINO
    walk ip [] path path.length
  else
    let proc ← step (.proc p)
    let ip ← idup (proc.cwd.getD 0)
    walk ip [] path path.length
where
  walk (ip : Nat) (name path : List UInt8) : Nat → K (Option (Nat × List UInt8))
    | 0 => finish ip name
    | fuel + 1 => do
      match skipelem path with
      | none => finish ip name
      | some (path, name) => do
        ilock ip
        let inode ← step (.inode ip)
        if inode.din.type ≠ T_DIR then
          iunlockput ip
          return none
        else if nameiparent ∧ path = [] then
          iunlock ip
          return some (ip, name)
        else
          match ← dirlookup ip name with
          | none => do
            iunlockput ip
            return none
          | some (next, _) => do
            iunlockput ip
            walk next name path fuel
  finish (ip : Nat) (name : List UInt8) : K (Option (Nat × List UInt8)) := do
    if nameiparent then
      iput ip
      return none
    else
      return some (ip, name)

def namei (p : Nat) (path : List UInt8) : K (Option Nat) := do
  return (← namex p path false).map Prod.fst

def nameiparent (p : Nat) (path : List UInt8) : K (Option (Nat × List UInt8)) := namex p path true

end Espl.Kernel
