import Espl.Kernel.Fs

/-!
# `file.c`, `pipe.c` and `sysfile.c`

`p` is the calling process. An argument that `argstr` or `argfd` could not fetch is `none`.
-/

namespace Espl.Kernel

abbrev O_RDONLY : Nat := 0x000
abbrev O_WRONLY : Nat := 0x001
abbrev O_RDWR : Nat := 0x002
abbrev O_CREATE : Nat := 0x200

/-! ### Files -/

def pipeclose (pi : Nat) (writable : Bool) : K Unit := do
  if ← step (.pipeclose pi writable) then
    vm (Vm.kfree pi)

def filealloc : K (Option Nat) := step .filealloc

def fileclose (f : Nat) : K Unit := do
  let last : Option File ← step (.fileput f)
  match last with
  | none => return ()
  | some ff =>
    match ff.type with
    | .pipe => pipeclose ff.pipe ff.writable
    | .inode => do
      beginTrans
      iput ff.ip
      commitTrans
    | .none => return ()

def filestat (f : Nat) : K (Option Dinode) := do
  let file ← step (.file f)
  if file.type = .inode then
    ilock file.ip
    let inode ← step (.inode file.ip)
    iunlock file.ip
    return some inode.din
  else
    return none

/-- `n` is an `int`, so from `2 ^ 31` on it is negative and nothing is copied. -/
def piperead (p pi n : Nat) : K (Int × List UInt8) := do
  let copied : Option (List UInt8) ← step (.piperead p pi (if n < 2 ^ 31 then n else 0))
  match copied with
  | none => return (-1, [])
  | some bs => return (bs.length, bs)

def fileread (p f n : Nat) : K (Int × List UInt8) := do
  let file ← step (.file f)
  if file.readable = false then
    return (-1, [])
  else
    match file.type with
    | .pipe => piperead p file.pipe n
    | .inode => do
      ilock file.ip
      let file ← step (.file f)
      let (r, bs) ← readi file.ip file.off n
      if r > 0 then
        step (.addOff f r.toNat)
      iunlock file.ip
      return (r, bs)
    | .none => panic .fileread

abbrev writeMax : Nat := (LOGSIZE - 1 - 1 - 2) / 2 * 512

def pipewrite (p pi : Nat) (src : List UInt8) : K Int :=
  loop src (src.length + 1)
where
  /-- The loop with `rest` to go; a round writes until the pipe is full. -/
  loop (rest : List UInt8) : Nat → K Int
    | 0 => return src.length
    | fuel + 1 => do
      let left : Option (List UInt8) ← step (.pipewrite p pi rest)
      match left with
      | none => return -1
      | some [] => return src.length
      | some rest => loop rest fuel

def filewrite (p f : Nat) (src : List UInt8) : K Int := do
  let file ← step (.file f)
  if file.writable = false then
    return -1
  else
    match file.type with
    | .pipe => pipewrite p file.pipe src
    | .inode => loop file.ip src src.length
    | .none => panic .filewrite
where
  loop (ip : Nat) (rest : List UInt8) : Nat → K Int
    | 0 => return src.length
    | fuel + 1 => do
      if rest.length = 0 then
        return src.length
      else
        let n1 := min rest.length writeMax
        beginTrans
        ilock ip
        let file ← step (.file f)
        let r ← writei ip (rest.take n1) file.off
        if r > 0 then
          step (.addOff f r.toNat)
        iunlock ip
        commitTrans
        if r < 0 then
          return -1
        else if r ≠ n1 then
          panic .filewriteShort
        else
          loop ip (rest.drop n1) fuel

/-! ### System calls -/

def argfd (p fd : Nat) : K (Option Nat) := do
  let proc ← step (.proc p)
  return if fd < NOFILE then proc.ofile fd else none

def fdalloc (p f : Nat) : K (Option Nat) := do
  let proc ← step (.proc p)
  match (List.range NOFILE).find? fun fd => (proc.ofile fd).isNone with
  | some fd => do
    step (.setProc p fun proc => { proc with ofile := upd proc.ofile fd (some f) })
    return some fd
  | none => return none

def sysDup (p fd : Nat) : K Int := do
  match ← argfd p fd with
  | none => return -1
  | some f =>
    match ← fdalloc p f with
    | none => return -1
    | some fd => do
      step (.filedup f)
      return fd

def sysRead (p fd n : Nat) : K (Int × List UInt8) := do
  match ← argfd p fd with
  | none => return (-1, [])
  | some f => fileread p f n

def sysWrite (p fd : Nat) (src : List UInt8) : K Int := do
  match ← argfd p fd with
  | none => return -1
  | some f => filewrite p f src

def sysClose (p fd : Nat) : K Int := do
  match ← argfd p fd with
  | none => return -1
  | some f => do
    step (.setProc p fun proc => { proc with ofile := upd proc.ofile fd none })
    fileclose f
    return 0

def sysFstat (p fd : Nat) : K Int := do
  match ← argfd p fd with
  | none => return -1
  | some f =>
    match ← filestat f with
    | none => return -1
    | some _ => return 0

def sysLinkBad (ip : Nat) : K Int := do
  ilock ip
  let inode ← step (.inode ip)
  step (.setDin ip { inode.din with nlink := short (inode.din.nlink - 1) })
  iupdate ip
  iunlockput ip
  commitTrans
  return -1

def sysLink (p : Nat) (old new : List UInt8) : K Int := do
  match ← namei p old with
  | none => return -1
  | some ip => do
    beginTrans
    ilock ip
    let inode ← step (.inode ip)
    if inode.din.type = T_DIR then
      iunlockput ip
      commitTrans
      return -1
    else
      step (.setDin ip { inode.din with nlink := short (inode.din.nlink + 1) })
      iupdate ip
      iunlock ip
      match ← nameiparent p new with
      | none => sysLinkBad ip
      | some (dp, name) => do
        ilock dp
        step (.linking dp)
        let r ← dirlink dp name inode.inum
        iunlockput dp
        if r < 0 then
          sysLinkBad ip
        else
          iput ip
          commitTrans
          return 0

def isdirempty (dp : Nat) : K Bool := do
  let inode ← step (.inode dp)
  loop (2 * DESIZE) ((inode.din.size - 2 * DESIZE + DESIZE - 1) / DESIZE)
where
  loop (off : Nat) : Nat → K Bool
    | 0 => pure true
    | k + 1 => do
      let (r, bs) ← readi dp off DESIZE
      if r ≠ DESIZE then
        panic .isdiremptyReadi
      else if (Dirent.ofBytes bs).inum ≠ 0 then
        return false
      else
        loop (off + DESIZE) k

def DOT : List UInt8 := [46]
def DOTDOT : List UInt8 := [46, 46]

def sysUnlinkBad (dp : Nat) : K Int := do
  iunlockput dp
  commitTrans
  return -1

def sysUnlink (p : Nat) (path : List UInt8) : K Int := do
  match ← nameiparent p path with
  | none => return -1
  | some (dp, name) => do
    beginTrans
    ilock dp
    if namecmp name DOT = 0 ∨ namecmp name DOTDOT = 0 then
      sysUnlinkBad dp
    else
      match ← dirlookup dp name with
      | none => sysUnlinkBad dp
      | some (ip, off) => do
        ilock ip
        let inode ← step (.inode ip)
        if inode.din.nlink < 1 then
          panic .unlinkNlink
        else if inode.din.type = T_DIR then
          if ← isdirempty ip then
            remove dp ip off true
          else
            iunlockput ip
            sysUnlinkBad dp
        else
          remove dp ip off false
where
  /-- The last part of `sys_unlink`, from the `memset` of the entry on; `dir` says that `ip` is a
  directory. -/
  remove (dp ip off : Nat) (dir : Bool) : K Int := do
    step (.unlinking ip)
    let r ← writei dp Dirent.zero.toBytes off
    if r ≠ DESIZE then
      panic .unlinkWritei
    else
      if dir then
        let inode ← step (.inode dp)
        step (.setDin dp { inode.din with nlink := short (inode.din.nlink - 1) })
        iupdate dp
      iunlockput dp
      let inode ← step (.inode ip)
      step (.setDin ip { inode.din with nlink := short (inode.din.nlink - 1) })
      iupdate ip
      iunlockput ip
      commitTrans
      return 0

def create (p : Nat) (path : List UInt8) (type : Nat) (major minor : Int) : K (Option Nat) := do
  match ← nameiparent p path with
  | none => return none
  | some (dp, name) => do
    ilock dp
    match ← dirlookup dp name with
    | some (ip, _) => do
      iunlockput dp
      ilock ip
      let inode ← step (.inode ip)
      if type = T_FILE ∧ inode.din.type = T_FILE then
        return some ip
      else
        iunlockput ip
        return none
    | none => do
      step (.linking dp)
      let ip ← ialloc type
      ilock ip
      let inode ← step (.inode ip)
      step (.setDin ip { inode.din with major := short major, minor := short minor, nlink := 1 })
      iupdate ip
      let dir ← step (.inode dp)
      if type = T_DIR then
        step (.setDin dp { dir.din with nlink := short (dir.din.nlink + 1) })
        iupdate dp
        let r ← dirlink ip DOT inode.inum
        if r < 0 then
          panic .createDots
        else
          let r ← dirlink ip DOTDOT dir.inum
          if r < 0 then
            panic .createDots
          else
            link dp ip inode.inum name
      else
        link dp ip inode.inum name
where
  /-- The last part of `create`, from `dirlink(dp, name, ip->inum)` on. -/
  link (dp ip inum : Nat) (name : List UInt8) : K (Option Nat) := do
    let r ← dirlink dp name inum
    if r < 0 then
      panic .createDirlink
    else
      iunlockput dp
      return some ip

def openFile (p ip omode : Nat) : K Int := do
  match ← filealloc with
  | none => do
    iunlockput ip
    return -1
  | some f =>
    match ← fdalloc p f with
    | none => do
      fileclose f
      iunlockput ip
      return -1
    | some fd => do
      iunlock ip
      step (.setFile f ⟨.inode, 0, omode &&& O_WRONLY = 0, omode &&& O_WRONLY ≠ 0 ∨ omode &&& O_RDWR ≠ 0,
        0, ip, 0⟩)
      return fd

def sysOpen (p : Nat) (path : List UInt8) (omode : Nat) : K Int := do
  if omode &&& O_CREATE ≠ 0 then
    beginTrans
    let ip ← create p path T_FILE 0 0
    commitTrans
    match ip with
    | none => return -1
    | some ip => openFile p ip omode
  else
    match ← namei p path with
    | none => return -1
    | some ip => do
      ilock ip
      let inode ← step (.inode ip)
      if inode.din.type = T_DIR ∧ omode ≠ O_RDONLY then
        iunlockput ip
        return -1
      else
        openFile p ip omode

def sysMkdir (p : Nat) (path : Option (List UInt8)) : K Int := do
  beginTrans
  match path with
  | none => do
    commitTrans
    return -1
  | some path =>
    match ← create p path T_DIR 0 0 with
    | none => do
      commitTrans
      return -1
    | some ip => do
      iunlockput ip
      commitTrans
      return 0

def sysMknod (p : Nat) (path : Option (List UInt8)) (major minor : Int) : K Int := do
  beginTrans
  match path with
  | none => do
    commitTrans
    return -1
  | some path =>
    match ← create p path T_DEV major minor with
    | none => do
      commitTrans
      return -1
    | some ip => do
      iunlockput ip
      commitTrans
      return 0

def sysChdir (p : Nat) (path : List UInt8) : K Int := do
  match ← namei p path with
  | none => return -1
  | some ip => do
    ilock ip
    let inode ← step (.inode ip)
    if inode.din.type ≠ T_DIR then
      iunlockput ip
      return -1
    else
      iunlock ip
      let proc ← step (.proc p)
      iput (proc.cwd.getD 0)
      step (.setProc p fun proc => { proc with cwd := some ip })
      return 0

def sysPipeBad (rf wf : Option Nat) : K Int := do
  match rf with
  | some f => fileclose f
  | none => pure ()
  match wf with
  | some f => fileclose f
  | none => pure ()
  return -1

def pipealloc : K (Option (Nat × Nat)) := do
  match ← filealloc with
  | none => return none
  | some f0 =>
    match ← filealloc with
    | none => do
      let _ ← sysPipeBad (some f0) none
      return none
    | some f1 =>
      match ← vm Vm.kalloc with
      | none => do
        let _ ← sysPipeBad (some f0) (some f1)
        return none
      | some pi => do
        step (.setPipe pi ⟨fun _ => 0, 0, 0, true, true⟩)
        step (.setFile f0 ⟨.pipe, 0, true, false, pi, 0, 0⟩)
        step (.setFile f1 ⟨.pipe, 0, false, true, pi, 0, 0⟩)
        return some (f0, f1)

def sysPipe (p : Nat) : K Int := do
  match ← pipealloc with
  | none => return -1
  | some (rf, wf) =>
    match ← fdalloc p rf with
    | none => sysPipeBad (some rf) (some wf)
    | some fd0 =>
      match ← fdalloc p wf with
      | none => do
        step (.setProc p fun proc => { proc with ofile := upd proc.ofile fd0 none })
        sysPipeBad (some rf) (some wf)
      | some _ => return 0

end Espl.Kernel
