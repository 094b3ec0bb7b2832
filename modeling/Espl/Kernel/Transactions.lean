import Espl.Kernel.Syscall
import Espl.Mkfs.Basic

/-!
# Who writes through the log

A process that writes through the log must have opened the transaction itself. This is a protocol of
two phases, inside and outside a transaction. Outside, the kernel counts on two things: `iput` does
not drop the last reference to an unlinked inode, and `bmap` finds the block it looks up.
-/

namespace Espl.Kernel

open Machine
open Protocol

/-- The phase is whether the process is inside a transaction. -/
def transactions : Protocol signature Bool where
  next t e :=
    match e with
    | .lockLog => true
    | .unlockLog => false
    | _ => t
  allowed t e :=
    match e with
    | .lockLog => t = false
    | .unlockLog | .logSlot _ | .logRecord _ _ | .setDirty _ _ | .setSectors _ | .bwrite _ _ => t = true
    | .panic m => m ≠ .logOutside
    | _ => True
  relied t e r :=
    match e, r with
    | .putTest _, r => t = false → r = false
    | .addr _ _, r => t = false → r ≠ 0
    | .indirect _ _, r => t = false → r ≠ 0
    | _, _ => True

/-- Steps that leave the process table, memory and the lock of the log alone. -/
def Step.aloof : Step → Bool
  | .setProc _ _ | .allocproc | .zombie _ | .mem _ | .lockLog | .unlockLog => false
  | _ => true

/-- The protocol, for code that takes no other steps if `q` is set. -/
def transacting (q : Bool) : Protocol signature Bool :=
  { transactions with allowed := fun t e => transactions.allowed t e ∧ (q = true → e.aloof = true) }

/-- Kernel code that takes a process from phase `t` to phase `t'`. -/
def Goes (q t t' : Bool) {α : Type} (p : K α) : Prop := (transacting q).Takes t t' p

/-! ### Steps -/

section

variable {q t t' : Bool} {α β : Type}

def Step.free : Step → Bool
  | .lockLog | .unlockLog | .logSlot _ | .logRecord _ _ | .setDirty _ _ | .setSectors _ | .bwrite _ _
  | .panic _ => false
  | _ => true

theorem goes_pure (a : α) : Goes q t t (pure a : K α) := takes_pure t a

theorem goes_bind {p : K α} {f : α → K β} {t'' : Bool} (h : Goes q t t' p) (rest : ∀ a, Goes q t' t'' (f a)) :
    Goes q t t'' (p >>= f) :=
  takes_bind h rest

theorem goes_free {e : Step} (h : (e.free && (e.aloof || !q)) = true) : Goes q t t (step e) := by
  obtain ⟨free, aloof⟩ := Bool.and_eq_true_iff.mp h
  have aloof : q = true → e.aloof = true := by
    rintro rfl
    exact (Bool.or_false _).symm.trans aloof
  cases e with
  | lockLog | unlockLog | logSlot | logRecord | setDirty | setSectors | bwrite | panic => cases free
  | _ => exact ⟨⟨trivial, aloof⟩, fun _ _ => rfl⟩

theorem goes_step {e : Step} {f : Answer e → K β} (h : (e.free && (e.aloof || !q)) = true)
    (rest : ∀ r, Goes q t t' (f r)) : Goes q t t' (step e >>= f) :=
  goes_bind (goes_free h) rest

theorem goes_panic {m : Panic} (other : m ≠ .logOutside) : Goes q t t' (panic m : K α) :=
  ⟨⟨other, fun _ => rfl⟩, fun r => nomatch r⟩

theorem goes_ite {c : Prop} [Decidable c] {x y : K α} (yes : Goes q t t' x) (no : Goes q t t' y) :
    Goes q t t' (if c then x else y) := by
  split
  · exact yes
  · exact no

def Step.logs : Step → Bool
  | .logSlot _ | .logRecord _ _ | .setDirty _ _ | .setSectors _ | .bwrite _ _ => true
  | _ => false

theorem goes_logs {e : Step} (h : e.logs = true) : Goes q true true (step e) := by
  cases e with
  | logSlot | logRecord | setDirty | setSectors | bwrite => exact ⟨⟨rfl, fun _ => rfl⟩, fun _ _ => rfl⟩
  | _ => cases h

theorem goes_addr {ip i : Nat} {f : Nat → K β} (rest : ∀ r, (t = false → r ≠ 0) → Goes q t t' (f r)) :
    Goes q t t' (step (.addr ip i) >>= f) :=
  ⟨⟨trivial, fun _ => rfl⟩, rest⟩

theorem goes_indirect {sec i : Nat} {f : Nat → K β} (rest : ∀ r, (t = false → r ≠ 0) → Goes q t t' (f r)) :
    Goes q t t' (step (.indirect sec i) >>= f) :=
  ⟨⟨trivial, fun _ => rfl⟩, rest⟩

theorem goes_putTest {ip : Nat} {f : Bool → K β} (rest : ∀ r, (t = false → r = false) → Goes q t t' (f r)) :
    Goes q t t' (step (.putTest ip) >>= f) :=
  ⟨⟨trivial, fun _ => rfl⟩, rest⟩

end

/-! ### `log.c` -/

theorem goes_logWrite (sec : Nat) (data : Block) : Goes q true true (logWrite sec data) :=
  goes_bind (goes_logs rfl) fun _ => goes_step rfl fun _ => goes_step rfl fun _ =>
    goes_bind (goes_logs rfl) fun _ => goes_bind (goes_logs rfl) fun _ => goes_logs rfl

theorem goes_writeHead : Goes q true true writeHead :=
  goes_step rfl fun _ => goes_step rfl fun _ => goes_logs rfl

theorem goes_install (start tail : Nat) (l : List Nat) : Goes q true true (installTrans.loop start tail l) := by
  induction l generalizing tail with
  | nil => exact goes_pure ()
  | cons sec rest ih =>
    exact goes_step rfl fun _ => goes_step rfl fun _ => goes_bind (goes_logs rfl) fun _ => ih (tail + 1)

theorem goes_beginTrans : Goes false false true beginTrans := ⟨⟨rfl, nofun⟩, fun _ _ => rfl⟩

theorem goes_commitTrans : Goes false true false commitTrans := by
  have unlock : Goes false true false (step .unlockLog) := ⟨⟨rfl, nofun⟩, fun _ _ => rfl⟩
  refine goes_step rfl fun log => goes_ite ?_ unlock
  refine goes_bind goes_writeHead fun _ => goes_bind (goes_step rfl fun _ => goes_install _ _ _) fun _ => ?_
  exact goes_bind (goes_logs rfl) fun _ => goes_bind goes_writeHead fun _ => unlock

theorem goes_commit {α : Type} (a : α) : Goes false true false (do commitTrans; return a) :=
  goes_bind goes_commitTrans fun _ => goes_pure a

theorem goes_vm {α : Type} {t : Bool} (p : V α) : Goes false t t (vm p) :=
  takes_interp p fun _ => goes_free rfl

/-! ### `fs.c` -/

variable {q t : Bool}

theorem goes_readsb : Goes q t t readsb := goes_step rfl fun _ => goes_pure _

theorem goes_bzero (bno : Nat) : Goes q true true (bzero bno) := goes_step rfl fun _ => goes_logWrite _ _

theorem goes_balloc : Goes q true true balloc := by
  have scan : ∀ k sb b, Goes q true true (balloc.scan sb b k) := by
    intro k
    induction k with
    | zero => intro sb b; exact goes_panic (by decide)
    | succ k ih =>
      intro sb b
      refine goes_step rfl fun bp => ?_
      split
      · exact goes_bind (goes_logWrite _ _) fun _ => goes_bind (goes_bzero _) fun _ =>
          goes_step rfl fun _ => goes_pure _
      · exact ih _ _
  exact goes_step rfl fun _ => goes_bind goes_readsb fun sb => scan _ _ _

theorem goes_bfree (b : Nat) : Goes q true true (bfree b) :=
  goes_bind goes_readsb fun _ => goes_step rfl fun _ => goes_ite (goes_panic (by decide)) (goes_logWrite _ _)

theorem goes_iget (inum : Nat) : Goes q t t (iget inum) := goes_free rfl

theorem goes_idup (ip : Nat) : Goes q t t (idup ip) := goes_step rfl fun _ => goes_pure _

theorem goes_ialloc (type : Nat) : Goes q true true (ialloc type) := by
  have scan : ∀ k inum, Goes q true true (ialloc.scan type inum k) := by
    intro k
    induction k with
    | zero => intro inum; exact goes_panic (by decide)
    | succ k ih =>
      intro inum
      exact goes_step rfl fun _ => goes_ite (goes_bind (goes_logWrite _ _) fun _ => goes_iget _) (ih _)
  exact goes_bind goes_readsb fun _ => scan _ _

theorem goes_iupdate (ip : Nat) : Goes q true true (iupdate ip) :=
  goes_step rfl fun _ => goes_step rfl fun _ => goes_logWrite _ _

theorem goes_ilock (ip : Nat) : Goes q t t (ilock ip) := by
  refine goes_step rfl fun _ => goes_step rfl fun inode => goes_ite ?_ (goes_pure ())
  exact goes_step rfl fun _ => goes_step rfl fun _ => goes_ite (goes_panic (by decide)) (goes_pure ())

theorem goes_iunlock (ip : Nat) : Goes q t t (iunlock ip) := goes_free rfl

theorem goes_mapped {addr : Nat} {alloc : K Nat} (mapped : t = false → addr ≠ 0)
    (inside : Goes q true true alloc) : Goes q t t (if addr = 0 then alloc else pure addr) := by
  split
  · cases t with
    | true => exact inside
    | false => exact absurd ‹addr = 0› (mapped rfl)
  · exact goes_pure addr

theorem goes_indirectBlock (ip : Nat) : Goes q t t (bmap.indirectBlock ip) :=
  goes_addr fun _ mapped => goes_mapped mapped
    (goes_bind goes_balloc fun _ => goes_step rfl fun _ => goes_step rfl fun _ => goes_pure _)

theorem goes_bmap (ip bn : Nat) : Goes q t t (bmap ip bn) := by
  refine goes_ite ?_ (goes_ite ?_ (goes_panic (by decide)))
  · exact goes_addr fun _ mapped => goes_mapped mapped
      (goes_bind goes_balloc fun _ => goes_step rfl fun _ => goes_step rfl fun _ => goes_pure _)
  · refine goes_bind (goes_indirectBlock ip) fun ind => goes_indirect fun _ mapped => goes_mapped mapped ?_
    exact goes_bind goes_balloc fun _ => goes_step rfl fun _ => goes_bind (goes_logWrite _ _) fun _ => goes_pure _

theorem goes_itrunc (ip : Nat) : Goes q true true (itrunc ip) := by
  have direct : ∀ k i, Goes q true true (itrunc.direct ip i k) := by
    intro k
    induction k with
    | zero => intro i; exact goes_pure ()
    | succ k ih =>
      intro i
      refine goes_step rfl fun inode => goes_ite ?_ (ih _)
      exact goes_bind (goes_bfree _) fun _ => goes_step rfl fun _ => goes_step rfl fun _ => ih _
  have entries : ∀ k bp j, Goes q true true (itrunc.entries bp j k) := by
    intro k
    induction k with
    | zero => intro bp j; exact goes_pure ()
    | succ k ih =>
      intro bp j
      exact goes_ite (goes_bind (goes_bfree _) fun _ => ih _ _) (ih _ _)
  have finish : Goes q true true (do
      let inode ← step (.inode ip)
      step (.setDin ip { inode.din with size := 0 })
      iupdate ip) := goes_step rfl fun _ => goes_step rfl fun _ => goes_iupdate ip
  refine goes_bind (direct _ _) fun _ => goes_step rfl fun inode => goes_ite ?_ finish
  refine goes_step rfl fun bp => goes_bind (entries _ _ _) fun _ => goes_bind (goes_bfree _) fun _ => ?_
  exact goes_step rfl fun _ => goes_step rfl fun _ => finish

theorem goes_iput (ip : Nat) : Goes q t t (iput ip) := by
  refine goes_putTest fun last unlinked => ?_
  split
  · cases t with
    | true =>
      refine goes_bind (goes_itrunc ip) fun _ => goes_step rfl fun _ => goes_step rfl fun _ => ?_
      exact goes_bind (goes_iupdate ip) fun _ => goes_free rfl
    | false => exact absurd ‹last = true› (by simp [unlinked rfl])
  · exact goes_pure ()

theorem goes_iunlockput (ip : Nat) : Goes q t t (iunlockput ip) :=
  goes_bind (goes_iunlock ip) fun _ => goes_iput ip

theorem goes_consoleread (ip n : Nat) : Goes q t t (consoleread ip n) := by
  have loop : ∀ target n, Goes q t t (consoleread.loop target n) := by
    intro target n
    induction n with
    | zero => exact goes_pure _
    | succ n ih =>
      refine goes_step rfl fun c => ?_
      cases c with
      | none => exact goes_pure _
      | some c =>
        apply goes_ite
        · exact goes_ite (goes_step rfl fun _ => goes_pure _) (goes_pure _)
        · exact goes_ite (goes_pure _) (goes_bind ih fun _ => goes_pure _)
  exact goes_bind (goes_iunlock ip) fun _ => goes_bind (loop _ _) fun _ =>
    goes_bind (goes_ilock ip) fun _ => goes_pure _

theorem goes_readi (ip off n : Nat) : Goes q t t (readi ip off n) := by
  have loop : ∀ fuel off n, Goes q t t (readi.loop ip off n fuel) := by
    intro fuel
    induction fuel with
    | zero => intro off n; exact goes_pure []
    | succ fuel ih =>
      intro off n
      refine goes_ite (goes_pure []) (goes_bind (goes_bmap _ _) fun _ => goes_step rfl fun _ => ?_)
      exact goes_bind (ih _ _) fun _ => goes_pure _
  refine goes_step rfl fun inode => goes_ite (goes_ite (goes_pure _) (goes_consoleread ip n)) ?_
  exact goes_ite (goes_pure _) (goes_bind (loop _ _ _) fun _ => goes_pure _)

theorem goes_consolewrite (ip : Nat) (src : List UInt8) : Goes q t t (consolewrite ip src) :=
  goes_bind (goes_iunlock ip) fun _ => goes_bind (goes_ilock ip) fun _ => goes_pure _

theorem goes_writei (ip : Nat) (src : List UInt8) (off : Nat) : Goes q true true (writei ip src off) := by
  have loop : ∀ fuel off src, Goes q true true (writei.loop ip off src fuel) := by
    intro fuel
    induction fuel with
    | zero => intro off src; exact goes_pure ()
    | succ fuel ih =>
      intro off src
      refine goes_ite (goes_pure ()) (goes_bind (goes_bmap _ _) fun _ => goes_step rfl fun _ => ?_)
      exact goes_bind (goes_logWrite _ _) fun _ => ih _ _
  refine goes_step rfl fun inode => goes_ite (goes_ite (goes_pure _) (goes_consolewrite ip src)) ?_
  refine goes_ite (goes_pure _) (goes_ite (goes_pure _) (goes_bind (loop _ _ _) fun _ => ?_))
  refine goes_step rfl fun inode => goes_ite ?_ (goes_pure _)
  exact goes_step rfl fun _ => goes_bind (goes_iupdate ip) fun _ => goes_pure _

theorem goes_dirlookup (dp : Nat) (name : List UInt8) : Goes q t t (dirlookup dp name) := by
  have loop : ∀ k off, Goes q t t (dirlookup.loop dp name off k) := by
    intro k
    induction k with
    | zero => intro off; exact goes_pure none
    | succ k ih =>
      intro off
      refine goes_bind (goes_readi _ _ _) fun _ => goes_ite (goes_panic (by decide)) ?_
      exact goes_ite (ih _) (goes_ite (goes_bind (goes_iget _) fun _ => goes_pure _) (ih _))
  exact goes_step rfl fun _ => goes_ite (goes_panic (by decide)) (loop _ _)

theorem goes_dirlink (dp : Nat) (name : List UInt8) (inum : Nat) :
    Goes q true true (dirlink dp name inum) := by
  have empty : ∀ k off, Goes q true true (dirlink.empty dp off k) := by
    intro k
    induction k with
    | zero => intro off; exact goes_pure off
    | succ k ih =>
      intro off
      exact goes_bind (goes_readi _ _ _) fun _ => goes_ite (goes_panic (by decide))
        (goes_ite (goes_pure off) (ih _))
  refine goes_bind (goes_dirlookup dp name) fun found => ?_
  split
  · exact goes_bind (goes_iput _) fun _ => goes_pure _
  · refine goes_step rfl fun _ => goes_bind (empty _ _) fun off => goes_bind (goes_writei _ _ _) fun r => ?_
    exact goes_ite (goes_panic (by decide)) (goes_pure _)

theorem goes_namex (p : Nat) (path : List UInt8) (parent : Bool) : Goes q t t (namex p path parent) := by
  have finish : ∀ ip name, Goes q t t (namex.finish parent ip name) := fun ip name =>
    goes_ite (goes_bind (goes_iput ip) fun _ => goes_pure _) (goes_pure _)
  have walk : ∀ fuel ip name path, Goes q t t (namex.walk parent ip name path fuel) := by
    intro fuel
    induction fuel with
    | zero => intro ip name path; exact finish ip name
    | succ fuel ih =>
      intro ip name path
      unfold namex.walk
      split
      · exact finish ip name
      · refine goes_bind (goes_ilock _) fun _ => goes_step rfl fun inode => ?_
        refine goes_ite (goes_bind (goes_iunlockput _) fun _ => goes_pure _) ?_
        refine goes_ite (goes_bind (goes_iunlock _) fun _ => goes_pure _) ?_
        refine goes_bind (goes_dirlookup _ _) fun found => ?_
        split
        · exact goes_bind (goes_iunlockput _) fun _ => goes_pure _
        · exact goes_bind (goes_iunlockput _) fun _ => ih _ _ _
  refine goes_ite (goes_bind (goes_iget _) fun _ => walk _ _ _ _) ?_
  exact goes_step rfl fun _ => goes_bind (goes_idup _) fun _ => walk _ _ _ _

theorem goes_namei (p : Nat) (path : List UInt8) : Goes q t t (namei p path) :=
  goes_bind (goes_namex p path false) fun _ => goes_pure _

theorem goes_nameiparent (p : Nat) (path : List UInt8) : Goes q t t (nameiparent p path) := goes_namex p path true

/-! ### What the code of `fs.c` leaves alone -/

abbrev Aloof {α : Type} (p : K α) : Prop := p.All fun e : Step => e.aloof = true

theorem Goes.aloof {t' : Bool} {α : Type} {p : K α} (h : Goes true true t' p) : Aloof p := by
  induction p with
  | done => trivial
  | step e next ih =>
    obtain ⟨⟨-, aloof⟩, rest⟩ := h
    refine ⟨aloof rfl, fun r => ih r ?_⟩
    cases e with
    | unlockLog => cases aloof rfl
    | putTest | addr | indirect => exact rest r nofun
    | _ => exact rest r trivial

theorem act_aloof {e : Step} {s t : State} {r : Answer e} (aloof : e.aloof = true) (h : act e s = .returned r t) :
    t.procs = s.procs ∧ t.mem = s.mem := by
  cases e with
  | setProc | allocproc | zombie | mem => cases aloof
  | _ =>
    simp only [act] at h
    repeat' split at h
    all_goals cases h
    all_goals exact ⟨rfl, rfl⟩

/-! ### `file.c`, `pipe.c` and `sysfile.c` -/

theorem goes_filealloc : Goes false t t filealloc := goes_free rfl

theorem goes_fileclose (f : Nat) : Goes false false false (fileclose f) := by
  refine goes_step rfl fun last => ?_
  split
  · exact goes_pure ()
  · split
    · exact goes_step rfl fun _ => goes_ite (goes_vm _) (goes_pure ())
    · exact goes_bind goes_beginTrans fun _ => goes_bind (goes_iput _) fun _ => goes_commitTrans
    · exact goes_pure ()

theorem goes_filestat (f : Nat) : Goes false t t (filestat f) := by
  refine goes_step rfl fun file => goes_ite ?_ (goes_pure _)
  exact goes_bind (goes_ilock _) fun _ => goes_step rfl fun _ => goes_bind (goes_iunlock _) fun _ => goes_pure _

theorem goes_fileread (p f n : Nat) : Goes false t t (fileread p f n) := by
  refine goes_step rfl fun file => goes_ite (goes_pure _) ?_
  split
  · refine goes_step rfl fun copied => ?_
    split <;> exact goes_pure _
  · have finish : ∀ (r : Int) (bs : List UInt8), Goes false t t (do iunlock file.ip; return (r, bs)) :=
      fun r bs => goes_bind (goes_iunlock _) fun _ => goes_pure _
    refine goes_bind (goes_ilock _) fun _ => goes_step rfl fun now => goes_bind (goes_readi _ _ _) fun read => ?_
    exact goes_ite (goes_step rfl fun _ => finish _ _) (finish _ _)
  · exact goes_panic (by decide)

theorem goes_pipewrite (p pi : Nat) (src : List UInt8) : Goes false t t (pipewrite p pi src) := by
  have loop : ∀ fuel rest, Goes false t t (pipewrite.loop p pi src rest fuel) := by
    intro fuel
    induction fuel with
    | zero => intro rest; exact goes_pure _
    | succ fuel ih =>
      intro rest
      refine goes_step rfl fun left => ?_
      split
      · exact goes_pure _
      · exact goes_pure _
      · exact ih _
  exact loop _ _

theorem goes_filewrite (p f : Nat) (src : List UInt8) : Goes false false false (filewrite p f src) := by
  have loop : ∀ fuel ip rest, Goes false false false (filewrite.loop f src ip rest fuel) := by
    intro fuel
    induction fuel with
    | zero => intro ip rest; exact goes_pure _
    | succ fuel ih =>
      intro ip rest
      refine goes_ite (goes_pure _) (goes_bind goes_beginTrans fun _ => goes_bind (goes_ilock _) fun _ => ?_)
      refine goes_step rfl fun file => goes_bind (goes_writei _ _ _) fun r => ?_
      have finish : Goes false true false (do
          iunlock ip
          commitTrans
          if r < 0 then return -1
          else if r ≠ (min rest.length writeMax : Nat) then panic .filewriteShort
          else filewrite.loop f src ip (rest.drop (min rest.length writeMax)) fuel) :=
        goes_bind (goes_iunlock _) fun _ => goes_bind goes_commitTrans fun _ =>
          goes_ite (goes_pure _) (goes_ite (goes_panic (by decide)) (ih _ _))
      exact goes_ite (goes_step rfl fun _ => finish) finish
  refine goes_step rfl fun file => goes_ite (goes_pure _) ?_
  split
  · exact goes_pipewrite _ _ _
  · exact loop _ _ _
  · exact goes_panic (by decide)

theorem goes_argfd (p fd : Nat) : Goes false t t (argfd p fd) := goes_step rfl fun _ => goes_pure _

theorem goes_fdalloc (p f : Nat) : Goes false t t (fdalloc p f) := by
  refine goes_step rfl fun proc => ?_
  split
  · exact goes_step rfl fun _ => goes_pure _
  · exact goes_pure _

theorem goes_sysLinkBad (ip : Nat) : Goes false true false (sysLinkBad ip) := by
  refine goes_bind (goes_ilock ip) fun _ => goes_step rfl fun _ => goes_step rfl fun _ => ?_
  exact goes_bind (goes_iupdate ip) fun _ => goes_bind (goes_iunlockput ip) fun _ => goes_commit _

theorem goes_sysLink (p : Nat) (old new : List UInt8) : Goes false false false (sysLink p old new) := by
  refine goes_bind (goes_namei p old) fun ip => ?_
  split
  · exact goes_pure _
  · refine goes_bind goes_beginTrans fun _ => goes_bind (goes_ilock _) fun _ => goes_step rfl fun inode => ?_
    refine goes_ite (goes_bind (goes_iunlockput _) fun _ => goes_commit _) ?_
    refine goes_step rfl fun _ => goes_bind (goes_iupdate _) fun _ => goes_bind (goes_iunlock _) fun _ => ?_
    refine goes_bind (goes_nameiparent p new) fun dir => ?_
    split
    · exact goes_sysLinkBad _
    · refine goes_bind (goes_ilock _) fun _ => goes_step rfl fun _ => goes_bind (goes_dirlink _ _ _) fun r => ?_
      refine goes_bind (goes_iunlockput _) fun _ => goes_ite (goes_sysLinkBad _) ?_
      exact goes_bind (goes_iput _) fun _ => goes_commit _

theorem goes_isdirempty (dp : Nat) : Goes false t t (isdirempty dp) := by
  have loop : ∀ k off, Goes false t t (isdirempty.loop dp off k) := by
    intro k
    induction k with
    | zero => intro off; exact goes_pure true
    | succ k ih =>
      intro off
      exact goes_bind (goes_readi _ _ _) fun _ => goes_ite (goes_panic (by decide))
        (goes_ite (goes_pure false) (ih _))
  exact goes_step rfl fun _ => loop _ _

theorem goes_sysUnlinkBad (dp : Nat) : Goes false true false (sysUnlinkBad dp) :=
  goes_bind (goes_iunlockput dp) fun _ => goes_commit _

theorem goes_remove (dp ip off : Nat) (dir : Bool) :
    Goes false true false (sysUnlink.remove dp ip off dir) := by
  have finish : Goes false true false (do
      iunlockput dp
      let inode ← step (.inode ip)
      step (.setDin ip { inode.din with nlink := short (inode.din.nlink - 1) })
      iupdate ip
      iunlockput ip
      commitTrans
      return (0 : Int)) :=
    goes_bind (goes_iunlockput dp) fun _ => goes_step rfl fun _ => goes_step rfl fun _ =>
      goes_bind (goes_iupdate ip) fun _ => goes_bind (goes_iunlockput ip) fun _ => goes_commit _
  refine goes_step rfl fun _ => goes_bind (goes_writei _ _ _) fun r => goes_ite (goes_panic (by decide)) ?_
  refine goes_ite ?_ finish
  exact goes_step rfl fun _ => goes_step rfl fun _ => goes_bind (goes_iupdate dp) fun _ => finish

theorem goes_sysUnlink (p : Nat) (path : List UInt8) : Goes false false false (sysUnlink p path) := by
  refine goes_bind (goes_nameiparent p path) fun dir => ?_
  split
  · exact goes_pure _
  · refine goes_bind goes_beginTrans fun _ => goes_bind (goes_ilock _) fun _ => ?_
    refine goes_ite (goes_sysUnlinkBad _) (goes_bind (goes_dirlookup _ _) fun found => ?_)
    split
    · exact goes_sysUnlinkBad _
    · refine goes_bind (goes_ilock _) fun _ => goes_step rfl fun inode => goes_ite (goes_panic (by decide)) ?_
      refine goes_ite (goes_bind (goes_isdirempty _) fun _ => ?_) (goes_remove _ _ _ _)
      exact goes_ite (goes_remove _ _ _ _) (goes_bind (goes_iunlockput _) fun _ => goes_sysUnlinkBad _)

theorem goes_create (p : Nat) (path : List UInt8) (type : Nat) (major minor : Int) :
    Goes false true true (create p path type major minor) := by
  have link : ∀ dp ip inum name, Goes false true true (create.link dp ip inum name) := fun dp ip inum name =>
    goes_bind (goes_dirlink _ _ _) fun _ => goes_ite (goes_panic (by decide))
      (goes_bind (goes_iunlockput _) fun _ => goes_pure _)
  refine goes_bind (goes_nameiparent p path) fun dir => ?_
  split
  · exact goes_pure _
  · refine goes_bind (goes_ilock _) fun _ => goes_bind (goes_dirlookup _ _) fun found => ?_
    split
    · refine goes_bind (goes_iunlockput _) fun _ => goes_bind (goes_ilock _) fun _ => goes_step rfl fun _ => ?_
      exact goes_ite (goes_pure _) (goes_bind (goes_iunlockput _) fun _ => goes_pure _)
    · refine goes_step rfl fun _ => goes_bind (goes_ialloc _) fun ip => goes_bind (goes_ilock _) fun _ => ?_
      refine goes_step rfl fun inode => goes_step rfl fun _ => goes_bind (goes_iupdate _) fun _ => ?_
      refine goes_step rfl fun dir => goes_ite ?_ (link _ _ _ _)
      refine goes_step rfl fun _ => goes_bind (goes_iupdate _) fun _ => goes_bind (goes_dirlink _ _ _) fun r => ?_
      refine goes_ite (goes_panic (by decide)) (goes_bind (goes_dirlink _ _ _) fun r => ?_)
      exact goes_ite (goes_panic (by decide)) (link _ _ _ _)

theorem goes_openFile (p ip omode : Nat) : Goes false false false (openFile p ip omode) := by
  refine goes_bind goes_filealloc fun f => ?_
  split
  · exact goes_bind (goes_iunlockput _) fun _ => goes_pure _
  · refine goes_bind (goes_fdalloc p _) fun fd => ?_
    split
    · exact goes_bind (goes_fileclose _) fun _ => goes_bind (goes_iunlockput _) fun _ => goes_pure _
    · exact goes_bind (goes_iunlock _) fun _ => goes_step rfl fun _ => goes_pure _

theorem goes_sysPipeBad (rf wf : Option Nat) : Goes false false false (sysPipeBad rf wf) := by
  have close : ∀ {α : Type} {f : Nat} {rest : Unit → K α}, (∀ a, Goes false false false (rest a)) →
      Goes false false false (fileclose f >>= rest) := fun rest => goes_bind (goes_fileclose _) rest
  cases rf with
  | none =>
    cases wf with
    | none => exact goes_pure _
    | some f => exact close fun _ => goes_pure _
  | some f =>
    cases wf with
    | none => exact close fun _ => goes_pure _
    | some g => exact close fun _ => close fun _ => goes_pure _

theorem goes_pipealloc : Goes false false false pipealloc := by
  refine goes_bind goes_filealloc fun f0 => ?_
  split
  · exact goes_pure _
  · refine goes_bind goes_filealloc fun f1 => ?_
    split
    · exact goes_bind (goes_sysPipeBad _ _) fun _ => goes_pure _
    · refine goes_bind (goes_vm _) fun pi => ?_
      split
      · exact goes_bind (goes_sysPipeBad _ _) fun _ => goes_pure _
      · exact goes_step rfl fun _ => goes_step rfl fun _ => goes_step rfl fun _ => goes_pure _

/-! ### `proc.c` and `exec.c` -/

theorem goes_fork (p : Nat) : Goes false false false (fork p) := by
  have loop : ∀ k np ofile i, Goes false false false (fork.loop np ofile i k) := by
    intro k
    induction k with
    | zero => intro np ofile i; exact goes_pure ()
    | succ k ih =>
      intro np ofile i
      unfold fork.loop
      split
      · exact goes_step rfl fun _ => goes_step rfl fun _ => ih _ _ _
      · exact ih _ _ _
  have alloc : Goes false false false allocproc := by
    refine goes_step rfl fun slot => ?_
    split
    · exact goes_pure _
    · refine goes_bind (goes_vm _) fun kstack => ?_
      split <;> exact goes_step rfl fun _ => goes_pure _
  refine goes_bind alloc fun np => ?_
  split
  · exact goes_pure _
  · refine goes_step rfl fun proc => goes_bind (goes_vm _) fun pgdir => ?_
    split
    · exact goes_step rfl fun _ => goes_bind (goes_vm _) fun _ => goes_step rfl fun _ => goes_pure _
    · refine goes_step rfl fun _ => goes_bind (loop _ _ _ _) fun _ => goes_bind (goes_idup _) fun _ => ?_
      exact goes_step rfl fun _ => goes_step rfl fun _ => goes_pure _

theorem goes_exit (p : Nat) : Goes false false false (exit p) := by
  have loop : ∀ k fd, Goes false false false (exit.loop p fd k) := by
    intro k
    induction k with
    | zero => intro fd; exact goes_pure ()
    | succ k ih =>
      intro fd
      refine goes_step rfl fun proc => ?_
      split
      · exact goes_bind (goes_fileclose _) fun _ => goes_step rfl fun _ => ih _
      · exact ih _
  refine goes_ite (goes_panic (by decide)) (goes_bind (loop _ _) fun _ => goes_step rfl fun _ => ?_)
  exact goes_bind (goes_iput _) fun _ => goes_step rfl fun _ => goes_free rfl

theorem goes_wait (p : Nat) : Goes false false false (wait p) := by
  refine goes_step rfl fun found => ?_
  split
  · exact goes_pure _
  · refine goes_step rfl fun _ => goes_bind (goes_vm _) fun _ => goes_bind (goes_vm _) fun _ => ?_
    exact goes_step rfl fun _ => goes_pure _

theorem goes_growproc (p : Nat) (n : Int) : Goes false t t (growproc p n) := by
  have set : ∀ sz, Goes false t t (growproc.set p sz) := fun sz =>
    goes_ite (goes_pure _) (goes_step rfl fun _ => goes_pure _)
  refine goes_step rfl fun _ => goes_ite (goes_bind (goes_vm _) fun _ => set _) ?_
  exact goes_ite (goes_bind (goes_vm _) fun _ => set _) (goes_pure _)

theorem goes_sysExec (p : Nat) (elf : Elfhdr) (path : List UInt8) (argv : List (List UInt8)) :
    Goes false t t (sysExec p elf path argv) := by
  refine takes_interp _ fun e => ?_
  cases e with
  | mem e => exact goes_free rfl
  | namei path => exact goes_namei p path
  | ilock ip => exact goes_ilock ip
  | readi ip off n => exact goes_readi ip off n
  | iunlockput ip => exact goes_iunlockput ip
  | commit pgdir sz eip esp name =>
    exact goes_bind (goes_free rfl) fun proc => goes_bind (goes_free rfl) fun _ => goes_pure _

theorem goes_created {q : K (Option Nat)} (h : Goes false true true q) :
    Goes false true false (do
      match ← q with
      | none => do
        commitTrans
        return (-1 : Int)
      | some ip => do
        iunlockput ip
        commitTrans
        return 0) := by
  refine goes_bind h fun made => ?_
  split
  · exact goes_commit _
  · exact goes_bind (goes_iunlockput _) fun _ => goes_commit _

theorem goes_sysOpen (p : Nat) (path : List UInt8) (omode : Nat) : Goes false false false (sysOpen p path omode) := by
  refine goes_ite ?_ ?_
  · refine goes_bind goes_beginTrans fun _ => goes_bind (goes_create _ _ _ _ _) fun ip => ?_
    refine goes_bind goes_commitTrans fun _ => ?_
    split
    · exact goes_pure _
    · exact goes_openFile _ _ _
  · refine goes_bind (goes_namei p path) fun ip => ?_
    split
    · exact goes_pure _
    · refine goes_bind (goes_ilock _) fun _ => goes_step rfl fun inode => ?_
      exact goes_ite (goes_bind (goes_iunlockput _) fun _ => goes_pure _) (goes_openFile _ _ _)

theorem goes_onFile {α : Type} {p fd : Nat} {none : K α} {some : Nat → K α} (closed : Goes false false false none)
    (opened : ∀ f, Goes false false false (some f)) :
    Goes false false false (do
      match ← argfd p fd with
      | .none => none
      | .some f => some f) := by
  refine goes_bind (goes_argfd p fd) fun f => ?_
  split
  · exact closed
  · exact opened _

theorem goes_discard {α : Type} {q : K α} (h : Goes false t t q) : Goes false t t (Syscall.code.discard q) :=
  goes_bind h fun _ => goes_pure ()

theorem goes_code (p : Nat) (c : Syscall) : Goes false false false (c.code p) := by
  cases c with
  | fork => exact goes_discard (goes_fork p)
  | exit => exact goes_exit p
  | wait => exact goes_discard (goes_wait p)
  | sbrk n =>
    exact goes_discard (goes_step rfl fun _ => goes_bind (goes_growproc p n) fun _ =>
      goes_ite (goes_pure _) (goes_pure _))
  | pipe =>
    refine goes_discard (goes_bind goes_pipealloc fun ends => ?_)
    split
    · exact goes_pure _
    · refine goes_bind (goes_fdalloc p _) fun fd0 => ?_
      split
      · exact goes_sysPipeBad _ _
      · refine goes_bind (goes_fdalloc p _) fun fd1 => ?_
        split
        · exact goes_step rfl fun _ => goes_sysPipeBad _ _
        · exact goes_pure _
  | read fd n => exact goes_discard (goes_onFile (goes_pure _) fun f => goes_fileread p f _)
  | write fd src => exact goes_discard (goes_onFile (goes_pure _) fun f => goes_filewrite p f src)
  | close fd =>
    exact goes_discard (goes_onFile (goes_pure _) fun f =>
      goes_step rfl fun _ => goes_bind (goes_fileclose f) fun _ => goes_pure _)
  | dup fd =>
    refine goes_discard (goes_onFile (goes_pure _) fun f => goes_bind (goes_fdalloc p f) fun fd => ?_)
    split
    · exact goes_pure _
    · exact goes_step rfl fun _ => goes_pure _
  | fstat fd =>
    refine goes_discard (goes_onFile (goes_pure _) fun f => goes_bind (goes_filestat f) fun found => ?_)
    split <;> exact goes_pure _
  | «open» path omode => exact goes_discard (goes_sysOpen p path omode)
  | link old new => exact goes_discard (goes_sysLink p old new)
  | unlink path => exact goes_discard (goes_sysUnlink p path)
  | mkdir _ | mknod _ _ _ =>
    refine goes_discard (goes_bind goes_beginTrans fun _ => ?_)
    split
    · exact goes_commit _
    · exact goes_created (goes_create _ _ _ _ _)
  | chdir path =>
    refine goes_discard (goes_bind (goes_namei p path) fun ip => ?_)
    split
    · exact goes_pure _
    · refine goes_bind (goes_ilock _) fun _ => goes_step rfl fun inode => ?_
      refine goes_ite (goes_bind (goes_iunlockput _) fun _ => goes_pure _) ?_
      refine goes_bind (goes_iunlock _) fun _ => goes_step rfl fun proc => goes_bind (goes_iput _) fun _ => ?_
      exact goes_step rfl fun _ => goes_pure _
  | exec elf path argv => exact goes_discard (goes_sysExec p elf path argv)

/-! ### Every interleaving -/

def InTrans (p : Nat) (trace : List (Nat × Step)) : Prop := transactions.phase false p trace = true

/-- Outside a transaction of its own, a process does not drop the last reference to an unlinked inode
and looks up mapped blocks only. -/
def Quiet (c : Config signature State) (p : Nat) (e : Step) : Prop :=
  ¬ InTrans p c.trace →
    match e with
    | .putTest ip =>
      ¬ ((c.state.icache ip).ref = 1 ∧ (c.state.icache ip).valid ∧ (c.state.icache ip).din.nlink = 0)
    | .addr ip i => (c.state.icache ip).din.addr i ≠ 0
    | .indirect sec i => (c.state.buf sec).word i ≠ 0
    | _ => True

theorem Quiet.relied {c : Config signature State} {p : Nat} {e : Step} {r : Answer e} {s : State}
    (quiet : Quiet c p e) (returned : act e c.state = .returned r s) :
    transactions.relied (transactions.phase false p c.trace) e r := by
  have outside : transactions.phase false p c.trace = false → ¬ InTrans p c.trace := by
    intro out inside
    rw [InTrans, out] at inside
    cases inside
  cases e with
  | putTest ip =>
    intro out
    have kept := quiet (outside out)
    simp only [act, if_neg kept] at returned
    cases returned
    rfl
  | addr _ _ | indirect _ _ =>
    intro out
    cases returned
    exact quiet (outside out)
  | _ => trivial

theorem busy_act {e : Step} {r : Answer e} {s s' : State} (returned : act e s = .returned r s') :
    s'.log.busy = transactions.next s.log.busy e := by
  cases e with
  | mem e =>
    simp only [act] at returned
    split at returned <;> cases returned
    rfl
  | _ =>
    simp only [act] at returned
    (repeat' split at returned) <;> cases returned <;> rfl

theorem panic_outside {e : Step} {s : State} (panicked : act e s = .panicked .logOutside) :
    e = .panic .logOutside ∨ ∃ sec, e = .logSlot sec ∧ s.log.busy = false := by
  cases e with
  | panic m => cases panicked; exact Or.inl rfl
  | logSlot sec =>
    refine Or.inr ⟨sec, rfl, ?_⟩
    simp only [act] at panicked
    split at panicked
    · cases panicked
    · split at panicked
      · assumption
      · cases panicked
  | mem e =>
    simp only [act] at panicked
    split at panicked <;> cases panicked
  | _ =>
    simp only [act] at panicked
    (repeat' split at panicked) <;> cases panicked

/-- The log is busy exactly while one process is inside a transaction. -/
structure Exclusive (c : Config signature State) : Prop where
  busy : c.state.log.busy = true ↔ ∃ p, InTrans p c.trace
  one : ∀ p q, InTrans p c.trace → InTrans q c.trace → p = q

theorem exclusive_step {c : Config signature State} {p : Nat} {e : Step} {r : Answer e} {s : State}
    {thread : Nat → K Unit} (h : Exclusive c)
    (allowed : transactions.allowed (transactions.phase false p c.trace) e)
    (returned : act e c.state = .returned r s) : Exclusive ⟨s, thread, (p, e) :: c.trace⟩ := by
  have busy := busy_act returned
  have self : InTrans p ((p, e) :: c.trace) ↔
      transactions.next (transactions.phase false p c.trace) e = true := by
    simp [InTrans, Protocol.phase]
  have other : ∀ q, q ≠ p → (InTrans q ((p, e) :: c.trace) ↔ InTrans q c.trace) := by
    intro q ne
    simp [InTrans, Protocol.phase, Ne.symm ne]
  have keep : (∀ t, transactions.next t e = t) → Exclusive ⟨s, thread, (p, e) :: c.trace⟩ := by
    intro same
    have all : ∀ q, InTrans q ((p, e) :: c.trace) ↔ InTrans q c.trace := by
      intro q
      by_cases eq : q = p
      · subst eq
        rw [self, same]
        rfl
      · exact other q eq
    refine ⟨?_, fun q q' hq hq' => h.one q q' ((all q).mp hq) ((all q').mp hq')⟩
    simp only [all]
    rw [busy, same]
    exact h.busy
  cases e with
  | lockLog =>
    -- the lock was free, so nobody was inside
    have free : c.state.log.busy = false := by
      cases now : c.state.log.busy with
      | false => rfl
      | true => simp [act, now] at returned
    have nobody : ∀ q, ¬ InTrans q c.trace := by
      intro q inside
      have := h.busy.mpr ⟨q, inside⟩
      simp [free] at this
    have only : ∀ q, InTrans q ((p, .lockLog) :: c.trace) → q = p := by
      intro q inside
      by_contra ne
      exact nobody q ((other q ne).mp inside)
    exact ⟨⟨fun _ => ⟨p, self.mpr rfl⟩, fun _ => busy⟩, fun q q' hq hq' => (only q hq).trans (only q' hq').symm⟩
  | unlockLog =>
    have nobody : ∀ q, ¬ InTrans q ((p, .unlockLog) :: c.trace) := by
      intro q inside
      by_cases same : q = p
      · subst same
        cases self.mp inside
      · exact same (h.one q p ((other q same).mp inside) allowed)
    refine ⟨⟨fun now => ?_, fun some => ?_⟩, fun q _ hq => absurd hq (nobody q)⟩
    · change s.log.busy = true at now
      rw [busy] at now
      cases now
    · obtain ⟨q, inside⟩ := some
      exact absurd inside (nobody q)
  | _ => exact keep fun _ => rfl

theorem reachable_goes {s : State} {c : Config signature State}
    (run : machine.Reachable calls Quiet (initial s) c) (p : Nat) :
    transactions.Follows (c.thread p) (transactions.phase false p c.trace) fun _ t => t = false := by
  refine reachable_follows false run ?_ (fun _ _ _ _ _ => Quiet.relied) p
  rintro q s prog ⟨-, call, rfl⟩
  exact Follows.mono (fun _ _ => And.left) (goes_code q call)

theorem reachable_exclusive {s : State} {c : Config signature State} (idle : s.log.busy = false)
    (run : machine.Reachable calls Quiet (initial s) c) : Exclusive c := by
  induction run with
  | refl =>
    refine ⟨?_, fun p q hp => ?_⟩
    · simp [initial, idle, InTrans, Protocol.phase]
    · simp [initial, InTrans, Protocol.phase] at hp
  | @tail c _ run turn ih =>
    have follows := reachable_goes run
    cases turn with
    | call idle call => exact ⟨ih.busy, ih.one⟩
    | @step p e next r s at_step meets returned =>
      have allowed := follows p
      rw [at_step] at allowed
      exact exclusive_step ih allowed.1 returned

theorem log_writes_inside {s : State} {c : Config signature State} (idle : s.log.busy = false)
    (run : machine.Reachable calls Quiet (initial s) c) :
    (∀ p sec next, c.thread p = .step (.logSlot sec) next → InTrans p c.trace) ∧
    (∀ p e next, c.thread p = .step e next → act e c.state ≠ .panicked .logOutside) ∧
    ∀ p q, InTrans p c.trace → InTrans q c.trace → p = q := by
  have exclusive := reachable_exclusive idle run
  have follows := reachable_goes run
  have inside : ∀ p sec next, c.thread p = .step (.logSlot sec) next → InTrans p c.trace := by
    intro p sec next at_step
    have allowed := follows p
    rw [at_step] at allowed
    exact allowed.1
  refine ⟨inside, fun p e next at_step panicked => ?_, exclusive.one⟩
  have allowed := follows p
  rw [at_step] at allowed
  rcases panic_outside panicked with rfl | ⟨sec, rfl, free⟩
  · exact allowed.1 rfl
  · have busy := exclusive.busy.mpr ⟨p, inside p sec next at_step⟩
    rw [free] at busy
    cases busy

def emptyImage : Nat → Block := ((Mkfs.main []).getD Mkfs.blank).img

def rootOnly : State :=
  let s := booted (Mkfs.size - Mkfs.nlog) Mkfs.nlog emptyImage
  { s with procs := fun p => { s.procs p with state := .runnable } }

/-- `mkdir("/d")` at its first `log_write`. -/
theorem log_writes_inside_mkdir :
    ∃ c sec next, machine.Reachable calls Quiet (initial rootOnly) c ∧ c.thread 0 = .step (.logSlot sec) next ∧
      InTrans 0 c.trace ∧ (∀ p e next, c.thread p = .step e next → act e c.state ≠ .panicked .logOutside) ∧
      ∀ p q, InTrans p c.trace → InTrans q c.trace → p = q := by
  have call : machine.Turn calls Quiet (initial rootOnly) _ :=
    .call (p := 0) rfl ⟨rfl, .mkdir (some [SLASH, 100]), rfl⟩
  have locked : machine.Turn calls Quiet
      ⟨rootOnly, Function.update (fun _ => .done ()) 0 ((Syscall.mkdir (some [SLASH, 100])).code 0), []⟩ _ :=
    Turn.step (p := 0) (e := Step.lockLog) rfl (fun _ => trivial) rfl
  obtain ⟨c₁, run, start, found⟩ : ∃ c₁, machine.Reachable calls Quiet (initial rootOnly) c₁ ∧ InTrans 0 c₁.trace ∧
      ((machine.steps (c₁.thread 0) c₁.state).find? fun e => (e matches .logSlot _) || !transactions.next true e).any
        (· matches .logSlot _) = true :=
    ⟨_, .tail (.single call) locked, rfl, by decide +kernel⟩
  obtain ⟨e, found, logs⟩ := (Option.any_eq_true ..).mp found
  obtain ⟨sec, rfl⟩ : ∃ sec, e = .logSlot sec := by
    split at logs
    · exact ⟨_, rfl⟩
    · cases logs
  obtain ⟨c, next, rest, -, at_step⟩ := reachable_before (A := Quiet) (I := fun c => InTrans 0 c.trace) rfl start
    (fun c e inside outside => absurd inside outside) (fun c e s thread inside goes => by
      rw [InTrans, Protocol.phase, if_pos rfl, show transactions.phase false 0 c.trace = true from inside]
      simpa using (Bool.or_eq_false_iff.mp goes).2) found
  obtain ⟨inside, fine, one⟩ := log_writes_inside rfl (run.trans rest)
  exact ⟨c, sec, next, run.trans rest, at_step, inside 0 sec next at_step, fine, one⟩

/-- `mkdir d; cd d; rmdir /d; cd /`: the last `chdir` drops the last reference to `d` and frees it
outside any transaction. -/
theorem chdir_writes_outside :
    ∃ s c e next, boot emptyImage = .returned () s ∧
      machine.Reachable calls (fun _ _ _ => True) (initial s) c ∧
      c.thread initproc = .step e next ∧ act e c.state = .panicked .logOutside :=
  have crashed : crash emptyImage [.mkdir (some [100]), .chdir [100], .unlink [SLASH, 100]] (.chdir [SLASH]) =
      some .logOutside := by decide +kernel
  crash_reachable crashed

end Espl.Kernel
