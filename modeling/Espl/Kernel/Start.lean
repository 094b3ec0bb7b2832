import Espl.Kernel.OnDisk
import Espl.Kernel.Syscall
import Espl.Mkfs.Image

/-!
# Start-up

The state in which the kernel starts its first process on a disk with an empty log.
-/

namespace Espl.Kernel

structure Startable (g : Geometry) (d : Nat → Block) : Prop where
  superSize : (d 1).word 0 = g.size
  superLog : (d 1).word 3 = g.nlog
  header : (d g.logStart).word 0 = 0

/-- The state when the first process starts: it has slot 0 of the process table, its current directory
slot 0 of the inode cache. -/
def started (g : Geometry) (d : Nat → Block) : State :=
  { booted g.logStart g.nlog d with
    disk := upd d g.logStart (putHeader (d g.logStart) [])
    dirty := upd (fun _ => none) g.logStart none
    icache := upd (booted g.logStart g.nlog d).icache 0 ⟨ROOTINO, 1, false, false, Dinode.empty⟩
    procs := upd (booted g.logStart g.nlog d).procs initproc
      { (booted g.logStart g.nlog d).procs initproc with state := .runnable, pid := 1, cwd := some 0 }
    nextpid := 2 }

theorem boot_eq {g : Geometry} {d : Nat → Block} (h : Startable g d) : boot d = .returned () (started g d) := by
  have size : (Superblock.ofBlock (d 1)).size - (Superblock.ofBlock (d 1)).nlog = g.logStart := by
    simp only [Superblock.ofBlock, h.superSize, h.superLog, Geometry.logStart]
  have nlog : (Superblock.ofBlock (d 1)).nlog = g.nlog := h.superLog
  rw [boot, size, nlog]
  have first : machine.run userinit (booted g.logStart g.nlog d) = .returned () { booted g.logStart g.nlog d with
      icache := upd (booted g.logStart g.nlog d).icache 0 ⟨ROOTINO, 1, false, false, Dinode.empty⟩
      procs := upd (upd (booted g.logStart g.nlog d).procs initproc
          { (booted g.logStart g.nlog d).procs initproc with state := .embryo, pid := 1 }) initproc
        { (booted g.logStart g.nlog d).procs initproc with state := .runnable, pid := 1, cwd := some 0 }
      nextpid := 2 } := rfl
  rw [upd_upd] at first
  rw [Program.bind_eq, Machine.run_bind, first]
  have none : headerSectors ((booted g.logStart g.nlog d).disk g.logStart) = [] := headerSectors_zero h.header
  simp only [recoverFromLog, readHead, installTrans, writeHead, step, Program.bind_eq, Program.step_bind,
    Program.done_bind, Machine.run, act]
  rw [show State.buf _ _ = (booted g.logStart g.nlog d).disk g.logStart from rfl, none]
  rfl

theorem onDisk_started {g : Geometry} {d : Nat → Block} {A : Volume} (reads : Reads g d A) :
    OnDisk g (started g d) A := by
  have clean : ∀ x, (started g d).dirty x = none := by
    intro x
    change upd (fun _ => none) g.logStart none x = none
    by_cases same : x = g.logStart
    · rw [same, upd_same]
    · rw [upd_ne _ _ same]
  have buf : ∀ x < g.logStart, (started g d).buf x = d x := by
    intro x lt
    rw [State.buf, clean x]
    exact upd_ne _ _ (by omega)
  exact ⟨reads.congr buf, logInv_empty rfl clean, rfl, rfl⟩

theorem startable_finished {img : Nat → Block} {top : Nat} {A : Volume} (h : Mkfs.Finished img top A)
    (below : top ≤ 1014) : Startable Mkfs.geometry img := by
  refine ⟨h.superSize, by rw [h.super]; decide +kernel, ?_⟩
  rw [show Mkfs.geometry.logStart = 1014 from rfl, h.zero _ below]
  exact Block.word_zero 0

end Espl.Kernel
