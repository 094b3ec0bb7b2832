import Espl.Kernel.Fs

/-!
# What code touches

The code of `fs.c` and `log.c` that works on the content of one inode takes steps on the buffers, on what
is logged and on the copy of that inode in the cache, and no others.
-/

namespace Espl.Kernel

open Program (all_step all_bind all_ite)

/-- Steps on the buffers, the log and the copy of the disk inode in entry `ip`. -/
def Step.content (ip : Nat) : Step → Bool
  | .panic _ | .bread _ | .bwrite _ _ | .setDirty _ _ | .log | .logSlot _ | .logRecord _ _ | .setSectors _ => true
  | .balloc | .allocated _ | .inode _ | .addr _ _ | .indirect _ _ => true
  | .setDin i _ => i == ip
  | .load i _ => i == ip
  | _ => false

abbrev Confined (ip : Nat) {α : Type} (p : K α) : Prop := p.All fun e : Step => e.content ip = true

section

variable {ip : Nat} {α : Type}

theorem confined_pure (a : α) : Confined ip (pure a : K α) := trivial

theorem confined_panic (m : Panic) : Confined ip (panic m : K α) := ⟨rfl, fun r => nomatch (r : Empty)⟩

theorem confined_last {e : Step} (h : e.content ip = true) : Confined ip (step e) := ⟨h, fun _ => trivial⟩

/-! ### `log.c` -/

theorem confined_logWrite (sec : Nat) (data : Block) : Confined ip (logWrite sec data) :=
  all_step rfl fun _ => all_step rfl fun _ => all_step rfl fun _ => all_step rfl fun _ => all_step rfl fun _ =>
    confined_last rfl

theorem confined_writeHead : Confined ip writeHead :=
  all_step rfl fun _ => all_step rfl fun _ => confined_last rfl

theorem confined_installTrans : Confined ip installTrans := by
  have loop : ∀ l start tail, Confined ip (installTrans.loop start tail l) := by
    intro l
    induction l with
    | nil => intro start tail; exact confined_pure ()
    | cons sec rest ih =>
      intro start tail
      exact all_step rfl fun _ => all_step rfl fun _ => all_step rfl fun _ => ih start (tail + 1)
  exact all_step rfl fun _ => loop _ _ _

/-! ### `fs.c` -/

theorem confined_readsb : Confined ip readsb := all_step rfl fun _ => confined_pure _

theorem confined_bzero (bno : Nat) : Confined ip (bzero bno) := all_step rfl fun _ => confined_logWrite _ _

theorem confined_balloc : Confined ip balloc := by
  have scan : ∀ k sb b, Confined ip (balloc.scan sb b k) := by
    intro k
    induction k with
    | zero => intro sb b; exact confined_panic _
    | succ k ih =>
      intro sb b
      refine all_step rfl fun bp => ?_
      split
      · exact all_bind (confined_logWrite _ _) fun _ => all_bind (confined_bzero _) fun _ =>
          all_step rfl fun _ => confined_pure _
      · exact ih _ _
  exact all_step rfl fun _ => all_bind confined_readsb fun sb => scan _ _ _

theorem confined_iupdate : Confined ip (iupdate ip) :=
  all_step rfl fun _ => all_step rfl fun _ => confined_logWrite _ _

theorem confined_setAddr (i : Nat) : Confined ip (do
    let addr ← balloc
    let inode ← step (.inode ip)
    step (.setDin ip (inode.din.setAddr i addr))
    return addr) :=
  all_bind confined_balloc fun _ => all_step rfl fun _ => all_step (beq_self_eq_true ip) fun _ => confined_pure _

theorem confined_bmap (bn : Nat) : Confined ip (bmap ip bn) := by
  have indirect : Confined ip (bmap.indirectBlock ip) :=
    all_step rfl fun _ => all_ite (fun _ => confined_setAddr _) fun _ => confined_pure _
  refine all_ite (fun _ => ?_) fun _ => all_ite (fun _ => ?_) fun _ => confined_panic _
  · exact all_step rfl fun _ => all_ite (fun _ => confined_setAddr _) fun _ => confined_pure _
  · refine all_bind indirect fun ind => all_step rfl fun addr => all_ite (fun _ => ?_) fun _ => confined_pure _
    exact all_bind confined_balloc fun _ => all_step rfl fun _ => all_bind (confined_logWrite _ _) fun _ =>
      confined_pure _

theorem confined_writei_loop (off : Nat) (src : List UInt8) (fuel : Nat) :
    Confined ip (writei.loop ip off src fuel) := by
  induction fuel generalizing off src with
  | zero => exact confined_pure ()
  | succ fuel ih =>
    refine all_ite (fun _ => confined_pure ()) fun _ => all_bind (confined_bmap _) fun _ => all_step rfl fun _ => ?_
    exact all_bind (confined_logWrite _ _) fun _ => ih _ _

end

end Espl.Kernel
