import Espl.Sched.Vigilant

/-!
# A parent in wait

`exit` wakes the parent before the process is a zombie, and hands its own dead children to the first
process. All of that happens under `ptable.lock`, so no process is left asleep in `wait` with a child that
has exited.
-/

namespace Espl.Sched

open Function (update update_eq_self)
open Rules (keeps_seq keeps_mono)

variable {p q : Nat}

theorem vigilant_boot : Vigilant tboot (fun _ => {}) fun _ => {} := by
  have orphan : ∀ q, (tboot.procs q).parent = none := by
    intro q
    unfold tboot
    simp only
    split <;> rfl
  refine ⟨nofun, fun _ _ => ⟨rfl, rfl, rfl, rfl, rfl⟩, nofun, fun q is => ?_, orphan _, nofun, nofun, nofun,
    nofun, nofun, nofun⟩
  exact absurd ((orphan q).symm.trans is) nofun

abbrev Watchful : Threads tsignature Table → (Nat → TLocal × Vigil) → Prop :=
  Threads.Within (fun p => TLocal.rules.both (Vigil.rules p))
    (fun s x => TInv False s (fun p => (x p).1) ∧ Vigilant s (fun p => (x p).1) fun p => (x p).2)
    fun x => x.1.Rests ∧ x.2 = {}

theorem watchful_call {c : Threads tsignature Table} {x : Nat → TLocal × Vigil} {prog : TCode Unit}
    (within : Watchful c x) (call : tcalls p c.state (c.thread p) prog) :
    (TLocal.rules.both (Vigil.rules p)).Keeps prog (x p) fun _ y => y.1.Rests ∧ y.2 = {} := by
  obtain ⟨inv, vigilant⟩ := within.1
  have fits := (inv.self p).phase
  rcases call with ⟨fresh, rfl⟩ | ⟨idle, running, body, rfl⟩ | ⟨running, free, body, rfl⟩
  · have off : (x p).1.phase = .off := by
      cases phase : (x p).1.phase with
      | off => rfl
      | up | down => simp [phase, Phase.Fits, fresh] at fits
    refine keeps_mono (Rules.keeps_both (TLocal.keeps_forkret off ((inv.self p).fresh fresh)) Vigil.keeps_forkret) ?_
    rintro _ y ⟨ready, none⟩
    exact ⟨Or.inl ready, none⟩
  · have rests := within.rests idle
    have ready : (x p).1.Ready := rests.1.resolve_right fun off => by
      simp [off, Phase.Fits, running] at fits
    refine keeps_mono (Rules.keeps_both (Rules.keeps_interp_inv body ready fun o _ => TLocal.keeps_op o)
      (Rules.keeps_interp_inv (I := fun u => u = {}) body rests.2 fun o u none => ?_)) ?_
    · rw [none]
      exact Vigil.keeps_op o
    · rintro _ y ⟨ready, none⟩
      exact ⟨Or.inl ready, none⟩
  · have free := inv.free running free
    have none : (x p).2 = {} := by
      have off : (x p).2.held = false := by
        cases on : (x p).2.held with
        | false => rfl
        | true => exact absurd (free.pt.symm.trans (vigilant.held p on)) (by decide)
      have wait : (x p).2.wait = false := by
        cases on : (x p).2.wait with
        | false => rfl
        | true => exact absurd free.up (vigilant.down p on off)
      obtain ⟨seen, parent, woken, owes, on⟩ := vigilant.idle p off
      rw [show (x p).2 = ⟨(x p).2.held, (x p).2.seen, (x p).2.wait, (x p).2.on, (x p).2.parent,
        (x p).2.woken, (x p).2.owes⟩
        from rfl, off, seen, wait, on, parent, woken, owes]
    refine keeps_seq (Rules.keeps_both
      (Rules.keeps_interp_inv (I := fun u => u = (x p).1) body rfl fun o u same => ?_)
      (Rules.keeps_interp_inv (I := fun u => u = (x p).2) body rfl fun o u same => ?_)) ?_
    · rw [same]
      exact TLocal.keeps_work o free
    · rw [same, none]
      exact Vigil.keeps_work o
    · rintro _ ⟨t, v⟩ ⟨sameT, sameV⟩
      obtain rfl : t = (x p).1 := sameT
      obtain rfl : v = (x p).2 := sameV
      exact within.2 p

theorem reachable_watchful {c : Threads tsignature Table}
    (run : Threads.Reachable tmachine tcalls (fun _ _ _ => True) (Threads.initial tboot) c) : ∃ x, Watchful c x := by
  refine Threads.reachable_within run (t := fun _ => ({}, {})) ⟨⟨tinv_boot, vigilant_boot⟩, fun _ =>
    ⟨Or.inr rfl, rfl⟩⟩ ?_ ?_
  · intro c x p prog within call
    refine ⟨x p, watchful_call within call, ?_⟩
    rw [update_eq_self]
    exact within.1
  · intro c x p e next r s within _ may _ returned
    obtain ⟨⟨inv, vigilant⟩, -⟩ := within
    obtain ⟨u, moved, inv'⟩ := tinv_step inv may.1 (fun _ _ => False.elim) returned
    obtain ⟨w, moved', vigilant'⟩ := vigilant_step vigilant inv may.1 may.2 moved returned
    refine ⟨(u, w), ⟨moved, moved'⟩, ?_⟩
    have first : (fun q => (update x p (u, w) q).1) = update (fun q => (x q).1) p u := by
      funext q
      exact (Function.apply_update (fun _ => Prod.fst) x p (u, w) q)
    have second : (fun q => (update x p (u, w) q).2) = update (fun q => (x q).2) p w := by
      funext q
      exact (Function.apply_update (fun _ => Prod.snd) x p (u, w) q)
    rw [first, second]
    exact ⟨inv', vigilant'⟩

def InWait (prog : TCode Unit) : Prop :=
  ∃ fuel k, prog = ((Table.lift (do step .resume; step (.setChan .null))).bind fun _ => Table.wait.loop fuel).bind k

theorem waits_of_inWait {prog : TCode Unit} {x : TLocal × Vigil} {Q : Unit → TLocal × Vigil → Prop}
    (inside : InWait prog) (keeps : (TLocal.rules.both (Vigil.rules p)).Keeps prog x Q) : x.2.wait = true := by
  obtain ⟨fuel, k, rfl⟩ := inside
  obtain ⟨-, keeps⟩ := keeps
  obtain ⟨-, keeps⟩ := keeps () (_, _) ⟨rfl, rfl⟩
  have keeps := keeps () (_, _) ⟨rfl, rfl⟩
  cases fuel with
  | zero | succ _ => exact keeps.1.2

/-- No process is asleep in `wait` on its own channel while a child of its is dead. -/
theorem wait_sleeps {c : Threads tsignature Table}
    (run : Threads.Reachable tmachine tcalls (fun _ _ _ => True) (Threads.initial tboot) c)
    (free : c.state.lock .ptable = none) (inside : InWait (c.thread p)) (asleep : c.state.Asleep (.proc p) p)
    (child : (c.state.procs q).parent = some p) : (c.state.procs q).state ≠ .zombie := by
  intro dead
  obtain ⟨x, within⟩ := reachable_watchful run
  obtain ⟨inv, vigilant⟩ := within.1
  have wait := waits_of_inWait inside (within.2 p)
  obtain ⟨-, r, due⟩ := vigilant.waits p wait (Or.inr asleep.1) q child dead
  cases on : (x r).2.held with
  | false => exact absurd ((vigilant.idle r on).2.2.2.1.symm.trans due) nofun
  | true => exact absurd (free.symm.trans (vigilant.lock inv on)) nofun

/-- The first process forks and waits for its child, which is still alive. -/
theorem wait_sleeps_child : ∃ c, Threads.Reachable tmachine tcalls (fun _ _ _ => True) (Threads.initial tboot) c ∧
    c.state.lock .ptable = none ∧ InWait (c.thread 0) ∧ c.state.Asleep (.proc 0) 0 ∧ (c.state.procs 1).parent = some 0 ∧
    (c.state.procs 1).state ≠ .zombie := by
  obtain ⟨c, plays, free, inside, asleep, child⟩ : ∃ c, play (fun _ => true) [.start 0, .steps 0 2,
      .call 0 (.step (.fork true true) fun _ => .step (.wait 2) fun _ => .done ()), .steps 0 94]
        (Threads.initial tboot) = some c ∧
      c.state.lock .ptable = none ∧ InWait (c.thread 0) ∧ c.state.Asleep (.proc 0) 0 ∧
        (c.state.procs 1).parent = some 0 :=
    ⟨_, rfl, rfl, ⟨1, _, rfl⟩, ⟨rfl, rfl⟩, rfl⟩
  have run : Threads.Reachable tmachine tcalls (fun _ _ _ => True) (Threads.initial tboot) c :=
    reachable_play (fun _ _ _ _ => trivial) plays
  exact ⟨c, run, free, inside, asleep, child, wait_sleeps run free inside asleep child⟩

end Espl.Sched
