import Espl.Sched.Cpu
import Espl.Sched.Lifecycle

/-!
# Steps that leave the locks alone

Most steps of a process neither take nor give up a lock and do not switch. Which CPU takes them makes no
difference, and those on other CPUs can rely on the RUNNABLE processes and the contexts they see.
-/

namespace Espl.Sched

variable {p q : Nat} {u : TLocal} {s s' : Table}

/-- The code of a process from here to its return to user mode follows the rules of `TLocal`. -/
abbrev TLocal.Keeps (u : TLocal) (code : TCode Unit) : Prop := TLocal.rules.Keeps code u fun _ => TLocal.Ready

/-! ### Steps that leave the locks alone -/

def TStep.plain : TStep → Bool
  | .core (.acquire _) => false
  | .core (.release _) => false
  | .core .sched => false
  | .core .resume => false
  | .start => false
  | _ => true

theorem not_plain {e : TStep} (other : e.plain = false) :
    (∃ l, e = .core (.acquire l)) ∨ (∃ l, e = .core (.release l)) ∨ e = .core .sched ∨ e = .core .resume ∨
    e = .start := by
  cases e with
  | core e => cases e <;> simp [TStep.plain] at other ⊢
  | _ => simp [TStep.plain] at other ⊢

theorem plain_lock {e : TStep} {r : TStep.Answer e} (plain : e.plain = true) (L : Lock → Option Nat)
    (returned : tact p e s = .returned r s') :
    tact p e { s with lock := L } = .returned r { s' with lock := L } ∧ s'.lock = s.lock := by
  cases e with
  | core e =>
    cases e with
    | acquire _ | release _ | sched | resume => cases plain
    | wake q chan =>
      cases returned
      by_cases asleep : (s.procs q).state = .sleeping ∧ (s.procs q).chan = chan <;>
        simp [tact, act, State.wake, State.Asleep, State.setProc, asleep]
    | rouse q =>
      cases returned
      by_cases asleep : (s.procs q).state = .sleeping <;> simp [tact, act, State.rouse, State.setProc, asleep]
    | stop => cases r
    | _ =>
      cases returned
      exact ⟨rfl, rfl⟩
  | dupFile q fd =>
    cases returned
    cases file : (s.procs p).ofile fd <;> simp [tact, Table.dupFile, State.setProc, file]
  | checkInit | tryTake _ | adopt _ | reap _ =>
    simp only [tact] at returned ⊢
    split_ifs at returned ⊢ <;> cases returned <;> exact ⟨rfl, rfl⟩
  | start => cases plain
  | panic m => cases r
  | _ =>
    cases returned
    exact ⟨rfl, rfl⟩

/-- What the others rely on: a plain step sets up a context in `setContext` only, and without `ptable.lock` it
leaves RUNNABLE processes as they are. -/
structure Calm (s : Table) (u : TLocal) (e : TStep) (s' : Table) : Prop where
  fresh : ∀ q, (s'.procs q).fresh = true → (s.procs q).fresh = true ∨ e = .setContext q
  runnable : u.pt = false → ∀ q, (s.procs q).state = .runnable → (s'.procs q).state = .runnable

theorem Calm.same {e : TStep} (procs : s'.procs = s.procs) : Calm s u e s' :=
  ⟨fun q => by rw [procs]; exact Or.inl, fun _ q => by rw [procs]; exact id⟩

theorem Calm.setProc {e : TStep} {f : Proc → Proc} (procs : s'.procs = (s.setProc q f).procs)
    (fresh : (f (s.procs q)).fresh = true → (s.procs q).fresh = true ∨ e = .setContext q)
    (runnable : u.pt = false → (s.procs q).state = .runnable → (f (s.procs q)).state = .runnable) : Calm s u e s' := by
  refine ⟨?_, fun free => ?_⟩ <;> rw [procs]
  · exact setProc_forall (fun r x => x.fresh = true → (s.procs r).fresh = true ∨ e = .setContext r) fresh
      fun _ _ => Or.inl
  · exact setProc_forall (fun r x => (s.procs r).state = .runnable → x.state = .runnable) (runnable free) fun _ _ => id

theorem plain_calm {e : TStep} {r : TStep.Answer e} (plain : e.plain = true) (may : u.allowed e)
    (embryo : ∀ e, u.own = some e → (s.procs e.slot).state = .embryo) (returned : tact p e s = .returned r s') :
    Calm s u e s' := by
  have locked : ∀ {q : Nat} {state : ProcState}, u.pt = true → u.pt = false → (s.procs q).state = .runnable →
      state = .runnable := fun pt free => absurd (pt.symm.trans free) (by decide)
  cases e with
  | core e =>
    cases e with
    | acquire _ | release _ | sched | resume => cases plain
    | setState state =>
      cases returned
      exact .setProc rfl Or.inl (locked may.2.1)
    | wake q chan =>
      cases returned
      unfold State.wake
      split
      · exact .setProc rfl Or.inl fun _ _ => rfl
      · exact .same rfl
    | rouse q =>
      cases returned
      unfold State.rouse
      split
      · exact .setProc rfl Or.inl fun _ _ => rfl
      · exact .same rfl
    | setChan _ | kill _ =>
      cases returned
      exact .setProc rfl Or.inl fun _ => id
    | upd f => exact may.elim
    | stop => cases r
    | _ =>
      cases returned
      exact .same rfl
  | checkInit =>
    simp only [tact] at returned
    split at returned <;> cases returned
    exact .same rfl
  | tryTake q =>
    simp only [tact] at returned
    split at returned <;> cases returned
    · exact .setProc (f := fun x => { x with state := .embryo, pid := s.data.nextpid }) rfl Or.inl (locked may.2.1)
    · exact .same rfl
  | giveBack q =>
    cases returned
    obtain ⟨-, e, owns, rfl, -⟩ := may
    exact .setProc rfl Or.inl fun _ now => absurd ((embryo e owns).symm.trans now) (by decide)
  | setContext q =>
    cases returned
    exact .setProc rfl (fun _ => Or.inr rfl) fun _ => id
  | setParent _ | closeFile _ | setFile _ _ =>
    cases returned
    exact .setProc rfl Or.inl fun _ => id
  | dupFile q fd =>
    cases returned
    unfold Table.dupFile
    split
    · exact .setProc rfl Or.inl fun _ => id
    · exact .same rfl
  | setRunnable q =>
    cases returned
    exact .setProc rfl Or.inl fun _ _ => rfl
  | adopt q =>
    simp only [tact] at returned
    split at returned <;> cases returned
    · exact .setProc rfl Or.inl fun _ => id
    · exact .same rfl
  | setZombie =>
    cases returned
    exact .setProc (f := fun x => { x with state := .zombie }) rfl Or.inl (locked may.2.1)
  | reap q =>
    simp only [tact] at returned
    split at returned
    · split at returned <;> cases returned
      · exact .setProc (f := fun x => { x with state := .unused, pid := 0, parent := none, killed := false }) rfl
          Or.inl (locked may.2.1)
      · exact .same rfl
    · cases returned
      exact .same rfl
  | start => cases plain
  | panic m => cases r
  | _ =>
    cases returned
    exact .same rfl

theorem plain_up {e : TStep} (plain : e.plain = true) (may : u.allowed e) : u.phase = .up := by
  cases e with
  | core e =>
    cases e with
    | acquire _ | release _ | sched | resume => cases plain
    | get | upd _ => exact may.elim
    | killed | pid _ | mark | stop => exact may
    | _ => exact may.1
  | self | checkInit | parent | closeFile _ | setFile _ _ | panic _ => exact may
  | start => cases plain
  | _ => exact may.1

theorem plain_on {e : TStep} {r : TStep.Answer e} {u' : TLocal} (plain : e.plain = true) (may : u.allowed e)
    (moves : u.moves e r u') : u'.phase = .up ∨ u'.pt = true := by
  have up := plain_up plain may
  cases e with
  | core e =>
    cases e with
    | acquire _ | release _ | sched | resume => cases plain
    | setState state =>
      cases moves
      exact Or.inr may.2.1
    | _ =>
      cases moves
      exact Or.inl up
  | tryTake q =>
    cases moves
    refine Or.inl ?_
    split <;> exact up
  | setZombie =>
    cases moves
    exact Or.inr rfl
  | reap q => cases r <;> cases moves <;> exact Or.inl up
  | start => cases plain
  | _ =>
    cases moves
    exact Or.inl up

theorem keeps_returns {code : TCode Unit} (down : u.phase ≠ .up) (pt : u.pt = false)
    (keeps : u.Keeps code) :
    (∃ next, code = .step (.core .resume) next ∧
      TLocal.Keeps { u with phase := .up, pt := true } (next ())) ∨
    ∃ next, code = .step .start next ∧ u.phase = .off ∧
      TLocal.Keeps { phase := .up, pt := true } (next ()) := by
  cases code with
  | done a => exact absurd keeps.up down
  | step e next =>
    obtain ⟨may, rest⟩ := keeps
    cases plain : e.plain with
    | true => exact absurd (plain_up plain may) down
    | false =>
      obtain ⟨l, rfl⟩ | ⟨l, rfl⟩ | rfl | rfl | rfl := not_plain plain
      · exact absurd may down
      · exact absurd may.1 down
      · exact absurd (pt.symm.trans may.2) (by decide)
      · exact Or.inl ⟨next, rfl, rest () _ rfl⟩
      · exact Or.inr ⟨next, rfl, may.1, rest () _ rfl⟩

end Espl.Sched
