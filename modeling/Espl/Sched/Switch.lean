import Espl.Sched.Plain

/-!
# The scheduler

What every CPU can be doing, with its `proc`, its page directory and its saved scheduler. The steps of
`scheduler` keep it, because `ptable.lock` stays with the CPU from the moment the state of a process
changes to the end of the switch.
-/

namespace Espl.Sched

open Function (update update_self update_of_ne update_eq_self)

variable {S S' : Sys} {o o' : Option Nat} {t t' : Nat → TLocal} {c p q : Nat} {u : TLocal} {s s' : Table}

/-- The table as processes see it. `ptable.lock` belongs to a process from the moment a scheduler makes it
RUNNING to its release or to `sched`, and to nobody while a scheduler has it for itself. -/
def Sys.view (S : Sys) (o : Option Nat) : Table := { S.table with lock := fun _ => o }

/-- Code that is about to return from `swtch`, to a process that is RUNNING and has `ptable.lock`. -/
structure Pending (code : TCode Unit) (u : TLocal) : Prop where
  up : u.phase = .up
  pt : u.pt = true
  returns : (∃ next, code = .step (.core .resume) next ∧ u.Keeps (next ())) ∨
    ∃ next, code = .step .start next ∧ u.Keeps (next ())

def Stored (S : Sys) (t : Nat → TLocal) (p : Nat) : Prop :=
  ∃ code, S.context p = some code ∧ (t p).pt = false ∧ (t p).Keeps code

structure Holding (S : Sys) (o : Option Nat) (c : Nat) (owner : Option Nat) : Prop where
  lock : S.table.lock .ptable = some c
  owner : o = owner

/-- What a CPU can be doing, with its `proc`, its page directory and its saved scheduler. -/
inductive CpuOk (S : Sys) (o : Option Nat) (t : Nat → TLocal) (c : Nat) : Cpu → Prop where
  | top : CpuOk S o t c ⟨.scheduler .top, none, none, none⟩
  | interrupted (chan : Chan) : CpuOk S o t c ⟨.scheduler (.interrupted chan), none, none, none⟩
  | scan (q : Nat) (held : Holding S o c none) : CpuOk S o t c ⟨.scheduler (.scan q), none, none, none⟩
  | waking (chan : Chan) (q : Nat) (held : Holding S o c none) :
      CpuOk S o t c ⟨.scheduler (.waking chan q), none, none, none⟩
  | chosen (q : Nat) (held : Holding S o c none) (runnable : (S.table.procs q).state = .runnable) :
      CpuOk S o t c ⟨.scheduler (.chosen q), none, none, none⟩
  | placed (q : Nat) (held : Holding S o c none) (runnable : (S.table.procs q).state = .runnable) :
      CpuOk S o t c ⟨.scheduler (.placed q), some q, none, none⟩
  | mapped (q : Nat) (held : Holding S o c none) (runnable : (S.table.procs q).state = .runnable) :
      CpuOk S o t c ⟨.scheduler (.mapped q), some q, some q, none⟩
  | marked (q : Nat) (code : TCode Unit) (held : Holding S o c (some q)) (saved : S.context q = some code)
      (pending : Pending code (t q)) : CpuOk S o t c ⟨.scheduler (.marked q), some q, some q, none⟩
  | entering (q : Nat) (code : TCode Unit) (held : Holding S o c (some q)) (saved : S.context q = some code)
      (pending : Pending code (t q)) : CpuOk S o t c ⟨.entering, some q, some q, some (.back q)⟩
  | arriving (p : Nat) (code : TCode Unit) (held : Holding S o c (some p)) (pending : Pending code (t p)) :
      CpuOk S o t c ⟨.process p code, some p, some p, some (.back p)⟩
  | process (p : Nat) (code : TCode Unit) (owner : S.table.lock .ptable = some c → o = some p)
      (on : (t p).phase = .up ∨ (t p).pt = true) (keeps : (t p).Keeps code) :
      CpuOk S o t c ⟨.process p code, some p, some p, some (.back p)⟩
  | leaving (p : Nat) (held : Holding S o c none) : CpuOk S o t c ⟨.leaving p, some p, some p, some (.back p)⟩
  | back (p : Nat) (held : Holding S o c none) : CpuOk S o t c ⟨.scheduler (.back p), some p, some p, none⟩
  | unmapped (p : Nat) (held : Holding S o c none) : CpuOk S o t c ⟨.scheduler (.unmapped p), some p, none, none⟩

def Cpu.Carries (x : Cpu) (p : Nat) : Prop :=
  (∃ code, x.control = .process p code) ∨ x.control = .scheduler (.marked p) ∨ (x.control = .entering ∧ x.proc = some p)

structure CInv (S : Sys) (o : Option Nat) (t : Nat → TLocal) : Prop where
  table : TInv False (S.view o) t
  owner : ∀ p, o = some p → ∃ c, S.table.lock .ptable = some c ∧ (S.cpu c).proc = some p
  cpu : ∀ c, CpuOk S o t c (S.cpu c)
  unique : ∀ c c' p, (S.cpu c).proc = some p → (S.cpu c').proc = some p → c = c'
  up : ∀ p, (t p).phase = .up → ∃ c, (S.cpu c).Carries p
  down : ∀ p, (t p).phase = .down → (∃ c code, (S.cpu c).control = .process p code) ∨ Stored S t p
  fresh : ∀ q, (S.table.procs q).fresh = true → S.context q = some Table.forkret

/-! ### One CPU at a time -/

theorem CpuOk.frame {x : Cpu} (ok : CpuOk S o t c x)
    (lock : S'.table.lock .ptable = some c ↔ S.table.lock .ptable = some c)
    (owner : S.table.lock .ptable = some c → o' = o)
    (ghost : ∀ p, x.proc = some p → t' p = t p)
    (context : ∀ q, x.proc = some q → (t q).phase ≠ .off → S'.context q = S.context q)
    (runnable : S.table.lock .ptable = some c → ∀ q, (S.table.procs q).state = .runnable →
      (S'.table.procs q).state = .runnable) : CpuOk S' o' t' c x := by
  have still : ∀ {h}, Holding S o c h → Holding S' o' c h := fun held =>
    ⟨lock.mpr held.lock, (owner held.lock).trans held.owner⟩
  cases ok with
  | top => exact .top
  | interrupted chan => exact .interrupted chan
  | scan q held => exact .scan q (still held)
  | waking chan q held => exact .waking chan q (still held)
  | chosen q held is => exact .chosen q (still held) (runnable held.lock q is)
  | placed q held is => exact .placed q (still held) (runnable held.lock q is)
  | mapped q held is => exact .mapped q (still held) (runnable held.lock q is)
  | marked q code held saved pending =>
    refine .marked q code (still held) ?_ (by rwa [ghost q rfl])
    rw [context q rfl (by simp [pending.up])]
    exact saved
  | entering q code held saved pending =>
    refine .entering q code (still held) ?_ (by rwa [ghost q rfl])
    rw [context q rfl (by simp [pending.up])]
    exact saved
  | arriving p code held pending => exact .arriving p code (still held) (by rwa [ghost p rfl])
  | process p code own on keeps =>
    refine .process p code (fun now => ?_) (by rwa [ghost p rfl]) (by rwa [ghost p rfl])
    have before := lock.mp now
    rw [owner before]
    exact own before
  | leaving p held => exact .leaving p (still held)
  | back p held => exact .back p (still held)
  | unmapped p held => exact .unmapped p (still held)

theorem CpuOk.proc {x : Cpu} (ok : CpuOk S o t c x) (carries : x.Carries p) : x.proc = some p := by
  rcases carries with ⟨code, is⟩ | is | ⟨-, is⟩
  · cases ok <;> cases is <;> rfl
  · cases ok <;> cases is
    rfl
  · exact is

/-- CPU `c` takes a step. What it does to its own processes is given; the rest follows. -/
theorem CInv.turn (inv : CInv S o t) (others : ∀ c', c' ≠ c → S'.cpu c' = S.cpu c')
    (table : TInv False (S'.view o') t')
    (lock : ∀ c', c' ≠ c → (S'.table.lock .ptable = some c' ↔ S.table.lock .ptable = some c'))
    (owner : ∀ c', c' ≠ c → S.table.lock .ptable = some c' → o' = o)
    (holder : ∀ p, o' = some p → (S'.table.lock .ptable = some c ∧ (S'.cpu c).proc = some p) ∨
      (o = some p ∧ S.table.lock .ptable ≠ some c))
    (ghost : ∀ p, (S.cpu c).proc ≠ some p → t' p = t p)
    (context : ∀ q, (S.cpu c).proc ≠ some q → (t q).phase ≠ .off → S'.context q = S.context q)
    (runnable : S.table.lock .ptable ≠ some c → ∀ q, (S.table.procs q).state = .runnable →
      (S'.table.procs q).state = .runnable)
    (fresh : ∀ q, (S'.table.procs q).fresh = true → S'.context q = some Table.forkret)
    (mine : CpuOk S' o' t' c (S'.cpu c))
    (proc : ∀ c' q, c' ≠ c → (S'.cpu c).proc = some q → (S.cpu c').proc ≠ some q)
    (up : ∀ p, (S.cpu c).proc = some p → (t' p).phase = .up → ∃ c, (S'.cpu c).Carries p)
    (down : ∀ p, (S.cpu c).proc = some p → (t' p).phase = .down →
      (∃ c code, (S'.cpu c).control = .process p code) ∨ Stored S' t' p) : CInv S' o' t' where
  table := table
  owner p is := by
    rcases holder p is with ⟨held, is⟩ | ⟨old, free⟩
    · exact ⟨c, held, is⟩
    · obtain ⟨c', held, is⟩ := inv.owner p old
      have ne : c' ≠ c := by
        rintro rfl
        exact free held
      exact ⟨c', (lock c' ne).mpr held, by rw [others c' ne]; exact is⟩
  cpu c' := by
    by_cases eq : c' = c
    · subst eq
      exact mine
    · rw [others c' eq]
      have apart : ∀ p, (S.cpu c').proc = some p → (S.cpu c).proc ≠ some p := fun p is is' =>
        eq (inv.unique c' c p is is')
      refine (inv.cpu c').frame (lock c' eq) (owner c' eq) (fun p is => ghost p (apart p is))
        (fun q is on => context q (apart q is) on) fun held => runnable fun held' => ?_
      rw [held] at held'
      exact eq (Option.some.inj held')
  unique c₁ c₂ p is₁ is₂ := by
    by_cases eq₁ : c₁ = c
    · by_cases eq₂ : c₂ = c
      · rw [eq₁, eq₂]
      · subst eq₁
        rw [others c₂ eq₂] at is₂
        exact absurd is₂ (proc c₂ p eq₂ is₁)
    · rw [others c₁ eq₁] at is₁
      by_cases eq₂ : c₂ = c
      · subst eq₂
        exact absurd is₁ (proc c₁ p eq₁ is₂)
      · rw [others c₂ eq₂] at is₂
        exact inv.unique c₁ c₂ p is₁ is₂
  up p is := by
    by_cases here : (S.cpu c).proc = some p
    · exact up p here is
    · rw [ghost p here] at is
      obtain ⟨c', carries⟩ := inv.up p is
      have ne : c' ≠ c := by
        rintro rfl
        exact here ((inv.cpu c').proc carries)
      exact ⟨c', by rw [others c' ne]; exact carries⟩
  down p is := by
    by_cases here : (S.cpu c).proc = some p
    · exact down p here is
    · rw [ghost p here] at is
      rcases inv.down p is with ⟨c', code, on⟩ | ⟨code, saved, pt, keeps⟩
      · have ne : c' ≠ c := by
          rintro rfl
          exact here ((inv.cpu c').proc (Or.inl ⟨code, on⟩))
        exact Or.inl ⟨c', code, by rw [others c' ne]; exact on⟩
      · refine Or.inr ⟨code, ?_, by rwa [ghost p here], by rwa [ghost p here]⟩
        rw [context p here (by simp [is])]
        exact saved
  fresh := fresh

theorem CInv.holds (inv : CInv S o t) (proc : (S.cpu c).proc = some p) (pt : (t p).pt = true) :
    Holding S o c (some p) := by
  have own : o = some p := (inv.table.thread p).pt pt
  obtain ⟨c', held, is⟩ := inv.owner p own
  obtain rfl := inv.unique c' c p is proc
  exact ⟨held, own⟩

theorem setCpu_same (f : Cpu → Cpu) : (S.setCpu c f).cpu c = f (S.cpu c) := update_self ..

theorem setCpu_ne (f : Cpu → Cpu) {c' : Nat} (ne : c' ≠ c) : (S.setCpu c f).cpu c' = S.cpu c' := update_of_ne ne ..

theorem CInv.setCpu {f : Cpu → Cpu} (inv : CInv S o t) (mine : CpuOk (S.setCpu c f) o t c (f (S.cpu c)))
    (proc : ∀ c' q, c' ≠ c → (f (S.cpu c)).proc = some q → (S.cpu c').proc ≠ some q)
    (holder : ∀ p, o = some p → (S.cpu c).proc = some p → (f (S.cpu c)).proc = some p)
    (up : ∀ p, (S.cpu c).proc = some p → (t p).phase = .up → (f (S.cpu c)).Carries p)
    (down : ∀ p, (S.cpu c).proc = some p → (t p).phase = .down →
      (∃ code, (f (S.cpu c)).control = .process p code) ∨ Stored S t p) : CInv (S.setCpu c f) o t := by
  refine inv.turn (c := c) (fun c' ne => setCpu_ne f ne) inv.table (fun _ _ => Iff.rfl) (fun _ _ _ => rfl)
    (fun p is => ?_)
    (fun _ _ => rfl) (fun _ _ _ => rfl) (fun _ _ => id) inv.fresh (by rwa [setCpu_same]) (by rwa [setCpu_same])
    (fun p here is => ⟨c, by rw [setCpu_same]; exact up p here is⟩) fun p here is => ?_
  · obtain ⟨c', held, here⟩ := inv.owner p is
    by_cases eq : c' = c
    · subst eq
      exact Or.inl ⟨held, by rw [setCpu_same]; exact holder p is here⟩
    · refine Or.inr ⟨is, fun held' => eq ?_⟩
      rw [held] at held'
      exact Option.some.inj held'
  · rcases down p here is with ⟨code, on⟩ | stored
    · exact Or.inl ⟨c, code, by rw [setCpu_same]; exact on⟩
    · exact Or.inr stored

/-! ### Steps of a scheduler -/

theorem CInv.goto (inv : CInv S o t) {k : Control} (bare : (S.cpu c).proc = none)
    (mine : CpuOk (S.goto c k) o t c { S.cpu c with control := k }) : CInv (S.goto c k) o t := by
  refine inv.setCpu mine (fun c' q _ is => ?_) (fun p _ is => ?_) (fun p is => ?_) fun p is => ?_
  · rw [show (S.cpu c).proc = some q from is] at bare
    cases bare
  all_goals
    rw [bare] at is
    cases is

theorem CInv.does (inv : CInv S none t) {s : Table} {k : Control} (bare : (S.cpu c).proc = none)
    (table : TInv False { s with lock := fun _ => none } t)
    (lock : ∀ c', c' ≠ c → (s.lock .ptable = some c' ↔ S.table.lock .ptable = some c'))
    (runnable : S.table.lock .ptable ≠ some c → s.procs = S.table.procs)
    (fresh : ∀ q, (s.procs q).fresh = (S.table.procs q).fresh)
    (mine : CpuOk ({ S with table := s }.goto c k) none t c { S.cpu c with control := k }) :
    CInv ({ S with table := s }.goto c k) none t := by
  refine inv.turn (c := c) (fun c' ne => setCpu_ne _ ne) table lock (fun _ _ _ => rfl) (fun p is => (by cases is))
    (fun _ _ => rfl) (fun _ _ _ => rfl) (fun free q is => ?_) (fun q is => inv.fresh q ((fresh q).symm.trans is))
    (by rwa [Sys.goto, setCpu_same]) (fun c' q _ is => ?_) (fun p is => ?_) fun p is => ?_
  · change (s.procs q).state = .runnable
    rw [runnable free]
    exact is
  · rw [Sys.goto, setCpu_same] at is
    rw [show (S.cpu c).proc = some q from is] at bare
    cases bare
  all_goals
    rw [bare] at is
    cases is

theorem CInv.top (inv : CInv S o t) {r : Unit} {s : Table}
    (act : tact c (.core (.acquire .ptable)) S.table = .returned r s) :
    S.table.lock .ptable = none ∧ o = none ∧ s.procs = S.table.procs ∧ s.lock .ptable = some c := by
  obtain ⟨free, rfl⟩ := act_acquire (tact_core act).1
  refine ⟨free, ?_, rfl, by simp⟩
  cases own : o with
  | none => rfl
  | some p =>
    obtain ⟨c', held, -⟩ := inv.owner p own
    rw [free] at held
    cases held

theorem CInv.takes (inv : CInv S o t) {r : Unit} {s : Table} {k : Control} (bare : (S.cpu c).proc = none)
    (act : tact c (.core (.acquire .ptable)) S.table = .returned r s)
    (mine : s.lock .ptable = some c → CpuOk ({ S with table := s }.goto c k) none t c { S.cpu c with control := k }) :
    CInv ({ S with table := s }.goto c k) none t := by
  obtain ⟨free, rfl, procs, lock⟩ := inv.top act
  refine inv.does bare (inv.table.congr procs rfl) (fun c' ne => ?_) (fun _ => procs)
    (fun q => by rw [procs]) (mine lock)
  rw [free, lock]
  exact iff_of_false (fun same => ne (Option.some.inj same).symm) nofun

theorem tact_release {r : Unit} {s s' : Table} (act : tact c (.core (.release .ptable)) s = .returned r s') :
    s.lock .ptable = some c ∧ s'.procs = s.procs ∧ s'.lock .ptable = none := by
  obtain ⟨held, rfl⟩ := act_release (tact_core act).1
  exact ⟨held, rfl, by simp⟩

theorem CInv.drops (inv : CInv S none t) {r : Unit} {s : Table}
    (cpu : ∃ pc, S.cpu c = ⟨.scheduler pc, none, none, none⟩)
    (act : tact c (.core (.release .ptable)) S.table = .returned r s) :
    CInv ({ S with table := s }.goto c (.scheduler .top)) none t := by
  obtain ⟨pc, cpu⟩ := cpu
  obtain ⟨lock, procs, free⟩ := tact_release act
  refine inv.does (by rw [cpu]) (inv.table.congr procs rfl) (fun c' ne => ?_) (fun _ => procs) (fun q => by rw [procs])
    (by rw [cpu]; exact .top)
  rw [free, lock]
  exact iff_of_false nofun fun same => ne (Option.some.inj same).symm

theorem wake_lock {chan : Chan} : (s.wake q chan).lock = s.lock := by
  unfold State.wake
  split <;> rfl

theorem wake_fresh {chan : Chan} (r : Nat) : ((s.wake q chan).procs r).fresh = (s.procs r).fresh := by
  unfold State.wake
  split
  · exact setProc_apply Proc.fresh rfl r
  · rfl

theorem does_eq {out : Outcome Table TPanic Unit} {pc : SPc} (step : S.does c out pc = some S') :
    ∃ r s, out = .returned r s ∧ S' = { S with table := s }.goto c (.scheduler pc) := by
  cases out with
  | returned r s => exact ⟨r, s, rfl, (Option.some.inj step).symm⟩
  | panicked _ | waiting => cases step

theorem CInv.current (inv : CInv S o t) (is : (S.cpu c).proc = some p) :
    S.table.lock .ptable = some c ∨ (S.table.procs p).state = .running := by
  have ok := inv.cpu c
  generalize cpu : S.cpu c = x at ok
  rw [cpu] at is
  cases ok with
  | top | interrupted _ | scan _ _ | waking _ _ _ | chosen _ _ _ => cases is
  | placed _ held | mapped _ held | marked _ _ held | entering _ _ held | arriving _ _ held
  | leaving _ held | back _ held | unmapped _ held => exact Or.inl held.lock
  | process q code owner on keeps =>
    cases is
    rcases on with up | pt
    · have fits := (inv.table.self p).phase
      rw [up] at fits
      exact Or.inr fits.1
    · exact Or.inl (inv.holds (by rw [cpu]) pt).lock

theorem CInv.apart (inv : CInv S o t) (lock : S.table.lock .ptable = some c)
    (idle : (S.table.procs q).state ≠ .running) {c' : Nat} (ne : c' ≠ c) : (S.cpu c').proc ≠ some q := by
  intro is
  rcases inv.current is with held | running
  · exact ne (Option.some.inj (held.symm.trans lock))
  · exact idle running

theorem CInv.away (inv : CInv S o t) (is : (S.cpu c).proc = some p) (away : ¬(S.cpu c).Carries p) :
    (t p).phase ≠ .up ∧ ((t p).phase = .down → Stored S t p) := by
  refine ⟨fun up => ?_, fun down => ?_⟩
  · obtain ⟨c', carries⟩ := inv.up p up
    obtain rfl := inv.unique c' c p ((inv.cpu c').proc carries) is
    exact away carries
  · refine (inv.down p down).resolve_left ?_
    rintro ⟨c', code, on⟩
    obtain rfl := inv.unique c' c p ((inv.cpu c').proc (Or.inl ⟨code, on⟩)) is
    exact away (Or.inl ⟨code, on⟩)

theorem CInv.stored (inv : CInv S o t) (runnable : (S.table.procs q).state = .runnable)
    (off : ∀ c code, (S.cpu c).control ≠ .process q code) : Stored S t q := by
  have fits := (inv.table.self q).phase
  cases phase : (t q).phase with
  | up =>
    rw [phase] at fits
    exact absurd (fits.1.symm.trans runnable) (by decide)
  | down =>
    rcases inv.down q phase with ⟨c, code, on⟩ | stored
    · exact absurd on (off c code)
    · exact stored
  | off =>
    have fresh : (S.table.procs q).fresh = true := by
      rw [phase] at fits
      rcases fits with is | is | is | is
      · exact absurd (is.symm.trans runnable) (by decide)
      · exact absurd (is.symm.trans runnable) (by decide)
      · exact absurd (is.symm.trans runnable) (by decide)
      · exact is.2
    have pt := (inv.table.self q).fresh fresh
    exact ⟨Table.forkret, inv.fresh q fresh, pt, TLocal.keeps_forkret phase pt⟩

theorem CInv.mark (inv : CInv S none t) (cpu : S.cpu c = ⟨.scheduler (.mapped q), some q, some q, none⟩)
    (lock : S.table.lock .ptable = some c) (runnable : (S.table.procs q).state = .runnable) :
    ∃ t', CInv ({ S with table := S.table.setProc q fun x => { x with state := .running, fresh := false } }.goto c
      (.scheduler (.marked q))) (some q) t' := by
  have off : ∀ c' code, (S.cpu c').control ≠ .process q code := by
    intro c' code on
    have is := (inv.cpu c').proc (Or.inl ⟨code, on⟩)
    obtain rfl := inv.unique c' c q is (by rw [cpu])
    rw [cpu] at on
    cases on
  obtain ⟨code, saved, pt, keeps⟩ := inv.stored runnable off
  have self := inv.table.self q
  have thread := inv.table.thread q
  have childless : (t q).childless = 0 := by
    by_contra pos
    rw [thread.scan (by omega)] at pt
    cases pt
  have idle : (t q).phase ≠ .up := fun up => by
    have fits := self.phase
    rw [up] at fits
    exact absurd (fits.1.symm.trans runnable) (by decide)
  obtain ⟨u, pending, table⟩ : ∃ u, Pending code u ∧ TInv False
      (((S.view none).setLock .ptable (some q)).setProc q fun x => { x with state := .running, fresh := false })
      (update t q u) := by
    rcases keeps_returns idle pt keeps with ⟨next, is, rest⟩ | ⟨next, is, start, rest⟩
    · exact ⟨_, ⟨rfl, rfl, Or.inl ⟨next, is, rest⟩⟩, tinv_run inv.table rfl runnable rfl rfl (fun _ => id) childless
        self.doomed self.closed self.null thread.other⟩
    · exact ⟨_, ⟨rfl, rfl, Or.inr ⟨next, is, rest⟩⟩, tinv_run inv.table rfl runnable rfl rfl nofun rfl nofun
        (fun fd lt => (by cases lt)) (fun _ => self.null (self.off start).2.2.2.1) nofun⟩
  have still : ({ S with table := S.table.setProc q fun x => { x with state := .running, fresh := false } }.goto c
      (.scheduler (.marked q))).cpu c = ⟨.scheduler (.marked q), some q, some q, none⟩ := by
    rw [Sys.goto, setCpu_same]
    change { S.cpu c with control := .scheduler (.marked q) } = _
    rw [cpu]
  refine ⟨update t q u,
    inv.turn (c := c) (fun c' ne => setCpu_ne _ ne) (table.congr rfl (by simp [Sys.view, Sys.goto, Sys.setCpu]))
    (fun _ _ => Iff.rfl) (fun c' ne held => absurd (Option.some.inj (held.symm.trans lock)) ne) (fun p is => ?_)
      (fun p ne => ?_)
    (fun _ _ _ => rfl) (fun free => absurd lock free) (fun r is => ?_) ?_ (fun c' r ne is => ?_) (fun p is _ => ?_)
    fun p is now => ?_⟩
  · rw [still]
    exact Or.inl ⟨lock, is⟩
  · rw [cpu] at ne
    exact update_of_ne (fun eq => ne (by rw [eq])) ..
  · change ((S.table.setProc q fun x => { x with state := .running, fresh := false }).procs r).fresh = true at is
    exact setProc_forall (fun r x => x.fresh = true → S.context r = some Table.forkret) (fun is => (by cases is))
      (fun r _ => inv.fresh r) r is
  · rw [still]
    exact .marked q code ⟨lock, rfl⟩ saved (by rwa [update_self])
  · rw [still] at is
    exact inv.apart lock (by simp [Option.some.inj is ▸ runnable]) ne
  · rw [cpu] at is
    cases is
    exact ⟨c, by rw [still]; exact Or.inr (Or.inl rfl)⟩
  · rw [cpu] at is
    cases is
    rw [update_self, pending.up] at now
    cases now

theorem CInv.pass {f : Cpu → Cpu} (inv : CInv S none t) (is : (S.cpu c).proc = some q) (away : ¬(S.cpu c).Carries q)
    (proc : (f (S.cpu c)).proc = some q ∨ (f (S.cpu c)).proc = none)
    (mine : CpuOk (S.setCpu c f) none t c (f (S.cpu c))) : CInv (S.setCpu c f) none t := by
  have idle := inv.away is away
  refine inv.setCpu mine (fun c' r ne here other => ?_) nofun (fun p here up => ?_) fun p here down => ?_
  · rcases proc with same | none
    · rw [← here, same] at other
      exact ne (inv.unique c' c q other is)
    · rw [none] at here
      cases here
  · cases is.symm.trans here
    exact absurd up idle.1
  · cases is.symm.trans here
    exact Or.inr (idle.2 down)

theorem cinv_schedule {pc : SPc} (inv : CInv S o t) (here : (S.cpu c).control = .scheduler pc)
    (step : S.schedule c pc = some S') : ∃ o t, CInv S' o t := by
  have ok := inv.cpu c
  generalize cpu : S.cpu c = x at ok here
  cases ok with
  | top =>
    cases here
    obtain ⟨r, s, act, rfl⟩ := does_eq step
    exact ⟨none, t, inv.takes (by rw [cpu]) act fun lock => by rw [cpu]; exact .scan 0 ⟨lock, rfl⟩⟩
  | interrupted chan =>
    cases here
    obtain ⟨r, s, act, rfl⟩ := does_eq step
    exact ⟨none, t, inv.takes (by rw [cpu]) act fun lock => by rw [cpu]; exact .waking chan 0 ⟨lock, rfl⟩⟩
  | scan q held =>
    cases here
    obtain ⟨lock, rfl⟩ := held
    simp only [Sys.schedule] at step
    split at step
    · split at step <;> cases step
      · rename_i runnable
        exact ⟨none, t, inv.goto (by rw [cpu]) (by rw [cpu]; exact .chosen q ⟨lock, rfl⟩ runnable)⟩
      · exact ⟨none, t, inv.goto (by rw [cpu]) (by rw [cpu]; exact .scan (q + 1) ⟨lock, rfl⟩)⟩
    · obtain ⟨r, s, act, rfl⟩ := does_eq step
      exact ⟨none, t, inv.drops ⟨_, cpu⟩ act⟩
  | waking chan q held =>
    cases here
    obtain ⟨lock, rfl⟩ := held
    simp only [Sys.schedule] at step
    split at step
    · obtain ⟨r, s, act, rfl⟩ := does_eq step
      cases act
      refine ⟨none, t, inv.does (by rw [cpu]) ?_ (fun c' ne => by rw [wake_lock]) (fun free => absurd lock free)
        (fun r => wake_fresh r)
          (by rw [cpu]; exact .waking chan (q + 1) ⟨by rw [← lock]; exact congrFun wake_lock _, rfl⟩)⟩
      unfold State.wake
      split
      · rename_i asleep
        exact (tinv_awaken inv.table asleep.1).congr rfl rfl
      · exact inv.table.congr rfl rfl
    · obtain ⟨r, s, act, rfl⟩ := does_eq step
      exact ⟨none, t, inv.drops ⟨_, cpu⟩ act⟩
  | chosen q held runnable =>
    cases here
    cases step
    obtain ⟨lock, rfl⟩ := held
    refine ⟨none, t, inv.setCpu ?_ (fun c' r ne is => ?_) nofun (fun p is => ?_) fun p is => ?_⟩
    · rw [cpu]
      exact .placed q ⟨lock, rfl⟩ runnable
    · obtain rfl := Option.some.inj is
      exact inv.apart lock (by simp [runnable]) ne
    · rw [cpu] at is
      cases is
    · rw [cpu] at is
      cases is
  | placed q held runnable =>
    cases here
    cases step
    obtain ⟨lock, rfl⟩ := held
    refine ⟨none, t, inv.pass (by rw [cpu]) (by simp [cpu, Cpu.Carries]) (Or.inl (by rw [cpu])) ?_⟩
    rw [cpu]
    exact .mapped q ⟨lock, rfl⟩ runnable
  | mapped q held runnable =>
    cases here
    cases step
    obtain ⟨lock, rfl⟩ := held
    obtain ⟨t', marked⟩ := inv.mark cpu lock runnable
    exact ⟨some q, t', marked⟩
  | marked q code held saved pending =>
    cases here
    cases step
    obtain ⟨lock, rfl⟩ := held
    refine ⟨some q, t, inv.setCpu ?_ (fun c' r ne is is' => ?_) (fun p _ is => ?_) (fun p is _ => ?_)
      fun p is down => ?_⟩
    · rw [cpu]
      exact .entering q code ⟨lock, rfl⟩ saved pending
    · exact ne (inv.unique c' c r is' is)
    · rw [cpu] at is ⊢
      exact is
    · rw [cpu] at is ⊢
      exact Or.inr (Or.inr ⟨rfl, is⟩)
    · rw [cpu] at is
      obtain rfl := Option.some.inj is
      rw [pending.up] at down
      cases down
  | back q held =>
    cases here
    cases step
    obtain ⟨lock, rfl⟩ := held
    refine ⟨none, t, inv.pass (by rw [cpu]) (by simp [cpu, Cpu.Carries]) (Or.inl (by rw [cpu])) ?_⟩
    rw [cpu]
    exact .unmapped q ⟨lock, rfl⟩
  | unmapped q held =>
    cases here
    cases step
    obtain ⟨lock, rfl⟩ := held
    refine ⟨none, t, inv.pass (by rw [cpu]) (by simp [cpu, Cpu.Carries]) (Or.inr rfl) ?_⟩
    rw [cpu]
    exact .scan (q + 1) ⟨lock, rfl⟩
  | entering _ | arriving _ | process _ | leaving _ => cases here

end Espl.Sched
