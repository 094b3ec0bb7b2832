import Espl.Sched.Switch

/-!
# Processes on their CPUs

The steps of the code of a process and the two halves of `swtch` keep the invariant of the CPUs, in every
interleaving.
-/

namespace Espl.Sched

open Function (update update_self update_of_ne update_eq_self)

variable {S S' : Sys} {o o' : Option Nat} {t t' : Nat → TLocal} {c p q : Nat} {u : TLocal} {s s' : Table}

/-- The code is about to return from the scheduler's `swtch`, to an old or a new process. -/
def returning : TCode Unit → Bool
  | .step (.core .resume) _ => true
  | .step .start _ => true
  | _ => false

abbrev onCpu (p : Nat) (code : TCode Unit) : Cpu := ⟨.process p code, some p, some p, some (.back p)⟩

theorem goto_same {k : Control} : (S.goto c k).cpu c = { S.cpu c with control := k } := setCpu_same _

theorem cact_plain {e : TStep} (plain : e.plain = true) : cact c p e s = tact p e s := by
  cases e with
  | core e =>
    cases e with
    | acquire _ | release _ | resume => cases plain
    | _ => rfl
  | start => cases plain
  | _ => rfl

theorem prepare_context (e : TStep) (q : Nat) :
    (e = .setContext q ∧ (S.prepare e).context q = some Table.forkret) ∨
      (e ≠ .setContext q ∧ (S.prepare e).context q = S.context q) := by
  cases e with
  | setContext r =>
    by_cases eq : q = r
    · subst eq
      exact Or.inl ⟨rfl, update_self ..⟩
    · exact Or.inr ⟨fun same => eq (by cases same; rfl), update_of_ne eq ..⟩
  | _ => exact Or.inr ⟨nofun, rfl⟩

theorem prepare_table (e : TStep) : (S.prepare e).table = S.table ∧ (S.prepare e).cpu = S.cpu := by
  cases e <;> exact ⟨rfl, rfl⟩

section

variable (inv : CInv S o t)

include inv

theorem CInv.inside {code : TCode Unit} (here : (S.cpu c).control = .process p code) :
    S.cpu c = onCpu p code ∧ (Pending code (t p) ∧ Holding S o c (some p) ∨
      (S.table.lock .ptable = some c → o = some p) ∧ ((t p).phase = .up ∨ (t p).pt = true) ∧
        (t p).Keeps code) := by
  have ok := inv.cpu c
  generalize S.cpu c = x at ok here
  cases ok with
  | arriving p code held pending =>
    cases here
    exact ⟨rfl, Or.inl ⟨pending, held⟩⟩
  | process p code owner on keeps =>
    cases here
    exact ⟨rfl, Or.inr ⟨owner, on, keeps⟩⟩
  | _ => cases here

theorem CInv.executing {code : TCode Unit} (here : (S.cpu c).control = .process p code)
    (inside : returning code = false) :
    S.cpu c = onCpu p code ∧ (S.table.lock .ptable = some c → o = some p) ∧ ((t p).phase = .up ∨ (t p).pt = true) ∧
      (t p).Keeps code := by
  obtain ⟨cpu, ⟨pending, -⟩ | runs⟩ := inv.inside here
  · rcases pending.returns with ⟨next, rfl, -⟩ | ⟨next, rfl, -⟩ <;> cases inside
  · exact ⟨cpu, runs⟩

theorem CInv.proceed {code code' : TCode Unit} (cpu : S.cpu c = onCpu p code)
    (here : S'.cpu c = onCpu p code') (others : ∀ c', c' ≠ c → S'.cpu c' = S.cpu c')
    (table : TInv False (S'.view o') (update t p u))
    (lock : ∀ c', c' ≠ c → (S'.table.lock .ptable = some c' ↔ S.table.lock .ptable = some c'))
    (owner : ∀ c', c' ≠ c → S.table.lock .ptable = some c' → o' = o)
    (holder : ∀ r, o' = some r → (S'.table.lock .ptable = some c ∧ r = p) ∨
      (o = some r ∧ S.table.lock .ptable ≠ some c))
    (context : ∀ q, (t q).phase ≠ .off → S'.context q = S.context q)
    (runnable : S.table.lock .ptable ≠ some c → ∀ q, (S.table.procs q).state = .runnable →
      (S'.table.procs q).state = .runnable)
    (fresh : ∀ q, (S'.table.procs q).fresh = true → S'.context q = some Table.forkret)
    (own : S'.table.lock .ptable = some c → o' = some p) (on : u.phase = .up ∨ u.pt = true)
    (keeps : u.Keeps code') : CInv S' o' (update t p u) := by
  have mine : (S.cpu c).proc = some p := by rw [cpu]
  refine inv.turn (c := c) others table lock owner (fun r is => ?_) (fun r ne => ?_) (fun q _ => context q)
    runnable fresh ?_
    (fun c' q ne is is' => ?_) (fun r is _ => ?_) fun r is _ => ?_
  · refine (holder r is).imp_left fun ⟨held, same⟩ => ⟨held, ?_⟩
    rw [here, same]
  · exact update_of_ne (fun eq => ne (by rw [eq, mine])) ..
  · rw [here]
    exact .process p code' own (by rwa [update_self]) (by rwa [update_self])
  · rw [here] at is
    cases is
    exact ne (inv.unique c' c p is' mine)
  · cases mine.symm.trans is
    exact ⟨c, Or.inl ⟨code', by rw [here]⟩⟩
  · cases mine.symm.trans is
    exact Or.inl ⟨c, code', by rw [here]⟩

theorem CInv.continue {code code' : TCode Unit} (cpu : S.cpu c = onCpu p code)
    (here : S'.cpu c = onCpu p code') (others : ∀ c', c' ≠ c → S'.cpu c' = S.cpu c')
    (table : TInv False (S'.view o) (update t p u))
    (lock : S'.table.lock .ptable = S.table.lock .ptable)
    (context : ∀ q, (t q).phase ≠ .off → S'.context q = S.context q)
    (runnable : S.table.lock .ptable ≠ some c → ∀ q, (S.table.procs q).state = .runnable →
      (S'.table.procs q).state = .runnable)
    (fresh : ∀ q, (S'.table.procs q).fresh = true → S'.context q = some Table.forkret)
    (own : S.table.lock .ptable = some c → o = some p) (on : u.phase = .up ∨ u.pt = true)
    (keeps : u.Keeps code') : CInv S' o (update t p u) := by
  refine inv.proceed cpu here others table (fun _ _ => by rw [lock]) (fun _ _ _ => rfl) (fun r is => ?_)
    context runnable
    fresh (by rwa [lock]) on keeps
  by_cases held : S.table.lock .ptable = some c
  · exact Or.inl ⟨lock.trans held, Option.some.inj (is.symm.trans (own held))⟩
  · exact Or.inr ⟨is, held⟩

theorem CInv.replace {code code' : TCode Unit} (cpu : S.cpu c = onCpu p code)
    (own : S.table.lock .ptable = some c → o = some p) (on : (t p).phase = .up ∨ (t p).pt = true)
    (keeps : (t p).Keeps code') : CInv (S.goto c (.process p code')) o t := by
  have moved : CInv (S.goto c (.process p code')) o _ := inv.continue (u := t p) cpu (by rw [goto_same, cpu])
    (fun c' ne => setCpu_ne _ ne) (by rw [update_eq_self]; exact inv.table) rfl (fun _ _ => rfl) (fun _ _ => id)
    inv.fresh own on keeps
  rwa [update_eq_self] at moved

theorem CInv.free {code : TCode Unit} (cpu : S.cpu c = onCpu p code)
    (free : S.table.lock .ptable ≠ some c) (on : (t p).phase = .up ∨ (t p).pt = true) : (t p).Free := by
  have mine : (S.cpu c).proc = some p := by rw [cpu]
  have pt : (t p).pt = false := by
    cases pt : (t p).pt with
    | false => rfl
    | true => exact absurd (inv.holds mine pt).lock free
  have up : (t p).phase = .up := on.resolve_right (by simp [pt])
  refine ⟨up, pt, ?_, (inv.table.self p).lone up pt⟩
  by_contra pos
  rw [(inv.table.thread p).scan (by omega)] at pt
  cases pt

theorem cinv_call (here : (S.cpu c).control = .process p (.done ())) (body : Program tops Unit) :
    CInv (S.goto c (.process p (body.interp TOp.code))) o t := by
  obtain ⟨cpu, own, on, ready⟩ := inv.executing here rfl
  exact inv.replace cpu own on (Rules.keeps_interp_inv body ready fun o _ => TLocal.keeps_op o)

theorem cinv_work {code : TCode Unit} (here : (S.cpu c).control = .process p code)
    (free : S.table.lock .ptable ≠ some c) (body : Program wops Unit) :
    CInv (S.goto c (.process p ((body.interp WOp.code).bind fun _ => code))) o t := by
  obtain ⟨cpu, ⟨pending, held⟩ | ⟨own, on, keeps⟩⟩ := inv.inside here
  · exact absurd held.lock free
  · have idle := inv.free cpu free on
    refine inv.replace cpu own on
      (Rules.keeps_seq (Rules.keeps_interp_inv (I := fun u => u = t p) body rfl fun o u same => ?_) ?_)
    · rw [same]
      exact TLocal.keeps_work o idle
    · rintro _ _ rfl
      exact keeps

theorem cinv_return {e : TStep} {next : TStep.Answer e → TCode Unit} {r : TStep.Answer e}
    (here : (S.cpu c).control = .process p (.step e next)) (returns : e = .core .resume ∨ e = .start) :
    CInv (S.goto c (.process p (next r))) o t := by
  obtain ⟨cpu, ⟨pending, held⟩ | ⟨own, on, may, keeps⟩⟩ := inv.inside here
  · refine inv.replace cpu (fun _ => held.owner) (Or.inl pending.up) ?_
    rcases pending.returns with ⟨next', is, keeps⟩ | ⟨next', is, keeps⟩ <;> cases is <;> exact keeps
  · rcases returns with rfl | rfl
    · rcases on with up | pt
      · exact absurd up may.1
      · exact absurd (pt.symm.trans may.2) (by decide)
    · rcases on with up | pt
      · exact absurd (up.symm.trans may.1) (by decide)
      · exact absurd (pt.symm.trans may.2) (by decide)

theorem CInv.quiet {code code' : TCode Unit} (cpu : S.cpu c = onCpu p code)
    (procs : s.procs = S.table.procs) (lock : s.lock .ptable = S.table.lock .ptable)
    (own : S.table.lock .ptable = some c → o = some p) (on : (t p).phase = .up ∨ (t p).pt = true)
    (keeps : (t p).Keeps code') :
    CInv ({ S with table := s }.goto c (.process p code')) o t := by
  have moved : CInv ({ S with table := s }.goto c (.process p code')) o _ := inv.continue (u := t p) cpu
    (by rw [goto_same]; simp [cpu]) (fun c' ne => setCpu_ne _ ne)
    (by rw [update_eq_self]; exact inv.table.congr procs rfl) lock (fun _ _ => rfl)
    (fun _ q is => by change (s.procs q).state = _; rwa [procs])
    (fun q is => inv.fresh q (by change (s.procs q).fresh = true at is; rwa [procs] at is)) own on keeps
  rwa [update_eq_self] at moved

theorem CInv.relock {code code' : TCode Unit} (cpu : S.cpu c = onCpu p code)
    (procs : s.procs = S.table.procs) (table : TInv False ((S.view o).setLock .ptable o') (update t p u))
    (lock : ∀ c', c' ≠ c → (s.lock .ptable = some c' ↔ S.table.lock .ptable = some c'))
    (owner : ∀ c', c' ≠ c → S.table.lock .ptable = some c' → o' = o)
    (holder : ∀ r, o' = some r → s.lock .ptable = some c ∧ r = p) (own : s.lock .ptable = some c → o' = some p)
    (on : u.phase = .up ∨ u.pt = true) (keeps : u.Keeps code') :
    CInv ({ S with table := s }.goto c (.process p code')) o' (update t p u) := by
  refine inv.proceed cpu (by rw [goto_same]; simp [cpu]) (fun c' ne => setCpu_ne _ ne)
    (table.congr procs (by simp [Sys.view])) lock owner (fun r is => Or.inl (holder r is)) (fun _ _ => rfl)
      (fun _ q is => ?_)
    (fun q is => inv.fresh q ?_) own on keeps
  · change (s.procs q).state = _
    rwa [procs]
  · change (s.procs q).fresh = true at is
    rwa [procs] at is

theorem cinv_acquire {l : Lock} {next : Unit → TCode Unit} {r : Unit}
    (here : (S.cpu c).control = .process p (.step (.core (.acquire l)) next))
    (act : tact c (.core (.acquire l)) S.table = .returned r s) :
    ∃ o t, CInv ({ S with table := s }.goto c (.process p (next r))) o t := by
  obtain ⟨cpu, own, on, may, keeps⟩ := inv.executing here rfl
  have up : (t p).phase = .up := may
  cases l with
  | ptable =>
    obtain ⟨free, rfl, procs, lock⟩ := inv.top act
    refine ⟨some p, _, inv.relock cpu procs (tinv_acquire inv.table up rfl) (fun c' ne => ?_) (fun c' ne held => ?_)
      (fun q is => ⟨lock, (Option.some.inj is).symm⟩) (fun _ => rfl) (Or.inl up) (keeps r _ rfl)⟩
    · rw [free, lock]
      exact iff_of_false (fun same => ne (Option.some.inj same).symm) nofun
    · rw [free] at held
      cases held
  | other n =>
    obtain ⟨-, rfl⟩ := act_acquire (tact_core act).1
    exact ⟨o, t, inv.quiet cpu rfl (setLock_ne S.table (some c) (m := .ptable) (l := .other n) (by simp)) own on
      (keeps r _ rfl)⟩

theorem cinv_release {l : Lock} {next : Unit → TCode Unit} {r : Unit}
    (here : (S.cpu c).control = .process p (.step (.core (.release l)) next))
    (act : tact c (.core (.release l)) S.table = .returned r s) :
    ∃ o t, CInv ({ S with table := s }.goto c (.process p (next r))) o t := by
  obtain ⟨cpu, own, on, may, keeps⟩ := inv.executing here rfl
  cases l with
  | ptable =>
    obtain ⟨held, procs, free⟩ := tact_release act
    obtain rfl := own held
    refine ⟨none, _, inv.relock cpu procs (tinv_release inv.table rfl fun _ => may.2 rfl) (fun c' ne => ?_)
      (fun c' ne held' => ?_) (fun q is => (by cases is)) (fun now => ?_) (Or.inl may.1) (keeps r _ rfl)⟩
    · rw [free, held]
      exact iff_of_false nofun fun same => ne (Option.some.inj same).symm
    · exact absurd (Option.some.inj (held'.symm.trans held)) ne
    · rw [now] at free
      cases free
  | other n =>
    obtain ⟨-, rfl⟩ := act_release (tact_core act).1
    exact ⟨o, t, inv.quiet cpu rfl (setLock_ne S.table none (m := .ptable) (l := .other n) (by simp)) own on
      (keeps r _ rfl)⟩

theorem cinv_plain {e : TStep} {next : TStep.Answer e → TCode Unit} {r : TStep.Answer e}
    (here : (S.cpu c).control = .process p (.step e next)) (plain : e.plain = true)
    (act : tact p e S.table = .returned r s) :
    ∃ o t, CInv (({ S with table := s }.prepare e).goto c (.process p (next r))) o t := by
  obtain ⟨cpu, ⟨pending, held⟩ | ⟨own, on, may, keeps⟩⟩ := inv.inside here
  · rcases pending.returns with ⟨next, is, -⟩ | ⟨next, is, -⟩ <;> cases is <;> cases plain
  · obtain ⟨seen, lock⟩ := plain_lock plain (fun _ => o) act
    obtain ⟨u, moves, table⟩ := tinv_step inv.table may (fun _ _ => False.elim) seen
    have calm := plain_calm plain may (s := S.table) (fun e owns => ((inv.table.thread p).own e owns).2.1) act
    have prep := prepare_table (S := { S with table := s }) e
    refine ⟨o, _, inv.continue cpu (by rw [goto_same, prep.2]; simp [cpu]) (fun c' ne => ?_) (table.congr ?_ rfl) ?_
      (fun q on => ?_) (fun free q is => ?_) (fun q is => ?_) own (plain_on plain may moves) (keeps r u moves)⟩
    · rw [Sys.goto, setCpu_ne _ ne, prep.2]
    · change ((Sys.prepare { S with table := s } e).table).procs = s.procs
      rw [prep.1]
    · change ((Sys.prepare { S with table := s } e).table).lock .ptable = _
      rw [prep.1]
      exact congrFun lock .ptable
    · rcases prepare_context (S := { S with table := s }) e q with ⟨rfl, -⟩ | ⟨-, same⟩
      · -- the slot is being filled, so no process is there
        obtain ⟨-, e, owns, rfl, -⟩ := may
        exact absurd (inv.table.owned owns).2.2.1 on
      · exact same
    · change (((Sys.prepare { S with table := s } e).table).procs q).state = _
      rw [prep.1]
      refine calm.runnable ?_ q is
      cases pt : (t p).pt with
      | false => rfl
      | true => exact absurd (inv.holds (by rw [cpu]) pt).lock free
    · change (((Sys.prepare { S with table := s } e).table).procs q).fresh = true at is
      rw [prep.1] at is
      rcases prepare_context (S := { S with table := s }) e q with ⟨-, set⟩ | ⟨other, same⟩
      · exact set
      · exact same.trans (inv.fresh q ((calm.fresh q is).resolve_right other))

theorem cinv_save {next : Unit → TCode Unit}
    (here : (S.cpu c).control = .process p (.step (.core .sched) next))
    (held : S.table.lock .ptable = some c) :
    ∃ o t, CInv ({ S with context := update S.context p (some (next ())) }.goto c (.leaving p)) o t := by
  obtain ⟨cpu, own, on, may, keeps⟩ := inv.executing here rfl
  obtain rfl := own held
  have mine : (S.cpu c).proc = some p := by rw [cpu]
  have table : TInv False ((S.view (some p)).setLock .ptable none) _ :=
    tinv_release inv.table rfl fun up => absurd up may.1
  have away : ({ S with context := update S.context p (some (next ())) }.goto c (.leaving p)).cpu c =
      ⟨.leaving p, some p, some p, some (.back p)⟩ := by
    rw [goto_same]
    simp [cpu]
  refine ⟨none, _, inv.turn (c := c) (fun c' ne => setCpu_ne _ ne) (table.congr rfl (by simp [Sys.view]))
    (fun _ _ => Iff.rfl) (fun c' ne held' => ?_) (fun _ is => (by cases is)) (fun q ne => ?_) (fun q ne _ => ?_)
    (fun free => absurd held free) (fun q is => ?_) (by rw [away]; exact .leaving p ⟨held, rfl⟩)
      (fun c' q ne is is' => ?_)
    (fun q is up => ?_) fun q is down => ?_⟩
  · exact absurd (Option.some.inj (held'.symm.trans held)) ne
  · exact update_of_ne (fun eq => ne (by rw [eq, mine])) ..
  · exact update_of_ne (fun eq => ne (by rw [eq, mine])) ..
  · -- a process that runs is not a new one
    have old : q ≠ p := by
      rintro rfl
      have pt := (inv.table.self q).fresh is
      rw [may.2] at pt
      cases pt
    exact (update_of_ne old ..).trans (inv.fresh q is)
  · rw [away] at is
    cases is
    exact ne (inv.unique c' c p is' mine)
  · cases mine.symm.trans is
    rw [update_self] at up
    exact absurd up may.1
  · cases mine.symm.trans is
    refine Or.inr ⟨next (), update_self .., ?_, ?_⟩
    · rw [update_self]
      rfl
    · rw [update_self]
      exact keeps () _ rfl

theorem cinv_leave {pc : SPc} (here : (S.cpu c).control = .leaving p)
    (saved : (S.cpu c).scheduler = some pc) :
    CInv (S.setCpu c fun x => { x with control := .scheduler pc, scheduler := none }) o t := by
  have ok := inv.cpu c
  generalize cpu : S.cpu c = x at ok here saved
  cases ok with
  | leaving q held =>
    cases here
    cases saved
    obtain ⟨lock, rfl⟩ := held
    refine inv.pass (by rw [cpu]) (by simp [cpu, Cpu.Carries]) (Or.inl (by rw [cpu])) ?_
    rw [cpu]
    exact .back p ⟨lock, rfl⟩
  | _ => cases here

theorem cinv_enter {code : TCode Unit} (here : (S.cpu c).control = .entering)
    (proc : (S.cpu c).proc = some q) (saved : S.context q = some code) :
    CInv ({ S with context := update S.context q none }.goto c (.process q code)) o t := by
  have ok := inv.cpu c
  generalize cpu : S.cpu c = x at ok here proc
  cases ok with
  | entering q' code' held saved' pending =>
    cases proc
    obtain rfl : code' = code := Option.some.inj (saved'.symm.trans saved)
    obtain ⟨lock, rfl⟩ := held
    have mine : (S.cpu c).proc = some q := by rw [cpu]
    have inside : ({ S with context := update S.context q none }.goto c (.process q code')).cpu c =
        onCpu q code' := by
      rw [goto_same]
      simp [cpu]
    refine inv.turn (c := c) (fun c' ne => setCpu_ne _ ne) inv.table (fun _ _ => Iff.rfl) (fun _ _ _ => rfl)
      (fun r is => Or.inl ⟨lock, by rw [inside]; exact is⟩) (fun _ _ => rfl) (fun r ne _ => ?_)
        (fun free => absurd lock free)
      (fun r is => ?_) (by rw [inside]; exact .arriving q code' ⟨lock, rfl⟩ pending) (fun c' r ne is is' => ?_)
      (fun r is _ => ?_) fun r is down => ?_
    · exact update_of_ne (fun eq => ne (by rw [eq, mine])) ..
    · have old : r ≠ q := by
        rintro rfl
        have pt := (inv.table.self r).fresh is
        rw [pending.pt] at pt
        cases pt
      exact (update_of_ne old ..).trans (inv.fresh r is)
    · rw [inside] at is
      cases is
      exact ne (inv.unique c' c q is' mine)
    · cases mine.symm.trans is
      exact ⟨c, Or.inl ⟨code', by rw [inside]⟩⟩
    · cases mine.symm.trans is
      rw [pending.up] at down
      cases down
  | _ => cases here

theorem cinv_turn (turn : Sys.Turn S S') : ∃ o t, CInv S' o t := by
  cases turn with
  | @op c p q e next r s here other proc act =>
    obtain rfl : q = p := by
      have cpu := (inv.inside here).1
      rw [cpu] at proc
      exact (Option.some.inj proc).symm
    cases plain : e.plain with
    | true =>
      rw [cact_plain plain] at act
      exact cinv_plain inv here plain act
    | false =>
      obtain ⟨l, rfl⟩ | ⟨l, rfl⟩ | rfl | rfl | rfl := not_plain plain
      · exact cinv_acquire inv here act
      · exact cinv_release inv here act
      · exact absurd rfl other
      · cases act
        exact ⟨o, t, cinv_return inv here (Or.inl rfl)⟩
      · cases act
        exact ⟨o, t, cinv_return inv here (Or.inr rfl)⟩
  | @save c p q next here proc holding ncli state =>
    obtain rfl : q = p := by
      have cpu := (inv.inside here).1
      rw [cpu] at proc
      exact (Option.some.inj proc).symm
    exact cinv_save inv here holding
  | leave here saved => exact ⟨o, t, cinv_leave inv here saved⟩
  | schedule here step => exact cinv_schedule inv here step
  | enter here proc saved => exact ⟨o, t, cinv_enter inv here proc saved⟩
  | call here body => exact ⟨o, t, cinv_call inv here body⟩
  | work here free body => exact ⟨o, t, cinv_work inv here free body⟩
  | @interrupt c here chan =>
    have ok := inv.cpu c
    generalize cpu : S.cpu c = x at ok here
    cases ok with
    | top => exact ⟨o, t, inv.goto (by rw [cpu]) (by rw [cpu]; exact .interrupted chan)⟩
    | _ => cases here

end

theorem cinv_boot : CInv Sys.boot none fun _ => {} where
  table := tinv_boot.congr rfl rfl
  owner _ is := by cases is
  cpu _ := .top
  unique _ _ _ is := by cases is
  up _ is := by cases is
  down _ is := by cases is
  fresh q is := by
    by_cases eq : q = initproc
    · subst eq
      rfl
    · simp [Sys.boot, tboot, eq] at is

theorem reachable_cinv (run : Sys.Reachable Sys.boot S) : ∃ o t, CInv S o t := by
  induction run with
  | refl => exact ⟨none, _, cinv_boot⟩
  | tail _ turn ih =>
    obtain ⟨o, t, inv⟩ := ih
    exact cinv_turn inv turn

end Espl.Sched
