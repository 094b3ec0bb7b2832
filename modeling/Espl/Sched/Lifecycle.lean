import Espl.Sched.SlotSteps

/-!
# The life of a process

`fork`, `exit`, `wait`, `kill`, `sleep`, `wakeup`, `yield` and the start of a new process keep the rules
of `Slots`, so the invariant of the slots holds in every interleaving.
-/

namespace Espl.Sched

open Rules (keeps_step keeps_seq keeps_mono keeps_last)

variable {aimed : Prop}

namespace TLocal

structure Free (t : TLocal) : Prop where
  up : t.phase = .up
  pt : t.pt = false
  childless : t.childless = 0
  null : t.null = true

structure Ready (t : TLocal) : Prop extends Free t where
  own : t.own = none

structure Locked (t : TLocal) : Prop where
  up : t.phase = .up
  pt : t.pt = true
  own : t.own = none
  childless : t.childless = 0
  null : t.null = true

def core : Rules (signature Books) TLocal := ⟨coreAllowed, coreMoves⟩

variable {t : TLocal}

theorem keeps_lift {α : Type} {code : Code Books α} {Q : α → TLocal → Prop} (h : core.Keeps code t Q) :
    rules.Keeps (Table.lift code) t Q := by
  refine keeps_mono (Rules.keeps_interp (L := fun t u : TLocal => u = t) h rfl ?_) ?_
  · rintro e t _ may rfl
    exact ⟨may, fun r t' moves => ⟨t', rfl, moves⟩⟩
  · rintro a _ ⟨t', rfl, post⟩
    exact post

theorem Ready.lock (h : t.Ready) : Locked { t with pt := true } := ⟨h.up, rfl, h.own, h.childless, h.null⟩

theorem Locked.unlock (h : t.Locked) : t.unlock.Ready := ⟨⟨h.up, rfl, rfl, h.null⟩, h.own⟩

theorem Free.unlock (h : t.Free) : TLocal.unlock { t with pt := true } = t := by
  obtain ⟨up, pt, childless, null⟩ := h
  rw [TLocal.unlock, ← pt, ← childless]

theorem core_acquire (up : t.phase = .up) : core.Keeps (acquire .ptable) t fun _ u => u = { t with pt := true } :=
  ⟨up, fun _ _ moved => moved⟩

theorem core_release {Q : Unit → TLocal → Prop} (up : t.phase = .up) (null : t.null = true) (post : Q () t.unlock) :
    core.Keeps (release .ptable) t Q :=
  ⟨⟨up, fun _ => null⟩, fun _ _ moved => moved ▸ post⟩

theorem core_wakeup1 (chan : Chan) (up : t.phase = .up) (pt : t.pt = true) :
    core.Keeps (wakeup1 chan) t fun _ u => u = t := by
  have loop : ∀ n q, core.Keeps (wakeup1.loop chan q n) t fun _ u => u = t := by
    intro n
    induction n with
    | zero => exact fun _ => rfl
    | succ n ih => exact fun q => ⟨⟨up, pt⟩, fun _ _ moved => moved ▸ ih (q + 1)⟩
  exact loop NPROC 0

theorem core_wakeup (chan : Chan) (h : t.Free) : core.Keeps (wakeup chan) t fun _ u => u = t := by
  refine keeps_seq (core_acquire h.up) ?_
  rintro _ _ rfl
  refine keeps_seq (core_wakeup1 chan h.up rfl) ?_
  rintro _ _ rfl
  exact core_release h.up h.null h.unlock

theorem core_kill (pid : Int) (h : t.Ready) : core.Keeps (kill pid) t fun _ => Ready := by
  have last : ∀ r : Int, core.Keeps (release .ptable >>= fun _ => pure r) { t with pt := true } fun _ => Ready :=
    fun r => keeps_seq (core_release h.up h.null h.lock.unlock) fun _ _ ready => ready
  have loop : ∀ n q, core.Keeps (kill.loop pid q n) { t with pt := true } fun _ => Ready := by
    intro n
    induction n with
    | zero => exact fun _ => last (-1)
    | succ n ih =>
      intro q
      refine keeps_step h.up ?_
      rintro found _ rfl
      split
      · refine keeps_step ⟨h.up, rfl⟩ ?_
        rintro _ _ rfl
        refine keeps_step ⟨h.up, rfl⟩ ?_
        rintro _ _ rfl
        exact last 0
      · exact ih (q + 1)
  refine keeps_seq (core_acquire h.up) ?_
  rintro _ _ rfl
  exact loop NPROC 0

theorem core_sched {α : Type} {f : Unit → Code Books α} {Q : α → TLocal → Prop} (down : t.phase ≠ .up)
    (pt : t.pt = true) (rest : core.Keeps (f ()) { t.unlock with phase := .up, pt := true } Q) :
    core.Keeps (sched >>= f) t Q := by
  refine keeps_step ⟨down, pt⟩ ?_
  rintro _ _ rfl
  refine keeps_step ⟨down, rfl⟩ ?_
  rintro _ _ rfl
  exact rest

theorem core_yield (h : t.Free) : core.Keeps yield t fun _ u => u = t := by
  refine keeps_seq (core_acquire h.up) ?_
  rintro _ _ rfl
  refine keeps_step ⟨h.up, rfl, Or.inr rfl⟩ ?_
  rintro _ _ rfl
  refine core_sched (by simp) rfl (core_release rfl h.null ?_)
  obtain ⟨up, pt, childless, null⟩ := h
  rw [unlock, unlock, ← up, ← pt, ← childless]

def woken (t : TLocal) : TLocal := { t with phase := .up, pt := true, childless := 0, null := true }

theorem Free.woken (h : t.Free) : TLocal.unlock (TLocal.woken { t with pt := true }) = t := by
  obtain ⟨up, pt, childless, null⟩ := h
  cases t
  simp_all [TLocal.unlock, TLocal.woken]

theorem core_fall {α : Type} {f : Unit → Code Books α} {Q : α → TLocal → Prop} {chan : Chan} (up : t.phase = .up)
    (pt : t.pt = true) (rest : core.Keeps (f ()) t.woken Q) :
    core.Keeps (step (.setChan chan) >>= fun _ => step (.setState .sleeping) >>= fun _ => sched >>= fun _ =>
      step (.setChan .null) >>= f) t Q := by
  refine keeps_step ⟨up, pt⟩ ?_
  rintro _ _ rfl
  refine keeps_step ⟨up, pt, Or.inl rfl⟩ ?_
  rintro _ _ rfl
  refine core_sched (by simp) pt (keeps_step ⟨rfl, rfl⟩ ?_)
  rintro _ _ rfl
  exact rest

theorem core_sleep (chan : Chan) (n : Nat) (h : t.Free) : core.Keeps (sleep chan (.other n)) t fun _ u => u = t := by
  unfold sleep
  simp only [ne_eq, reduceCtorEq, not_false_eq_true, if_true]
  refine keeps_seq (core_acquire h.up) ?_
  rintro _ _ rfl
  refine keeps_step ⟨h.up, fun other => (by cases other)⟩ fun _ u moved => ?_
  obtain rfl : u = { t with pt := true } := moved
  refine core_fall h.up rfl ?_
  refine keeps_step ⟨rfl, fun _ => rfl⟩ fun _ u moved => ?_
  obtain rfl : u = t := moved.trans h.woken
  exact keeps_last h.up fun _ _ moved => moved

theorem core_sleep_ptable (chan : Chan) (up : t.phase = .up) (pt : t.pt = true) (own : t.own = none) :
    core.Keeps (sleep chan .ptable) t fun _ => Locked := by
  unfold sleep
  simp only [ne_eq, not_true_eq_false, if_false]
  exact core_fall up pt ⟨rfl, rfl, own, rfl, rfl⟩

theorem keeps_work (o : WOp) (h : t.Free) : rules.Keeps o.code t fun _ u => u = t := by
  cases o with
  | acquire n => exact keeps_lift ⟨h.up, fun _ _ moved => moved⟩
  | release n => exact keeps_lift ⟨⟨h.up, fun other => (by cases other)⟩, fun _ _ moved => moved⟩
  | sleep chan n => exact keeps_lift (core_sleep chan n h)
  | wakeup chan => exact keeps_lift (core_wakeup chan h)
  | yield => exact keeps_lift (core_yield h)

theorem keeps_find (n : Nat) {q : Nat} (end_ : q + n = NPROC) (h : t.Locked) :
    rules.Keeps (Table.allocproc.find q n) t fun found u =>
      u = match found with
        | none => t.unlock
        | some q => { t.unlock with own := some ⟨q, false, false⟩ } := by
  induction n generalizing q with
  | zero => exact keeps_seq (keeps_lift (core_release h.up h.null rfl)) fun _ _ same => same
  | succ n ih =>
    refine keeps_step ⟨h.up, h.pt, h.own, by omega⟩ ?_
    rintro found _ rfl
    cases found with
    | true =>
      refine keeps_seq (keeps_lift (core_release
        (Q := fun _ u => u = { t.unlock with own := some ⟨q, false, false⟩ }) h.up h.null rfl)) ?_
      exact fun _ _ same => same
    | false => exact ih (by omega)

theorem keeps_allocproc (stack : Bool) (h : t.Ready) :
    rules.Keeps (Table.allocproc stack) t fun found u =>
      match found with
      | none => u.Ready
      | some q => ∃ v : TLocal, v.Ready ∧ u = { v with own := some ⟨q, true, false⟩ } := by
  refine keeps_seq (keeps_lift (core_acquire h.up)) ?_
  rintro _ _ rfl
  refine keeps_seq (keeps_find NPROC (Nat.zero_add _) h.lock) ?_
  rintro found _ rfl
  cases found with
  | none => exact h.lock.unlock
  | some q =>
    cases stack with
    | true =>
      refine keeps_step ⟨h.up, _, rfl, rfl, rfl⟩ ?_
      rintro _ _ rfl
      exact ⟨_, h.lock.unlock, rfl⟩
    | false =>
      refine keeps_step ⟨h.up, _, rfl, rfl, rfl⟩ ?_
      rintro _ _ rfl
      exact ⟨⟨h.up, rfl, rfl, h.null⟩, rfl⟩

theorem keeps_fork (stack copy : Bool) (h : t.Ready) : rules.Keeps (Table.fork stack copy) t fun _ => Ready := by
  have files : ∀ (v : TLocal) q n fd, v.phase = .up → v.own = some ⟨q, true, true⟩ →
      rules.Keeps (Table.fork.files q fd n) v fun _ u => u = v := by
    intro v q n
    induction n with
    | zero => exact fun _ _ _ => rfl
    | succ n ih =>
      intro fd up owns
      refine keeps_step ⟨up, owns⟩ ?_
      rintro _ _ rfl
      exact ih (fd + 1) up owns
  refine keeps_seq (keeps_allocproc stack h) fun found u filled => ?_
  cases found with
  | none => exact filled
  | some np =>
    obtain ⟨v, ready, rfl⟩ := filled
    cases copy with
    | true =>
      refine keeps_step ⟨ready.up, rfl, ready.childless⟩ ?_
      rintro _ _ rfl
      refine keeps_seq (files _ np NOFILE 0 ready.up rfl) ?_
      rintro _ _ rfl
      refine keeps_step ready.up ?_
      rintro pid _ rfl
      refine keeps_step ⟨ready.up, rfl⟩ ?_
      rintro _ _ rfl
      exact ⟨⟨ready.up, ready.pt, ready.childless, ready.null⟩, rfl⟩
    | false =>
      refine keeps_step ⟨ready.up, _, rfl, rfl, rfl⟩ ?_
      rintro _ _ rfl
      exact ⟨⟨ready.up, ready.pt, ready.childless, ready.null⟩, rfl⟩

theorem keeps_exit {Q : Empty → TLocal → Prop} (h : t.Ready) : rules.Keeps Table.exit t Q := by
  have files : ∀ n fd (v : TLocal), fd + n = NOFILE → v.phase = .up → fd ≤ v.closed →
      rules.Keeps (Table.exit.files fd n) v fun _ u => ∃ k, NOFILE ≤ k ∧ u = { v with closed := k } := by
    intro n
    induction n with
    | zero => exact fun fd v end_ _ le => ⟨v.closed, by omega, rfl⟩
    | succ n ih =>
      intro fd v end_ up le
      refine keeps_step up ?_
      rintro _ _ rfl
      refine keeps_mono (ih (fd + 1) _ (by omega) up ?_) ?_
      · simp only
        split <;> omega
      · rintro _ _ ⟨k, enough, rfl⟩
        exact ⟨k, enough, rfl⟩
  have children : ∀ n q (v : TLocal), q + n = NPROC → v.phase = .up → v.pt = true → v.own = none → v.other = true →
      v.childless = q → rules.Keeps (Table.exit.children q n) v fun _ u => u = { v with childless := NPROC } := by
    intro n
    induction n with
    | zero =>
      rintro q v end_ _ _ _ _ rfl
      exact (show v = { v with childless := NPROC } by rw [← end_]; rfl)
    | succ n ih =>
      rintro q v end_ up pt own other rfl
      refine keeps_step ⟨up, pt, own⟩ ?_
      rintro zombie u moved
      obtain rfl : u = { v with childless := v.childless + 1 } := by
        simpa [rules, moves, other] using moved
      have rest := ih (v.childless + 1) { v with childless := v.childless + 1 } (by omega) up pt own other rfl
      cases zombie with
      | true =>
        refine keeps_seq (keeps_lift (core_wakeup1 _ up pt)) ?_
        rintro _ _ rfl
        exact rest
      | false => exact rest
  refine keeps_step h.up ?_
  rintro _ _ rfl
  refine keeps_seq (files NOFILE 0 _ (Nat.zero_add _) h.up (Nat.zero_le _)) ?_
  rintro _ _ ⟨k, enough, rfl⟩
  refine keeps_seq (keeps_lift (core_acquire h.up)) ?_
  rintro _ _ rfl
  refine keeps_step h.up ?_
  rintro parent _ rfl
  refine keeps_seq (keeps_lift (core_wakeup1 _ h.up rfl)) ?_
  rintro _ _ rfl
  refine keeps_seq (children NPROC 0 _ (Nat.zero_add _) h.up rfl h.own rfl h.childless) ?_
  rintro _ _ rfl
  refine keeps_step ⟨h.up, rfl, h.own, rfl, rfl, enough, h.null⟩ ?_
  rintro _ _ rfl
  refine keeps_seq (keeps_lift (core_sched (f := pure) (Q := fun _ u => u.phase = .up) (by simp) rfl rfl))
    fun _ u up => ?_
  exact ⟨up, nofun⟩

theorem keeps_scan (n : Nat) {q : Nat} {kids : Bool} (end_ : q + n = NPROC) (up : t.phase = .up) (pt : t.pt = true)
    (own : t.own = none) (null : t.null = true) (none : kids = false → t.childless = q) :
    rules.Keeps (Table.wait.scan kids q n) t fun found u =>
      (∃ k, u = { t with childless := k }) ∧ ∀ kids, found = .error kids → kids = false → u.childless = NPROC := by
  induction n generalizing q t kids with
  | zero =>
    refine ⟨⟨t.childless, rfl⟩, fun kids' same no => ?_⟩
    cases same
    rw [none no]
    omega
  | succ n ih =>
    refine keeps_step ⟨up, pt, by omega⟩ fun found u moved => ?_
    cases found with
    | other =>
      obtain rfl : u = { t with childless := if q = t.childless then q + 1 else t.childless } := moved
      refine keeps_mono (ih (by omega) up pt own null fun no => ?_) ?_
      · simp [none no]
      · rintro found _ ⟨⟨k, rfl⟩, rest⟩
        exact ⟨⟨k, rfl⟩, rest⟩
    | child =>
      obtain rfl : u = t := moved
      exact ih (by omega) up pt own null fun no => (by cases no)
    | zombie pid =>
      obtain rfl : u = t := moved
      exact ⟨⟨u.childless, rfl⟩, fun kids same => (by cases same)⟩

theorem keeps_wait (fuel : Nat) (h : t.Ready) : rules.Keeps (Table.wait fuel) t fun _ => Ready := by
  have loop : ∀ fuel (v : TLocal), v.Locked → rules.Keeps (Table.wait.loop fuel) v fun _ => Ready := by
    intro fuel
    induction fuel with
    | zero => exact fun v locked => ⟨locked.up, nofun⟩
    | succ fuel ih =>
      intro v locked
      refine keeps_seq (keeps_scan NPROC (Nat.zero_add _) locked.up locked.pt locked.own locked.null
        fun _ => locked.childless) ?_
      rintro found _ ⟨⟨k, rfl⟩, none⟩
      cases found with
      | ok pid =>
        exact keeps_seq (keeps_lift
          (core_release locked.up locked.null ⟨⟨locked.up, rfl, rfl, locked.null⟩, locked.own⟩))
          fun _ _ ready => ready
      | error kids =>
        refine keeps_step locked.up ?_
        rintro killed _ rfl
        split
        · rename_i fails
          refine keeps_step ⟨locked.up, locked.pt, ?_⟩ ?_
          · simp only [Bool.or_eq_true, Bool.not_eq_true'] at fails
            exact fails.imp (none kids rfl) id
          · rintro _ _ rfl
            exact keeps_seq (keeps_lift
              (core_release locked.up locked.null ⟨⟨locked.up, rfl, rfl, locked.null⟩, locked.own⟩))
              fun _ _ ready => ready
        · refine keeps_step locked.up ?_
          rintro p _ rfl
          exact keeps_seq (keeps_lift (core_sleep_ptable _ locked.up locked.pt locked.own))
            fun _ u locked' => ih u locked'
  refine keeps_seq (keeps_lift (core_acquire h.up)) ?_
  rintro _ _ rfl
  exact loop fuel _ h.lock

theorem keeps_op (o : TOp) (h : t.Ready) : rules.Keeps o.code t fun _ => Ready := by
  cases o with
  | fork stack copy => exact keeps_fork stack copy h
  | exit => exact keeps_exit h
  | wait fuel => exact keeps_wait fuel h
  | kill pid => exact keeps_lift (core_kill pid h)
  | killed | setFile _ _ =>
    refine ⟨h.up, ?_⟩
    rintro _ _ rfl
    exact ⟨⟨h.up, h.pt, h.childless, h.null⟩, h.own⟩
  | work o => exact keeps_mono (keeps_work o h.toFree) fun _ _ same => same ▸ h

theorem keeps_forkret (off : t.phase = .off) (pt : t.pt = false) :
    rules.Keeps Table.forkret t fun _ => Ready := by
  refine keeps_step ⟨off, pt⟩ ?_
  rintro _ _ rfl
  exact keeps_lift (core_release rfl rfl ⟨⟨rfl, rfl, rfl, rfl⟩, rfl⟩)

def Rests (t : TLocal) : Prop := t.Ready ∨ t.phase = .off

end TLocal

theorem tinv_boot : TInv aimed tboot fun _ => {} := by
  have slot : ∀ q, q ≠ initproc →
      tboot.procs q = { state := .unused, chan := .null, killed := false, pid := 0 } := fun q ne => if_neg ne
  have first : tboot.procs initproc =
      { state := .runnable, chan := .null, killed := false, pid := 1, fresh := true } := rfl
  refine ⟨fun q => ?_, fun q => ?_, fun q => ⟨fun h => (by cases h), fun e h => (by cases h), fun h => (by cases h),
    fun r h => (by cases h), fun h => (by cases h)⟩, fun p q e e' h => (by cases h)⟩
  · by_cases eq : q = initproc
    · subst eq
      rw [first]
      exact ⟨fun y h => (by cases h), fun ne => absurd rfl ne, fun _ => Or.inr (Or.inl rfl), fun h => by simp at h,
        fun _ _ _ => rfl, fun _ => rfl, fun _ _ => rfl⟩
    · rw [slot q eq]
      exact ⟨fun y h => (by cases h), fun _ _ => Or.inl rfl, fun h => absurd h eq, fun _ => rfl, fun _ _ _ => rfl,
        fun _ => rfl, fun _ _ => rfl⟩
  · by_cases eq : q = initproc
    · subst eq
      rw [first]
      exact ⟨Or.inr (Or.inr (Or.inr ⟨rfl, rfl⟩)), fun _ => ⟨rfl, rfl, rfl, rfl, fun h => (by cases h)⟩, fun _ => rfl,
        fun h => (by cases h), fun fd h => (by cases h), fun _ => rfl, fun _ _ => rfl⟩
    · rw [slot q eq]
      exact ⟨Or.inl rfl, fun _ => ⟨rfl, rfl, rfl, rfl, fun h => (by cases h)⟩, fun _ => rfl,
        fun h => (by cases h), fun fd h => (by cases h), fun _ => rfl, fun _ _ => rfl⟩

theorem TInv.free {s : Table} {t : Nat → TLocal} {p : Nat} (inv : TInv aimed s t)
    (running : (s.procs p).state = .running) (free : s.lock .ptable ≠ some p) : (t p).Free := by
  have self := inv.self p
  have thread := inv.thread p
  have up : (t p).phase = .up := by
    have fits := self.phase
    cases phase : (t p).phase with
    | up => rfl
    | off | down => simp [phase, Phase.Fits, running] at fits
  have pt : (t p).pt = false := by
    cases pt : (t p).pt with
    | false => rfl
    | true => exact absurd (thread.pt pt) free
  refine ⟨up, pt, ?_, self.lone up pt⟩
  by_contra pos
  rw [thread.scan (by omega)] at pt
  cases pt

/-- `kill` does not hit a slot that is free or being filled. -/
def Aimed (c : Threads tsignature Table) (_ : Nat) (e : TStep) : Prop :=
  ∀ q, e = .core (.kill q) → (c.state.procs q).state ≠ .unused ∧ (c.state.procs q).state ≠ .embryo

abbrev Orderly (aimed : Prop) : Threads tsignature Table → (Nat → TLocal) → Prop :=
  Threads.Within (fun _ => TLocal.rules) (TInv aimed) TLocal.Rests

theorem orderly_call {c : Threads tsignature Table} {t : Nat → TLocal} {p : Nat} {prog : TCode Unit}
    (within : Orderly aimed c t) (call : tcalls p c.state (c.thread p) prog) :
    TLocal.rules.Keeps prog (t p) fun _ => TLocal.Rests := by
  have fits := (within.1.self p).phase
  rcases call with ⟨fresh, rfl⟩ | ⟨idle, running, body, rfl⟩ | ⟨running, free, body⟩
  · have off : (t p).phase = .off := by
      cases phase : (t p).phase with
      | off => rfl
      | up | down => simp [phase, Phase.Fits, fresh] at fits
    exact keeps_mono (TLocal.keeps_forkret off ((within.1.self p).fresh fresh)) fun _ _ => Or.inl
  · have ready : (t p).Ready := (within.rests idle).resolve_right fun off => by
      simp [off, Phase.Fits, running] at fits
    exact keeps_mono (Rules.keeps_interp_inv body ready fun o _ => TLocal.keeps_op o) fun _ _ => Or.inl
  · obtain ⟨body, rfl⟩ := body
    have free := within.1.free running free
    refine keeps_seq (Rules.keeps_interp_inv (I := fun u => u = t p) body rfl fun o u same => ?_) ?_
    · rw [same]
      exact TLocal.keeps_work o free
    · rintro _ _ rfl
      exact within.2 p

theorem reachable_orderly {c : Threads tsignature Table} {J : Table → Prop} (boot : J tboot)
    (keep : ∀ {s s' t p e r}, TInv aimed s t → (t p).allowed e → tact p e s = .returned r s' → J s → J s')
    (run : Threads.Reachable tmachine tcalls (fun c p e => aimed → Aimed c p e) (Threads.initial tboot) c) :
    ∃ t, Orderly aimed c t ∧ J c.state := by
  have within : ∃ t, Threads.Within (fun _ => TLocal.rules) (fun s t => TInv aimed s t ∧ J s) TLocal.Rests c t := by
    refine Threads.reachable_within run ⟨⟨tinv_boot, boot⟩, fun _ => Or.inr rfl⟩ (fun c t p prog within call => ?_)
      fun c t p e next r s within at_step may meets act => ?_
    · refine ⟨t p, orderly_call ⟨within.1.1, within.2⟩ call, ?_⟩
      rw [Function.update_eq_self]
      exact within.1
    · obtain ⟨u, moves, inv⟩ := tinv_step within.1.1 may (fun q eq aim => meets aim q eq) act
      exact ⟨u, moves, inv, keep within.1.1 may act within.1.2⟩
  obtain ⟨t, inv, keeps⟩ := within
  exact ⟨t, ⟨inv.1, keeps⟩, inv.2⟩

/-! ### Replaying a run -/

inductive Play where
  | start (p : Nat)
  | call (p : Nat) (body : Program tops Unit)
  | steps (p n : Nat)

def Play.next (may : TStep → Bool) (c : Threads tsignature Table) : Play → Option (Threads tsignature Table)
  | .start p =>
    if (c.state.procs p).fresh then some { c with thread := Function.update c.thread p Table.forkret } else none
  | .call p body =>
    match c.thread p with
    | .done () =>
      if (c.state.procs p).state = .running then
        some { c with thread := Function.update c.thread p (body.interp TOp.code) }
      else none
    | .step _ _ => none
  | .steps p n => Threads.alone tmachine may p n c

def play (may : TStep → Bool) (plays : List Play) (c : Threads tsignature Table) : Option (Threads tsignature Table) :=
  plays.foldlM (Play.next may) c

theorem reachable_next {A : Threads tsignature Table → Nat → TStep → Prop} {may : TStep → Bool}
    {c d : Threads tsignature Table} {entry : Play} (meets : ∀ c p e, may e = true → A c p e)
    (h : entry.next may c = some d) : Threads.Reachable tmachine tcalls A c d := by
  cases entry with
  | start p =>
    simp only [Play.next] at h
    split at h <;> cases h
    rename_i fresh
    exact .single (.call (Or.inl ⟨fresh, rfl⟩))
  | call p body =>
    simp only [Play.next] at h
    split at h
    · rename_i idle
      split at h <;> cases h
      rename_i running
      exact .single (.call (Or.inr (Or.inl ⟨idle, running, body, rfl⟩)))
    · cases h
  | steps p n => exact Threads.reachable_alone meets h

theorem reachable_play {A : Threads tsignature Table → Nat → TStep → Prop} {may : TStep → Bool}
    {c d : Threads tsignature Table} {plays : List Play} (meets : ∀ c p e, may e = true → A c p e)
    (h : play may plays c = some d) : Threads.Reachable tmachine tcalls A c d := by
  induction plays generalizing c with
  | nil =>
    cases h
    exact .refl
  | cons entry rest ih =>
    rw [play, List.foldlM_cons] at h
    cases first : entry.next may c with
    | none =>
      rw [first] at h
      cases h
    | some d =>
      rw [first] at h
      exact (reachable_next meets first).trans (ih h)

end Espl.Sched
