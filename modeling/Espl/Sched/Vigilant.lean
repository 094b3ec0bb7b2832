import Espl.Sched.Vigil

/-!
# No dead child is overlooked

While the rules of `Vigil` are followed, a process that is asleep in `wait`, or about to be, has no dead
child. Every step of every process keeps that.
-/

namespace Espl.Sched

open Function (update update_self update_of_ne update_eq_self update_idem)

/-- No dead child of a process that is asleep in `wait`, or about to be; only the first process may be about
to hear of one. -/
structure Vigilant (s : Table) (t : Nat → TLocal) (v : Nat → Vigil) : Prop where
  held : ∀ p, (v p).held = true → (t p).pt = true
  idle : ∀ p, (v p).held = false →
    (v p).seen = 0 ∧ (v p).parent = none ∧ (v p).woken = [] ∧ (v p).owes = false ∧ (v p).on = false
  down : ∀ p, (v p).wait = true → (v p).held = false → (t p).phase ≠ .up
  lone : ∀ q, (s.procs q).parent ≠ some q
  first : (s.procs initproc).parent = none
  on : ∀ p, (v p).on = true → (s.procs p).chan = .proc p
  chan : ∀ p, (v p).wait = true → (s.procs p).state = .sleeping → (s.procs p).chan = .proc p
  seen : ∀ p, ∀ q < (v p).seen, (s.procs q).parent = some p → (s.procs q).state ≠ .zombie
  parent : ∀ p o, (v p).parent = some o → (s.procs p).parent = o
  woken : ∀ r, ∀ y ∈ (v r).woken, (v y).wait = true → (s.procs y).state ≠ .sleeping
  waits : ∀ p, (v p).wait = true → s.lock .ptable = some p ∨ (s.procs p).state = .sleeping → ∀ q,
    (s.procs q).parent = some p → (s.procs q).state = .zombie → p = initproc ∧ ∃ r, (v r).owes = true

variable {aimed : Prop} {s s' : Table} {p q : Nat} {t : Nat → TLocal} {v : Nat → Vigil} {u : TLocal} {w : Vigil}

/-- The same hold of the table and the same phase: all that `Vigilant` reads of a thread. -/
def TLocal.Like (u u' : TLocal) : Prop := u.pt = u'.pt ∧ u.phase = u'.phase

theorem TInv.running (inv : TInv aimed s t) (up : (t p).phase = .up) : (s.procs p).state = .running := by
  have fits := (inv.self p).phase
  rw [up] at fits
  exact fits.1

variable (h : Vigilant s t v)

include h

theorem Vigilant.pt (like : u.Like (t p)) (set : (v p).held = true) : u.pt = true :=
  like.1.trans (h.held p set)

theorem Vigilant.keep : Vigilant s t (update v p (v p)) := by
  rwa [update_eq_self]

theorem Vigilant.lock (inv : TInv aimed s t) (held : (v p).held = true) :
    s.lock .ptable = some p := (inv.thread p).pt (h.held p held)

theorem Vigilant.calm (parent : ∀ q y, (s'.procs q).parent = some y → (s.procs q).parent = some y)
    (known : ∀ r, (v r).parent ≠ none → (s'.procs r).parent = (s.procs r).parent)
    (zombie : ∀ q, (s'.procs q).state = .zombie → (s.procs q).state = .zombie)
    (sleeping : ∀ q, (s'.procs q).state = .sleeping → (s.procs q).state = .sleeping)
    (chan : ∀ q, (v q).on = true ∨ (v q).wait = true ∧ (s.procs q).state = .sleeping →
      (s'.procs q).chan = (s.procs q).chan)
    (lock : s'.lock .ptable = s.lock .ptable) (held : (v p).held = true → u.pt = true)
    (phase : u.phase = .up → (t p).phase = .up) : Vigilant s' (update t p u) v where
  held := (Function.forall_update_iff t fun r x => (v r).held = true → x.pt = true).mpr ⟨held, fun r _ => h.held r⟩
  idle := h.idle
  down := (Function.forall_update_iff t fun r x => (v r).wait = true → (v r).held = false → x.phase ≠ .up).mpr
    ⟨fun set off up => h.down p set off (phase up), fun r _ => h.down r⟩
  lone q self := h.lone q (parent q q self)
  first := by
    cases some : (s'.procs initproc).parent with
    | none => rfl
    | some y => exact absurd (h.first.symm.trans (parent _ y some)) nofun
  on r set := (chan r (Or.inl set)).trans (h.on r set)
  chan r set asleep := (chan r (Or.inr ⟨set, sleeping r asleep⟩)).trans (h.chan r set (sleeping r asleep))
  seen r q lt child dead := h.seen r q lt (parent q r child) (zombie q dead)
  parent r o is := (known r (by rw [is]; nofun)).trans (h.parent r o is)
  woken r y member set asleep := h.woken r y member set (sleeping y asleep)
  waits r set still q child dead :=
    h.waits r set (still.imp (lock ▸ ·) (sleeping r)) q (parent q r child) (zombie q dead)

theorem Vigilant.own (others : ∀ q, q ≠ p → s'.procs q = s.procs q)
    (parent : (s'.procs p).parent = (s.procs p).parent)
    (alive : (s'.procs p).state = .zombie → (s.procs p).state = .zombie)
    (lock : ∀ r, r ≠ p → s'.lock .ptable = some r → s.lock .ptable = some r)
    (held : w.held = true → u.pt = true)
    (idle : w.held = false → w.seen = 0 ∧ w.parent = none ∧ w.woken = [] ∧ w.owes = false ∧ w.on = false)
    (down : w.wait = true → w.held = false → u.phase ≠ .up)
    (on : w.on = true → (s'.procs p).chan = .proc p)
    (asleep : w.wait = true → (s'.procs p).state = .sleeping → (s'.procs p).chan = .proc p ∧ p ∉ w.woken ∧
      ∀ r, r ≠ p → p ∉ (v r).woken)
    (seen : ∀ q < w.seen, (s.procs q).parent = some p → (s.procs q).state ≠ .zombie)
    (read : ∀ o, w.parent = some o → (s.procs p).parent = o)
    (woken : ∀ y ∈ w.woken, y ≠ p → (v y).wait = true → (s.procs y).state ≠ .sleeping)
    (owes : (v p).owes = true → w.owes = true ∨ w.wait = false ∧ s'.lock .ptable = some p ∧
      (initproc ≠ p → (v initproc).wait = true → (s.procs initproc).state ≠ .sleeping))
    (waits : w.wait = true → s'.lock .ptable = some p ∨ (s'.procs p).state = .sleeping → ∀ q,
      (s.procs q).parent = some p → (s.procs q).state = .zombie → p = initproc ∧ ∃ r, (v r).owes = true) :
    Vigilant s' (update t p u) (update v p w) := by
  have parents : ∀ q, (s'.procs q).parent = (s.procs q).parent := fun q =>
    if eq : q = p then by rw [eq, parent] else by rw [others q eq]
  have zombies : ∀ q, (s'.procs q).state = .zombie → (s.procs q).state = .zombie := fun q =>
    if eq : q = p then by rw [eq]; exact alive else by rw [others q eq]; exact id
  -- a debt that is paid is one the first process has no need of
  have debt : (update v p w initproc).wait = true →
      s'.lock .ptable = some initproc ∨ (s'.procs initproc).state = .sleeping →
      (∃ r, (v r).owes = true) → ∃ r, (update v p w r).owes = true := by
    rintro set still ⟨r, due⟩
    by_cases eq : r = p
    · subst eq
      rcases owes due with due | ⟨off, lock, awake⟩
      · exact ⟨r, by rwa [update_self]⟩
      · by_cases same : initproc = r
        · rw [same, update_self, off] at set
          cases set
        · rw [update_of_ne same] at set
          rw [others _ same] at still
          rcases still with held | asleep
          · exact absurd (Option.some.inj (held.symm.trans lock)) same
          · exact absurd asleep (awake same set)
    · exact ⟨r, by rwa [update_of_ne eq]⟩
  constructor
  case held => exact forall_update₂ t v (fun _ x y => y.held = true → x.pt = true) held fun r _ => h.held r
  case idle =>
    exact (Function.forall_update_iff v fun _ y => y.held = false →
      y.seen = 0 ∧ y.parent = none ∧ y.woken = [] ∧ y.owes = false ∧ y.on = false).mpr ⟨idle, fun r _ => h.idle r⟩
  case down =>
    exact forall_update₂ t v (fun _ x y => y.wait = true → y.held = false → x.phase ≠ .up) down fun r _ => h.down r
  case lone => exact fun q self => h.lone q ((parents q).symm.trans self)
  case first => exact (parents _).trans h.first
  case on =>
    refine (Function.forall_update_iff v fun r y => y.on = true → (s'.procs r).chan = .proc r).mpr ⟨on, fun r ne => ?_⟩
    rw [others r ne]
    exact h.on r
  case chan =>
    refine (Function.forall_update_iff v fun r y =>
      y.wait = true → (s'.procs r).state = .sleeping → (s'.procs r).chan = .proc r).mpr
      ⟨fun set sleeping => (asleep set sleeping).1, fun r ne => ?_⟩
    rw [others r ne]
    exact h.chan r
  case seen =>
    have now := (Function.forall_update_iff v fun r y =>
      ∀ q < y.seen, (s.procs q).parent = some r → (s.procs q).state ≠ .zombie).mpr ⟨seen, fun r _ => h.seen r⟩
    exact fun r q lt child dead => now r q lt ((parents q).symm.trans child) (zombies q dead)
  case parent =>
    have now := (Function.forall_update_iff v fun r y => ∀ o, y.parent = some o → (s.procs r).parent = o).mpr
      ⟨read, fun r _ => h.parent r⟩
    exact fun r o is => (parents r).trans (now r o is)
  case woken =>
    intro r y member set sleeping
    by_cases self : y = p
    · subst self
      rw [update_self] at set
      obtain ⟨-, mine, theirs⟩ := asleep set sleeping
      by_cases eq : r = y
      · subst eq
        rw [update_self] at member
        exact mine member
      · rw [update_of_ne eq] at member
        exact theirs r eq member
    · rw [update_of_ne self] at set
      rw [others y self] at sleeping
      by_cases eq : r = p
      · subst eq
        rw [update_self] at member
        exact woken y member self set sleeping
      · rw [update_of_ne eq] at member
        exact h.woken r y member set sleeping
  case waits =>
    intro r set still q child dead
    rw [parents] at child
    have old : r = initproc ∧ ∃ r, (v r).owes = true := by
      by_cases eq : r = p
      · subst eq
        rw [update_self] at set
        exact waits set still q child (zombies q dead)
      · rw [update_of_ne eq] at set
        rw [others r eq] at still
        exact h.waits r set (still.imp_left (lock r eq)) q child (zombies q dead)
    obtain ⟨rfl, due⟩ := old
    exact ⟨rfl, debt set still due⟩

theorem Vigilant.awake (inv : TInv aimed s t) (held : (t p).pt = true) {r : Nat} (ne : r ≠ p) :
    (v r).woken = [] := by
  cases on : (v r).held with
  | false => exact (h.idle r on).2.2.1
  | true => exact absurd (Option.some.inj ((h.lock inv on).symm.trans ((inv.thread p).pt held))) ne

/-! ### Steps of the scheduler's code -/

theorem vigilant_acquire (idle : v p = {}) (held : u.pt = true) (lock : s'.lock .ptable = some p)
    (procs : s'.procs = s.procs) : Vigilant s' (update t p u) (update v p { held := true }) := by
  refine h.own (fun q _ => by rw [procs]) (by rw [procs]) (by rw [procs]; exact id) (fun r ne is => ?_) (fun _ => held)
    nofun nofun nofun nofun nofun nofun nofun (fun due => ?_) nofun
  · exact absurd (Option.some.inj (is.symm.trans lock)) ne
  · rw [idle] at due
    cases due

theorem vigilant_release (owes : (v p).owes = false) (lock : s'.lock .ptable = none)
    (procs : s'.procs = s.procs) : Vigilant s' (update t p u) (update v p {}) := by
  refine h.own (fun q _ => by rw [procs]) (by rw [procs]) (by rw [procs]; exact id) (fun r ne is => ?_) nofun
    (fun _ => ⟨rfl, rfl, rfl, rfl, rfl⟩) nofun nofun nofun nofun nofun nofun (fun due => ?_) nofun
  · exact absurd (lock.symm.trans is) nofun
  · rw [owes] at due
    cases due

theorem vigilant_sched (owes : (v p).owes = false) (lock : s'.lock .ptable = none)
    (procs : s'.procs = s.procs) (down : u.phase ≠ .up) :
    Vigilant s' (update t p u) (update v p { wait := (v p).wait }) := by
  refine h.own (fun q _ => by rw [procs]) (by rw [procs]) (by rw [procs]; exact id) (fun r ne is => ?_) nofun
    (fun _ => ⟨rfl, rfl, rfl, rfl, rfl⟩) (fun _ _ => down) nofun (fun set asleep => ?_) nofun nofun nofun
      (fun due => ?_)
    fun set still q child dead => ?_
  · exact absurd (lock.symm.trans is) nofun
  · rw [procs] at asleep ⊢
    exact ⟨h.chan p set asleep, nofun, fun r _ member => h.woken r p member set asleep⟩
  · rw [owes] at due
    cases due
  · rw [lock, procs] at still
    exact h.waits p set (still.imp_left nofun) q child dead

theorem vigilant_run {held : Bool} (owes : (v p).owes = false)
    (others : ∀ q, q ≠ p → s'.procs q = s.procs q) (parent : (s'.procs p).parent = (s.procs p).parent)
    (state : (s'.procs p).state = .running) (lock : s'.lock .ptable = some p) (pt : u.pt = true) :
    Vigilant s' (update t p u) (update v p { held := held }) := by
  refine h.own others parent (by rw [state]; nofun) (fun r ne is => ?_) (fun _ => pt)
    (fun _ => ⟨rfl, rfl, rfl, rfl, rfl⟩) nofun nofun nofun nofun nofun nofun (fun due => ?_) nofun
  · exact absurd (Option.some.inj (is.symm.trans lock)) ne
  · rw [owes] at due
    cases due

theorem vigilant_setChan {chan : Chan} (inv : TInv aimed s t) (up : (t p).phase = .up)
    (null : (v p).held = true ∨ chan = .null) (like : u.Like (t p)) :
    Vigilant (s.setProc p fun x => { x with chan := chan }) (update t p u)
      (update v p { v p with on := chan = .proc p }) := by
  have running := inv.running up
  refine h.own (fun q ne => setProc_ne _ _ ne) (by rw [setProc_same]) (by rw [setProc_same]; exact id) (fun _ _ => id)
    (h.pt like) (fun off => ?_) (fun set off => ?_) (fun set => ?_) (fun set asleep => ?_)
    (h.seen p) (h.parent p) (fun y member _ => h.woken p y member) Or.inl
    (fun set still => h.waits p set (still.imp_right fun asleep => ?_))
  · obtain ⟨seen, parent, woken, owes, -⟩ := h.idle p off
    rcases null with on | rfl
    · exact absurd (off.symm.trans on) nofun
    · exact ⟨seen, parent, woken, owes, rfl⟩
  · rw [like.2]
    exact h.down p set off
  · rw [setProc_same]
    exact of_decide_eq_true set
  · rw [setProc_same, running] at asleep
    cases asleep
  · rwa [setProc_same] at asleep

theorem vigilant_setState {state : ProcState} (inv : TInv aimed s t) (held : (t p).pt = true)
    (pt : u.pt = true) (down : u.phase ≠ .up) (living : state ≠ .zombie) (woken : (v p).woken = [])
    (on : (v p).wait = true → (v p).on = true) :
    Vigilant (s.setProc p fun x => { x with state := state }) (update t p u) (update v p (v p)) := by
  refine h.own (fun q ne => setProc_ne _ _ ne) (by rw [setProc_same]) (fun dead => ?_) (fun _ _ => id)
    (fun _ => pt) (h.idle p) (fun _ _ => down) (fun set => ?_) (fun set asleep => ?_) (h.seen p) (h.parent p)
    (fun y member _ => h.woken p y member) Or.inl (fun set _ => h.waits p set (Or.inl ((inv.thread p).pt held)))
  · rw [setProc_same] at dead
    exact absurd dead living
  · rw [setProc_same]
    exact h.on p set
  · rw [setProc_same]
    refine ⟨h.on p (on set), ?_, fun r ne => ?_⟩
    · rw [woken]
      nofun
    · rw [h.awake inv held ne]
      nofun

theorem vigilant_wake {chan : Chan} (inv : TInv aimed s t) (on : (v p).held = true)
    (wait : (v p).wait = false) (like : u.Like (t p)) :
    Vigilant (s.wake q chan) (update t p u) (update v p
      (if chan = .proc q then
        { v p with woken := q :: (v p).woken, owes := (v p).owes && q != initproc } else v p)) := by
  have lock : (s.wake q chan).lock .ptable = some p := by
    unfold State.wake
    split
    · exact h.lock inv on
    · exact h.lock inv on
  have slots : ∀ y, ((s.wake q chan).procs y).parent = (s.procs y).parent ∧
    ((s.wake q chan).procs y).chan = (s.procs y).chan ∧
      (((s.wake q chan).procs y).state = (s.procs y).state ∨ ((s.wake q chan).procs y).state = .runnable) := by
    intro y
    unfold State.wake
    split
    · by_cases eq : y = q
      · subst eq
        rw [setProc_same]
        exact ⟨rfl, rfl, Or.inr rfl⟩
      · rw [setProc_ne _ _ eq]
        exact ⟨rfl, rfl, Or.inl rfl⟩
    · exact ⟨rfl, rfl, Or.inl rfl⟩
  have back : ∀ y state, state ≠ .runnable → ((s.wake q chan).procs y).state = state → (s.procs y).state = state := by
    intro y state ne is
    rcases (slots y).2.2 with same | woken
    · exact same.symm.trans is
    · exact absurd (is.symm.trans woken) ne
  have calm : Vigilant (s.wake q chan) (update t p u) v :=
    h.calm (fun y z is => (slots y).1 ▸ is) (fun y _ => (slots y).1) (fun y => back y _ nofun) (fun y => back y _ nofun)
      (fun y _ => (slots y).2.1) (lock.trans (h.lock inv on).symm) (h.pt like) like.2.symm.trans
  by_cases hit : chan = .proc q
  · rw [if_pos hit]
    -- a process asleep on its own channel is awake now
    have roused : (v q).wait = true → ((s.wake q chan).procs q).state ≠ .sleeping := by
      intro set asleep
      have before := back q .sleeping nofun asleep
      have found : s.Asleep chan q := ⟨before, (h.chan q set before).trans hit.symm⟩
      unfold State.wake at asleep
      rw [if_pos found, setProc_same] at asleep
      cases asleep
    have now : Vigilant (s.wake q chan) (update (update t p u) p u) (update v p
        { v p with woken := q :: (v p).woken, owes := (v p).owes && q != initproc }) := by
      refine calm.own (fun _ _ => rfl) rfl id (fun _ _ => id)
        (h.pt like) (fun off => absurd (off.symm.trans on) nofun)
        (fun set => absurd (set.symm.trans wait) nofun) (calm.on p)
        (fun set => absurd (set.symm.trans wait) nofun) (calm.seen p) (calm.parent p) (fun y member ne => ?_)
          (fun due => ?_)
        (fun set => absurd (set.symm.trans wait) nofun)
      · rcases List.mem_cons.mp member with rfl | member
        · exact roused
        · exact calm.woken p y member
      · by_cases first : q = initproc
        · exact Or.inr ⟨wait, lock, fun _ => first ▸ roused⟩
        · exact Or.inl (by simp [due, first])
    rwa [update_idem] at now
  · rw [if_neg hit, update_eq_self]
    exact calm

/-! ### Steps on the table -/

theorem Vigilant.reparent {y : Nat} (lone : q ≠ y) (later : q ≠ initproc)
    (out : (v q).parent = none)
    (dead : (s.procs q).state = .zombie → ¬ q < (v y).seen ∧ y = initproc ∧ ∃ r, (v r).owes = true)
    (held : (v p).held = true → u.pt = true) (phase : u.phase = .up → (t p).phase = .up) :
    Vigilant (s.setProc q fun x => { x with parent := some y }) (update t p u) v := by
  have slots : ∀ z, ((s.setProc q fun x => { x with parent := some y }).procs z).state = (s.procs z).state ∧
      ((s.setProc q fun x => { x with parent := some y }).procs z).chan = (s.procs z).chan :=
    fun z => ⟨setProc_apply Proc.state rfl z, setProc_apply Proc.chan rfl z⟩
  have others : ∀ z, z ≠ q → ((s.setProc q fun x => { x with parent := some y }).procs z).parent = (s.procs z).parent :=
    fun z ne => by rw [setProc_ne _ _ ne]
  have changed : ∀ r, ((s.setProc q fun x => { x with parent := some y }).procs q).parent = some r → y = r := by
    intro r is
    rw [setProc_same] at is
    exact Option.some.inj is
  have same : Vigilant s (update t p u) v := h.calm (fun _ _ => id) (fun _ _ => rfl) (fun _ => id) (fun _ => id)
    (fun _ _ => rfl) rfl held phase
  refine { same with
    lone := fun z self => ?_, first := (others _ (Ne.symm later)).trans h.first
    on := fun r set => (slots r).2.trans (h.on r set)
    chan := fun r set asleep => (slots r).2.trans (h.chan r set ((slots r).1 ▸ asleep))
    seen := fun r z lt child zombie => ?_, parent := fun r o is => ?_
    woken := fun r z member set asleep => h.woken r z member set ((slots z).1 ▸ asleep)
    waits := fun r set still z child zombie => ?_ }
  · by_cases eq : z = q
    · subst eq
      exact lone (changed z self).symm
    · exact h.lone z ((others z eq).symm.trans self)
  · rw [(slots z).1] at zombie
    by_cases eq : z = q
    · subst eq
      obtain rfl := changed r child
      exact (dead zombie).1 lt
    · exact h.seen r z lt ((others z eq).symm.trans child) zombie
  · by_cases eq : r = q
    · subst eq
      exact absurd (out.symm.trans is) nofun
    · exact (others r eq).trans (h.parent r o is)
  · rw [(slots z).1] at zombie
    rw [(slots r).1] at still
    by_cases eq : z = q
    · subst eq
      obtain rfl := changed r child
      exact (dead zombie).2
    · exact h.waits r set still z ((others z eq).symm.trans child) zombie

theorem vigilant_setParent (inv : TInv aimed s t) {e : Embryo} (owns : (t p).own = some e)
    (like : u.Like (t p)) :
    Vigilant (s.setProc e.slot fun x => { x with parent := some p }) (update t p u) (update v p (v p)) := by
  obtain ⟨other, embryo, off, free⟩ := inv.owned owns
  refine .keep (h.reparent other (fun first => ?_) ?_ (fun zombie => absurd (embryo.symm.trans zombie) nofun)
    (h.pt like) like.2.symm.trans)
  · rcases (inv.slot e.slot).init first with is | is | is <;> exact absurd (embryo.symm.trans is) nofun
  · cases on : (v e.slot).held with
    | false => exact (h.idle _ on).2.1
    | true => exact absurd (free.symm.trans (h.held _ on)) nofun

theorem vigilant_adopt (inv : TInv aimed s t) (on : (v p).held = true) (like : u.Like (t p))
    (child : (s.procs q).parent = some p) :
    Vigilant (s.setProc q fun x => { x with parent := some initproc }) (update t p u)
      (update v p { v p with owes := (v p).owes || (s.procs q).state == .zombie }) := by
  have lock := h.lock inv on
  have owed : Vigilant s (update t p u)
      (update v p { v p with owes := (v p).owes || (s.procs q).state == .zombie }) := by
    refine h.own (fun _ _ => rfl) rfl id (fun _ _ => id) (h.pt like)
      (fun off => absurd (off.symm.trans on) nofun) (fun _ off => absurd (off.symm.trans on) nofun) (h.on p)
      (fun set asleep => ?_) (h.seen p) (h.parent p) (fun y member _ => h.woken p y member)
      (fun due => Or.inl (by simp [due])) (h.waits p)
    exact ⟨h.chan p set asleep, fun member => h.woken p p member set asleep, fun r _ member =>
      h.woken r p member set asleep⟩
  have other : q ≠ p := by
    rintro rfl
    exact h.lone q child
  have later : q ≠ initproc := by
    rintro rfl
    exact absurd (h.first.symm.trans child) nofun
  have out : (v q).parent = none := by
    cases set : (v q).held with
    | false => exact (h.idle q set).2.1
    | true => exact absurd (Option.some.inj ((h.lock inv set).symm.trans lock)) other
  have now := owed.reparent (q := q) (y := initproc) (p := p) (u := u) later later (by rw [update_of_ne other, out])
    (fun zombie => ⟨fun lt => ?_, rfl, p, ?_⟩) ?_ ?_
  · rwa [update_idem] at now
  · have seen : (update v p { v p with owes := (v p).owes || (s.procs q).state == .zombie } initproc).seen =
        (v initproc).seen := by
      by_cases eq : initproc = p
      · rw [eq, update_self]
      · rw [update_of_ne eq]
    rw [seen] at lt
    cases set : (v initproc).held with
    | false =>
      rw [(h.idle _ set).1] at lt
      cases lt
    | true =>
      have same : initproc = p := Option.some.inj ((h.lock inv set).symm.trans lock)
      exact h.seen initproc q lt (same ▸ child) zombie
  · rw [update_self]
    simp [zombie]
  · rw [update_self]
    exact fun set => like.1.trans (h.held p set)
  · rw [update_self]
    exact id

theorem vigilant_setZombie (inv : TInv aimed s t) (held : (t p).pt = true) (pt : u.pt = true)
    (off : u.phase ≠ .up)
    (wait : (v p).wait = false) {o : Option Nat} (read : (v p).parent = some o)
    (woken : ∀ y, o = some y → y < NPROC → y ∈ (v p).woken) :
    Vigilant (s.setProc p fun x => { x with state := .zombie }) (update t p u) (update v p (v p)) := by
  have lock := (inv.thread p).pt held
  have slots : ∀ z, ((s.setProc p fun x => { x with state := .zombie }).procs z).parent = (s.procs z).parent ∧
      ((s.setProc p fun x => { x with state := .zombie }).procs z).chan = (s.procs z).chan :=
    fun z => ⟨setProc_apply Proc.parent rfl z, setProc_apply Proc.chan rfl z⟩
  have asleep : ∀ z, ((s.setProc p fun x => { x with state := .zombie }).procs z).state = .sleeping →
      (s.procs z).state = .sleeping :=
    setProc_forall (fun z x => x.state = .sleeping → (s.procs z).state = .sleeping)
      (fun is => (by cases is)) fun _ _ => id
  have zombie : ∀ z, z ≠ p → ((s.setProc p fun x => { x with state := .zombie }).procs z).state = .zombie →
      (s.procs z).state = .zombie := by
    intro z ne is
    rwa [setProc_ne _ _ ne] at is
  have same : Vigilant s (update t p u) v := h.calm (fun _ _ => id) (fun _ _ => rfl) (fun _ => id) (fun _ => id)
    (fun _ _ => rfl) rfl (fun _ => pt) (fun up => absurd up off)
  refine .keep { same with
    lone := fun z self => h.lone z ((slots z).1.symm.trans self), first := (slots _).1.trans h.first
    on := fun r set => (slots r).2.trans (h.on r set)
    chan := fun r set is => (slots r).2.trans (h.chan r set (asleep r is))
    seen := fun r z lt child dead => ?_, parent := fun r o is => (slots r).1.trans (h.parent r o is)
    woken := fun r z member set is => h.woken r z member set (asleep z is)
    waits := fun r set still z child dead => ?_ }
  · rw [(slots z).1] at child
    by_cases eq : z = p
    · subst eq
      cases on : (v r).held with
      | false =>
        rw [(h.idle r on).1] at lt
        cases lt
      | true =>
        obtain rfl : r = z := Option.some.inj ((h.lock inv on).symm.trans lock)
        exact h.lone r child
    · exact h.seen r z lt child (zombie z eq dead)
  · rw [(slots z).1] at child
    by_cases eq : z = p
    · subst eq
      -- the parent has been woken and cannot have gone back to sleep
      have small : r < NPROC := by
        by_contra big
        obtain ⟨-, alive⟩ := (inv.slot z).parent r child
        have unused := (inv.slot r).big (Nat.not_lt.mp big)
        rcases alive with is | is | is <;> exact absurd (unused.symm.trans is) nofun
      have member := woken r ((h.parent z o read).symm.trans child) small
      rcases still with mine | is
      · obtain rfl : z = r := Option.some.inj (lock.symm.trans mine)
        exact absurd child (h.lone z)
      · exact absurd (asleep r is) (h.woken z r member set)
    · exact h.waits r set (still.imp_right (asleep r)) z child (zombie z eq dead)

theorem vigilant_free {f : Proc → Proc} (inv : TInv aimed s t) (on : (v p).held = true)
    (like : u.Like (t p)) (child : (s.procs q).parent = some p) (parent : (f (s.procs q)).parent = none)
    (state : (f (s.procs q)).state = .unused) (chan : (f (s.procs q)).chan = (s.procs q).chan) :
    Vigilant (s.setProc q f) (update t p u) (update v p (v p)) := by
  have lock := h.lock inv on
  refine .keep (h.calm
    (setProc_forall (fun z x => ∀ y, x.parent = some y → (s.procs z).parent = some y) (by rw [parent]; nofun)
      fun _ _ _ => id)
    (setProc_forall (fun r x => (v r).parent ≠ none → x.parent = (s.procs r).parent) (fun known => ?_) fun _ _ _ => rfl)
    (setProc_forall (fun z x => x.state = .zombie → (s.procs z).state = .zombie) (by rw [state]; nofun) fun _ _ => id)
    (setProc_forall (fun z x => x.state = .sleeping → (s.procs z).state = .sleeping) (by rw [state]; nofun)
      fun _ _ => id)
    (fun z _ => setProc_apply Proc.chan chan z) rfl (h.pt like) like.2.symm.trans)
  cases set : (v q).held with
  | false => exact absurd (h.idle q set).2.1 known
  | true =>
    obtain rfl : q = p := Option.some.inj ((h.lock inv set).symm.trans lock)
    exact absurd child (h.lone q)

theorem Vigilant.setSlot {f : Proc → Proc} (like : u.Like (t p))
    (parent : (f (s.procs q)).parent = (s.procs q).parent) (chan : (f (s.procs q)).chan = (s.procs q).chan)
    (state : (f (s.procs q)).state = (s.procs q).state ∨
      (f (s.procs q)).state ≠ .zombie ∧ (f (s.procs q)).state ≠ .sleeping) :
    Vigilant (s.setProc q f) (update t p u) (update v p (v p)) := by
  have parents := setProc_apply Proc.parent parent
  refine .keep (h.calm (fun z y => (parents z).symm.trans) (fun r _ => parents r)
    (setProc_forall (fun z x => x.state = .zombie → (s.procs z).state = .zombie) ?_ fun _ _ => id)
    (setProc_forall (fun z x => x.state = .sleeping → (s.procs z).state = .sleeping) ?_ fun _ _ => id)
    (fun z _ => setProc_apply Proc.chan chan z) rfl (h.pt like) like.2.symm.trans)
  · exact state.elim (fun same => same.symm.trans) fun other is => absurd is other.1
  · exact state.elim (fun same => same.symm.trans) fun other is => absurd is other.2

theorem Vigilant.stay (procs : s'.procs = s.procs) (lock : s'.lock .ptable = s.lock .ptable)
    (like : u.Like (t p)) : Vigilant s' (update t p u) (update v p (v p)) :=
  .keep (h.calm (fun _ _ is => procs ▸ is) (fun _ _ => by rw [procs]) (fun _ is => procs ▸ is) (fun _ is => procs ▸ is)
    (fun _ _ => by rw [procs]) lock (h.pt like) like.2.symm.trans)

theorem Vigilant.congr (procs : s'.procs = s.procs) (lock : s'.lock .ptable = s.lock .ptable) :
    Vigilant s' t v := by
  have same : Vigilant s' (update t 0 (t 0)) (update v 0 (v 0)) := h.stay procs lock ⟨rfl, rfl⟩
  rwa [update_eq_self, update_eq_self] at same

theorem Vigilant.free (pt : (t p).pt = false) : (v p).owes = false := by
  cases on : (v p).held with
  | false => exact (h.idle p on).2.2.2.1
  | true => exact absurd (pt.symm.trans (h.held p on)) nofun

theorem vigilant_core {e : Step Books} {r : Answer e} (inv : TInv aimed s t)
    (may : (t p).coreAllowed e) (may' : (v p).coreAllowed e) (moved : (t p).coreMoves e r u)
    (returned : act p e s = .returned r s') :
    ∃ w, (v p).coreMoves p e r w ∧ Vigilant s' (update t p u) (update v p w) := by
  cases e with
  | acquire l =>
    obtain ⟨-, rfl⟩ := act_acquire returned
    refine ⟨_, rfl, ?_⟩
    by_cases same : l = .ptable
    · subst same
      cases moved
      rw [if_pos rfl]
      exact vigilant_acquire h (may' rfl) rfl (setLock_same s .ptable (some p)) rfl
    · obtain rfl : u = t p := moved.trans (if_neg same)
      rw [if_neg same]
      exact h.stay rfl (setLock_ne _ _ (Ne.symm same)) ⟨rfl, rfl⟩
  | release l =>
    obtain ⟨-, rfl⟩ := act_release returned
    refine ⟨_, rfl, ?_⟩
    by_cases same : l = .ptable
    · subst same
      rw [if_pos rfl]
      exact vigilant_release h (may' rfl).2 (setLock_same s .ptable none) rfl
    · obtain rfl : u = t p := moved.trans (if_neg same)
      rw [if_neg same]
      exact h.stay rfl (setLock_ne _ _ (Ne.symm same)) ⟨rfl, rfl⟩
  | setChan chan =>
    cases returned
    cases moved
    exact ⟨_, rfl, vigilant_setChan h inv may.1 may' ⟨rfl, rfl⟩⟩
  | setState state =>
    cases returned
    cases moved
    refine ⟨_, rfl, vigilant_setState h inv may.2.1 may.2.1 (by simp) ?_ may'.1 may'.2⟩
    rintro rfl
    rcases may.2.2 with is | is <;> cases is
  | sched =>
    obtain ⟨-, rfl⟩ := act_sched returned
    exact ⟨_, rfl, vigilant_sched h may' (setLock_same s .ptable none) rfl (moved ▸ may.1)⟩
  | resume =>
    obtain ⟨-, -, rfl⟩ := act_resume returned
    cases moved
    refine ⟨_, rfl, vigilant_run h (h.free may.2) (fun q ne => setProc_ne _ _ ne) ?_ ?_
      (setLock_same s .ptable (some p)) rfl⟩
    · rw [setProc_same, setLock_procs]
    · rw [setProc_same]
  | wake q chan =>
    cases returned
    cases moved
    exact ⟨_, rfl, vigilant_wake h inv may'.1 may'.2 ⟨rfl, rfl⟩⟩
  | rouse q =>
    cases returned
    cases moved
    refine ⟨_, rfl, ?_⟩
    unfold State.rouse
    split
    · exact h.setSlot ⟨rfl, rfl⟩ rfl rfl (Or.inr ⟨by simp, by simp⟩)
    · exact h.stay rfl rfl ⟨rfl, rfl⟩
  | kill q =>
    cases returned
    cases moved
    exact ⟨_, rfl, h.setSlot ⟨rfl, rfl⟩ rfl rfl (Or.inl rfl)⟩
  | killed | pid _ | mark =>
    cases returned
    cases moved
    exact ⟨_, rfl, h.stay rfl rfl ⟨rfl, rfl⟩⟩
  | get | upd _ => exact may.elim
  | stop => exact r.elim

theorem vigilant_scan (on : (v p).held = true) (like : u.Like (t p))
    (alive : (s.procs q).parent = some p → (s.procs q).state ≠ .zombie) :
    Vigilant s (update t p u)
      (update v p { v p with seen := if q = (v p).seen then q + 1 else (v p).seen }) := by
  refine h.own (fun _ _ => rfl) rfl id (fun _ _ => id) (h.pt like)
    (fun off => absurd (off.symm.trans on) nofun) (fun _ off => absurd (off.symm.trans on) nofun) (h.on p)
    (fun set asleep => ?_) (fun y lt => ?_) (h.parent p)
    (fun y member _ => h.woken p y member) Or.inl (h.waits p)
  · exact ⟨h.chan p set asleep, fun member => h.woken p p member set asleep, fun r _ member =>
      h.woken r p member set asleep⟩
  · simp only at lt
    split at lt
    · by_cases same : y = q
      · exact same ▸ alive
      · exact h.seen p y (by omega)
    · exact h.seen p y lt

theorem vigilant_step {e : TStep} {r : TStep.Answer e} (inv : TInv aimed s t)
    (may : (t p).allowed e) (may' : (v p).allowed e) (moved : (t p).moves e r u)
    (returned : tact p e s = .returned r s') :
    ∃ w, (v p).moves p e r w ∧ Vigilant s' (update t p u) (update v p w) := by
  cases e with
  | core e => exact vigilant_core h inv may may' moved (tact_core returned).1
  | self =>
    cases returned
    cases moved
    refine ⟨_, ⟨rfl, rfl⟩, h.own (fun _ _ => rfl) rfl id (fun _ _ => id) (h.held p)
      (fun off => absurd (off.symm.trans may'.1) (by decide)) (fun _ off =>
        absurd (off.symm.trans may'.1) (by decide)) (h.on p)
      (fun _ asleep => ?_) (h.seen p) (h.parent p)
      (fun y member _ => h.woken p y member) Or.inl fun _ _ q child dead => ?_⟩
    · exact absurd ((inv.running may).symm.trans asleep) (by decide)
    · by_cases small : q < NPROC
      · exact absurd dead (h.seen p q (by rwa [may'.2]) child)
      · exact absurd (((inv.slot q).big (Nat.not_lt.mp small)).symm.trans dead) (by decide)
  | checkInit =>
    simp only [tact] at returned
    split at returned <;> cases returned
    cases moved
    exact ⟨_, rfl, h.stay rfl rfl ⟨rfl, rfl⟩⟩
  | parent =>
    cases returned
    cases moved
    refine ⟨_, rfl, h.own (fun _ _ => rfl) rfl id (fun _ _ => id) (h.held p)
      (fun off => absurd (off.symm.trans may') (by decide)) (h.down p) (h.on p) (fun set asleep => ?_) (h.seen p)
      (fun o is => Option.some.inj is) (fun y member _ => h.woken p y member) Or.inl (h.waits p)⟩
    exact ⟨h.chan p set asleep, fun member => h.woken p p member set asleep, fun r _ member =>
      h.woken r p member set asleep⟩
  | tryTake q =>
    simp only [tact] at returned
    split at returned <;> cases returned
    · cases moved
      refine ⟨_, rfl, .congr (s := s.setProc q fun x => { x with state := .embryo, pid := s.data.nextpid }) ?_ rfl rfl⟩
      exact h.setSlot ⟨rfl, rfl⟩ rfl rfl (Or.inr ⟨by simp, by simp⟩)
    · cases moved
      exact ⟨_, rfl, h.stay rfl rfl ⟨rfl, rfl⟩⟩
  | giveBack _ | setRunnable _ =>
    cases returned
    cases moved
    exact ⟨_, rfl, h.setSlot ⟨rfl, rfl⟩ rfl rfl (Or.inr ⟨by simp, by simp⟩)⟩
  | setContext _ | closeFile _ | setFile _ _ =>
    cases returned
    cases moved
    exact ⟨_, rfl, h.setSlot ⟨rfl, rfl⟩ rfl rfl (Or.inl rfl)⟩
  | setParent q =>
    cases returned
    cases moved
    exact ⟨_, rfl, vigilant_setParent h inv may.2.1 ⟨rfl, rfl⟩⟩
  | dupFile q fd =>
    cases returned
    cases moved
    refine ⟨_, rfl, ?_⟩
    unfold Table.dupFile
    split
    · exact h.setSlot ⟨rfl, rfl⟩ rfl rfl (Or.inl rfl)
    · exact h.stay rfl rfl ⟨rfl, rfl⟩
  | adopt q =>
    simp only [tact] at returned
    cases moved
    split at returned <;> cases returned
    · rename_i child
      exact ⟨_, rfl, vigilant_adopt h inv may' ⟨rfl, rfl⟩ child⟩
    · refine ⟨_, rfl, ?_⟩
      rw [Bool.or_false]
      exact h.stay rfl rfl ⟨rfl, rfl⟩
  | setZombie =>
    cases returned
    cases moved
    obtain ⟨wait, -, o, read, woken⟩ := may'
    exact ⟨_, rfl, (vigilant_setZombie h inv may.2.1 rfl (by decide) wait read woken).congr rfl rfl⟩
  | reap q =>
    simp only [tact] at returned
    split at returned
    · rename_i child
      split at returned <;> cases returned
      · cases moved
        refine ⟨_, rfl, .congr
          (s := s.setProc q fun x => { x with state := .unused, pid := 0, parent := none, killed := false }) ?_ rfl rfl⟩
        exact vigilant_free h inv may' ⟨rfl, rfl⟩ child rfl rfl rfl
      · rename_i alive
        cases moved
        exact ⟨_, rfl, vigilant_scan h may' ⟨rfl, rfl⟩ fun _ => alive⟩
    · rename_i other
      cases returned
      cases moved
      exact ⟨_, rfl, vigilant_scan h may' ⟨rfl, rfl⟩ fun child => absurd child other⟩
  | waitFails =>
    cases returned
    cases moved
    exact ⟨_, rfl, h.stay rfl rfl ⟨rfl, rfl⟩⟩
  | start =>
    simp only [tact] at returned
    split at returned <;> cases returned
    cases moved
    refine ⟨_, rfl, vigilant_run h (h.free may.2) (fun q ne => ?_) ?_ ?_ (setLock_same s .ptable (some p)) rfl⟩
    · rw [setNcli_procs, setProc_ne _ _ ne, setLock_procs]
    · rw [setNcli_procs, setProc_same, setLock_procs]
    · rw [setNcli_procs, setProc_same]
  | panic m => exact r.elim

end Espl.Sched
