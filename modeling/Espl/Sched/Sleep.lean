import Espl.Sched.Watch

/-!
# No lost wakeups

The code of `sleep`, `wakeup`, `yield` and `kill` follows the rules of `Watch`, whoever calls it. Then a
process asleep on the channel with the condition true means that a `wakeup` is still to come.
-/

namespace Espl.Sched

open Function (update update_self update_of_ne update_eq_self update_idem)
open Rules (keeps_step keeps_seq keeps_mono keeps_last)

variable {X : Type}

inductive Op (X : Type) where
  | acquire (l : Lock)
  | release (l : Lock)
  | get
  | upd (f : X → X)
  | sleep (chan : Chan) (lk : Lock)
  | wakeup (chan : Chan)
  | wakeup1 (chan : Chan)
  | killed
  | yield
  | kill (pid : Int)
  | mark
  | stop

@[reducible] def Op.Answer : Op X → Type
  | .get => X
  | .killed => Bool
  | .kill _ => Int
  | .stop => Empty
  | _ => Unit

abbrev ops (X : Type) : Signature := ⟨Op X, Op.Answer⟩

def Op.code : (o : Op X) → Code X (Op.Answer o)
  | .acquire l => Sched.acquire l
  | .release l => Sched.release l
  | .get => step .get
  | .upd f => step (.upd f)
  | .sleep chan lk => Sched.sleep chan lk
  | .wakeup chan => Sched.wakeup chan
  | .wakeup1 chan => Sched.wakeup1 chan
  | .killed => step .killed
  | .yield => Sched.yield
  | .kill pid => Sched.kill pid
  | .mark => step .mark
  | .stop => step .stop

/-- Does the caller hold the lock and `ptable.lock`, has it found the condition false since it took the
lock, and does it have to call `wakeup`. -/
structure Held where
  lk : Bool := false
  pt : Bool := false
  calm : Bool := false
  due : Bool := false

namespace Watch

variable (W : Watch X)

def hold (l : Lock) (u : Held) : Held := { u with lk := u.lk || l == W.lk, pt := u.pt || l == .ptable }

def leave (l : Lock) (u : Held) : Held :=
  { u with lk := u.lk && l != W.lk, pt := u.pt && l != .ptable, calm := u.calm && l != W.lk }

/-- What callers have to respect: to sleep on the channel only after finding the condition false under
the lock, and to make the condition true only under the lock. -/
def mayCall (u : Held) : Op X → Prop
  | .acquire l => W.prompt → l ≠ .ptable
  | .release l => W.prompt → l = W.lk → u.due = false
  | .upd f => u.lk = true ∨ W.Quiet f
  | .sleep chan lk =>
    (chan = W.chan → lk = W.lk ∧ u.calm = true) ∧ (lk = .ptable → u.pt = true) ∧
      (W.prompt → lk ≠ .ptable ∧ (lk = W.lk → u.due = false ∧ (u.calm = true → chan = W.chan)))
  | .wakeup1 _ => u.pt = true
  | .mark => W.prompt
  | _ => True

def afterCall (u : Held) : (o : Op X) → Op.Answer o → Held → Prop
  | .acquire l, _, u' => u' = W.hold l u
  | .release l, _, u' => u' = W.leave l u
  | .get, x, u' => u' = { u with calm := u.lk && !W.cond x }
  | .upd f, _, u' => (W.Quiet f ∧ u' = { u with calm := false }) ∨ ¬ W.Quiet f ∧
      u' = { u with calm := false, due := true }
  | .sleep _ lk, _, u' => u' = { W.hold lk (W.leave .ptable u) with calm := false }
  | .wakeup chan, _, u' => u' = { W.leave .ptable u with due := u.due && chan != W.chan }
  | .wakeup1 chan, _, u' => u' = { u with due := u.due && chan != W.chan }
  | .killed, _, u' => u' = u
  | .yield, _, u' => u' = { W.leave .ptable u with calm := false }
  | .kill _, _, u' => u' = W.leave .ptable u
  | .mark, _, u' => W.marked ∧ u' = { u with due := false } ∨ ¬ W.marked ∧ u' = u
  | .stop, _, _ => False

def callers : Rules (ops X) Held := ⟨W.mayCall, W.afterCall⟩

/-- A caller starts and ends without locks and without a wakeup to do. -/
def Follows (body : Program (ops X) Unit) : Prop :=
  W.callers.Keeps body {} fun _ u => u.lk = false ∧ u.pt = false ∧ u.due = false

def calls (p : Nat) (_ : State X) (current prog : Code X Unit) : Prop :=
  p < NPROC ∧ current = .done () ∧ ∃ body, W.Follows body ∧ prog = body.interp Op.code

structure Fits (u : Held) (t : Local) : Prop where
  lk : t.lk = u.lk
  pt : t.pt = u.pt
  calm : t.sight = .no ↔ u.calm = true
  gone : W.prompt → t.sight ≠ .gone
  down : t.down = false
  due : t.due = true → u.due = true

def Rests (t : Local) : Prop := t.lk = false ∧ t.pt = false ∧ t.down = false ∧ t.due = false

variable {W} {p : Nat} {u : Held} {t : Local}

theorem Fits.take (h : W.Fits u t) (l : Lock) : W.Fits (W.hold l u) (W.take l t) :=
  ⟨by simp [Watch.take, hold, h.lk], by simp [Watch.take, hold, h.pt], h.calm, h.gone, h.down, h.due⟩

theorem Fits.drop (h : W.Fits u t) (l : Lock) (single : W.prompt → l = W.lk → l ≠ .ptable → t.pt = false) :
    W.Fits (W.leave l u) (W.drop l t) where
  lk := by simp [Watch.drop, leave, h.lk]
  pt := by simp [Watch.drop, leave, h.pt]
  calm := by
    rw [drop_no, h.calm]
    simp [leave, and_comm]
  gone prompt now := by
    have not_gone := h.gone prompt
    have not_held := single prompt
    simp only [Watch.drop] at now
    (repeat' split at now) <;> simp_all
  down := h.down
  due := h.due

theorem keeps_wakeup1_loop {chan : Chan} (n : Nat) {q : Nat} (end_ : q + n = NPROC) (down : t.down = false)
    (ready : W.prompt → t.sight ≠ .gone) (held : t.pt = true) (from_ : chan = W.chan → q ≤ t.scan) :
    (W.rules p).Keeps (wakeup1.loop chan q n) t fun _ t' =>
      t'.lk = t.lk ∧ t'.pt = true ∧ (t'.sight = .no ↔ t.sight = .no) ∧ (W.prompt → t'.sight ≠ .gone) ∧
        t'.down = false ∧ (t'.due = true → t.due = true ∧ (0 < n → chan ≠ W.chan)) := by
  induction n generalizing q t with
  | zero => exact ⟨rfl, held, Iff.rfl, ready, down, fun due => ⟨due, fun pos => absurd pos (by decide)⟩⟩
  | succ n ih =>
    refine ⟨⟨down, ready, held⟩, ?_⟩
    rintro _ t' rfl
    by_cases scans : chan = W.chan ∧ q ≤ t.scan
    · have woke : W.woke q chan t = { t with
          sight := if t.sight = .gone then .unknown else t.sight
          scan := max t.scan (q + 1)
          due := t.due && q + 1 != NPROC } := if_pos scans
      have no : (if t.sight = .gone then Sight.unknown else t.sight) = .no ↔ t.sight = .no := by
        split <;> simp_all
      have gone : (if t.sight = .gone then Sight.unknown else t.sight) ≠ .gone := by
        split <;> simp_all
      rw [woke]
      refine keeps_mono (ih (by omega) down (fun _ => gone) held fun _ => Nat.le_max_right ..) ?_
      rintro _ t' ⟨lk, pt, calm, ready', down', due⟩
      refine ⟨lk, pt, calm.trans no, ready', down', fun now => ⟨?_, fun _ => ?_⟩⟩
      · have := (due now).1
        simp only [Bool.and_eq_true] at this
        exact this.1
      · -- the last round of the scan clears the flag
        rcases Nat.eq_zero_or_pos n with zero | pos
        · have := (due now).1
          simp only [Bool.and_eq_true, bne_iff_ne] at this
          omega
        · exact (due now).2 pos
    · have woke : W.woke q chan t = t := if_neg scans
      have other : chan ≠ W.chan := fun same => scans ⟨same, from_ same⟩
      rw [woke]
      refine keeps_mono (ih (by omega) down ready held fun same => absurd same other) ?_
      rintro _ t' ⟨lk, pt, calm, ready', down', due⟩
      exact ⟨lk, pt, calm, ready', down', fun now => ⟨(due now).1, fun _ => other⟩⟩

theorem keeps_wakeup1 (h : W.Fits u t) (held : t.pt = true) (chan : Chan) :
    (W.rules p).Keeps (wakeup1 chan) t fun _ t' => W.Fits { u with due := u.due && chan != W.chan } t' := by
  refine keeps_mono (keeps_wakeup1_loop NPROC (Nat.zero_add _) h.down h.gone held fun _ => Nat.zero_le _) ?_
  rintro _ t' ⟨lk, pt, calm, gone, down, due⟩
  refine ⟨lk.trans h.lk, pt.trans (held.symm.trans h.pt), calm.trans h.calm, gone, down, fun now => ?_⟩
  simp [h.due (due now).1, (due now).2 (by decide)]

/-! ### Every call keeps the rules -/

theorem keeps_acquire {α : Type} {l : Lock} {f : Unit → Code X α} {Q : α → Local → Prop} (h : W.Fits u t)
    (rest : W.Fits (W.hold l u) (W.take l t) → (W.rules p).Keeps (f ()) (W.take l t) Q) :
    (W.rules p).Keeps (acquire l >>= f) t Q :=
  keeps_step ⟨h.down, h.gone⟩ fun _ _ moved => moved ▸ rest (h.take l)

theorem keeps_release {l : Lock} {Q : Unit → Local → Prop} (h : W.Fits u t)
    (paid : W.prompt → l = W.lk → u.due = false) (single : W.prompt → l = W.lk → l ≠ .ptable → t.pt = false)
    (post : ∀ t', W.Fits (W.leave l u) t' → Q () t') : (W.rules p).Keeps (release l) t Q := by
  refine ⟨⟨h.down, h.gone, fun prompt same => ?_⟩, fun _ _ moved => moved ▸ post _ (h.drop l single)⟩
  cases due : t.due with
  | false => rfl
  | true => rw [← paid prompt same, h.due due]

theorem leave_hold (u : Held) : W.leave .ptable (W.hold .ptable u) = W.leave .ptable u := by
  simp only [hold, leave]
  by_cases same : Lock.ptable = W.lk
  · simp [← same]
  · simp [beq_eq_false_iff_ne.mpr same]

theorem keeps_wakeup (apart : W.prompt → W.lk ≠ .ptable) (h : W.Fits u t) (chan : Chan) :
    (W.rules p).Keeps (wakeup chan) t fun _ t' =>
      W.Fits { W.leave .ptable u with due := u.due && chan != W.chan } t' := by
  refine keeps_acquire h fun took => ?_
  refine keeps_seq (keeps_wakeup1 took (by simp [Watch.take]) chan) fun _ t' woken => ?_
  refine keeps_release woken (fun prompt same => absurd same.symm (apart prompt)) (fun _ _ ne => absurd rfl ne) ?_
  intro t' left
  rw [← leave_hold]
  exact left

theorem keeps_kill_loop (apart : W.prompt → W.lk ≠ .ptable) (pid : Int) (n q : Nat) (h : W.Fits u t) :
    (W.rules p).Keeps (kill.loop pid q n) t fun _ t' => W.Fits (W.leave .ptable u) t' := by
  have last : ∀ r : Int, (W.rules p).Keeps (release .ptable >>= fun _ => pure r) t
      fun _ t' => W.Fits (W.leave .ptable u) t' := fun r =>
    keeps_seq (keeps_release h (fun prompt same => absurd same.symm (apart prompt))
      (fun _ _ ne => absurd rfl ne) fun _ left => left) fun _ _ left => left
  induction n generalizing q with
  | zero => exact last (-1)
  | succ n ih =>
    refine keeps_step ⟨h.down, h.gone⟩ ?_
    rintro found _ rfl
    split
    · refine keeps_step ⟨h.down, h.gone⟩ ?_
      rintro _ _ rfl
      refine keeps_step ⟨h.down, h.gone⟩ ?_
      rintro _ _ rfl
      exact last 0
    · exact ih (q + 1)

theorem keeps_kill (apart : W.prompt → W.lk ≠ .ptable) (h : W.Fits u t) (pid : Int) :
    (W.rules p).Keeps (kill pid) t fun _ t' => W.Fits (W.leave .ptable u) t' := by
  refine keeps_acquire h fun took => ?_
  rw [← leave_hold]
  exact keeps_kill_loop apart pid NPROC 0 took

theorem keeps_sched {α : Type} {f : Unit → Code X α} {Q : α → Local → Prop}
    (unknown : t.sight = .unknown)
    (rest : ∀ t', W.Fits { W.hold .ptable (W.leave .ptable ⟨t.lk, t.pt, false, t.due⟩) with calm := false } t' →
      t'.pt = true → (W.rules p).Keeps (f ()) t' Q) : (W.rules p).Keeps (sched >>= f) t Q := by
  have ready : W.prompt → t.sight ≠ .gone := fun _ now => by rw [unknown] at now; cases now
  refine keeps_step ready ?_
  rintro _ _ rfl
  refine keeps_step (fun _ => by simp) ?_
  rintro _ _ rfl
  refine rest _ ⟨?_, ?_, ?_, fun _ => ?_, rfl, id⟩ ?_
  all_goals simp [Watch.take, Watch.drop, hold, leave]

theorem Fits.of_eq {u' : Held} (h : W.Fits u t) (lk : u.lk = u'.lk) (pt : u.pt = u'.pt) (calm : u.calm = u'.calm)
    (due : u.due = true → u'.due = true) : W.Fits u' t :=
  ⟨h.lk.trans lk, h.pt.trans pt, calm ▸ h.calm, h.gone, h.down, fun now => due (h.due now)⟩

theorem Fits.setOn (h : W.Fits u t) (on : Bool) : W.Fits u { t with on := on } :=
  ⟨h.lk, h.pt, h.calm, h.gone, h.down, h.due⟩

theorem keeps_fall {α : Type} {chan : Chan} {f : Unit → Code X α} {Q : α → Local → Prop} (lt : p < NPROC)
    (down : t.down = false) (held : t.pt = true) (sees : chan = W.chan → t.sight ≠ .unknown)
    (only : W.prompt → t.sight = .gone → chan = W.chan)
    (rest : ∀ t', W.Fits { W.hold .ptable (W.leave .ptable ⟨t.lk, t.pt, false, t.due⟩) with calm := false } t' →
      (W.rules p).Keeps (f ()) t' Q) :
    (W.rules p).Keeps (step (.setChan chan) >>= fun _ => step (.setState .sleeping) >>= fun _ => sched >>= fun _ =>
      step (.setChan .null) >>= f) t Q := by
  refine keeps_step ⟨down, only⟩ ?_
  rintro _ _ rfl
  refine keeps_step ⟨down, lt, fun _ => ⟨held, fun on => sees (by simpa using on)⟩, fun prompt gone => ?_⟩ ?_
  · exact ⟨rfl, by simpa using only prompt gone⟩
  rintro _ _ rfl
  refine keeps_sched rfl fun t' back _ => ?_
  refine keeps_step ⟨back.down, fun prompt gone => absurd gone (back.gone prompt)⟩ ?_
  rintro _ _ rfl
  exact rest _ (back.setOn _)

theorem keeps_sleep (apart : W.prompt → W.lk ≠ .ptable) (lt : p < NPROC) (h : W.Fits u t)
    {chan : Chan} {lk : Lock} (may : W.mayCall u (.sleep chan lk)) :
    (W.rules p).Keeps (sleep chan lk) t fun _ t' =>
      W.Fits { W.hold lk (W.leave .ptable u) with calm := false } t' := by
  obtain ⟨sees, held, prompt⟩ := may
  unfold sleep
  by_cases same : lk = .ptable
  · subst same
    simp only [ne_eq, not_true_eq_false, if_false]
    refine keeps_fall lt h.down (h.pt.trans (held rfl)) (fun on now => ?_) (fun strict => absurd rfl (prompt strict).1)
      fun t' back => ?_
    · rw [h.calm.mpr (sees on).2] at now
      cases now
    · refine back.of_eq ?_ ?_ rfl h.due
      all_goals simp [hold, leave, h.lk, h.pt]
  · simp only [ne_eq, same, not_false_eq_true, if_true]
    refine keeps_acquire h fun took => keeps_step ⟨took.down, took.gone, fun strict eq => ?_⟩ ?_
    · cases due : t.due with
      | false => exact due
      | true => exact due.trans ((h.due due).symm.trans ((prompt strict).2 eq).1)
    rintro _ _ rfl
    have falls : lk = W.lk → u.calm = true → (W.drop lk (W.take .ptable t)).sight = .gone := by
      intro eq calm
      simp [Watch.drop, Watch.take, same, ← eq, h.calm.mpr calm]
    refine keeps_fall lt took.down (by simp [Watch.drop, Watch.take, same]) (fun on now => ?_) (fun strict now => ?_)
      fun t' back => ?_
    · rw [falls (sees on).1 (sees on).2] at now
      cases now
    · by_cases own : lk = W.lk ∧ u.calm = true
      · exact ((prompt strict).2 own.1).2 own.2
      · have no : ¬ (lk = W.lk ∧ t.sight = .no) := fun both => own ⟨both.1, h.calm.mp both.2⟩
        have kept : (W.drop lk (W.take .ptable t)).sight = t.sight := by
          simp only [Watch.drop, Watch.take, if_neg same]
          exact if_neg no
        exact absurd (kept.symm.trans now) (h.gone strict)
    · refine keeps_step ⟨back.down, back.gone, fun strict eq => absurd eq.symm (apart strict)⟩ ?_
      rintro _ _ rfl
      have left := back.drop .ptable fun _ _ ne => absurd rfl ne
      refine ⟨⟨left.down, left.gone⟩, ?_⟩
      rintro _ _ rfl
      refine (left.take lk).of_eq ?_ ?_ ?_ h.due
      · simp only [hold, leave, Watch.drop, Watch.take, h.lk]
        by_cases eq : Lock.ptable = W.lk
        · simp [← eq]
        · have ne := beq_eq_false_iff_ne.mpr eq
          by_cases mine : lk = W.lk
          · simp [mine]
          · simp [ne, beq_eq_false_iff_ne.mpr mine, bne]
      · simp [hold, leave]
      · simp [hold, leave]

theorem keeps_yield (apart : W.prompt → W.lk ≠ .ptable) (lt : p < NPROC) (h : W.Fits u t) :
    (W.rules p).Keeps yield t fun _ t' => W.Fits { W.leave .ptable u with calm := false } t' := by
  refine keeps_acquire h fun took => keeps_step ⟨took.down, lt, fun now => (by cases now), fun strict gone => ?_⟩ ?_
  · exact absurd gone (took.gone strict)
  rintro _ _ rfl
  refine keeps_sched rfl fun t' back _ => ?_
  refine keeps_release back (fun strict eq => absurd eq.symm (apart strict)) (fun _ _ ne => absurd rfl ne) ?_
  intro t'' left
  refine left.of_eq ?_ ?_ ?_ took.due
  all_goals simp [hold, leave, Watch.take, h.lk, h.pt]
  by_cases eq : Lock.ptable = W.lk
  · simp [← eq]
  · simp [beq_eq_false_iff_ne.mpr eq, bne]

theorem keeps_call (apart : W.prompt → W.lk ≠ .ptable) (lt : p < NPROC) (o : Op X) (h : W.Fits u t)
    (may : W.mayCall u o) (out : W.prompt → u.pt = false) :
    (W.rules p).Keeps o.code t fun r t' => ∃ u', (W.Fits u' t' ∧ (W.prompt → u'.pt = false)) ∧
    W.afterCall u o r u' := by
  have kept : ∀ l, W.prompt → (W.leave l u).pt = false := fun l strict => by simp [leave, out strict]
  cases o with
  | acquire l =>
    refine ⟨⟨h.down, h.gone⟩, ?_⟩
    rintro _ _ rfl
    exact ⟨_, ⟨h.take l, fun strict => by simp [hold, out strict, may strict]⟩, rfl⟩
  | release l =>
    refine keeps_release h may (fun strict _ _ => h.pt.trans (out strict)) fun t' left => ?_
    exact ⟨_, ⟨left, kept l⟩, rfl⟩
  | get =>
    refine ⟨⟨h.down, h.gone⟩, ?_⟩
    rintro x _ rfl
    refine ⟨{ u with calm := u.lk && !W.cond x }, ⟨⟨h.lk, h.pt, ?_, fun _ now => ?_, h.down, h.due⟩, out⟩, rfl⟩
    · simp only [h.lk]
      split <;> simp_all
    · simp only at now
      split at now <;> cases now
  | upd f =>
    refine ⟨⟨h.down, h.gone, may.imp_left h.lk.trans⟩, ?_⟩
    have fits : ∀ due due', (due = true → due' = true) →
        W.Fits { u with calm := false, due := due' } { t with sight := .unknown, due := due } := fun due due' imp =>
      ⟨h.lk, h.pt, by simp, fun _ now => (by cases now), h.down, imp⟩
    intro _ t' moved
    by_cases quiet : W.Quiet f
    · have same : t' = { t with sight := .unknown } := moved.resolve_right fun loud => loud.1 quiet
      subst same
      exact ⟨_, ⟨fits t.due u.due h.due, out⟩, Or.inl ⟨quiet, rfl⟩⟩
    · refine ⟨{ u with calm := false, due := true }, ⟨?_, out⟩, Or.inr ⟨quiet, rfl⟩⟩
      rcases moved with rfl | ⟨_, rfl⟩
      · exact fits t.due true fun _ => rfl
      · exact fits true true id
  | sleep chan lk =>
    refine keeps_mono (keeps_sleep apart lt h may) fun _ t' back => ⟨_, ⟨back, fun strict => ?_⟩, rfl⟩
    simp [hold, leave, (may.2.2 strict).1]
  | wakeup chan =>
    exact keeps_mono (keeps_wakeup apart h chan) fun _ t' woken => ⟨_, ⟨woken, kept .ptable⟩, rfl⟩
  | wakeup1 chan =>
    exact keeps_mono (keeps_wakeup1 h (h.pt.trans may) chan) fun _ t' woken => ⟨_, ⟨woken, out⟩, rfl⟩
  | killed =>
    refine ⟨⟨h.down, h.gone⟩, ?_⟩
    rintro _ _ rfl
    exact ⟨_, ⟨h, out⟩, rfl⟩
  | yield =>
    exact keeps_mono (keeps_yield apart lt h) fun _ t' back => ⟨_, ⟨back, kept .ptable⟩, rfl⟩
  | kill pid =>
    exact keeps_mono (keeps_kill apart h pid) fun _ t' left => ⟨_, ⟨left, kept .ptable⟩, rfl⟩
  | mark =>
    refine ⟨⟨h.down, h.gone may⟩, ?_⟩
    rintro _ _ (⟨marked, rfl⟩ | ⟨unmarked, rfl⟩)
    · exact ⟨{ u with due := false }, ⟨⟨h.lk, h.pt, h.calm, h.gone, h.down, fun now => (by cases now)⟩, out⟩,
        Or.inl ⟨marked, rfl⟩⟩
    · exact ⟨u, ⟨h, out⟩, Or.inr ⟨unmarked, rfl⟩⟩
  | stop => exact ⟨⟨h.down, h.gone⟩, nofun⟩

theorem reachable_inv {A : Threads (signature X) (State X) → Nat → Step X → Prop} {s : State X}
    {c : Threads (signature X) (State X)} (apart : W.prompt → W.lk ≠ .ptable)
    (awake : ∀ p, (s.procs p).state ≠ .sleeping)
    (run : Threads.Reachable (machine X) W.calls A (.initial s) c)
    (calm : W.marked → ∀ c t p, Threads.Within W.rules W.Inv Rests c t → A c p .mark → ∀ q, ¬ W.Dozes c.state t q) :
    ∃ t, Threads.Within W.rules W.Inv Rests c t := by
  have start : Threads.Within W.rules W.Inv Rests (.initial s)
      fun p => ⟨false, false, .unknown, (s.procs p).chan == W.chan, false, 0, false⟩ := by
    refine ⟨⟨fun p => ?_, fun p dozes _ => ?_⟩, fun p => ⟨rfl, rfl, rfl, rfl⟩⟩
    · exact ⟨fun h => (by cases h), fun h => (by cases h), fun h => (by cases h), fun h => (by cases h), beq_iff_eq,
        fun now => absurd now (awake p), fun h => (by cases h), fun q h => (by cases h), fun _ h => (by cases h)⟩
    · rcases dozes with now | now
      · exact absurd now.1 (awake p)
      · cases now
  refine Threads.reachable_within run start (fun c t p prog within call => ?_)
    fun c t p e next r s within at_step may meets returned => ?_
  · obtain ⟨lt, idle, body, follows, rfl⟩ := call
    obtain ⟨lk, pt, down, due⟩ := within.rests idle
    have fits : W.Fits {} { t p with sight := .unknown } :=
      ⟨lk, pt, by simp, fun _ now => (by cases now), down, fun now => by simp [due] at now⟩
    refine ⟨_, keeps_mono (Rules.keeps_interp (L := fun u t => W.Fits u t ∧ (W.prompt → u.pt = false))
      follows ⟨fits, fun _ => rfl⟩ fun o u t may fits => keeps_call apart lt o fits.1 may fits.2) ?_, within.1.forget⟩
    rintro _ t' ⟨u, ⟨fits, _⟩, lk, pt, due⟩
    refine ⟨fits.lk.trans lk, fits.pt.trans pt, fits.down, ?_⟩
    cases owes : t'.due with
    | false => rfl
    | true => exact (fits.due owes).symm.trans due
  · refine inv_step within.1 apart may (fun marked mark => ?_) returned
    subst mark
    exact calm marked c t p within meets

end Watch

/-! ### Wakeups to come -/

/-- Whatever happens, `prog` will finish a scan of `wakeup1` on `chan`. -/
def Owes {α : Type} (chan : Chan) : Code X α → Prop
  | .done _ => False
  | .step e next => e = .wake (NPROC - 1) chan ∨ ∀ r, Owes chan (next r)

theorem owes_of_due {W : Watch X} {p : Nat} {prog : Code X Unit} {t : Local} (unmarked : ¬ W.marked)
    (keeps : (W.rules p).Keeps prog t fun _ t => Watch.Rests t) (due : t.due = true) : Owes W.chan prog := by
  induction prog generalizing t with
  | done a =>
    have paid := keeps.2.2.2
    rw [due] at paid
    cases paid
  | step e next ih =>
    by_cases pays : e = .wake (NPROC - 1) W.chan
    · exact Or.inl pays
    · refine Or.inr fun r => ?_
      have moved : ∃ t', W.moves t e r t' ∧ t'.due = true := by
        cases e with
        | wake q chan =>
          refine ⟨_, rfl, ?_⟩
          unfold Watch.woke
          split
          · rename_i scans
            have more : q + 1 ≠ NPROC := by
              rintro last
              exact pays (by rw [scans.1, ← last]; rfl)
            simp [due, more]
          · exact due
        | mark => exact ⟨_, Or.inr ⟨unmarked, rfl⟩, due⟩
        | stop => exact r.elim
        | upd f => exact ⟨_, Or.inl rfl, due⟩
        | _ => exact ⟨_, rfl, due⟩
      obtain ⟨t', moves, due'⟩ := moved
      exact ih r (keeps.2 r t' moves) due'

/-- No process sleeps on the channel with the condition true and the lock free unless some process is
still to do its `wakeup`. -/
theorem no_lost_wakeup (lk : Lock) (cond : X → Bool) (chan : Chan) {s : State X}
    {c : Threads (signature X) (State X)} (awake : ∀ p, (s.procs p).state ≠ .sleeping)
    (run : Threads.Reachable (machine X) (Watch.calls ⟨lk, cond, chan, False, False⟩) (fun _ _ _ => True)
      (.initial s) c) :
    ¬ ∃ p, c.state.Asleep chan p ∧ cond c.state.data = true ∧ c.state.lock lk = none ∧
      ∀ q, ¬ Owes chan (c.thread q) := by
  rintro ⟨p, asleep, yes, _, nobody⟩
  let W : Watch X := ⟨lk, cond, chan, False, False⟩
  obtain ⟨t, within⟩ := Watch.reachable_inv (W := W) False.elim awake run False.elim
  obtain ⟨q, due⟩ := within.1.pending p (Or.inl asleep) yes
  exact nobody q (owes_of_due (W := W) not_false (within.2 q) due)

/-! ### Waiters and wakers -/

def op (o : Op X) : Program (ops X) (Op.Answer o) := .step o .done

/-- `while(!cond) sleep(chan, lk); release(lk)`, cut off after `n` looks at the condition. -/
def waiter.loop (lk : Lock) (cond : X → Bool) (chan : Chan) : Nat → Program (ops X) Unit
  | 0 => .step .stop nofun
  | n + 1 => do
    let x : X ← op .get
    if cond x then op (.release lk)
    else do
      op (.sleep chan lk)
      waiter.loop lk cond chan n

def waiter (lk : Lock) (cond : X → Bool) (chan : Chan) (n : Nat) : Program (ops X) Unit := do
  op (.acquire lk)
  waiter.loop lk cond chan n

def wakeUnder (lk : Lock) (chan : Chan) : Program (ops X) Unit :=
  if lk = .ptable then op (.wakeup1 chan) else op (.wakeup chan)

/-- `acquire(lk); f; wakeup(chan); release(lk)`, or the last two the other way round. -/
def waker (lk : Lock) (chan : Chan) (f : X → X) (before : Bool) : Program (ops X) Unit := do
  op (.acquire lk)
  op (.upd f)
  if before then do
    wakeUnder lk chan
    op (.release lk)
  else do
    op (.release lk)
    op (.wakeup chan)

section

variable (lk : Lock) (cond : X → Bool) (chan : Chan)

def Held.Inside (lk : Lock) (u : Held) : Prop := u.lk = true ∧ u.pt = (lk == .ptable)

theorem leave_inside {u : Held} (h : u.Inside lk) :
    ((Watch.mk lk cond chan False False).leave lk u).lk = false ∧
    ((Watch.mk lk cond chan False False).leave lk u).pt = false := by
  simp [Watch.leave, h.2, bne]

theorem follows_waiter (n : Nat) : (Watch.mk lk cond chan False False).Follows (waiter lk cond chan n) := by
  have leaves : ∀ u : Held, u.Inside lk → u.due = false →
      (Watch.mk lk cond chan False False).callers.Keeps (op (.release lk)) u
        fun _ u => u.lk = false ∧ u.pt = false ∧ u.due = false := by
    intro u inside paid
    refine ⟨False.elim, ?_⟩
    rintro _ _ rfl
    exact ⟨(leave_inside lk cond chan inside).1, (leave_inside lk cond chan inside).2, paid⟩
  have loop : ∀ n u, Held.Inside lk u → u.due = false →
      (Watch.mk lk cond chan False False).callers.Keeps (waiter.loop lk cond chan n) u
        fun _ u => u.lk = false ∧ u.pt = false ∧ u.due = false := by
    intro n
    induction n with
    | zero => exact fun _ _ _ => ⟨trivial, nofun⟩
    | succ n ih =>
      intro u inside paid
      refine keeps_step trivial ?_
      rintro (x : X) _ rfl
      split
      · exact leaves _ inside paid
      · rename_i no
        refine keeps_step ⟨fun _ => ⟨rfl, by simp [inside.1, no]⟩, fun eq => by simp [inside.2, eq], False.elim⟩ ?_
        rintro _ _ rfl
        exact ih _ ⟨by simp [Watch.hold], by simp [Watch.hold, Watch.leave, inside.2]⟩ paid
  refine ⟨False.elim, ?_⟩
  rintro _ _ rfl
  exact loop n _ ⟨by simp [Watch.hold], by simp [Watch.hold]⟩ rfl

theorem follows_waker (f : X → X) (before : Bool) :
    (Watch.mk lk cond chan False False).Follows (waker lk chan f before) := by
  refine keeps_step False.elim ?_
  rintro _ _ rfl
  refine keeps_step (Or.inl (by simp [Watch.hold])) ?_
  intro _ u made
  have inside : u.Inside lk := by
    rcases made with ⟨_, rfl⟩ | ⟨_, rfl⟩ <;> simp [Held.Inside, Watch.hold]
  cases before with
  | true =>
    rw [if_pos rfl, wakeUnder]
    by_cases same : lk = .ptable
    · rw [if_pos same]
      refine keeps_step (inside.2.trans (by simp [same])) ?_
      rintro _ _ rfl
      refine keeps_last False.elim ?_
      rintro _ _ rfl
      exact ⟨by simp [Watch.leave], by simp [Watch.leave, inside.2, bne], by simp [Watch.leave]⟩
    · rw [if_neg same]
      refine keeps_step trivial ?_
      rintro _ _ rfl
      refine keeps_last False.elim ?_
      rintro _ _ rfl
      exact ⟨by simp [Watch.leave], by simp [Watch.leave, inside.2, bne], by simp [Watch.leave]⟩
  | false =>
    rw [if_neg Bool.false_ne_true]
    refine keeps_step False.elim ?_
    rintro _ _ rfl
    refine keeps_last trivial ?_
    rintro _ _ rfl
    exact ⟨by simp [Watch.leave], by simp [Watch.leave], by simp⟩

end

/-- Two processes: one sleeps until a flag is set, the other has set it and is about to call `wakeup`. -/
theorem no_lost_wakeup_late :
    ∃ s : State Bool, ∃ c, (∀ p, (s.procs p).state ≠ .sleeping) ∧
      Threads.Reachable (machine Bool) (Watch.calls ⟨.other 0, id, .data 0, False, False⟩) (fun _ _ _ => True)
        (.initial s) c ∧
      c.state.Asleep (.data 0) 0 ∧ c.state.data = true ∧ c.state.lock (.other 0) = none ∧
      ∃ q, Owes (.data 0) (c.thread q) := by
  let s : State Bool :=
    ⟨fun _ => none, fun _ => 0, fun p => { state := .running, chan := .null, killed := false, pid := p + 1 }, false⟩
  let waits : Code Bool Unit := (waiter (.other 0) id (.data 0) 1).interp Op.code
  let wakes : Code Bool Unit := (waker (.other 0) (.data 0) (fun _ => true) false).interp Op.code
  let W : Watch Bool := ⟨.other 0, id, .data 0, False, False⟩
  have first : W.calls 0 s (.done ()) waits := ⟨by decide, rfl, _, follows_waiter (.other 0) id (.data 0) 1, rfl⟩
  have second : W.calls 1 s (.done ()) wakes :=
    ⟨by decide, rfl, _, follows_waker (.other 0) id (.data 0) (fun _ => true) false, rfl⟩
  have start : Threads.Reachable (machine Bool) W.calls (fun _ _ _ => True) (.initial s) _ :=
    (Threads.Reachable.call (Relation.ReflTransGen.refl) first).call second
  obtain ⟨c, turns, asleep, set, free⟩ : ∃ c, Threads.schedule (machine Bool) (fun _ => true) [(0, 7), (1, 3)]
      ⟨s, update (update (fun _ => .done ()) 0 waits) 1 wakes⟩ = some c ∧
      c.state.Asleep (.data 0) 0 ∧ c.state.data = true ∧ c.state.lock (.other 0) = none :=
    ⟨_, rfl, ⟨rfl, rfl⟩, rfl, rfl⟩
  have run := start.trans (Threads.reachable_schedule (fun _ _ _ _ => trivial) turns)
  refine ⟨s, c, fun _ h => (by cases h), run, asleep, set, free, ?_⟩
  by_contra nobody
  exact no_lost_wakeup (.other 0) id (.data 0) (fun _ h => (by cases h)) run ⟨0, asleep, set, free,
    not_exists.mp nobody⟩

end Espl.Sched
