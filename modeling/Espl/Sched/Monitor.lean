import Espl.Program.History
import Espl.Sched.Calls

/-!
# Data under a lock

Processes work on data only while they hold its lock. Then each of them can reason as if it were alone
between taking the lock and releasing it: it finds an invariant of the data and the history there and
has to restore it. In between it relies on what the others leave alone.
-/

namespace Espl.Sched

open Function (update update_of_ne update_eq_self)

variable {X N L : Type}

/-- A lock and what is known of the data under it. The invariant `inv` holds while nobody has the lock,
`always` after every step, and `rely p` says what processes other than `p` can do. What is noted happens
under the assumption `assume`. -/
structure Monitor (X N L : Type) where
  lk : Lock
  log : N → X → L → L
  inv : X → L → Prop
  always : X → L → Prop
  rely : Nat → X × L → X × L → Prop
  assume : N → X → L → Prop := fun _ _ _ => True
  plain : lk ≠ .ptable
  rely_refl : ∀ p y, rely p y y
  rely_trans : ∀ p y z w, rely p y z → rely p z w → rely p y w

/-- Does the process have the lock, and the data and history as it last saw them. -/
structure Hold (X L : Type) where
  held : Bool
  data : X
  past : L

namespace Monitor

variable (W : Monitor X N L)

def MayChange (p : Nat) (u : Hold X L) (x : X) (l : L) : Prop :=
  u.held = true ∧ W.always x l ∧ ∀ q, q ≠ p → W.rely q (u.data, u.past) (x, l)

def Proper (u : Hold X L) : Prop := u.held = true ∧ W.inv u.data u.past

def Entered (p : Nat) (u u' : Hold X L) : Prop :=
  W.Proper u' ∧ W.always u'.data u'.past ∧ W.rely p (u.data, u.past) (u'.data, u'.past)

def left (u : Hold X L) : Hold X L := { u with held := false }

def allowed (p : Nat) (u : Hold X L) : Noted (signature X) N → Prop
  | .act (.release l) => l = W.lk → W.Proper u
  | .act (.upd f) => W.MayChange p u (f u.data) u.past
  | .note n => u.held = true ∧ (W.assume n u.data u.past → W.MayChange p u u.data (W.log n u.data u.past))
  | _ => True

def moves (p : Nat) (u : Hold X L) : (e : Noted (signature X) N) → Noted.Answer e → Hold X L → Prop
  | .act (.acquire l), _, u' => if l = W.lk then W.Entered p u u' else u' = u
  | .act (.release l), _, u' => u' = if l = W.lk then left u else u
  | .act .get, x, u' => (u.held = true → x = u.data) ∧ u' = u
  | .act (.upd f), _, u' => u' = { u with data := f u.data }
  | .note n, _, u' => W.assume n u.data u.past ∧ u' = { u with past := W.log n u.data u.past }
  | _, _, u' => u' = u

def rules (p : Nat) : Rules ((signature X).noted N) (Hold X L) := ⟨W.allowed p, W.moves p⟩

structure Sound (s : State X × L) (t : Nat → Hold X L) : Prop where
  holder : ∀ p, (t p).held = true ↔ s.1.lock W.lk = some p
  own : ∀ p, (t p).held = true → (t p).data = s.1.data ∧ (t p).past = s.2
  seen : ∀ p, W.rely p ((t p).data, (t p).past) (s.1.data, s.2)
  free : s.1.lock W.lk = none → W.inv s.1.data s.2
  always : W.always s.1.data s.2

end Monitor

variable {W : Monitor X N L} {s : State X} {l : L} {t : Nat → Hold X L} {p : Nat}

namespace Monitor.Sound

theorem frame {s' : State X} (h : W.Sound (s, l) t) (lock : s'.lock W.lk = s.lock W.lk) (data : s'.data = s.data) :
    W.Sound (s', l) (update t p (t p)) := by
  rw [update_eq_self]
  refine ⟨fun q => ?_, fun q => ?_, fun q => ?_, fun free => ?_, ?_⟩
  · rw [h.holder, lock]
  · rw [data]
    exact h.own q
  · rw [data]
    exact h.seen q
  · rw [data]
    exact h.free (lock ▸ free)
  · rw [data]
    exact h.always

theorem acquire {s' : State X} (h : W.Sound (s, l) t) (free : s.lock W.lk = none)
    (lock : s'.lock W.lk = some p) (data : s'.data = s.data) :
    W.Entered p (t p) ⟨true, s.data, l⟩ ∧ W.Sound (s', l) (update t p ⟨true, s.data, l⟩) := by
  have idle : ∀ q, (t q).held ≠ true := fun q held => by
    rw [h.holder, free] at held
    cases held
  refine ⟨⟨⟨rfl, h.free free⟩, h.always, h.seen p⟩, ?_, ?_, ?_, ?_, ?_⟩
  · intro q
    by_cases same : q = p
    · subst same
      simp [lock]
    · rw [update_of_ne same, lock]
      exact ⟨fun held => absurd held (idle q), fun eq => absurd (Option.some.inj eq).symm same⟩
  · intro q held
    by_cases same : q = p
    · subst same
      simp [data]
    · rw [update_of_ne same] at held
      exact absurd held (idle q)
  · intro q
    rw [data]
    by_cases same : q = p
    · subst same
      simpa using W.rely_refl q _
    · simpa only [update_of_ne same] using h.seen q
  · intro none
    rw [lock] at none
    cases none
  · rw [data]
    exact h.always

theorem release {s' : State X} (h : W.Sound (s, l) t) (proper : W.Proper (t p))
    (lock : s'.lock W.lk = none) (data : s'.data = s.data) :
    W.Sound (s', l) (update t p (left (t p))) := by
  have mine := (h.holder p).mp proper.1
  obtain ⟨data_eq, past_eq⟩ := h.own p proper.1
  have idle : ∀ q, (update t p (left (t p)) q).held = false := by
    intro q
    by_cases same : q = p
    · subst same
      simp [left]
    · rw [update_of_ne same, Bool.eq_false_iff]
      intro held
      rw [h.holder, mine] at held
      exact same (Option.some.inj held).symm
  refine ⟨fun q => ?_, fun q held => ?_, fun q => ?_, fun _ => ?_, ?_⟩
  · simp [idle q, lock]
  · simp [idle q] at held
  · rw [data]
    by_cases same : q = p
    · subst same
      simpa [left] using h.seen q
    · simpa only [update_of_ne same] using h.seen q
  · rw [data]
    simpa only [data_eq, past_eq] using proper.2
  · rw [data]
    exact h.always

theorem change {s' : State X} {l' : L} (h : W.Sound (s, l) t) (may : W.MayChange p (t p) s'.data l')
    (lock : s'.lock = s.lock) : W.Sound (s', l') (update t p ⟨(t p).held, s'.data, l'⟩) := by
  have mine := (h.holder p).mp may.1
  obtain ⟨data_eq, past_eq⟩ := h.own p may.1
  have others : ∀ q, q ≠ p → (t q).held ≠ true := by
    intro q ne held
    rw [h.holder, mine] at held
    exact ne (Option.some.inj held).symm
  refine ⟨fun q => ?_, fun q held => ?_, fun q => ?_, fun free => ?_, may.2.1⟩
  · by_cases same : q = p
    · subst same
      simpa [lock, may.1] using mine
    · rw [update_of_ne same, lock]
      exact h.holder q
  · by_cases same : q = p
    · subst same
      simp
    · rw [update_of_ne same] at held
      exact absurd held (others q same)
  · by_cases same : q = p
    · subst same
      simpa using W.rely_refl q _
    · rw [update_of_ne same]
      have changed := may.2.2 q same
      rw [data_eq, past_eq] at changed
      exact W.rely_trans _ _ _ _ (h.seen q) changed
  · rw [lock, mine] at free
    cases free

end Monitor.Sound

theorem sound_step {e : Noted (signature X) N} {r : Noted.Answer e} {s' : State X × L} (h : W.Sound (s, l) t)
    (may : W.allowed p (t p) e) (meets : ∀ n, e = .note n → W.assume n s.data l)
    (act : ((machine X p).noted fun n s => W.log n s.data).act e (s, l) = .returned r s') :
    ∃ u, W.moves p (t p) e r u ∧ W.Sound s' (update t p u) := by
  cases e with
  | note n =>
    cases act
    obtain ⟨data_eq, past_eq⟩ := h.own p may.1
    refine ⟨_, ⟨?_, rfl⟩, ?_⟩
    · rw [data_eq, past_eq]
      exact meets n rfl
    · simp only [Monitor.allowed, data_eq, past_eq] at may ⊢
      exact h.change (may.2 (meets n rfl)) rfl
  | act e =>
    obtain ⟨s', l'⟩ := s'
    rw [Machine.noted_act] at act
    obtain ⟨act, rfl⟩ := act
    cases e with
    | acquire k =>
      obtain ⟨free, rfl⟩ := act_acquire act
      by_cases same : k = W.lk
      · subst same
        have lock : ((s.setLock W.lk (some p)).setNcli p (s.ncli p + 1)).lock W.lk = some p := by simp
        obtain ⟨entered, sound⟩ := h.acquire free lock rfl
        exact ⟨_, (if_pos rfl).mpr entered, sound⟩
      · refine ⟨_, (if_neg same).mpr rfl, h.frame ?_ rfl⟩
        exact setLock_ne s _ (Ne.symm same)
    | release k =>
      obtain ⟨-, rfl⟩ := act_release act
      by_cases same : k = W.lk
      · subst same
        refine ⟨Monitor.left (t p), (if_pos rfl).symm, ?_⟩
        exact h.release (may rfl) (by simp) rfl
      · refine ⟨t p, (if_neg same).symm, h.frame ?_ rfl⟩
        exact setLock_ne s _ (Ne.symm same)
    | setChan _ | setState _ | killed | pid _ | kill _ | mark =>
      cases act
      exact ⟨_, rfl, h.frame rfl rfl⟩
    | sched =>
      obtain ⟨-, rfl⟩ := act_sched act
      exact ⟨_, rfl, h.frame (setLock_ne s _ W.plain) rfl⟩
    | resume =>
      obtain ⟨-, -, rfl⟩ := act_resume act
      exact ⟨_, rfl, h.frame (setLock_ne s _ W.plain) rfl⟩
    | wake q chan =>
      cases act
      refine ⟨_, rfl, h.frame ?_ ?_⟩ <;> unfold State.wake <;> split <;> rfl
    | rouse q =>
      cases act
      refine ⟨_, rfl, h.frame ?_ ?_⟩ <;> unfold State.rouse <;> split <;> rfl
    | get =>
      cases act
      exact ⟨_, ⟨fun held => (h.own p held).1.symm, rfl⟩, h.frame rfl rfl⟩
    | upd f =>
      cases act
      obtain ⟨data_eq, past_eq⟩ := h.own p may.1
      refine ⟨_, rfl, ?_⟩
      simp only [Monitor.allowed, data_eq, past_eq] at may
      have changed := @Monitor.Sound.change _ _ _ W s _ t p { s with data := f s.data } _ h may rfl
      simpa only [data_eq, past_eq] using changed
    | stop => cases act

/-! ### Callers -/

def perform (o : Op X) : Program ((ops X).noted N) (Op.Answer o) := .step (.act o) .done

namespace Monitor

variable (W)

/-- What callers have to respect: to use the data under its lock only, and to restore the invariant
before they release the lock or sleep. -/
def mayCall (p : Nat) (u : Hold X L) : Noted (ops X) N → Prop
  | .act (.release l) => l = W.lk → W.Proper u
  | .act (.sleep _ l) => l ≠ .ptable ∧ (l = W.lk → W.Proper u)
  | .act (.upd f) => W.MayChange p u (f u.data) u.past
  | .note n => u.held = true ∧ (W.assume n u.data u.past → W.MayChange p u u.data (W.log n u.data u.past))
  | _ => True

def afterCall (p : Nat) (u : Hold X L) : (e : Noted (ops X) N) → Noted.Answer e → Hold X L → Prop
  | .act (.acquire l), _, u' => if l = W.lk then W.Entered p u u' else u' = u
  | .act (.release l), _, u' => u' = if l = W.lk then left u else u
  | .act (.sleep _ l), _, u' => if l = W.lk then W.Entered p u u' else u' = u
  | .act .get, x, u' => (u.held = true → x = u.data) ∧ u' = u
  | .act (.upd f), _, u' => u' = { u with data := f u.data }
  | .note n, _, u' => W.assume n u.data u.past ∧ u' = { u with past := W.log n u.data u.past }
  | _, _, u' => u' = u

def callers (p : Nat) : Rules ((ops X).noted N) (Hold X L) := ⟨W.mayCall p, W.afterCall p⟩

def Follows (p : Nat) (body : Program ((ops X).noted N) Unit) : Prop :=
  ∀ u : Hold X L, u.held = false → (W.callers p).Keeps body u fun _ u' => u'.held = false

def plainRules (p : Nat) : Rules (signature X) (Hold X L) :=
  ⟨fun u e => W.allowed p u (.act e), fun u e r u' => W.moves p u (.act e) r u'⟩

end Monitor

variable {u : Hold X L}

theorem Monitor.neutral : Neutral (W.plainRules p) := by
  refine ⟨fun u e scheduling => ?_, fun u e r u' scheduling moved => ?_⟩
  · cases e with
    | release l =>
      rw [show l = .ptable by simpa [Step.scheduling] using scheduling]
      exact fun same => absurd same.symm W.plain
    | upd f => cases scheduling
    | _ => trivial
  · cases e with
    | acquire l | release l =>
      rw [show l = .ptable by simpa [Step.scheduling] using scheduling] at moved
      simpa only [plainRules, moves, if_neg W.plain.symm] using moved
    | get | upd _ | stop => cases scheduling
    | _ => exact moved

theorem Monitor.allowed_call {o : Op X} (may : W.mayCall p u (.act o)) : (callRules (W.plainRules p)).allowed u o := by
  cases o with
  | sleep chan l => exact ⟨may.1, may.2, fun _ _ => trivial⟩
  | release _ | upd _ => exact may
  | _ => trivial

theorem Monitor.moves_call {o : Op X} {r : Op.Answer o} {u' : Hold X L}
    (moved : (callRules (W.plainRules p)).moves u o r u') : W.afterCall p u (.act o) r u' := by
  cases o with
  | sleep chan l =>
    obtain ⟨v, rfl, entered⟩ := moved
    by_cases same : l = W.lk
    · simp only [plainRules, moves, afterCall, if_pos same] at entered ⊢
      exact entered
    · simp only [plainRules, moves, afterCall, if_neg same] at entered ⊢
      exact entered
  | _ => exact moved

theorem keeps_code {e : Noted (ops X) N} (may : W.mayCall p u e) :
    (W.rules p).Keeps (Program.noted Op.code e) u fun r u' => W.afterCall p u e r u' := by
  cases e with
  | note n => exact Rules.keeps_last may fun _ _ same => same
  | act o =>
    refine Rules.keeps_lift ?_
    exact Rules.keeps_mono (Monitor.neutral.keeps_code (Monitor.allowed_call may)) fun _ _ => Monitor.moves_call

theorem Monitor.Follows.keeps {body : Program ((ops X).noted N) Unit} (follows : W.Follows p body)
    (idle : u.held = false) :
    (W.rules p).Keeps (body.interp (Program.noted Op.code)) u fun _ u' => u'.held = false := by
  refine Rules.keeps_mono (Rules.keeps_interp (L := Eq) (follows u idle) rfl ?_) ?_
  · rintro e u _ may rfl
    exact Rules.keeps_mono (keeps_code may) fun r u' after => ⟨u', rfl, after⟩
  · rintro _ u' ⟨_, rfl, done⟩
    exact done

/-! ### Reasoning about one caller -/

section

variable {α : Type} {Q : α → Hold X L → Prop}

theorem Monitor.keeps_acquire {rest : Unit → Program ((ops X).noted N) α}
    (next : ∀ u', W.Entered p u u' → (W.callers p).Keeps (rest ()) u' Q) :
    (W.callers p).Keeps (perform (.acquire W.lk) >>= rest) u Q := by
  refine Rules.keeps_step trivial fun _ u' moved => next u' ?_
  simpa only [Monitor.callers, Monitor.afterCall, if_true] using moved

theorem Monitor.keeps_release {rest : Unit → Program ((ops X).noted N) α} (proper : W.Proper u)
    (next : (W.callers p).Keeps (rest ()) (left u) Q) :
    (W.callers p).Keeps (perform (.release W.lk) >>= rest) u Q := by
  refine Rules.keeps_step (fun _ => proper) fun _ u' moved => ?_
  simp only [Monitor.callers, Monitor.afterCall, if_true] at moved
  rw [moved]
  exact next

theorem Monitor.keeps_sleep {chan : Chan} {rest : Unit → Program ((ops X).noted N) α} (proper : W.Proper u)
    (next : ∀ u', W.Entered p u u' → (W.callers p).Keeps (rest ()) u' Q) :
    (W.callers p).Keeps (perform (.sleep chan W.lk) >>= rest) u Q := by
  refine Rules.keeps_step ⟨W.plain, fun _ => proper⟩ fun _ u' moved => next u' ?_
  simpa only [Monitor.callers, Monitor.afterCall, if_true] using moved

theorem Monitor.keeps_get {rest : X → Program ((ops X).noted N) α} (held : u.held = true)
    (next : (W.callers p).Keeps (rest u.data) u Q) : (W.callers p).Keeps (perform .get >>= rest) u Q := by
  refine Rules.keeps_step trivial ?_
  rintro (x : X) u' ⟨seen, same⟩
  rw [seen held, same]
  exact next

theorem Monitor.keeps_upd {f : X → X} {rest : Unit → Program ((ops X).noted N) α}
    (may : W.MayChange p u (f u.data) u.past) (next : (W.callers p).Keeps (rest ()) { u with data := f u.data } Q) :
    (W.callers p).Keeps (perform (.upd f) >>= rest) u Q := by
  refine Rules.keeps_step may fun _ u' moved => ?_
  rw [show u' = { u with data := f u.data } from moved]
  exact next

theorem Monitor.keeps_note_assuming {n : N} {rest : Unit → Program ((ops X).noted N) α} (held : u.held = true)
    (may : W.assume n u.data u.past → W.MayChange p u u.data (W.log n u.data u.past))
    (next : W.assume n u.data u.past → (W.callers p).Keeps (rest ()) { u with past := W.log n u.data u.past } Q) :
    (W.callers p).Keeps (Program.note n >>= rest) u Q := by
  refine Rules.keeps_step ⟨held, may⟩ fun _ u' moved => ?_
  rw [moved.2]
  exact next moved.1

theorem Monitor.keeps_note {n : N} {rest : Unit → Program ((ops X).noted N) α}
    (may : W.MayChange p u u.data (W.log n u.data u.past))
    (next : (W.callers p).Keeps (rest ()) { u with past := W.log n u.data u.past } Q) :
    (W.callers p).Keeps (Program.note n >>= rest) u Q :=
  keeps_note_assuming may.1 (fun _ => may) fun _ => next

theorem Monitor.keeps_wakeup {chan : Chan} {rest : Unit → Program ((ops X).noted N) α}
    (next : (W.callers p).Keeps (rest ()) u Q) : (W.callers p).Keeps (perform (.wakeup chan) >>= rest) u Q := by
  refine Rules.keeps_step trivial fun _ u' moved => ?_
  rw [show u' = u from moved]
  exact next

theorem Monitor.keeps_killed {rest : Bool → Program ((ops X).noted N) α}
    (next : ∀ killed, (W.callers p).Keeps (rest killed) u Q) : (W.callers p).Keeps (perform .killed >>= rest) u Q := by
  refine Rules.keeps_step trivial fun killed u' moved => ?_
  rw [show u' = u from moved]
  exact next killed

theorem Monitor.follows_kill (pid : Int) : W.Follows p (perform (.kill pid) >>= fun _ => pure ()) := by
  intro u idle
  refine Rules.keeps_step trivial fun _ u' moved => ?_
  rw [show u' = u from moved]
  exact idle

end

/-- In every interleaving of processes that follow the rules the invariant holds while the lock is free. -/
theorem Monitor.reachable {noting : Nat → State X × L → Program ((signature X).noted N) Unit →
      Program ((signature X).noted N) Unit → Prop}
    {A : Threads ((signature X).noted N) (State X × L) → Nat → Noted (signature X) N → Prop}
    {c : Threads ((signature X).noted N) (State X × L)}
    (run : Threads.Reachable (fun p => (machine X p).noted fun n s => W.log n s.data) noting A (.initial (s, l)) c)
    (free : s.lock W.lk = none) (inv : W.inv s.data l) (always : W.always s.data l)
    (meets : ∀ c p n, A c p (.note n) → W.assume n c.state.1.data c.state.2)
    (follow : ∀ p s current prog, noting p s current prog →
      current = .done () ∧ ∃ body, W.Follows p body ∧ prog = body.interp (Program.noted Op.code)) :
    W.always c.state.1.data c.state.2 ∧ (c.state.1.lock W.lk = none → W.inv c.state.1.data c.state.2) := by
  have start : Threads.Within W.rules W.Sound (fun u => u.held = false) (.initial (s, l)) fun _ =>
    ⟨false, s.data, l⟩ := by
    refine ⟨⟨?_, nofun, fun p => W.rely_refl p _, fun _ => inv, always⟩, fun p => rfl⟩
    intro p
    simp [Threads.initial, free]
  obtain ⟨t, sound, _⟩ := Threads.reachable_within run start
    (by
      intro c t p prog within call
      obtain ⟨done, body, follows, rfl⟩ := follow _ _ _ _ call
      have idle := within.rests done
      refine ⟨t p, follows.keeps idle, ?_⟩
      rw [update_eq_self]
      exact within.1)
    (by
      intro c t p e next r s within at_step may met act
      refine sound_step within.1 may (fun n note => meets c p n ?_) act
      rw [← note]
      exact met)
  exact ⟨sound.always, sound.free⟩

end Espl.Sched
