import Espl.Sched.Sleep

/-!
# Rules for callers

Rules for steps to which scheduling means nothing give rules for what code outside `proc.c` does.
-/

namespace Espl.Sched

variable {X T : Type}

def Step.scheduling : Step X → Bool
  | .acquire l => l == .ptable
  | .release l => l == .ptable
  | .get => false
  | .upd _ => false
  | .stop => false
  | _ => true

structure Neutral (R : Rules (signature X) T) : Prop where
  allowed : ∀ u e, e.scheduling = true → R.allowed u e
  same : ∀ u e r u', e.scheduling = true → R.moves u e r u' → u' = u

namespace Neutral

variable {R : Rules (signature X) T} {u : T} {α : Type} {Q : α → T → Prop}

theorem keeps_step {e : Step X} {f : Answer e → Code X α} (h : Neutral R) (scheduling : e.scheduling = true)
    (rest : ∀ r, R.Keeps (f r) u Q) : R.Keeps (step e >>= f) u Q := by
  refine Rules.keeps_step (h.allowed u e scheduling) fun r u' moved => ?_
  rw [h.same u e r u' scheduling moved]
  exact rest r

theorem keeps_last {e : Step X} (h : Neutral R) (scheduling : e.scheduling = true) :
    R.Keeps (step e) u fun _ u' => u' = u :=
  Rules.keeps_last (h.allowed u e scheduling) fun r u' => h.same u e r u' scheduling

theorem keeps_wakeup1_loop (h : Neutral R) (chan : Chan) (q n : Nat) :
    R.Keeps (wakeup1.loop chan q n) u fun _ u' => u' = u := by
  induction n generalizing q with
  | zero => rfl
  | succ n ih => exact h.keeps_step rfl fun _ => ih (q + 1)

theorem keeps_kill_loop (h : Neutral R) (pid : Int) (q n : Nat) :
    R.Keeps (kill.loop pid q n) u fun _ u' => u' = u := by
  induction n generalizing q with
  | zero => exact h.keeps_step rfl fun _ => rfl
  | succ n ih =>
    refine h.keeps_step rfl fun found => ?_
    split
    · exact h.keeps_step rfl fun _ => h.keeps_step rfl fun _ => h.keeps_step rfl fun _ => rfl
    · exact ih (q + 1)

theorem keeps_sched (h : Neutral R) : R.Keeps sched u fun _ u' => u' = u :=
  h.keeps_step rfl fun _ => h.keeps_last rfl

theorem keeps_sleep (h : Neutral R) {chan : Chan} {k : Lock} (plain : k ≠ .ptable) (may : R.allowed u (.release k))
    (again : ∀ u', R.moves u (.release k) () u' → R.allowed u' (.acquire k)) :
    R.Keeps (sleep chan k) u fun _ u' => ∃ v, R.moves u (.release k) () v ∧ R.moves v (.acquire k) () u' := by
  unfold sleep
  simp only [if_pos plain]
  refine h.keeps_step rfl fun _ => ?_
  refine Rules.keeps_step may fun _ v moved => ?_
  refine h.keeps_step rfl fun _ => h.keeps_step rfl fun _ => ?_
  refine Rules.keeps_seq h.keeps_sched ?_
  rintro _ _ rfl
  refine h.keeps_step rfl fun _ => h.keeps_step rfl fun _ => ?_
  exact Rules.keeps_last (again _ moved) fun _ u' moved' => ⟨_, moved, moved'⟩

end Neutral

/-- The rules that callers have to respect for the rules of the steps to be kept. -/
def callRules (R : Rules (signature X) T) : Rules (ops X) T where
  allowed u
    | .acquire l => R.allowed u (.acquire l)
    | .release l => R.allowed u (.release l)
    | .get => R.allowed u .get
    | .upd f => R.allowed u (.upd f)
    | .sleep _ l =>
      l ≠ .ptable ∧ R.allowed u (.release l) ∧ ∀ u', R.moves u (.release l) () u' → R.allowed u' (.acquire l)
    | .stop => R.allowed u .stop
    | _ => True
  moves u
    | .acquire l, r, u' => R.moves u (.acquire l) r u'
    | .release l, r, u' => R.moves u (.release l) r u'
    | .get, r, u' => R.moves u .get r u'
    | .upd f, r, u' => R.moves u (.upd f) r u'
    | .sleep _ l, _, u' => ∃ v, R.moves u (.release l) () v ∧ R.moves v (.acquire l) () u'
    | _, _, u' => u' = u

theorem Neutral.keeps_code {R : Rules (signature X) T} (h : Neutral R) {o : Op X} {u : T}
    (may : (callRules R).allowed u o) : R.Keeps o.code u fun r u' => (callRules R).moves u o r u' := by
  cases o with
  | acquire _ | release _ | get | upd _ => exact Rules.keeps_last may fun _ _ moved => moved
  | sleep chan l => exact h.keeps_sleep may.1 may.2.1 may.2.2
  | wakeup chan =>
    refine h.keeps_step rfl fun _ => ?_
    refine Rules.keeps_seq (h.keeps_wakeup1_loop chan 0 NPROC) ?_
    rintro _ _ rfl
    exact h.keeps_last rfl
  | wakeup1 chan => exact h.keeps_wakeup1_loop chan 0 NPROC
  | killed | mark => exact h.keeps_last rfl
  | yield =>
    refine h.keeps_step rfl fun _ => h.keeps_step rfl fun _ => ?_
    refine Rules.keeps_seq h.keeps_sched ?_
    rintro _ _ rfl
    exact h.keeps_last rfl
  | kill pid => exact h.keeps_step rfl fun _ => h.keeps_kill_loop pid 0 NPROC
  | stop => exact Rules.keeps_last may fun r => r.elim

end Espl.Sched
