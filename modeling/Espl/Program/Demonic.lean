import Espl.Program.Basic

/-!
# Programs whose steps have several outcomes

`Safe` is what must hold before a program for each of its steps to be in order, whatever the steps before
it have answered.
-/

namespace Espl

variable {G : Signature} {S α β : Type}

abbrev Outcomes (G : Signature) (S : Type) : Type := (e : G.Step) → S → G.Answer e → S → Prop

namespace Program

variable {D : Outcomes G S} {ok : G.Step → S → Prop}

/-- Every step that `p` comes to from `s` meets `ok`, and the end meets `Q`. -/
def Safe (D : Outcomes G S) (ok : G.Step → S → Prop) : Program G α → S → (α → S → Prop) → Prop
  | done a, s, Q => Q a s
  | step e next, s, Q => ok e s ∧ ∀ r t, D e s r t → Safe D ok (next r) t Q

theorem safe_step {e : G.Step} {f : G.Answer e → Program G α} {s : S} {Q : α → S → Prop} (here : ok e s)
    (rest : ∀ r t, D e s r t → (f r).Safe D ok t Q) : (step e done >>= f).Safe D ok s Q := ⟨here, rest⟩

theorem safe_of_all {ok : G.Step → Prop} {p : Program G α} (h : p.All ok) (s : S) :
    p.Safe D (fun e _ => ok e) s fun _ _ => True := by
  induction p generalizing s with
  | done a => trivial
  | step e next ih => exact ⟨h.1, fun r t _ => ih r (h.2 r) t⟩

end Program

end Espl
