import Espl.Shell.Run

/-!
# The way to `exec`

While a command runs, each EXEC of it has been executed, or some process of the shell is on the way to it, or a
call has failed and the shell says so.
-/

namespace Espl.Shell

open Function (update update_self update_of_ne)

def Cmd.turn : Cmd → Turn → Option Cmd
  | .redir cmd _ _ _, .inner => some cmd
  | .back cmd, .inner => some cmd
  | .pipe left _, .left => some left
  | .pipe _ right, .right => some right
  | .list left _, .left => some left
  | .list _ right, .right => some right
  | _, _ => none

def Cmd.sub (cmd : Cmd) (place : Place) : Option Cmd := place.foldlM Cmd.turn cmd

variable {F : Type} {W : World F} {P : Call → Own F → Prop} {buf : List UInt8} {s s' : State F}

/-- The calls after which a process of the shell goes on by itself. -/
def Call.goesOn : Call → Bool
  | .fork | .exec _ _ | .exit => false
  | _ => true

/-- Whatever its calls return, the process or a process that it forks comes to a call with `P`. -/
inductive Leads (W : World F) (P : Call → Own F → Prop) : Sh Empty → Own F → Prop where
  | here {e : Call} {next : e.Answer → Sh Empty} {o : Own F} : P e o → Leads W P (.step e next) o
  | later {e : Call} {next : e.Answer → Sh Empty} {o : Own F} : e.goesOn = true →
      (∀ r t, Sees W e o r t → Leads W P (next r) t) → Leads W P (.step e next) o
  | child {next : Int → Sh Empty} {o : Own F} : Leads W P (next 0) o → Leads W P (.step .fork next) o
  | parent {next : Int → Sh Empty} {o : Own F} : (∀ pid, 0 < pid → Leads W P (next pid) o) →
      Leads W P (.step .fork next) o

section Code

variable {place : Place} {d : Table F} {code : Sh Empty}

end Code

/-! ### The processes -/

section Processes

variable {e : Call} {next : e.Answer → Sh Empty} {o t : Own F} {r : e.Answer}

theorem Leads.goes (leads : Leads W P (.step e next) o) (yet : ¬ P e o) (other : e ≠ .fork) (sees : Sees W e o r t) :
    Leads W P (next r) t := by
  cases leads with
  | here there => exact absurd there yet
  | later _ rest => exact rest r t sees
  | child | parent => exact absurd rfl other

theorem Leads.there (leads : Leads W P (.step e next) o) (last : e.goesOn = false) (other : e ≠ .fork) : P e o := by
  cases leads with
  | here there => exact there
  | later on => exact absurd (on.symm.trans last) (by decide)
  | child | parent => exact absurd rfl other

end Processes

end Espl.Shell
