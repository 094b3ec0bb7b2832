import Espl.Shell.Run
import Mathlib.Data.List.Induction

/-!
# Redirections

The descriptors with which `runcmd` executes a simple command. The redirections are done from the last one
in the line to the first.
-/

namespace Espl.Shell

open Function

variable {F : Type} {W : World F} {buf : List UInt8} {rs : List Redirection} {words : List Span}

def opens (W : World F) (buf : List UInt8) (r : Redirection) : Option F := W.lookup (r.file.text buf) r.mode

def redirect (W : World F) (buf : List UInt8) (rs : List Redirection) (d : Table F) : Table F :=
  rs.foldr (fun r d => update d r.fd ((opens W buf r).map .opened)) d

def Executing (s : State F) (d : Table F) : Prop :=
  ∃ i p path argv next, s.procs i = some p ∧ p.status = .shell (.step (.exec path argv) next) ∧ p.own.ofile = d

/-- Each descriptor that is redirected refers to the file of the last redirection for it. -/
def LastWins (W : World F) (buf : List UInt8) (rs : List Redirection) (d : Table F) : Prop :=
  ∀ fd r, rs.reverse.find? (·.fd = fd) = some r → d fd = (opens W buf r).map .opened

/-! ### The descriptors -/

theorem redirect_apply (d : Table F) (fd : Nat) : redirect W buf rs d fd =
    match rs.find? (·.fd = fd) with
    | some r => (opens W buf r).map .opened
    | none => d fd := by
  induction rs with
  | nil => rfl
  | cons r rs ih =>
    have step : redirect W buf (r :: rs) d = update (redirect W buf rs d) r.fd ((opens W buf r).map .opened) := rfl
    by_cases here : r.fd = fd
    · subst here
      rw [step, update_self, List.find?_cons_of_pos (by simp)]
    · rw [step, update_of_ne (Ne.symm here), ih, List.find?_cons_of_neg (by simpa using here)]

theorem redirect_concat (r : Redirection) (d : Table F) : redirect W buf (rs ++ [r]) d =
    redirect W buf rs (update d r.fd ((opens W buf r).map .opened)) := by
  unfold redirect
  rw [List.foldr_append]
  rfl

theorem reopened {r : Redirection} {f : F} (d : Table F) (is : opens W buf r = some f) :
    update (update d r.fd none) r.fd (some (File.opened f)) =
      update d r.fd ((opens W buf r).map .opened) := by
  rw [update_idem, is]
  rfl

theorem wrap_concat (r : Redirection) (cmd : Cmd) : wrap (rs ++ [r]) cmd = .redir (wrap rs cmd) r.file r.mode r.fd := by
  unfold wrap
  rw [List.foldl_append]
  rfl

/-- The first redirection for a descriptor is the one that counts. -/
theorem lastWins_redirect_iff (d : Table F) : LastWins W buf rs (redirect W buf rs d) ↔
    ∀ fd r r', rs.find? (·.fd = fd) = some r → rs.reverse.find? (·.fd = fd) = some r' →
      opens W buf r = opens W buf r' := by
  have injective : Injective (Option.map (@File.opened F)) := Option.map_injective fun _ _ => File.opened.inj
  constructor
  · intro wins fd r r' first last
    have is := wins fd r' last
    rw [redirect_apply, first] at is
    exact injective is
  · intro same fd r' last
    have found : (rs.find? (·.fd = fd)).isSome = true :=
      List.find?_isSome.mpr ⟨r', List.mem_reverse.mp (List.mem_of_find?_eq_some last),
        by simpa using List.find?_some last⟩
    obtain ⟨r, first⟩ := Option.isSome_iff_exists.mp found
    rw [redirect_apply, first, ← same fd r r' first last]

/-! ### Runs -/

def Only (P : Table F → Prop) (e : Call) (o : Own F) : Prop := ∀ path argv, e = .exec path argv → P o.ofile

theorem runcmd_wrap_safe {buf' : List UInt8} {P : Table F → Prop} {o : Own F} (std : Standard o.ofile)
    (strings : ∀ r ∈ rs, string buf' r.file.q = r.file.text buf) (low : ∀ r ∈ rs, r.fd < 3)
    (ends : words ≠ [] → (∀ r ∈ rs, opens W buf r ≠ none) → P (redirect W buf rs o.ofile)) :
    (runcmd buf' (wrap rs (.exec words))).Safe (Sees W) (Only P) o fun _ _ => True := by
  have other : ∀ {e : Call} {o : Own F}, (∀ path argv, e ≠ .exec path argv) → Only P e o :=
    fun differs path argv is => absurd is (differs path argv)
  induction rs using List.reverseRecOn generalizing o with
  | nil =>
    cases words with
    | nil => exact safe_exit (other (by simp))
    | cons w words =>
      have target := ends (List.cons_ne_nil _ _) (by simp)
      refine safe_call (fun _ _ _ => target) fun r t sees => ?_
      exact safe_message (other (by simp)) (other (by simp))
  | append_singleton rs r ih =>
    rw [wrap_concat]
    have small := low r (by simp)
    have name := strings r (by simp)
    refine safe_call (other (by simp)) fun _ t closed => safe_call (other (by simp)) fun _ u opened => ?_
    rw [sees_close closed] at opened
    rcases sees_open opened with ⟨failed, -⟩ | ⟨f, fd, rfl, found, lowest, rfl⟩
    · rw [if_pos failed]
      exact safe_message (other (by simp)) (other (by simp))
    · rw [if_neg (Int.not_lt.mpr (Int.natCast_nonneg fd))]
      refine safe_call (other (by simp)) fun _ v entered => ?_
      rw [sees_runcmd entered]
      have is : opens W buf r = some f := by
        unfold opens
        rw [← name, found]
      simp only [std.reopen small, Option.some.injEq] at lowest
      subst lowest
      rw [reopened o.ofile is]
      refine ih ?_ (fun r' member => strings r' (by simp [member])) (fun r' member => low r' (by simp [member])) ?_
      · rw [is]
        exact std.update _
      · intro nonempty rest
        rw [← redirect_concat]
        refine ends nonempty fun r' member => ?_
        rcases List.mem_append.mp member with member | last
        · exact rest r' member
        · rw [List.mem_singleton.mp last, is]
          exact Option.some_ne_none f

theorem step_call {s : State F} {i : Nat} {p : Proc F} {e : Call} {f : e.Answer → Sh Empty} {r : e.Answer} {own : Own F}
    (here : s.procs i = some p) (code : p.status = .shell (call e >>= f)) (does : Does W s.fresh e p.own r own) :
    ∃ s', Step W s s' ∧ s'.procs i = some ⟨.shell (f r), own, p.parent⟩ :=
  ⟨_, .call here code does, update_self ..⟩

theorem start_here (code : Sh Empty) (d : Table F) :
    (State.start code d).procs 0 = some ⟨.shell code, ⟨[], d⟩, none⟩ := rfl

theorem reaches_exec {buf' : List UInt8} {s : State F} {i : Nat} {p : Proc F} (here : s.procs i = some p)
    (code : p.status = .shell (runcmd buf' (wrap rs (.exec words)))) (nonempty : words ≠ [])
    (std : Standard p.own.ofile) (strings : ∀ r ∈ rs, string buf' r.file.q = r.file.text buf) (low : ∀ r ∈ rs, r.fd < 3)
    (all : ∀ r ∈ rs, opens W buf r ≠ none) :
    ∃ s', Reachable W s s' ∧ Executing s' (redirect W buf rs p.own.ofile) := by
  induction rs using List.reverseRecOn generalizing s p with
  | nil =>
    cases words with
    | nil => exact absurd rfl nonempty
    | cons w words => exact ⟨s, .refl, i, p, _, _, _, here, code, rfl⟩
  | append_singleton rs r ih =>
    rw [wrap_concat] at code
    have small := low r (by simp)
    obtain ⟨f, is⟩ := Option.ne_none_iff_exists'.mp (all r (by simp))
    have found : W.lookup (string buf' r.file.q) r.mode = some f := by
      rw [strings r (by simp)]
      exact is
    obtain ⟨s₁, closed, here₁⟩ := step_call here code (.close r.fd p.own)
    obtain ⟨s₂, opened, here₂⟩ := step_call here₁ rfl (.open found (std.reopen small))
    have works : ¬ ((r.fd : Nat) : Int) < 0 := Int.not_lt.mpr (Int.natCast_nonneg _)
    rw [if_neg works] at here₂
    obtain ⟨s₃, entered, here₃⟩ := step_call here₂ rfl (.runcmd .inner _)
    rw [reopened p.own.ofile is] at here₃
    obtain ⟨s', run, executing⟩ := ih here₃ rfl (by rw [is]; exact std.update _)
      (fun r' member => strings r' (by simp [member])) (fun r' member => low r' (by simp [member]))
      fun r' member => all r' (by simp [member])
    refine ⟨s', .head closed (.head opened (.head entered run)), ?_⟩
    rwa [← redirect_concat] at executing

theorem Redir.fd_lt {toks : List Token} {r : Redirection} (h : Redir toks r) : r.fd < 3 := by
  cases h <;> simp

theorem Redirs.fd_lt {toks : List Token} (h : Redirs toks rs) : ∀ r ∈ rs, r.fd < 3 := by
  induction h with
  | nil => simp
  | cons redir _ ih => exact List.forall_mem_cons.mpr ⟨redir.fd_lt, ih⟩

theorem Args.fd_lt {toks : List Token} (h : Args toks words rs) : ∀ r ∈ rs, r.fd < 3 := by
  induction h with
  | nil => simp
  | cons redirs _ ih => exact List.forall_mem_append.mpr ⟨redirs.fd_lt, ih⟩

/-- A simple command is read with its redirections around it, and run it refers each redirected descriptor to the file
of the last redirection for it exactly when that is the file of the first one (or the command is never executed). -/
theorem last_redirection_wins_iff {toks toks' : List Token} {rs rs' : List Redirection} {d : Table F} (W : World F)
    (tokens : tokenize buf = toks ++ toks') (before : Redirs toks rs) (args : Args toks' words rs')
    (few : words.length ≤ MAXARGS - 1) (std : Standard d) :
    ∃ buf', parsecmd buf = .ok (wrap (rs ++ rs') (.exec words), buf') ∧
      ((∀ s d', Reachable W (.start (runcmd buf' (wrap (rs ++ rs') (.exec words))) d) s → Executing s d' →
          LastWins W buf (rs ++ rs') d') ↔
        (words ≠ [] → (∀ r ∈ rs ++ rs', opens W buf r ≠ none) → ∀ fd r r', (rs ++ rs').find? (·.fd = fd) = some r →
          (rs ++ rs').reverse.find? (·.fd = fd) = some r' → opens W buf r = opens W buf r')) := by
  have derived : Derives .line (tokenize buf) (wrap (rs ++ rs') (.exec words)) := by
    have line := Derives.last 0 (.one (.simple before args few))
    rwa [List.replicate_zero, List.append_nil, ← tokens] at line
  have strings : ∀ r ∈ rs ++ rs', string (nulterminate buf (wrap (rs ++ rs') (.exec words)))
    r.file.q = r.file.text buf := by
    intro r member
    rw [nulterminate_eq]
    refine string_terminate derived.stands ?_
    rw [words_wrap]
    exact List.mem_append_right _ (List.mem_map_of_mem member)
  have low := List.forall_mem_append.mpr ⟨before.fd_lt, args.fd_lt⟩
  refine ⟨_, parsecmd_of_derives derived, ?_⟩
  constructor
  · intro wins nonempty all
    obtain ⟨s, run, executing⟩ := reaches_exec (start_here _ d) rfl nonempty std strings low all
    exact (lastWins_redirect_iff d).mp (wins s _ run executing)
  · intro same s d' run executing
    obtain ⟨i, p, path, argv, next, here, code, is⟩ := executing
    have safe := runcmd_wrap_safe (P := LastWins W buf (rs ++ rs')) (o := ⟨[], d⟩) std strings low fun nonempty all =>
      (lastWins_redirect_iff d).mpr (same nonempty all)
    have fine := reachable_fine (J := fun _ => True) (fun _ _ _ _ => trivial) (fun _ _ _ _ _ _ _ _ => trivial) safe run
    rw [← is]
    exact ((fine_shell code).mp (fine i p here)).1 path argv rfl

def named : World (List UInt8) := ⟨fun path _ => some path, fun _ => False⟩

def console : Table (List UInt8) :=
  fun fd => if fd < 3 then some (.opened (codes ['c', 'o', 'n', 's', 'o', 'l', 'e'])) else none

theorem standard_console : Standard console := by
  intro fd small
  unfold console
  rw [if_pos small]
  exact Option.some_ne_none _

def bothWays : List UInt8 := codes ['a', ' ', '<', 'x', ' ', '>', 'y', ' ', 'b']

def inOut : List Redirection := [⟨⟨3, 4⟩, O_RDONLY, 0⟩, ⟨⟨6, 7⟩, O_WRONLY ||| O_CREATE, 1⟩]

/-- Both redirections of `a <x >y b` count. -/
theorem last_redirection_wins_both :
    ∃ buf', parsecmd bothWays = .ok (wrap inOut (.exec [⟨0, 1⟩, ⟨8, 9⟩]), buf') ∧
      ∀ s d', Reachable named (.start (runcmd buf' (wrap inOut (.exec [⟨0, 1⟩, ⟨8, 9⟩]))) console) s → Executing s d' →
        LastWins named bothWays inOut d' := by
  have tokens : tokenize bothWays = [] ++ .word ⟨0, 1⟩ :: ([.lt, .word ⟨3, 4⟩] ++ ([.gt, .word ⟨6, 7⟩] ++ []) ++
      .word ⟨8, 9⟩ :: ([] ++ [])) := by rfl
  obtain ⟨buf', read, wins⟩ := last_redirection_wins_iff named tokens .nil
    (.cons (.cons (.input _) (.cons (.output _) .nil)) (.cons .nil .nil)) (by decide) standard_console
  refine ⟨buf', read, wins.mpr fun _ _ fd r r' first last => ?_⟩
  have one := List.find?_some first
  have other := List.find?_some last
  have same : r.fd = r'.fd := (of_decide_eq_true one).trans (of_decide_eq_true other).symm
  have member : r ∈ inOut := List.mem_of_find?_eq_some first
  have member' : r' ∈ inOut := List.mem_reverse.mp (List.mem_of_find?_eq_some last)
  rcases List.mem_pair.mp member with rfl | rfl <;> rcases List.mem_pair.mp member' with rfl | rfl
  · rfl
  · cases same
  · cases same
  · rfl

/-- In `a<x<y` the first redirection is done last. -/
theorem first_redirection_wins :
    ∃ cmd buf' s d', parsecmd (codes ['a', '<', 'x', '<', 'y']) = .ok (cmd, buf') ∧
      tokenize (codes ['a', '<', 'x', '<', 'y']) = [.word ⟨0, 1⟩, .lt, .word ⟨2, 3⟩, .lt, .word ⟨4, 5⟩] ∧
      Reachable named (.start (runcmd buf' cmd) console) s ∧ Executing s d' ∧ d' 0 = some (.opened (codes ['x'])) ∧
      ¬ LastWins named (codes ['a', '<', 'x', '<', 'y']) [⟨⟨2, 3⟩, O_RDONLY, 0⟩, ⟨⟨4, 5⟩, O_RDONLY, 0⟩] d' := by
  have read : parsecmd (codes ['a', '<', 'x', '<', 'y']) = .ok
      (wrap [⟨⟨2, 3⟩, O_RDONLY, 0⟩, ⟨⟨4, 5⟩, O_RDONLY, 0⟩] (.exec [⟨0, 1⟩]),
        codes ['a', '\x00', 'x', '\x00', 'y']) := by rfl
  have strings : ∀ r ∈ [(⟨⟨2, 3⟩, O_RDONLY, 0⟩ : Redirection), ⟨⟨4, 5⟩, O_RDONLY, 0⟩],
      string (codes ['a', '\x00', 'x', '\x00', 'y']) r.file.q = r.file.text (codes ['a', '<', 'x', '<', 'y']) := by
    decide +kernel
  obtain ⟨s, run, executing⟩ := reaches_exec (W := named) (start_here _ console) rfl (List.cons_ne_nil _ _)
    standard_console
    strings (by decide) (by simp [opens, named])
  refine ⟨_, _, s, _, read, by rfl, run, executing, by rfl, fun wins => ?_⟩
  have last := wins 0 ⟨⟨4, 5⟩, O_RDONLY, 0⟩ (by rfl)
  revert last
  decide +kernel

end Espl.Shell
