import Espl.Kernel.Exec
import Espl.Kernel.Blocks
import Espl.Kernel.Growproc
import Espl.Kernel.Setupkvm
import Espl.Kernel.Transactions

/-!
# What `exec` runs on

`exec` is judged for any system that has memory and answers its questions about files: the kernel is
one, whatever is on its disk, and a system whose only file is a list of bytes another.
-/

namespace Espl.Kernel.Exec

def Step.files : Step → Bool
  | .namei _ | .ilock _ | .readi _ _ _ | .iunlockput _ => true
  | _ => false

/-- Memory, and the rest of the system, where `image` is the directory, the size and the stack pointer of
the process that calls `exec`. -/
structure Host (S P R : Type) where
  machine : Machine signature S P
  mem : S → Mem × Vm.Answers
  rest : S → R
  image : R → Nat × Nat × Nat
  returned : ∀ {e : Vm.Step} {s : S} {r : Vm.Answer e} {t : Mem × Vm.Answers}, Vm.answer e (mem s) = .returned r t →
    ∃ s', machine.act (.mem e) s = .returned r s' ∧ mem s' = t ∧ rest s' = rest s
  panicked : ∀ {e : Vm.Step} {s : S} {v : Vm.Panic}, Vm.answer e (mem s) = .panicked v →
    ∃ q, machine.act (.mem e) s = .panicked q
  files : ∀ {e : Step} {s s' : S} {a : Answer e}, e.files = true → machine.act e s = .returned a s' →
    mem s' = mem s ∧ image (rest s') = image (rest s)
  commit : ∀ (pgdir sz eip esp : Nat) (name : List UInt8) (s : S),
    ∃ s', machine.act (.commit pgdir sz eip esp name) s = .returned (image (rest s)).1 s' ∧ mem s' = mem s ∧
      image (rest s') = (pgdir, sz, esp)

section Rules

variable {S P R α β : Type} (H : Host S P R) {T : Terms signature S P} {Q : β → S → Prop} {s : S}

abbrev lax : Terms signature S P := ⟨fun _ _ => True, fun _ => True, fun _ => True, True⟩

theorem wp_lax (p : X α) (s : S) : H.machine.wp lax p s fun _ _ => True := by
  induction p generalizing s with
  | done => trivial
  | step e next ih =>
    refine ⟨trivial, fun _ => ?_⟩
    cases H.machine.act e s with
    | returned r t => exact ih r t
    | panicked | waiting => trivial

theorem Host.wp_vm {F : Vm.Panic → Prop} (point : ∀ s, T.point s) (fault : ∀ v, F v → ∀ q, T.fault q)
    {p : V α} {f : α → X β}
    (h : Vm.Does F p (H.mem s) fun a t => ∀ s', H.mem s' = t → H.rest s' = H.rest s → H.machine.wp T (f a) s' Q) :
    H.machine.wp T (vm p >>= f) s Q := by
  suffices ∀ s₀, H.rest s = H.rest s₀ → (Vm.Does F p (H.mem s) fun a t =>
      ∀ s', H.mem s' = t → H.rest s' = H.rest s₀ → H.machine.wp T (f a) s' Q) → H.machine.wp T (vm p >>= f) s Q from
    this s rfl h
  clear h
  intro s₀ same h
  induction p generalizing s with
  | done a => exact h s rfl same
  | step e next ih =>
    have h := h.2 trivial
    cases first : Vm.answering.act e (H.mem s) with
    | returned r t =>
      rw [first] at h
      obtain ⟨s', act, mem, rest⟩ := H.returned first
      rw [← mem] at h
      exact Machine.wp_returns (point s) act (ih r (rest.trans same) h)
    | panicked v =>
      rw [first] at h
      obtain ⟨q, act⟩ := H.panicked first
      exact Machine.wp_panics (point s) act (fault v h q)
    | waiting =>
      rw [first] at h
      exact h.elim

theorem Host.wp_vm_sure (point : ∀ s, T.point s) {p : V α} {f : α → X β} (h : Vm.Does (fun _ => False) p (H.mem s)
      fun a t => ∀ s', H.mem s' = t → H.rest s' = H.rest s → H.machine.wp T (f a) s' Q) :
    H.machine.wp T (vm p >>= f) s Q :=
  H.wp_vm point (fun _ never => never.elim) h

theorem Host.wp_vm_lax {p : V α} {f : α → X β} (next : ∀ a s', H.machine.wp lax (f a) s' Q) :
    H.machine.wp lax (vm p >>= f) s Q :=
  H.wp_vm (F := fun _ => True) (fun _ => trivial) (fun _ _ _ => trivial)
    (Vm.does_mono (Vm.does_anything (fun _ => trivial) p _) fun a _ _ s' _ _ => next a s')

theorem Host.wp_files {e : Step} (files : e.files = true) {f : Answer e → X β}
    (next : ∀ a s', H.machine.act e s = .returned a s' → H.mem s' = H.mem s → H.image (H.rest s') = H.image (H.rest s) →
      H.machine.wp lax (f a) s' Q) : H.machine.wp lax (step e >>= f) s Q := by
  refine ⟨trivial, fun _ => ?_⟩
  cases act : H.machine.act e s with
  | returned a s' =>
    obtain ⟨mem, image⟩ := H.files files act
    exact next a s' act mem image
  | panicked => trivial
  | waiting => trivial

end Rules

theorem act_answering {e : Kernel.Step} (aloof : e.aloof = true) (s : State) (l : Vm.Answers) :
    Kernel.answering.act e (s, l) = match machine.act e s with
      | .returned r t => .returned r (t, l)
      | .panicked p => .panicked p
      | .waiting => .waiting := by
  cases e with
  | mem e => exact absurd aloof (by simp [Kernel.Step.aloof])
  | _ => rfl

section Aloof

variable {α : Type} {p : K α} {s s' : State} {l l' : Vm.Answers} {a : α}

theorem aloof_run (aloof : Aloof p) (run : Kernel.answering.run p (s, l) = .returned a (s', l')) :
    s'.procs = s.procs ∧ s'.mem = s.mem ∧ l' = l := by
  induction p generalizing s with
  | done =>
    cases run
    exact ⟨rfl, rfl, rfl⟩
  | step e next ih =>
    unfold Machine.run at run
    rw [act_answering aloof.1] at run
    cases first : machine.act e s with
    | returned r t =>
      rw [first] at run
      obtain ⟨procs, mem⟩ := act_aloof aloof.1 first
      obtain ⟨procs', mem', rest⟩ := ih r (aloof.2 r) run
      exact ⟨procs'.trans procs, mem'.trans mem, rest⟩
    | panicked | waiting => rw [first] at run; cases run

theorem aloof_answering (aloof : Aloof p) (l : Vm.Answers) (run : machine.run p s = .returned a s') :
    Kernel.answering.run p (s, l) = .returned a (s', l) := by
  induction p generalizing s with
  | done =>
    cases run
    rfl
  | step e next ih =>
    unfold Machine.run at run ⊢
    rw [act_answering aloof.1]
    cases first : machine.act e s with
    | returned r t =>
      rw [first] at run
      exact ih r (aloof.2 r) run
    | panicked | waiting => rw [first] at run; cases run

end Aloof

def kernel (p : Nat) : Host (State × Vm.Answers) Kernel.Panic State where
  machine := Kernel.answering.through (handler p)
  mem t := (t.1.mem, t.2)
  rest t := { t.1 with mem := Vm.Mem.bare }
  image r := ((r.procs p).pgdir, (r.procs p).sz, (r.procs p).esp)
  returned {e s r t} h := by
    refine ⟨({ s.1 with mem := t.1 }, t.2), ?_, rfl, rfl⟩
    have same : answer (.mem e) (s.1, s.2) = .returned r ({ s.1 with mem := t.1 }, t.2) := by
      simp only [answer, h]
    simp only [Machine.through, handler, Kernel.step, Machine.run, same]
  panicked {e s v} h := by
    refine ⟨.vm v, ?_⟩
    have same : answer (.mem e) (s.1, s.2) = .panicked (.vm v) := by
      simp only [answer, h]
    simp only [Machine.through, handler, Kernel.step, Machine.run, same]
  files {e s s' a} files run := by
    have aloof : Aloof (handler p e) := by
      cases e with
      | mem | commit => cases files
      | namei path => exact (goes_namei p path).aloof
      | ilock ip => exact (goes_ilock ip).aloof
      | readi ip off n => exact (goes_readi ip off n).aloof
      | iunlockput ip => exact (goes_iunlockput ip).aloof
    obtain ⟨procs, mem, rest⟩ := aloof_run aloof run
    simp only [procs, mem, rest, and_self]
  commit pgdir sz eip esp name s := by
    refine ⟨_, rfl, rfl, ?_⟩
    simp only [upd_same]

theorem run_sysExec (p : Nat) (elf : Elfhdr) (path : List UInt8) (argv : List (List UInt8)) (s : State × Vm.Answers) :
    Kernel.answering.run (sysExec p elf path argv) s = (kernel p).machine.run (exec elf path argv) s :=
  Machine.run_interp _ _ _ _

structure Caller where
  pgdir : Nat
  sz : Nat
  eip : Nat
  esp : Nat
  name : List UInt8

def answerWith (file : List UInt8) : (e : Step) → (Mem × Vm.Answers) × Caller →
    Outcome ((Mem × Vm.Answers) × Caller) Vm.Panic (Answer e)
  | .mem e, (t, c) =>
    match Vm.answer e t with
    | .returned r t' => .returned r (t', c)
    | .panicked v => .panicked v
    | .waiting => .waiting
  | .namei _, s => .returned (some 0) s
  | .ilock _, s => .returned () s
  | .readi _ off n, s => .returned (readResult file off n) s
  | .iunlockput _, s => .returned () s
  | .commit pgdir sz eip esp name, (t, c) => .returned c.pgdir (t, ⟨pgdir, sz, eip, esp, name⟩)

def oneFile (file : List UInt8) : Host ((Mem × Vm.Answers) × Caller) Vm.Panic Caller where
  machine := ⟨answerWith file⟩
  mem := Prod.fst
  rest := Prod.snd
  image c := (c.pgdir, c.sz, c.esp)
  returned {e s r t} h := ⟨(t, s.2), by simp only [answerWith, h], rfl, rfl⟩
  panicked {e s v} h := ⟨v, by simp only [answerWith, h]⟩
  files {e s s' a} files act := by
    cases e with
    | mem | commit => cases files
    | _ =>
      cases act
      exact ⟨rfl, rfl⟩
  commit pgdir sz eip esp name s := ⟨_, rfl, rfl, rfl⟩

end Espl.Kernel.Exec
