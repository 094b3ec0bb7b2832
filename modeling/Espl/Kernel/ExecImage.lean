import Espl.Kernel.Copyuvm
import Espl.Kernel.ExecLoad

/-!
# Programs and their images

What an executable file says its image is, and when `exec` makes that image.
-/

namespace Espl.Kernel.Vm

section Congr

variable {x y : Space}

def Space.Alike (x y : Space) : Prop := ∀ i < 512, (x.table i).isSome = (y.table i).isSome

theorem Space.provide_congr {i : Nat} (lt : i < 512) (same : x.Alike y) (l : Answers) :
    (x.provide i l).1.isSome = (y.provide i l).1.isSome ∧ (x.provide i l).2.1.Alike (y.provide i l).2.1 ∧
      (x.provide i l).2.2 = (y.provide i l).2.2 := by
  have here := same i lt
  cases tx : x.table i with
  | some t =>
    obtain ⟨t', ty⟩ := Option.isSome_iff_exists.mp (here.symm.trans (by rw [tx]; rfl))
    unfold Space.provide
    rw [tx, ty]
    exact ⟨rfl, same, rfl⟩
  | none =>
    have ty : y.table i = none := Option.not_isSome_iff_eq_none.mp (by rw [← here, tx]; simp)
    have grown : ∀ t, (x.grow i t).Alike (y.grow i t) := by
      intro t j lj
      by_cases eq : j = i
      · rw [eq, Space.grow_table_same, Space.grow_table_same]
      · rw [Space.grow_table_ne _ _ eq, Space.grow_table_ne _ _ eq]
        exact same j lj
    cases l with
    | nil =>
      unfold Space.provide
      rw [tx, ty]
      exact ⟨rfl, same, rfl⟩
    | cons a l =>
      cases a with
      | none =>
        unfold Space.provide
        rw [tx, ty]
        exact ⟨rfl, same, rfl⟩
      | some t =>
        unfold Space.provide
        rw [tx, ty]
        exact ⟨rfl, grown t, rfl⟩

theorem Space.fill_congr {vs : List Nat} (user : ∀ v ∈ vs, v < 2 ^ 19) (same : x.Alike y) (l : Answers) :
    (fill vs x l).out = (fill vs y l).out ∧ (fill vs x l).short = (fill vs y l).short := by
  induction vs generalizing x y l with
  | nil => exact ⟨rfl, rfl⟩
  | cons v vs ih =>
    have user' : ∀ w ∈ vs, w < 2 ^ 19 := fun w later => user w (List.mem_cons_of_mem _ later)
    have lt : v / 1024 < 512 := by
      have := user v List.mem_cons_self
      omega
    cases l with
    | nil => exact ⟨rfl, rfl⟩
    | cons a l =>
      cases a with
      | none => exact ⟨rfl, rfl⟩
      | some page =>
        obtain ⟨some_iff, tables, rest⟩ := provide_congr lt same l
        rcases px : x.provide (v / 1024) l with ⟨rx, x', restx⟩
        rcases py : y.provide (v / 1024) l with ⟨ry, y', resty⟩
        rw [px, py] at some_iff tables rest
        simp only at some_iff tables rest
        subst rest
        cases rx with
        | some t =>
          obtain ⟨t', rfl⟩ := Option.isSome_iff_exists.mp some_iff.symm
          rw [fill_mapped px, fill_mapped py]
          exact ih (x := x'.set v ⟨page, true, true, true⟩) (y := y'.set v ⟨page, true, true, true⟩) user' tables restx
        | none =>
          have none : ry = none := Option.not_isSome_iff_eq_none.mp (by rw [← some_iff]; simp)
          subst none
          rw [fill_short px, fill_short py]
          exact ⟨(ih user' tables restx).1, rfl⟩

theorem Space.upTo_short {l : Answers} {sz : Nat} (small : sz < KERNBASE) (missing : ∀ i < 512, y.table i = none) :
    (y.upTo l sz).short = (Space.empty.upTo l sz).short := by
  have bound := pages_le (Nat.le_of_lt small)
  simp only [Space.upTo]
  refine (fill_congr (fun v mem => ?_) (fun i lt => ?_) l).2
  · have := List.mem_range.mp mem
    omega
  · rw [missing i lt]
    rfl

end Congr

theorem answer_other {e : Step} (other : e ≠ .kalloc) (m : Mem) (l : Answers) :
    answer e (m, l) = match act e m with
      | .returned r m' => .returned r (m', l)
      | .panicked p => .panicked p
      | .waiting => .waiting := by
  cases e with
  | kalloc => exact absurd rfl other
  | _ => rfl

section Local

variable {α : Type} {p : V α} {a : α} {m m' : Mem} {l l' : Answers}

theorem run_shrinks (run : answering.run p (m, l) = .returned a (m', l')) : l'.length ≤ l.length := by
  induction p generalizing m l with
  | done =>
    cases run
    exact Nat.le.refl
  | step e next ih =>
    unfold Machine.run at run
    by_cases kalloc : e = .kalloc
    · subst kalloc
      cases l with
      | nil => exact ih _ run
      | cons b l =>
        have less : l'.length ≤ l.length := by
          cases b with
          | none | some _ => exact ih _ run
        exact Nat.le_succ_of_le less
    · simp only [answering, answer_other kalloc] at run
      cases done : act e m with
      | returned r t =>
        rw [done] at run
        exact ih _ run
      | panicked | waiting => rw [done] at run; cases run

theorem run_local {used : Answers} (more : l ≠ []) (run : answering.run p (m, used ++ l) = .returned a (m', l))
    (other : Answers) : answering.run p (m, used ++ other) = .returned a (m', other) := by
  induction p generalizing m used with
  | done b =>
    have ends : Outcome.returned (P := Panic) b (m, used ++ l) = .returned a (m', l) := run
    injection ends with result state
    injection state with same rest
    have none := List.append_left_eq_self.mp rest
    subst none same result
    rfl
  | step e next ih =>
    unfold Machine.run at run ⊢
    by_cases kalloc : e = .kalloc
    · subst kalloc
      cases used with
      | nil =>
        -- The first answer of `l` would be gone at the end.
        cases l with
        | nil => exact absurd rfl more
        | cons b l =>
          have less : (b :: l).length ≤ l.length := by
            cases b with
            | none | some _ => exact run_shrinks run
          rw [List.length_cons] at less
          omega
      | cons b used =>
        cases b with
        | none | some _ => exact ih _ run
    · simp only [answering, answer_other kalloc] at run ⊢
      cases done : act e m with
      | returned r t =>
        rw [done] at run
        exact ih _ run
      | panicked | waiting => rw [done] at run; cases run

end Local

theorem paste_at (c : Nat → Nat → UInt8) (va : Nat) (src : List UInt8) (a : Nat) :
    paste c va src (a / PGSIZE) (a % PGSIZE) =
      if va ≤ a ∧ a < va + src.length then src.getD (a - va) 0 else c (a / PGSIZE) (a % PGSIZE) := by
  have split : a / PGSIZE * PGSIZE + a % PGSIZE = a := Nat.div_add_mod' a PGSIZE
  have lt : a % PGSIZE < PGSIZE := Nat.mod_lt _ (by decide)
  simp only [paste, split, lt, true_and]

end Espl.Kernel.Vm

namespace Espl.Kernel.Exec

open Machine
open Vm (Space Built paste)

variable {S P R : Type}

section Files

variable {file : List UInt8} {i : Nat}

def elfOf (file : List UInt8) : Elfhdr := Elfhdr.ofBytes (file.take ELFSIZE)

def header (file : List UInt8) (i : Nat) : Proghdr :=
  Proghdr.ofBytes ((file.drop (headerAt (elfOf file).phoff i)).take PHSIZE)

def Segment (file : List UInt8) (i : Nat) : Prop := i < (elfOf file).phnum ∧ (header file i).type = ELF_PROG_LOAD

def segment (file : List UInt8) (i : Nat) : List UInt8 := (file.drop (header file i).off).take (header file i).filesz

/-- The segments are aligned, inside the file, below the kernel, and have no address in common. -/
structure WellFormed (file : List UInt8) : Prop where
  aligned : ∀ {i}, Segment file i → (header file i).vaddr % PGSIZE = 0
  filesz : ∀ {i}, Segment file i → (header file i).filesz ≤ (header file i).memsz
  below : ∀ {i}, Segment file i → (header file i).vaddr + (header file i).memsz < KERNBASE
  inFile : ∀ {i}, Segment file i → (header file i).off + (header file i).filesz ≤ file.length
  disjoint : ∀ {i j a}, Segment file i → Segment file j → i ≠ j →
    (header file i).vaddr ≤ a → a < (header file i).vaddr + (header file i).memsz →
    (header file j).vaddr ≤ a → ¬ a < (header file j).vaddr + (header file j).memsz

def top (file : List UInt8) : Nat → Nat
  | 0 => 0
  | n + 1 => if (header file n).type = ELF_PROG_LOAD then max (top file n)
      ((header file n).vaddr + (header file n).memsz) else top file n

def content (file : List UInt8) : Nat → Nat → Nat → UInt8
  | 0 => fun _ _ => 0
  | n + 1 => if (header file n).type = ELF_PROG_LOAD then paste (content file n) (header file n).vaddr
      (segment file n) else content file n

theorem segment_length (h : WellFormed file) (seg : Segment file i) :
    (segment file i).length = (header file i).filesz := by
  have := h.inFile seg
  rw [segment, List.length_take, List.length_drop]
  omega

theorem segment_getD {j : Nat} (lt : j < (header file i).filesz) :
    (segment file i).getD j 0 = file.getD ((header file i).off + j) 0 := by
  simp only [segment, List.getD_eq_getElem?_getD, List.getElem?_take, List.getElem?_drop, if_pos lt]

theorem le_top {n : Nat} (seg : Segment file i) (lt : i < n) :
    (header file i).vaddr + (header file i).memsz ≤ top file n := by
  induction n with
  | zero => omega
  | succ n ih =>
    unfold top
    by_cases eq : i = n
    · subst eq
      rw [if_pos seg.2]
      exact Nat.le_max_right _ _
    · have := ih (by omega)
      split <;> omega

theorem content_segment (h : WellFormed file) {n a : Nat} (le : n ≤ (elfOf file).phnum)
    (seg : Segment file i) (lt : i < n)
    (lo : (header file i).vaddr ≤ a) (hi : a < (header file i).vaddr + (header file i).filesz) :
    content file n (a / PGSIZE) (a % PGSIZE) = file.getD ((header file i).off + (a - (header file i).vaddr)) 0 := by
  have wide := h.filesz seg
  induction n with
  | zero => omega
  | succ n ih =>
    unfold content
    split
    · rename_i load
      have seg' : Segment file n := ⟨by omega, load⟩
      rw [Vm.paste_at, segment_length h seg']
      by_cases eq : i = n
      · subst eq
        rw [if_pos ⟨lo, hi⟩, segment_getD (by omega)]
      · have wide' := h.filesz seg'
        have apart := h.disjoint seg seg' eq lo (by omega)
        rw [if_neg (fun inside => apart inside.1 (by omega))]
        exact ih (by omega) (by omega)
    · rename_i other
      have ne : i ≠ n := fun eq => other (eq ▸ seg.2)
      exact ih (by omega) (by omega)

theorem content_zero (h : WellFormed file) {n a : Nat} (le : n ≤ (elfOf file).phnum)
    (out : ∀ i, Segment file i → (header file i).vaddr ≤ a → ¬ a < (header file i).vaddr + (header file i).filesz) :
    content file n (a / PGSIZE) (a % PGSIZE) = 0 := by
  induction n with
  | zero => rfl
  | succ n ih =>
    unfold content
    split
    · rename_i load
      have seg : Segment file n := ⟨by omega, load⟩
      rw [Vm.paste_at, segment_length h seg, if_neg (fun inside => out n seg inside.1 inside.2)]
      exact ih (by omega)
    · exact ih (by omega)

end Files

/-- `path` names a file with the bytes `file`, which `exec` reads once it is locked. -/
structure Serves (H : Host S P R) (path file : List UInt8) (s : S) (Good : Nat → S → Prop) : Prop where
  opens : ∀ {ip s₁ s₂}, H.machine.act (.namei path) s = .returned (some ip) s₁ →
    H.machine.act (.ilock ip) s₁ = .returned () s₂ → Good ip s₂
  reads : ∀ ip, Reads H ip file (Good ip)

/-- The bytes of memory from 0 up to the stack are those that `file` describes. -/
structure Loaded (file : List UInt8) (m : Mem) (y : Space) (sz : Nat) : Prop where
  present : ∀ v < sz / PGSIZE - 2, (y.pte v).present = true ∧ (y.pte v).user = true
  inside : ∀ i, Segment file i → (header file i).vaddr + (header file i).memsz ≤ (sz / PGSIZE - 2) * PGSIZE
  segment : ∀ i, Segment file i → ∀ j < (header file i).filesz,
    peek m y ((header file i).vaddr + j) = file.getD ((header file i).off + j) 0
  zero : ∀ a < (sz / PGSIZE - 2) * PGSIZE, (∀ i, Segment file i → (header file i).vaddr ≤ a →
    ¬ a < (header file i).vaddr + (header file i).filesz) → peek m y a = 0

section Follow

variable {K : Nat → Prop} {d ip : Nat} {x₀ : Space} {m₀ : Mem} {l₀ : Vm.Answers} {file path : List UInt8} {s : S}
  {Good : Nat → S → Prop}

theorem header_of_reply {a : Int × List UInt8} (reply : a = readResult file (headerAt (elfOf file).phoff i) PHSIZE)
    (whole : a.1 = PHSIZE) : Proghdr.ofBytes a.2 = header file i := by
  unfold readResult at reply
  split at reply
  · rw [reply] at whole
    cases whole
  · rw [reply]
    rfl

theorem headerOf_read (elf : Elfhdr) (file : List UInt8) : headerOf elf (readResult file 0 ELFSIZE) = elfOf file := by
  have read : readResult file 0 ELFSIZE = (((min ELFSIZE file.length : Nat) : Int), file.take ELFSIZE) := by
    unfold readResult
    rw [if_neg (by simp only [ELFSIZE]; omega)]
    rfl
  rw [read, headerOf, if_neg (by simp)]
  rfl

theorem follows_file (H : Host S P R) (serves : Serves H path file s Good) (formed : WellFormed file) {elf : Elfhdr}
    (setup : x₀.Setup) :
    Follows H K d ip elf.phoff elf.phnum x₀ m₀ l₀ (fun s' => Good ip s' ∧ elf = elfOf file)
      (fun off a => a = readResult file off PHSIZE)
      (fun i sz c => elf = elfOf file ∧ sz = top file i ∧ c = content file i) where
  read := by
    intro s' off good
    obtain ⟨s₁, act, mem, image, good₁⟩ := (serves.reads ip).readi off (n := PHSIZE) (by decide) good.1
    exact wp_returns trivial act ⟨mem, image, ⟨good₁, good.2⟩, rfl⟩
  keeps good rest := ⟨(serves.reads ip).keeps good.1 rest, good.2⟩
  skip := by
    intro i sz c a lt so_far reply whole other
    obtain ⟨rfl, rfl, rfl⟩ := so_far
    rw [header_of_reply reply whole] at other
    refine ⟨rfl, ?_, ?_⟩
    · rw [top, if_neg other]
    · rw [content, if_neg other]
  segment := by
    intro i sz c a ph s' m l lt ph_eq so_far reply whole load le good mem built
    obtain ⟨rfl, rfl, rfl⟩ := so_far
    rw [header_of_reply reply whole] at ph_eq
    subst ph_eq
    have seg : Segment file i := ⟨lt, load⟩
    have below := formed.below seg
    have stop_eq : stop (header file i) = (header file i).vaddr + (header file i).memsz := by
      simp only [stop, KERNBASE] at *
      omega
    rw [stop_eq] at built ⊢
    have inside : (header file i).vaddr + (header file i).filesz ≤ max (top file i)
      ((header file i).vaddr + (header file i).memsz) := by
      omega
    refine wp_loaduvm H (fun _ => trivial) (serves.reads ip) setup (formed.aligned seg) inside (formed.inFile seg)
      good.1 mem built
      (fun _ _ _ _ _ => trivial) fun s₁ m' good₁ image₁ mem₁ built₁ _ => ?_
    refine ⟨⟨good₁, rfl⟩, image₁, m', _, mem₁, built₁, rfl, ?_, ?_⟩
    · rw [top, if_pos load]
    · rw [content, if_pos load]
      rfl

end Follow

section Many

variable {old sz₀ d : Nat} {x₀ : Space} {m : Mem} {l : Vm.Answers} {s s' : S} {elf : Elfhdr} {path : List UInt8}
  {argv : List (List UInt8)}

theorem wp_pushArgs_many (H : Host S P R) (args : List (List UInt8)) {argc sp : Nat} (start : argc ≤ MAXARG)
    (many : MAXARG < argc + args.length) (s : S) : H.machine.wp lax (pushArgs d sp argc args) s fun r _ =>
    r = none := by
  induction args generalizing argc sp s with
  | nil =>
    rw [List.length_nil] at many
    omega
  | cons arg rest ih =>
    rw [List.length_cons] at many
    unfold pushArgs
    split
    · rfl
    · refine H.wp_vm_lax fun r s₁ => ?_
      split
      · rfl
      · refine wp_seq (ih (by omega) (by omega) s₁) fun r s₂ none => ?_
        rw [none]
        rfl

theorem wp_finish_many (H : Host S P R) (many : MAXARG < argv.length) {sz : Nat} {Q : Int → S → Prop}
    (failed : ∀ s', Q (-1) s') (s : S) : H.machine.wp lax (finish path argv elf d sz) s Q := by
  unfold finish
  generalize (pgRoundUp sz + 2 * PGSIZE) % 2 ^ 32 = last
  refine H.wp_vm_lax fun r s₁ => ?_
  split
  · exact wp_bad H _ _ failed _
  · refine H.wp_vm_lax fun _ s₂ => ?_
    refine wp_seq (wp_pushArgs_many H argv (Nat.zero_le _) (by omega) s₂) fun r s₃ none => ?_
    rw [none]
    exact wp_bad H _ _ failed _

attribute [local irreducible] finish

theorem exec_few (H : Host S P R) (h : Old old sz₀ x₀ m l) (mem : H.mem s = (m, l))
    (run : H.machine.run (exec elf path argv) s = .returned 0 s') : argv.length ≤ MAXARG := by
  by_contra many
  have fails : H.machine.wp lax (exec elf path argv) s fun r _ => r = -1 :=
    wp_exec_open H h mem (G := fun _ _ _ => True) (fun _ _ _ _ => trivial) (fun _ => rfl)
      fun ip elf' _ s₁ d _ _ _ _ _ _ _ _ _ _ => by
        refine wp_seq (wp_lax H _ s₁) fun r s₂ _ => ?_
        cases r with
        | none => exact wp_bad H _ _ (fun _ => rfl) _
        | some sz => exact wp_seq (wp_lax H _ s₂) fun _ s₃ _ => wp_finish_many H (by omega) (fun _ => rfl) s₃
  have := wp_run fails (fun _ _ => trivial) run
  cases this

end Many

section Program

/-- A program with one segment of two pages, four bytes of it in the file. -/
def program : List UInt8 :=
  [0x7F, 0x45, 0x4C, 0x46] ++ List.replicate 24 0 ++ [52, 0, 0, 0] ++ List.replicate 12 0 ++ [1, 0] ++
    List.replicate 6 0 ++
  [1, 0, 0, 0, 84, 0, 0, 0] ++ List.replicate 8 0 ++ [4, 0, 0, 0, 0, 0x20, 0, 0] ++ List.replicate 8 0 ++ [1, 2, 3, 4]

theorem elfOf_program : elfOf program = ⟨ELF_MAGIC, 0, 52, 1⟩ := rfl

theorem header_program : header program 0 = ⟨ELF_PROG_LOAD, 84, 0, 4, 2 * PGSIZE⟩ := rfl

theorem segment_program {i : Nat} (seg : Segment program i) : i = 0 := by
  have lt := seg.1
  rw [elfOf_program] at lt
  change i < 1 at lt
  omega

theorem wellFormed_program : WellFormed program where
  aligned seg := by
    rw [segment_program seg]
    rfl
  filesz seg := by
    rw [segment_program seg, header_program]
    decide
  below seg := by
    rw [segment_program seg, header_program]
    decide
  inFile seg := by
    rw [segment_program seg, header_program]
    decide
  disjoint seg seg' ne := absurd ((segment_program seg).trans (segment_program seg').symm) ne

theorem serves_oneFile (file path : List UInt8) (small : file.length < 2 ^ 32) (s : (Mem × Vm.Answers) × Caller) :
    Serves (oneFile file) path file s fun _ _ => True where
  opens _ _ := trivial
  reads _ := ⟨small, fun {s} _ _ _ _ => ⟨s, rfl, rfl, rfl, trivial⟩, fun _ _ => trivial⟩

def caller : Caller := ⟨0x300, 0, 0, 0, []⟩

theorem old_bare {l : Vm.Answers} (distinct : l.Pairwise fun a b => a ≠ none → a ≠ b)
    (frame : ∀ page, some page ∈ l → 0x301 ≤ page ∧ page < 0xE000) : Old 0x300 0 Space.empty Vm.Mem.bare l where
  image := {
    maps := (Vm.maps_bare distinct frame).mono fun page uses => by
      obtain ⟨v, lt, _⟩ := uses
      cases lt
    size := by decide
    present := fun v _ => iff_of_false Bool.false_ne_true (Nat.not_lt_zero v)
    frame := fun v lt => by cases lt
    inj := fun v lt => by cases lt }
  dir := by
    simp only [Vm.Frame, Vm.Mem.bare, PGSIZE, PHYSTOP]
    omega
  tables i _ t some := by cases some

attribute [local irreducible] finish

theorem wp_load_program {K : Nat → Prop} {d : Nat} {y : Space} {m₁ : Mem} {l₁ : Vm.Answers}
    {s : (Mem × Vm.Answers) × Caller}
    (made : y.Setup) (maps : Vm.Maps K d y (m₁, l₁)) (mem : (oneFile program).mem s = (m₁, l₁))
    (fine : (y.upTo l₁ (2 * PGSIZE)).out = false) (there : ((y.upTo l₁ (2 * PGSIZE)).space.pte 1).present = true) :
    (oneFile program).machine.wp (strict (fun _ => True) fun _ => False) (load d 0 0 52 1) s fun r s' =>
      r = some (2 * PGSIZE) ∧ (oneFile program).image ((oneFile program).rest s') = (oneFile program).image
        ((oneFile program).rest s) ∧
      ∃ c t, (oneFile program).mem s' = t ∧ Built K d y m₁ l₁ (2 * PGSIZE) c t := by
  have serves := serves_oneFile program [] (by decide) s
  have read : readResult program 52 PHSIZE = ((PHSIZE : Int), (program.drop 52).take PHSIZE) :=
    readResult_inside (by decide) (by decide)
  have found : Proghdr.ofBytes ((program.drop 52).take PHSIZE) = ⟨ELF_PROG_LOAD, 84, 0, 4, 2 * PGSIZE⟩ := rfl
  unfold load
  refine wp_returns trivial rfl ?_
  rw [read, Program.done_bind]
  simp only
  rw [if_neg (by decide), found, if_neg (by decide), if_neg (by decide)]
  refine (oneFile program).wp_vm_sure (fun _ => trivial) ?_
  rw [mem]
  have stop_eq : (0 + 2 * PGSIZE) % 2 ^ 32 = 2 * PGSIZE := rfl
  rw [stop_eq]
  refine (Vm.built_start maps).does_allocuvm made (fun t₂ built s₂ mem₂ rest₂ => ?_) fun out =>
    absurd ⟨by decide, fine⟩ out
  rw [Nat.max_eq_right (Nat.zero_le _)] at built ⊢
  obtain ⟨m₂, l₂⟩ := t₂
  rw [if_neg (by decide)]
  refine wp_then (wp_loaduvm (oneFile program) (fun _ => trivial) (serves.reads 0) made (by decide)
    (by decide) (by decide)
    trivial mem₂ built (fun u _ lt missing => ?_) fun s₃ m₃ _ image₃ mem₃ built₃ => ?_)
  · have one : u < 1 := lt
    have zero : u = 0 := by omega
    rw [zero] at missing
    rw [built.maps.holds.zero 1 (by decide) missing] at there
    cases there
  · exact ⟨rfl, image₃.trans (by rw [rest₂]), _, _, mem₃, built₃⟩

theorem run_program {l l₁ : Vm.Answers} {d : Nat} {m₁ : Mem} {y : Space} {elf : Elfhdr} {path : List UInt8}
    {argv : List (List UInt8)} (h : Old 0x300 0 Space.empty Vm.Mem.bare l)
    (setup : Vm.answering.run Vm.setupkvm (Vm.Mem.bare, l) = .returned (some d) (m₁, l₁))
    (made : y.Setup) (maps : Vm.Maps (Space.empty.Occupies 0x300 0) d y (m₁, l₁))
    (kept : Vm.Kept (Space.empty.Occupies 0x300 0) Vm.Mem.bare m₁)
    (fine : (y.upTo l₁ (2 * PGSIZE)).out = false) (there : ((y.upTo l₁ (2 * PGSIZE)).space.pte 1).present = true)
    (stack : Suffices 2 (y.upTo l₁ (2 * PGSIZE)).space (y.upTo l₁ (2 * PGSIZE)).rest argv)
    (few : argv.length ≤ MAXARG) :
    ∃ s', (oneFile program).machine.run (exec elf path argv) ((Vm.Mem.bare, l), caller) = .returned 0 s' := by
  have serves := serves_oneFile program path (by decide) ((Vm.Mem.bare, l), caller)
  suffices (oneFile program).machine.wp (strict (fun _ => True) fun _ => False) (exec elf path argv)
      ((Vm.Mem.bare, l), caller) fun r _ => r = 0 by
    obtain ⟨r, s', run, rfl⟩ := wp_returned this
    exact ⟨s', run⟩
  have small : program.length < 2 ^ 32 := by decide
  unfold exec
  refine wp_returns trivial rfl (wp_returns trivial rfl (wp_returns trivial rfl ?_))
  have read : readResult program 0 ELFSIZE = ((ELFSIZE : Int), program.take ELFSIZE) :=
    readResult_inside (by decide) small
  rw [read, Program.done_bind]
  simp only
  have found : (if (ELFSIZE : Int) < 0 then elf else Elfhdr.ofBytes (program.take ELFSIZE)) = ⟨ELF_MAGIC, 0, 52, 1⟩ :=
    rfl
  rw [if_neg (by decide), found, if_neg (by decide)]
  refine (oneFile program).wp_vm_sure (fun _ => trivial)
    (wp_of_run (fun _ => trivial) setup fun s₁ mem₁ rest₁ => ?_)
  refine wp_seq (wp_load_program made maps mem₁ fine there) fun r s₂ loaded => ?_
  obtain ⟨rfl, image₂, c, t, mem₂, built⟩ := loaded
  refine wp_returns trivial rfl ?_
  obtain ⟨m₂, l₂⟩ := t
  have rest := built.rest
  change l₂ = _ at rest
  have old₂ : Old 0x300 0 Space.empty m₂ l₂ := h.moved (built.link.trans kept.link)
    (fun page o => (built.entry page o).trans (kept.entry page o))
    { built.maps.spare.toFresh with kept := fun page mem o => built.maps.spare.kept page mem (Or.inl o) }
  have two : Vm.pages (2 * PGSIZE) = 2 := rfl
  refine wp_finish (oneFile program) (n := 2) (fun _ => trivial) old₂ (fun page o => Or.inl o) built.maps
    (Nat.le_of_lt built.size)
    two.symm (fun v ge lt => Vm.Space.upTo_absent made (two ▸ ge) lt) mem₂ ?_ few (fun _ _ _ _ _ _ _ _ _ _ _ _ _ => rfl)
    fun short => absurd (rest ▸ stack) short
  rw [image₂, rest₁]
  rfl

section Plenty

theorem distinct_skip (used : Vm.Answers) {rest : Vm.Answers} {a : Option Nat}
    (h : (used ++ a :: rest).Pairwise fun a b => a ≠ none → a ≠ b) :
    (used ++ a :: none :: rest).Pairwise fun a b => a ≠ none → a ≠ b := by
  obtain ⟨first, second, cross⟩ := List.pairwise_append.mp h
  obtain ⟨head, tail⟩ := List.pairwise_cons.mp second
  refine List.pairwise_append.mpr ⟨first,
    List.pairwise_cons.mpr ⟨fun b mem some => ?_, List.pairwise_cons.mpr ⟨fun _ _ never => absurd rfl never, tail⟩⟩,
    fun b mem b' mem' some => ?_⟩
  · rcases List.mem_cons.mp mem with rfl | mem
    · exact some
    · exact head b mem some
  · rcases List.mem_cons.mp mem' with rfl | mem'
    · exact cross b mem _ List.mem_cons_self some
    · rcases List.mem_cons.mp mem' with rfl | mem'
      · exact some
      · exact cross b mem b' (List.mem_cons_of_mem _ mem') some

theorem mem_skip (used : Vm.Answers) {rest : Vm.Answers} {a : Option Nat} {page : Nat}
    (mem : some page ∈ used ++ a :: none :: rest) : some page ∈ used ++ a :: rest := by
  simp only [List.mem_append, List.mem_cons, reduceCtorEq, false_or] at mem ⊢
  exact mem

theorem maps_skip {K : Nat → Prop} {d : Nat} {x : Space} {m : Mem} {a : Option Nat} {rest : Vm.Answers}
    (h : Vm.Maps K d x (m, a :: rest)) : Vm.Maps K d x (m, a :: none :: rest) :=
  ⟨h.holds, ⟨⟨distinct_skip [] h.spare.distinct, fun page mem => h.spare.frame page (mem_skip [] mem),
    fun page mem => h.spare.kept page (mem_skip [] mem)⟩, fun page mem =>
      h.spare.apart page (mem_skip [] mem)⟩, h.apart⟩

theorem plenty_bounds {page : Nat} (mem : some page ∈ Vm.plenty.map some) : 0x301 ≤ page ∧ page < 0xE000 := by
  obtain ⟨_, mem, eq⟩ := List.mem_map.mp mem
  cases eq
  have := List.mem_range'_1.mp mem
  omega

theorem setupkvm_plenty : ∃ (d : Nat) (m₁ : Mem) (y : Space) (used rest : List Nat),
    Vm.plenty = used ++ rest ∧ 4000 ≤ rest.length ∧
    Vm.answering.run Vm.setupkvm (Vm.Mem.bare, Vm.plenty.map some) = .returned (some d) (m₁, rest.map some) ∧
    y.Setup ∧ Vm.Maps (Space.empty.Occupies 0x300 0) d y (m₁, rest.map some) ∧
    Vm.Kept (Space.empty.Occupies 0x300 0) Vm.Mem.bare m₁ := by
  have old := old_bare Vm.fresh_plenty.distinct fun page mem => plenty_bounds mem
  have long : Vm.plenty.length = 6000 := List.length_range'
  obtain ⟨r, ⟨m₁, l₁⟩, run, d, y, used, rfl, eq, few, made, maps, kept⟩ := wp_returned
    (Vm.does_setupkvm (F := fun _ => False) old.image.fresh
      (Q := fun r t => ∃ d y, ∃ used : List Nat, r = some d ∧ Vm.plenty.map some = used.map some ++ t.2 ∧
        used.length ≤ 1025 ∧
        y.Setup ∧ Vm.Maps (Space.empty.Occupies 0x300 0) d y t ∧
        Vm.Kept (Space.empty.Occupies 0x300 0) Vm.Mem.bare t.1)
      (fun d y rest m' _ made maps kept taken => by
        obtain ⟨used, eq, few⟩ := taken
        exact ⟨d, y, used, rfl, eq, few, made, maps, kept⟩)
      fun short => by
        have := short Vm.plenty rfl
        omega)
  simp only at eq maps kept
  have rest_eq : l₁ = (Vm.plenty.drop used.length).map some := by
    rw [List.map_drop, eq, ← List.length_map some, List.drop_left]
  subst rest_eq
  refine ⟨d, m₁, y, used, Vm.plenty.drop used.length, ?_, ?_, run, made, maps, kept⟩
  · rw [← List.map_append] at eq
    exact List.map_injective_iff.mpr (Option.some_injective _) eq
  · rw [List.length_drop]
    omega

theorem suffices_plenty {x : Space} {ps : List Nat} (long : 2000 ≤ ps.length) : Suffices 2 x (ps.map some)
    [[0x61]] := by
  have enough : 1024 + [2, 2 + 1].length ≤ ps.length + x.count := by
    simp only [List.length_cons, List.length_nil]
    omega
  obtain ⟨out, short, _⟩ := Vm.fill_enough (by decide) enough
  exact ⟨by decide, out, short, by unfold Fits; decide⟩

theorem upTo_two (y : Space) (l : Vm.Answers) : y.upTo l (2 * PGSIZE) = Space.fill [0, 1] y l := by
  have range : List.range (Vm.pages (2 * PGSIZE)) = [0, 1] := rfl
  rw [Space.upTo, range]

theorem run_program_plenty (elf : Elfhdr) (path : List UInt8) : ∃ s',
    (oneFile program).machine.run (exec elf path [[0x61]])
    ((Vm.Mem.bare, Vm.plenty.map some), caller) = .returned 0 s' := by
  obtain ⟨d, m₁, y, used, rest, _, long, run, made, maps, kept⟩ := setupkvm_plenty
  have old := old_bare Vm.fresh_plenty.distinct fun page mem => plenty_bounds mem
  have enough : 1024 + [0, 1].length ≤ rest.length + y.count := by
    simp only [List.length_cons, List.length_nil]
    omega
  obtain ⟨out, short, qs, rest_eq, sum⟩ := Vm.fill_enough (by decide) enough
  have most : (Space.fill [0, 1] y (rest.map some)).space.count ≤ 1024 := Vm.taken_le _ _
  refine run_program old run made maps kept ?_ ?_ ?_ (by decide)
  · rw [upTo_two]
    exact out
  · rw [upTo_two]
    exact Space.fill_present out short (by decide)
  · rw [upTo_two, rest_eq]
    refine suffices_plenty ?_
    simp only [List.length_cons, List.length_nil] at sum
    omega

theorem run_program_short (elf : Elfhdr) (path : List UInt8) : ∃ l s', Old 0x300 0 Space.empty Vm.Mem.bare l ∧
    (oneFile program).machine.run (exec elf path [[0x61]]) ((Vm.Mem.bare, l), caller) = .returned 0 s' ∧
    ∀ d m₁ l₁, Vm.answering.run Vm.setupkvm (Vm.Mem.bare, l) = .returned (some d) (m₁, l₁) →
      (Space.empty.upTo l₁ (2 * PGSIZE)).short = true := by
  obtain ⟨d, m₁, y, used, rest, all, long, run, made, maps, kept⟩ := setupkvm_plenty
  obtain ⟨a, rest, rfl⟩ := List.exists_cons_of_length_pos (by omega : 0 < rest.length)
  rw [List.length_cons] at long
  obtain ⟨b, rest, rfl⟩ := List.exists_cons_of_length_pos (by omega : 0 < rest.length)
  rw [List.length_cons] at long
  obtain ⟨t, rest, rfl⟩ := List.exists_cons_of_length_pos (by omega : 0 < rest.length)
  rw [List.length_cons] at long
  have before : Vm.plenty.map some = used.map some ++ some a :: (b :: t :: rest).map some := by
    rw [all, List.map_append, List.map_cons]
  have distinct := Vm.fresh_plenty.distinct
  rw [before] at distinct run
  have run' := Vm.run_local (List.cons_ne_nil _ _) run (some a :: none :: (b :: t :: rest).map some)
  have old := old_bare (distinct_skip _ distinct) fun page mem => plenty_bounds (before ▸ mem_skip _ mem)
  have first : ∀ x : Space, x.table 0 = none → Space.fill [0, 1] x (some a :: none :: (b :: t :: rest).map some) =
      ⟨(x.grow 0 t).set 1 ⟨b, true, true, true⟩, rest.map some, false, true⟩ := by
    intro x missing
    simp [Space.fill, Space.provide, missing]
  have filled : y.upTo (some a :: none :: (b :: t :: rest).map some) (2 * PGSIZE) =
      ⟨(y.grow 0 t).set 1 ⟨b, true, true, true⟩, rest.map some, false, true⟩ := by
    rw [upTo_two, first y (made.missing 0 (by decide))]
  have success : ∃ s', (oneFile program).machine.run (exec elf path [[0x61]])
      ((Vm.Mem.bare, used.map some ++ some a :: none :: (b :: t :: rest).map some), caller) = .returned 0 s' := by
    refine run_program old run' made (maps_skip maps) kept ?_ ?_ ?_ (by decide)
    · rw [filled]
    · rw [filled]
      rfl
    · rw [filled]
      exact suffices_plenty (by omega)
  obtain ⟨s', success⟩ := success
  refine ⟨_, s', old, success, fun d' m' l' other => ?_⟩
  rw [run'] at other
  cases other
  rw [upTo_two, first Space.empty rfl]

end Plenty

end Program

section Image

variable {old sz₀ d sz esp phnum : Nat} {x₀ y z : Space} {m : Mem} {l l₁ : Vm.Answers} {s s' : S} {elf : Elfhdr}
  {path file : List UInt8} {argv : List (List UInt8)} {ptrs : List Nat} {c : Nat → Nat → UInt8}

theorem Executed.peek {H : Host S P R} {J : Nat → Nat → (Nat → Nat → UInt8) → Prop}
    (h : Executed H m l argv J phnum s' d sz esp y z c l₁ ptrs) {a : Nat}
    (present : (z.pte (a / PGSIZE)).present = true)
    (lt : a < Vm.pages sz * PGSIZE) : peek (H.mem s').1 z a = c (a / PGSIZE) (a % PGSIZE) := by
  unfold Exec.peek
  rw [h.byte _ (Nat.div_lt_of_lt_mul (by rw [Nat.mul_comm]; exact lt)) present]

/-- What `exec` has loaded is what the file describes exactly when no page table was missing. -/
theorem Executed.loaded {H : Host S P R} (formed : WellFormed file) (setup : y.Setup)
    {J : Nat → Nat → (Nat → Nat → UInt8) → Prop} (h : Executed H m l argv J phnum s' d sz esp y z c l₁ ptrs)
    (sz_eq : sz = top file (elfOf file).phnum) (c_eq : c = content file (elfOf file).phnum) :
    Loaded file (H.mem s').1 z ((Vm.pages sz + 2) * PGSIZE) ↔ (y.upTo l₁ sz).short = false := by
  have count : (Vm.pages sz + 2) * PGSIZE / PGSIZE - 2 = Vm.pages sz := by
    rw [Nat.mul_div_cancel _ (by decide)]
    omega
  have bound := Vm.pages_le (Nat.le_of_lt h.size)
  have fine := h.fine
  have pte := h.pte
  constructor
  · intro loaded
    by_contra short
    rw [Space.upTo] at short fine
    obtain ⟨v, mem, absent⟩ := Space.fill_absent fine (by simpa using short) (List.nodup_range) fun v mem => by
      have lt := List.mem_range.mp mem
      rw [setup.low v (by omega)]
      rfl
    have lt := List.mem_range.mp mem
    have there := (loaded.present v (by omega)).1
    rw [pte v lt, Space.upTo, absent] at there
    cases there
  · intro short
    have present : ∀ v < Vm.pages sz, (z.pte v).present = true := by
      intro v lt
      rw [pte v lt]
      rw [Space.upTo] at short fine ⊢
      exact Space.fill_present fine short (List.mem_range.mpr lt)
    have page : ∀ {a}, a < Vm.pages sz * PGSIZE → a / PGSIZE < Vm.pages sz := fun lt =>
      Nat.div_lt_of_lt_mul (by rw [Nat.mul_comm]; exact lt)
    have inside : ∀ i, Segment file i → (header file i).vaddr + (header file i).memsz ≤ Vm.pages sz * PGSIZE := by
      intro i seg
      have le := le_top seg seg.1
      rw [← sz_eq] at le
      simp only [Vm.pages, PGSIZE]
      omega
    refine ⟨fun v lt => ?_, fun i seg => ?_, fun i seg j lt => ?_, fun a lt out => ?_⟩
    · rw [count] at lt
      exact ⟨present v lt, h.user v lt (present v lt)⟩
    · rw [count]
      exact inside i seg
    · have wide := formed.filesz seg
      have room : (header file i).vaddr + j < Vm.pages sz * PGSIZE := by
        have := inside i seg
        omega
      rw [h.peek (present _ (page room)) room, c_eq,
        content_segment formed Nat.le.refl seg seg.1 (Nat.le_add_right _ _) (by omega), Nat.add_sub_cancel_left]
    · rw [count] at lt
      rw [h.peek (present _ (page lt)) lt, c_eq, content_zero formed Nat.le.refl out]

theorem wp_exec_arguments (H : Host S P R) (h : Old old sz₀ x₀ m l) (mem : H.mem s = (m, l))
    (image : (H.image (H.rest s)).1 = old) (few : argv.length ≤ MAXARG) :
    H.machine.wp lax (exec elf path argv) s fun r s' => r = 0 → ∃ d sz esp y ptrs, H.image (H.rest s') = (d, sz, esp) ∧
      Vm.Holds (H.mem s').1 d y ∧ Passed (H.mem s').1 y sz esp argv ptrs ∧ Fits argv := by
  refine wp_exec H h mem image few (G := fun _ _ _ => True) (fun _ _ _ _ => trivial) (fun _ => follows_any H)
    (fun _ => trivial) (fun _ never => by cases never) fun elf' s' d sz esp y z c l₁ ptrs _ executed _ => ?_
  exact ⟨d, _, esp, z, ptrs, executed.image, executed.holds, executed.passed, executed.fits⟩

/-- `exec` that succeeds has put the arguments on the new stack, and they fit there. -/
theorem exec_passes_arguments (H : Host S P R) (h : Old old sz₀ x₀ m l) (mem : H.mem s = (m, l))
    (image : (H.image (H.rest s)).1 = old) (few : argv.length < MAXARG)
    (run : H.machine.run (exec elf path argv) s = .returned 0 s') :
    ∃ d sz esp y ptrs, H.image (H.rest s') = (d, sz, esp) ∧ Vm.Holds (H.mem s').1 d y ∧
      Passed (H.mem s').1 y sz esp argv ptrs ∧ need argv + 4 * (argv.length + 4) ≤ PGSIZE :=
  wp_run (wp_exec_arguments H h mem image (Nat.le_of_lt few)) (fun _ _ => trivial) run rfl

theorem exec_passes_one_argument : ∃ s' d sz esp y ptrs,
    (oneFile program).machine.run (exec ⟨0, 0, 0, 0⟩ [] [[0x61]])
    ((Vm.Mem.bare, Vm.plenty.map some), caller) = .returned 0 s' ∧
      (oneFile program).image ((oneFile program).rest s') = (d, sz, esp) ∧ Vm.Holds ((oneFile program).mem s').1 d y ∧
      Passed ((oneFile program).mem s').1 y sz esp [[0x61]] ptrs := by
  have old := old_bare Vm.fresh_plenty.distinct fun page mem => plenty_bounds mem
  obtain ⟨s', run⟩ := run_program_plenty ⟨0, 0, 0, 0⟩ []
  obtain ⟨d, sz, esp, y, ptrs, image, holds, passed, _⟩ :=
    exec_passes_arguments (oneFile program) old rfl rfl (by decide) run
  exact ⟨s', d, sz, esp, y, ptrs, run, image, holds, passed⟩

theorem wp_exec_image (H : Host S P R) (h : Old old sz₀ x₀ m l) (mem : H.mem s = (m, l))
    (image : (H.image (H.rest s)).1 = old) (few : argv.length ≤ MAXARG) {Good : Nat → S → Prop}
    (serves : Serves H path file s Good) (formed : WellFormed file) :
    H.machine.wp lax (exec elf path argv) s fun r s' => r = 0 → ∃ d m₁ l₁ sz esp y,
      Vm.answering.run Vm.setupkvm (m, l) = .returned (some d) (m₁, l₁) ∧ H.image (H.rest s') = (d, sz, esp) ∧
      Vm.Holds (H.mem s').1 d y ∧
      (Loaded file (H.mem s').1 y sz ↔ (Space.empty.upTo l₁ (top file (elfOf file).phnum)).short = false) := by
  refine wp_exec H h mem image few (G := fun ip elf' s' => Good ip s' ∧ elf' = elfOf file)
    (fun opened locked read whole => ?_) (fun setup => follows_file H serves formed setup)
      (fun good => ⟨good.2, rfl, rfl⟩)
    (fun _ never => by cases never) fun elf' s' d sz esp y z c l₁ ptrs made executed _ => ?_
  · obtain ⟨s₃, act, _, _, good⟩ := (serves.reads _).readi 0 (n := ELFSIZE) (by decide) (serves.opens opened locked)
    rw [act] at read
    cases read
    exact ⟨good, headerOf_read elf file⟩
  · obtain ⟨rfl, sz_eq, c_eq⟩ := executed.followed
    obtain ⟨m₁, setup, _⟩ := executed.setup
    refine ⟨d, m₁, l₁, _, esp, z, setup, executed.image, executed.holds, ?_⟩
    rw [executed.loaded formed made sz_eq c_eq, Space.upTo_short executed.size made.missing, sz_eq]

/-- `exec` that succeeds has loaded the file exactly when it had memory for each page table. -/
theorem exec_loads_image (H : Host S P R) (h : Old old sz₀ x₀ m l) (mem : H.mem s = (m, l))
    (image : (H.image (H.rest s)).1 = old) {Good : Nat → S → Prop} (serves : Serves H path file s Good)
    (formed : WellFormed file) (run : H.machine.run (exec elf path argv) s = .returned 0 s') :
    ∃ d m₁ l₁ sz esp y, Vm.answering.run Vm.setupkvm (m, l) = .returned (some d) (m₁, l₁) ∧
      H.image (H.rest s') = (d, sz, esp) ∧ Vm.Holds (H.mem s').1 d y ∧
      (Loaded file (H.mem s').1 y sz ↔ (Space.empty.upTo l₁ (top file (elfOf file).phnum)).short = false) :=
  wp_run (wp_exec_image H h mem image (exec_few H h mem run) serves formed) (fun _ _ => trivial) run rfl

theorem exec_loads_program : ∃ s' d m₁ l₁ sz esp y,
    (oneFile program).machine.run (exec ⟨0, 0, 0, 0⟩ [] [[0x61]])
    ((Vm.Mem.bare, Vm.plenty.map some), caller) = .returned 0 s' ∧
      Vm.answering.run Vm.setupkvm (Vm.Mem.bare, Vm.plenty.map some) = .returned (some d) (m₁, l₁) ∧
      (oneFile program).image ((oneFile program).rest s') = (d, sz, esp) ∧ Vm.Holds ((oneFile program).mem s').1 d y ∧
      (Loaded program ((oneFile program).mem s').1 y sz ↔
        (Space.empty.upTo l₁ (top program (elfOf program).phnum)).short = false) := by
  have old := old_bare Vm.fresh_plenty.distinct fun page mem => plenty_bounds mem
  have serves := serves_oneFile program [] (by decide) ((Vm.Mem.bare, Vm.plenty.map some), caller)
  obtain ⟨s', run⟩ := run_program_plenty ⟨0, 0, 0, 0⟩ []
  obtain ⟨d, m₁, l₁, sz, esp, y, loads⟩ := exec_loads_image (oneFile program) old rfl rfl serves wellFormed_program run
  exact ⟨s', d, m₁, l₁, sz, esp, y, run, loads⟩

/-- When `kalloc` fails for the page table of the first page, `exec` returns 0 with that page missing. -/
theorem exec_leaves_out : ∃ l s' d sz esp y, Old 0x300 0 Space.empty Vm.Mem.bare l ∧ WellFormed program ∧
    (oneFile program).machine.run (exec ⟨0, 0, 0, 0⟩ [] [[0x61]]) ((Vm.Mem.bare, l), caller) = .returned 0 s' ∧
    (oneFile program).image ((oneFile program).rest s') = (d, sz, esp) ∧ Vm.Holds ((oneFile program).mem s').1 d y ∧
    ¬ Loaded program ((oneFile program).mem s').1 y sz := by
  obtain ⟨l, s', old, run, short⟩ := run_program_short ⟨0, 0, 0, 0⟩ []
  have serves := serves_oneFile program [] (by decide) ((Vm.Mem.bare, l), caller)
  obtain ⟨d, m₁, l₁, sz, esp, y, setup, image, holds, loaded⟩ :=
    wp_run (wp_exec_image (oneFile program) old rfl rfl (by decide) serves wellFormed_program)
      (fun _ _ => trivial) run rfl
  refine ⟨l, s', d, sz, esp, y, old, wellFormed_program, run, image, holds, fun good => ?_⟩
  have end_eq : top program (elfOf program).phnum = 2 * PGSIZE := rfl
  have fine := loaded.mp good
  rw [end_eq, short d m₁ l₁ setup] at fine
  cases fine

end Image

section Kernel

variable {p sz : Nat} {x : Space} {t t' : State × Vm.Answers} {elf : Elfhdr} {path file : List UInt8}
    {argv : List (List UInt8)}

/-- In the kernel an inode that is locked is a file with the bytes that the disk holds. -/
theorem reads_kernel (ip : Nat) (small : file.length < 2 ^ 32) : Reads (kernel p) ip file fun t =>
    ∃ g A i, FileAt g t.1 A ip i ∧ bytes A i = file where
  size := small
  readi {t} off n lt good := by
    obtain ⟨g, A, i, at_ip, rfl⟩ := good
    exact ⟨t, aloof_answering (goes_readi ip off n).aloof t.2 (run_readi at_ip lt), rfl, rfl, g, A, i, at_ip, rfl⟩
  keeps {t t'} good rest := by
    obtain ⟨g, A, i, at_ip, rfl⟩ := good
    have same : ∀ {β : Type} (f : State → β), (∀ s m, f { s with mem := m } = f s) → f t'.1 = f t.1 := fun f free =>
      (free t'.1 Vm.Mem.bare).symm.trans ((congrArg f rest).trans (free t.1 Vm.Mem.bare))
    have cache := same State.icache fun _ _ => rfl
    refine ⟨g, A, i, ⟨at_ip.disk.of_eq (same State.disk fun _ _ => rfl) (same State.dirty fun _ _ => rfl) ?_ ?_
      ?_, at_ip.sound, at_ip.lt, ?_, ?_, at_ip.allocated, at_ip.file⟩, rfl⟩
    · rw [same State.log fun _ _ => rfl]
    · rw [same State.log fun _ _ => rfl]
    · rw [same State.log fun _ _ => rfl]
    · rw [cache]
      exact at_ip.inum
    · rw [cache]
      exact at_ip.din

theorem sysExec_passes_arguments (h : Old (t.1.procs p).pgdir sz x t.1.mem t.2) (few : argv.length ≤ MAXARG)
    (run : Kernel.answering.run (sysExec p elf path argv) t = .returned 0 t') :
    ∃ y ptrs, Vm.Holds t'.1.mem (t'.1.procs p).pgdir y ∧
      Passed t'.1.mem y (t'.1.procs p).sz (t'.1.procs p).esp argv ptrs := by
  rw [run_sysExec] at run
  obtain ⟨d, sz, esp, y, ptrs, image, holds, passed, _⟩ :=
    wp_run (wp_exec_arguments (kernel p) h rfl rfl few) (fun _ _ => trivial) run rfl
  injection image with d_eq rest
  injection rest with sz_eq esp_eq
  subst d_eq sz_eq esp_eq
  exact ⟨y, ptrs, holds, passed⟩

/-- A file that `namei` and `ilock` bring into the inode cache, loaded by `exec`. -/
theorem sysExec_loads_image (h : Old (t.1.procs p).pgdir sz x t.1.mem t.2) (few : argv.length ≤ MAXARG)
    (small : file.length < 2 ^ 32) (formed : WellFormed file)
    (opens : ∀ {ip t₁ t₂}, Kernel.answering.run (Kernel.namei p path) t = .returned (some ip) t₁ →
      Kernel.answering.run (Kernel.ilock ip) t₁ = .returned () t₂ → ∃ g A i, FileAt g t₂.1 A ip i ∧ bytes A i = file)
    (run : Kernel.answering.run (sysExec p elf path argv) t = .returned 0 t') :
    ∃ d m₁ l₁ y, Vm.answering.run Vm.setupkvm (t.1.mem, t.2) = .returned (some d) (m₁, l₁) ∧
      Vm.Holds t'.1.mem (t'.1.procs p).pgdir y ∧ (Loaded file t'.1.mem y (t'.1.procs p).sz ↔
        (Space.empty.upTo l₁ (top file (elfOf file).phnum)).short = false) := by
  rw [run_sysExec] at run
  obtain ⟨d, m₁, l₁, sz, esp, y, setup, image, holds, loaded⟩ :=
    wp_run (wp_exec_image (kernel p) h rfl rfl few ⟨opens, fun ip => reads_kernel ip small⟩ formed)
      (fun _ _ => trivial) run rfl
  injection image with d_eq rest
  injection rest with sz_eq esp_eq
  subst d_eq sz_eq
  exact ⟨_, m₁, l₁, y, setup, holds, loaded⟩

end Kernel

end Espl.Kernel.Exec
