import Espl.Labs.Diff
import Espl.Libc.Stdio

/-!
# Differences of two files

`bcmp.c` lists the bytes in which two files differ, and `bfix.c` changes a file by such a list.
-/

namespace Espl.Labs

def signed (c : UInt8) : Int := if c < 128 then c.toNat else c.toNat - 256

def printd (z : Int) : List UInt8 := if z < 0 then 45 :: decimal z.natAbs else decimal z.toNat

/-- `printf("byte %d -%d +%d\n", count, a, b)`. -/
def bcmp.line (count : Nat) (a b : UInt8) : List UInt8 :=
  [98, 121, 116, 101, 32] ++ decimal count ++ [32, 45] ++ printd (signed a) ++ [32, 43] ++ printd (signed b) ++ [10]

/-- The loop of `bcmp`: what it prints, unless `count` overflows. A file is at its end after `fread` has found nothing,
and then the character stays as it is. -/
def bcmp.loop (count : Nat) (a b : UInt8) (file1 file2 : List UInt8) : Option (List UInt8) :=
  let a := file1.headD a
  let b := file2.headD b
  let output := if a ≠ b then line count a b else []
  if count = 0x7fffffff then none
  else if file1 = [] ∧ file2 = [] then some output
  else (output ++ ·) <$> loop (count + 1) a b file1.tail file2.tail
termination_by file1.length + file2.length
decreasing_by
  rename_i more
  rcases file1 with _ | ⟨c, file1⟩ <;> rcases file2 with _ | ⟨d, file2⟩ <;> simp_all
  omega

def bcmp (file1 file2 : List UInt8) : Option (List UInt8) := bcmp.loop 0 97 98 file1 file2

structure Fix where
  file : List UInt8
  b : UInt8

/-- `fputc(c, file)` at an offset; a gap before it is filled with zeros. -/
def Fix.fputc (s : Fix) (offset : Nat) (c : Int) : Fix :=
  let c := UInt8.ofNat (c % 256).toNat
  { s with file := if offset < s.file.length then s.file.set offset c
                   else s.file ++ List.replicate (offset - s.file.length) 0 ++ [c] }

/-- The body of the loop of `bfix` on a difference with this offset. -/
def Fix.turn (rflag : Bool) (s : Fix) (offset : Nat) (old new : Int) : Fix :=
  let s := { s with b := s.file.getD offset s.b }
  if rflag = false then if signed s.b = old then s.fputc offset new else s
  else if signed s.b = new then s.fputc offset old else s

/-- The loop of `bfix`, with what is in the buffer `a`; an offset in the list is not negative. -/
def bfix.loop (rflag : Bool) (a : List UInt8) (s : Fix) (list : List UInt8) : Option Fix :=
  (Libc.blocks 127 a list).foldlM (fun s block => (parsediff block).map fun d =>
    s.turn rflag d.offset.toNat d.old d.new) s

def bfix (rflag : Bool) (a list file : List UInt8) : Option (List UInt8) :=
  (bfix.loop rflag a ⟨file, 98⟩ list).map Fix.file

def Repairs (file1 file2 : List UInt8) : Prop :=
  ∃ list, bcmp file1 file2 = some list ∧ ∀ a, bfix false a list file1 = some file2 ∧ bfix true a list file2 = some file1

/-- The files are not empty and not longer than an `int` can count, their last bytes are the same, and bytes that differ
are less than 128. -/
structure Comparable (file1 file2 : List UInt8) : Prop where
  nonempty : file1 ≠ []
  short : file1.length < 0x7fffffff
  last : file1.getLast? = file2.getLast?
  ascii : ∀ e ∈ file1.zip file2, e.1 ≠ e.2 → e.1 < 128 ∧ e.2 < 128

/-! ### One difference -/

section

variable {rflag : Bool} {s : Fix} {count : Nat} {a b p q : UInt8} {x y rest block front : List UInt8}

/-- The numbers that are read from a line: a minus sign where a digit should be ends them. -/
def reads (a b : UInt8) : Int × Int := if a < 128 then (a.toNat, if b < 128 then b.toNat else 0) else (0, 0)

theorem printd_small (small : a < 128) : printd (signed a) = decimal a.toNat := by
  have natural : ¬ signed a < 0 := by simp [signed, small]
  rw [printd, if_neg natural, signed, if_pos small, Int.toNat_natCast]

theorem printd_large (large : ¬ a < 128) : ∃ digits, printd (signed a) = 45 :: digits := by
  have negative : signed a < 0 := by
    have := a.toNat_lt
    rw [signed, if_neg large]
    omega
  exact ⟨_, if_pos negative⟩

theorem strtol_sign (c : UInt8) (sign : c = 45 ∨ c = 43) (rest : List UInt8) :
    Libc.strtol (32 :: c :: 45 :: rest) = (0, 32 :: c :: 45 :: rest) := by
  rcases sign with rfl | rfl <;> rfl

theorem parsediff_line (small : count < 0x7fffffff) (junk : List UInt8) :
    parsediff (bcmp.line count a b ++ 0 :: junk) = some ⟨count, (reads a b).1, (reads a b).2⟩ := by
  have offset : (count : Int) ≤ Libc.LONG_MAX := by
    simp only [Libc.LONG_MAX]
    omega
  have byte : ∀ c : UInt8, (c.toNat : Int) ≤ INT_MAX := by
    intro c
    have := c.toNat_lt
    simp only [INT_MAX]
    omega
  by_cases ascii : a < 128
  · rw [bcmp.line, printd_small ascii, reads, if_pos ascii]
    by_cases ascii' : b < 128
    · rw [printd_small ascii', if_pos ascii']
      exact parsediff_numbers junk offset (byte a) (byte b)
    · obtain ⟨digits, minus⟩ := printd_large ascii'
      have line : [98, 121, 116, 101, 32] ++ decimal count ++ [32, 45] ++ decimal
        a.toNat ++ [32, 43] ++ 45 :: digits ++ [10] ++ 0 :: junk =
          [98, 121, 116, 101, 32] ++ decimal
            count ++ (32 :: 45 :: (decimal a.toNat ++ 32 :: 43 :: 45 :: (digits ++ 10 :: 0 :: junk))) := by
        simp
      have old : Libc.strtol (32 :: 45 :: (decimal a.toNat ++ 32 :: 43 :: 45 :: (digits ++ 10 :: 0 :: junk))) =
        (-(a.toNat : Int), _) :=
        Libc.strtol_minus ((byte a).trans (by decide)) (by simp [Libc.isdigit])
      have low := byte a
      simp only [INT_MAX] at low
      rw [minus, if_neg ascii', line, parsediff_offset offset (by simp [Libc.isdigit]), old,
        strtol_sign 43 (Or.inr rfl), Int.neg_neg, Int.bmod_eq_of_le (by omega) (by omega)]
      rfl
  · obtain ⟨digits, minus⟩ := printd_large ascii
    have line : [98, 121, 116, 101, 32] ++ decimal count ++ [32, 45] ++ 45 :: digits ++ [32, 43] ++ printd
      (signed b) ++ [10] ++ 0 :: junk =
        [98, 121, 116, 101, 32] ++ decimal
          count ++ (32 :: 45 :: 45 :: (digits ++ 32 :: 43 :: (printd (signed b) ++ 10 :: 0 :: junk))) := by
      simp
    rw [bcmp.line, minus, line, parsediff_offset offset (by simp [Libc.isdigit]), strtol_sign 45 (Or.inl rfl),
      strtol_sign 45 (Or.inl rfl), reads, if_neg ascii]
    rfl

theorem decimal_length {n : Nat} (small : n < 10 ^ 10) : (decimal n).length ≤ 10 := by
  rw [decimal, List.length_map, numeral]
  split
  · decide
  · rw [List.length_reverse]
    exact (Nat.digits_length_le_iff (by decide) n).mpr small

theorem decimal_plain (n : Nat) : 10 ∉ decimal n := fun member => absurd (decimal_char member).1 (by decide)

theorem printd_plain (c : UInt8) : 10 ∉ printd (signed c) ∧ (printd (signed c)).length ≤ 11 := by
  have bounds : -128 ≤ signed c ∧ signed c < 128 := by
    have := c.toNat_lt
    rw [signed]
    split
    · rename_i small
      have := UInt8.lt_iff_toNat_lt.mp small
      simp at this
      omega
    · rename_i large
      have := UInt8.lt_iff_toNat_lt.not.mp large
      simp at this
      omega
  rw [printd]
  split
  · have := decimal_length (n := (signed c).natAbs) (by omega)
    exact ⟨by simp [decimal_plain], by simp; omega⟩
  · exact ⟨decimal_plain _, (decimal_length (by omega)).trans (by decide)⟩

theorem bcmp_line (small : count < 0x7fffffff) : ∃ l, bcmp.line count a b = l ++ [10] ∧ 10 ∉ l ∧ l.length ≤ 127 := by
  have digits := decimal_length (n := count) (by omega)
  obtain ⟨plain, length⟩ := printd_plain a
  obtain ⟨plain', length'⟩ := printd_plain b
  refine ⟨_, rfl, ?_, ?_⟩
  · simp [decimal_plain, plain, plain']
  · simp only [List.length_append, List.length_cons, List.length_nil]
    omega

theorem bfix_line (small : count < 0x7fffffff) (rest : List UInt8) :
    ∃ block', bfix.loop rflag block s (bcmp.line count a b ++ rest) = bfix.loop rflag block'
      (s.turn rflag count (reads a b).1 (reads a b).2) rest := by
  obtain ⟨l, line, single, short⟩ := bcmp_line small (a := a) (b := b)
  refine ⟨Libc.put block (l ++ [10]), ?_⟩
  have parsed := parsediff_line small (a := a) (b := b) (block.drop ((l ++ [10]).length + 1))
  rw [line] at parsed ⊢
  rw [bfix.loop, List.append_assoc, List.singleton_append, Libc.blocks_append block single short, List.foldlM_cons,
    Libc.put, parsed]
  rfl

/-! ### All differences -/

def effect (rflag : Bool) (s : Fix) (count : Nat) (a b : UInt8) : List (UInt8 × UInt8) → Fix
  | [] => if a ≠ b then s.turn rflag count (reads a b).1 (reads a b).2 else s
  | (p, q) :: l => effect rflag (if p ≠ q then s.turn rflag count (reads p q).1 (reads p q).2 else s) (count + 1) p q l

theorem bfix_nil (rflag : Bool) (block : List UInt8) (s : Fix) : bfix.loop rflag block s [] = some s := by
  rw [bfix.loop, Libc.blocks_nil]
  rfl

theorem bfix_output (rflag : Bool) (block : List UInt8) (s : Fix) (a b : UInt8) (small : count < 0x7fffffff)
    (rest : List UInt8) :
    ∃ block', bfix.loop rflag block s ((if a ≠ b then bcmp.line count a b else []) ++ rest) =
      bfix.loop rflag block' (if a ≠ b then s.turn rflag count (reads a b).1 (reads a b).2 else s) rest := by
  by_cases differ : a ≠ b
  · rw [if_pos differ, if_pos differ]
    exact bfix_line small rest
  · rw [if_neg differ, if_neg differ]
    exact ⟨block, rfl⟩

theorem bfix_loop (l : List (UInt8 × UInt8)) (a b : UInt8) (start : count ≤ 0x7fffffff) :
    (bcmp.loop count a b (l.map Prod.fst) (l.map Prod.snd) = none ∧ 0x7fffffff ≤ count + l.length) ∨
    ∃ list, bcmp.loop count a b (l.map Prod.fst) (l.map Prod.snd) = some list ∧ count + l.length < 0x7fffffff ∧
      ∀ rflag s block, bfix.loop rflag block s list = some (effect rflag s count a b l) := by
  induction l generalizing count a b with
  | nil =>
    rw [bcmp.loop]
    by_cases full : count = 0x7fffffff
    · exact Or.inl ⟨if_pos full, by omega⟩
    · refine Or.inr ⟨_, (if_neg full).trans (if_pos ⟨rfl, rfl⟩), by simp; omega, fun rflag s block => ?_⟩
      obtain ⟨block', run⟩ := bfix_output rflag block s a b (by omega : count < 0x7fffffff) []
      rw [List.append_nil, bfix_nil] at run
      exact run
  | cons pair l ih =>
    obtain ⟨p, q⟩ := pair
    rw [bcmp.loop]
    by_cases full : count = 0x7fffffff
    · exact Or.inl ⟨if_pos full, by omega⟩
    · rw [if_neg full, if_neg (by simp)]
      rcases ih p q (by omega : count + 1 ≤ 0x7fffffff) with ⟨none, far⟩ | ⟨list, some, near, run⟩
      · exact Or.inl ⟨congrArg _ none, by simp; omega⟩
      · refine Or.inr ⟨_, congrArg _ some, by simp; omega, fun rflag s block => ?_⟩
        obtain ⟨block', first⟩ := bfix_output rflag block s p q (by omega : count < 0x7fffffff) list
        exact first.trans (run rflag _ block')

theorem ofNat_byte (p : UInt8) : UInt8.ofNat ((p.toNat : Int) % 256).toNat = p := by
  have := p.toNat_lt
  rw [show ((p.toNat : Int) % 256).toNat = p.toNat by omega, UInt8.ofNat_toNat]

theorem turn_at (rflag : Bool) (front x : List UInt8) (p c : UInt8) (old new : Int) :
    Fix.turn rflag ⟨front ++ p :: x, c⟩ front.length old new =
      if signed p = (if rflag then new else old)
      then ⟨front ++ UInt8.ofNat ((if rflag then old else new) % 256).toNat :: x, p⟩ else ⟨front ++ p :: x, p⟩ := by
  cases rflag <;> simp [Fix.turn, Fix.fputc]

theorem turn_end (front : List UInt8) (c : UInt8) (old new : Int) :
    Fix.turn false ⟨front, c⟩ front.length old new =
      if signed c = old then ⟨front ++ [UInt8.ofNat (new % 256).toNat], c⟩ else ⟨front, c⟩ := by
  simp [Fix.turn, Fix.fputc]

def fixed (p q : UInt8) : UInt8 := if p < 128 ∧ p ≠ q then (if q < 128 then q else 0) else p

theorem turn_forward (front x : List UInt8) (p q c : UInt8) :
    ∃ c', (if p ≠ q then Fix.turn false ⟨front ++ p :: x, c⟩ front.length (reads p q).1
      (reads p q).2 else ⟨front ++ p :: x, c⟩) =
      ⟨front ++ [fixed p q] ++ x, c'⟩ ∧ (p ≠ q → c' = p) := by
  rw [turn_at]
  by_cases differ : p = q
  · exact ⟨c, by simp [fixed, differ], fun other => absurd differ other⟩
  · refine ⟨p, ?_, fun _ => rfl⟩
    by_cases ascii : p < 128
    · by_cases ascii' : q < 128 <;> simp [reads, signed, fixed, ascii, ascii', differ, ofNat_byte]
    · have negative : signed p ≠ 0 := by
        have := p.toNat_lt
        rw [signed, if_neg ascii]
        omega
      simp [reads, fixed, ascii, negative, differ]

theorem turn_backward (front y : List UInt8) (c : UInt8) (ascii : p ≠ q → p < 128 ∧ q < 128) :
    ∃ c', (if p ≠ q then Fix.turn true ⟨front ++ q :: y, c⟩ front.length (reads p q).1
      (reads p q).2 else ⟨front ++ q :: y, c⟩) =
      ⟨front ++ [p] ++ y, c'⟩ := by
  rw [turn_at]
  by_cases differ : p = q
  · exact ⟨c, by simp [differ]⟩
  · obtain ⟨low, low'⟩ := ascii differ
    exact ⟨q, by simp [reads, signed, low, low', differ, ofNat_byte]⟩

theorem effect_forward (l : List (UInt8 × UInt8)) (a b : UInt8) (front : List UInt8) (c : UInt8) :
    front ++ l.map (fun e => fixed e.1 e.2) <+: (effect false ⟨front ++ l.map Prod.fst, c⟩ front.length a
      b l).file := by
  induction l generalizing front c a b with
  | nil =>
    rw [List.map_nil, List.map_nil, List.append_nil, effect, turn_end]
    split
    · split <;> simp
    · simp
  | cons pair l ih =>
    obtain ⟨p, q⟩ := pair
    obtain ⟨c', turned, -⟩ := turn_forward front (l.map Prod.fst) p q c
    have next := ih p q (front ++ [fixed p q]) c'
    rw [List.append_assoc, List.length_append] at next
    simp only [effect, List.map_cons, turned]
    exact next

theorem effect_longer (l : List (UInt8 × UInt8)) (a b : UInt8) (last : (l.getLastD (a, b)).1 ≠ (l.getLastD (a, b)).2)
    (ascii : (l.getLastD (a, b)).1 < 128) (front : List UInt8) (c : UInt8) (read : l = [] → c = a) :
    (effect false ⟨front ++ l.map Prod.fst, c⟩ front.length a b l).file.length = front.length + l.length + 1 := by
  induction l generalizing front c a b with
  | nil =>
    obtain rfl := read rfl
    have differ : c ≠ b := last
    have small : c < 128 := ascii
    have same : signed c = (reads c b).1 := by simp [signed, reads, small]
    rw [List.map_nil, List.append_nil, effect, if_pos differ, turn_end, if_pos same]
    simp
  | cons pair l ih =>
    obtain ⟨p, q⟩ := pair
    rw [List.getLastD_cons] at last ascii
    obtain ⟨c', turned, seen⟩ := turn_forward front (l.map Prod.fst) p q c
    have next := ih p q last ascii (front ++ [fixed p q]) c' fun empty => seen (by rw [empty] at last; exact last)
    rw [List.length_append] at next
    simp only [effect, List.map_cons, turned, List.length_cons]
    rw [List.length_singleton] at next
    omega

theorem effect_both (l : List (UInt8 × UInt8)) (a b : UInt8) (ascii : ∀ e ∈ l, e.1 ≠ e.2 → e.1 < 128 ∧ e.2 < 128)
    (last : (l.getLastD (a, b)).1 = (l.getLastD (a, b)).2) (front : List UInt8) (c : UInt8) :
    (effect false ⟨front ++ l.map Prod.fst, c⟩ front.length a b l).file = front ++ l.map Prod.snd ∧
      (effect true ⟨front ++ l.map Prod.snd, c⟩ front.length a b l).file = front ++ l.map Prod.fst := by
  induction l generalizing front c a b with
  | nil =>
    have same : a = b := last
    rw [effect, effect, if_neg (not_not.mpr same), if_neg (not_not.mpr same)]
    exact ⟨rfl, rfl⟩
  | cons pair l ih =>
    obtain ⟨p, q⟩ := pair
    rw [List.getLastD_cons] at last
    obtain ⟨first, others⟩ := List.forall_mem_cons.mp ascii
    obtain ⟨c₁, turned, -⟩ := turn_forward front (l.map Prod.fst) p q c
    obtain ⟨c₂, turned'⟩ := turn_backward front (l.map Prod.snd) c first
    have right : fixed p q = q := by
      by_cases differ : p = q
      · simp [fixed, differ]
      · simp [fixed, differ, first differ]
    have forward := (ih p q others last (front ++ [q]) c₁).1
    have backward := (ih p q others last (front ++ [p]) c₂).2
    rw [right] at turned
    rw [List.length_append] at forward backward
    simp only [effect, List.map_cons, turned, turned']
    exact ⟨forward.trans (List.append_assoc _ _ _), backward.trans (List.append_assoc _ _ _)⟩

theorem fixed_eq (same : fixed p q = q) (differ : p ≠ q) : p < 128 ∧ q < 128 := by
  by_cases ascii : p < 128
  · refine ⟨ascii, ?_⟩
    by_contra large
    rw [fixed, if_pos ⟨ascii, differ⟩, if_neg large] at same
    exact large (same ▸ by decide)
  · rw [fixed, if_neg fun both => ascii both.1] at same
    exact absurd same differ

theorem repairs_iff (l : List (UInt8 × UInt8)) : Repairs (l.map Prod.fst) (l.map Prod.snd) ↔
    l.length < 0x7fffffff ∧ (effect false ⟨l.map Prod.fst, 98⟩ 0 97 98 l).file = l.map Prod.snd ∧
      (effect true ⟨l.map Prod.snd, 98⟩ 0 97 98 l).file = l.map Prod.fst := by
  rcases bfix_loop l 97 98 (Nat.zero_le 0x7fffffff) with ⟨none, far⟩ | ⟨list, some, near, run⟩
  · constructor
    · rintro ⟨list, printed, -⟩
      cases none.symm.trans printed
    · rintro ⟨near, -⟩
      omega
  · have fixes : ∀ rflag a file, bfix rflag a list file = Option.some (effect rflag ⟨file, 98⟩ 0 97 98 l).file :=
      fun rflag a file => congrArg (Option.map Fix.file) (run rflag ⟨file, 98⟩ a)
    constructor
    · rintro ⟨list', printed, both⟩
      obtain rfl := Option.some.inj (some.symm.trans printed)
      obtain ⟨forward, backward⟩ := both []
      rw [fixes] at forward backward
      exact ⟨by omega, Option.some.inj forward, Option.some.inj backward⟩
    · rintro ⟨-, forward, backward⟩
      exact ⟨list, some, fun a => ⟨(fixes _ _ _).trans (congrArg _ forward), (fixes _ _ _).trans (congrArg _ backward)⟩⟩

theorem getLastD_pair {l : List (UInt8 × UInt8)} (d : UInt8 × UInt8) (nonempty : l ≠ []) :
    (l.map Prod.fst).getLast? = (l.map Prod.snd).getLast? ↔ (l.getLastD d).1 = (l.getLastD d).2 := by
  obtain ⟨front, e, rfl⟩ := (List.eq_nil_or_concat l).resolve_left nonempty
  simp

end

/-- The list of `bcmp` for two files of the same length repairs them if and only if they are comparable. -/
theorem bfix_repairs_iff (file1 file2 : List UInt8) (same : file1.length = file2.length) :
    Repairs file1 file2 ↔ Comparable file1 file2 := by
  obtain ⟨l, rfl, rfl⟩ : ∃ l : List (UInt8 × UInt8), l.map Prod.fst = file1 ∧ l.map Prod.snd = file2 :=
    ⟨file1.zip file2, List.map_fst_zip (by omega), List.map_snd_zip (by omega)⟩
  have pairs : (l.map Prod.fst).zip (l.map Prod.snd) = l := by simp [List.zip_map']
  rw [repairs_iff]
  constructor
  · rintro ⟨short, forward, backward⟩
    have nonempty : l ≠ [] := by
      rintro rfl
      cases backward
    have ascii : ∀ e ∈ l, e.1 ≠ e.2 → e.1 < 128 ∧ e.2 < 128 := by
      have front := effect_forward l 97 98 [] 98
      simp only [List.nil_append, List.length_nil, forward] at front
      have all := front.eq_of_length (by simp)
      exact fun e member => fixed_eq (List.map_inj_left.mp all e member)
    have member : l.getLastD (97, 98) ∈ l := by
      rw [List.getLastD_eq_getLast? , List.getLast?_eq_getLast_of_ne_nil nonempty]
      exact List.getLast_mem nonempty
    refine ⟨by simpa using nonempty, by simpa using short, (getLastD_pair (97, 98) nonempty).mpr ?_, by rwa [pairs]⟩
    by_contra differ
    have longer := effect_longer l 97 98 differ (ascii _ member differ).1 [] 98 fun empty => absurd empty nonempty
    simp only [List.nil_append, List.length_nil, forward] at longer
    simp at longer
  · rintro ⟨nonempty, short, last, ascii⟩
    rw [pairs] at ascii
    have equal := (getLastD_pair (97, 98) (by simpa using nonempty)).mp last
    have both := effect_both l 97 98 ascii equal [] 98
    exact ⟨by simpa using short, both⟩

theorem bfix_repairs_letters : Repairs [120, 10] [121, 10] :=
  (bfix_repairs_iff [120, 10] [121, 10] rfl).mpr ⟨by decide, by decide, rfl, by simp⟩

/-- A byte of 128 or more is not restored, and behind a last byte that differs another one is written. -/
theorem bfix_breaks : ¬ Repairs [195, 10] [196, 10] ∧ ¬ Repairs [120] [121] := by
  constructor
  · intro repairs
    have forward := ((repairs_iff [(195, 196), (10, 10)]).mp repairs).2.1
    revert forward
    decide
  · intro repairs
    have forward := ((repairs_iff [(120, 121)]).mp repairs).2.1
    revert forward
    decide

end Espl.Labs
