import Mathlib.Data.List.Basic
import Mathlib.Logic.Function.Basic

/-!
# Linked lists

A list of nodes, each with the address of the next one, and code that goes along the places where such
an address is kept.
-/

namespace Espl

structure Links where
  first : Option Nat
  next : Nat → Option Nat

inductive Link where
  | first
  | next (a : Nat)
  deriving DecidableEq

namespace Links

def get (x : Links) : Link → Option Nat
  | .first => x.first
  | .next a => x.next a

def set (x : Links) (k : Link) (node : Option Nat) : Links :=
  match k with
  | .first => { x with first := node }
  | .next a => { x with next := Function.update x.next a node }

def From (next : Nat → Option Nat) : Option Nat → List Nat → Prop
  | node, [] => node = none
  | node, a :: l => node = some a ∧ From next (next a) l

def Lists (x : Links) (l : List Nat) : Prop := From x.next x.first l

def after (l : List Nat) : Link :=
  match l.getLast? with
  | none => .first
  | some a => .next a

@[simp] theorem after_concat (l : List Nat) (a : Nat) : after (l ++ [a]) = .next a := by simp [after]

variable {next next' : Nat → Option Nat} {node : Option Nat} {l : List Nat} {a : Nat} {x : Links}

theorem From.congr (h : From next node l) (same : ∀ a ∈ l, next' a = next a) : From next' node l := by
  induction l generalizing node with
  | nil => exact h
  | cons a l ih =>
    refine ⟨h.1, ?_⟩
    rw [same a List.mem_cons_self]
    exact ih h.2 fun b member => same b (List.mem_cons_of_mem _ member)

theorem From.append {l₁ l₂ : List Nat} (h : From next node (l₁ ++ l₂)) (b : Nat) (last : l₁.getLast? = some b) :
    From next (next b) l₂ := by
  induction l₁ generalizing node with
  | nil => cases last
  | cons a l₁ ih =>
    cases l₁ with
    | nil =>
      obtain rfl := Option.some.inj last
      exact h.2
    | cons c l₁ => exact ih h.2 (by simpa using last)

theorem Lists.get_after {l₁ l₂ : List Nat} (h : x.Lists (l₁ ++ l₂)) : From x.next (x.get (after l₁)) l₂ := by
  unfold after
  split
  · rename_i none
    obtain rfl := List.getLast?_eq_none_iff.mp none
    exact h
  · rename_i b last
    exact From.append h b last

theorem From.concat (h : From next node l) (nodup : l.Nodup) (fresh : a ∉ l) (ends : next a = none) (b : Nat)
    (last : l.getLast? = some b) : From (Function.update next b (some a)) node (l ++ [a]) := by
  induction l generalizing node with
  | nil => cases last
  | cons c l ih =>
    obtain ⟨rfl, rest⟩ := h
    rw [List.nodup_cons] at nodup
    rw [List.mem_cons, not_or] at fresh
    refine ⟨rfl, ?_⟩
    cases l with
    | nil =>
      obtain rfl := Option.some.inj last
      refine ⟨Function.update_self .., ?_⟩
      change Function.update next c (some a) a = none
      rw [Function.update_of_ne fresh.1, ends]
    | cons d l =>
      have last' : (d :: l).getLast? = some b := by simpa using last
      have ne : c ≠ b := by
        rintro rfl
        exact nodup.1 (List.mem_of_getLast? last')
      rw [Function.update_of_ne ne]
      exact ih rest nodup.2 fresh.2 last'

theorem Lists.concat (h : x.Lists l) (nodup : l.Nodup) (fresh : a ∉ l) (ends : x.next a = none) :
    (x.set (after l) (some a)).Lists (l ++ [a]) := by
  unfold after
  split
  · rename_i none
    obtain rfl := List.getLast?_eq_none_iff.mp none
    exact ⟨rfl, ends⟩
  · rename_i b last
    exact From.concat h nodup fresh ends b last

end Links

end Espl
