import Mathlib.Tactic

/-!
# Ledgers of references

What a piece of code takes and gives back, as the list of its events: references to counted
resources, and allocated nodes.  `Balanced` is what such a list should be: it gives back no
reference that it has not taken before and keeps none, and it frees each node once, after its last
use.

`gets` and `puts` count the two kinds of events for one resource; their simp lemmas push a count
through a list that is written out, so that a statement about a piece of code becomes linear
arithmetic.
-/

namespace KLRM

/-- A reference to the resource `r` is taken or given back; the node number `n` is allocated,
    used or freed. -/
inductive RefEvent (ρ : Type*)
  | get (r : ρ)
  | put (r : ρ)
  | alloc (n : ℕ)
  | use (n : ℕ)
  | free (n : ℕ)
deriving DecidableEq

namespace RefEvent

variable {ρ : Type*} [DecidableEq ρ] {events more : List (RefEvent ρ)} {r r' : ρ} {n : ℕ}

/-- How often a reference was taken. -/
def gets (events : List (RefEvent ρ)) (r : ρ) : ℕ := events.count (get r)

/-- How often it was given back. -/
def puts (events : List (RefEvent ρ)) (r : ρ) : ℕ := events.count (put r)

@[simp] lemma gets_nil (r : ρ) : gets [] r = 0 := rfl

@[simp] lemma puts_nil (r : ρ) : puts [] r = 0 := rfl

@[simp] lemma gets_append (events more : List (RefEvent ρ)) (r : ρ) :
    gets (events ++ more) r = gets events r + gets more r := List.count_append

@[simp] lemma puts_append (events more : List (RefEvent ρ)) (r : ρ) :
    puts (events ++ more) r = puts events r + puts more r := List.count_append

@[simp] lemma gets_cons_get : gets (get r' :: events) r = (if r' = r then 1 else 0) +
    gets events r := by
  simp only [gets, List.count_cons, beq_iff_eq, get.injEq]
  omega

@[simp] lemma puts_cons_put : puts (put r' :: events) r = (if r' = r then 1 else 0) +
    puts events r := by
  simp only [puts, List.count_cons, beq_iff_eq, put.injEq]
  omega

@[simp] lemma gets_cons_put : gets (put r' :: events) r = gets events r := by simp [gets]

@[simp] lemma puts_cons_get : puts (get r' :: events) r = puts events r := by simp [puts]

@[simp] lemma gets_cons_alloc : gets (alloc n :: events) r = gets events r := by simp [gets]

@[simp] lemma puts_cons_alloc : puts (alloc n :: events) r = puts events r := by simp [puts]

@[simp] lemma gets_cons_use : gets (use n :: events) r = gets events r := by simp [gets]

@[simp] lemma puts_cons_use : puts (use n :: events) r = puts events r := by simp [puts]

@[simp] lemma gets_cons_free : gets (free n :: events) r = gets events r := by simp [gets]

@[simp] lemma puts_cons_free : puts (free n :: events) r = puts events r := by simp [puts]

end RefEvent

open RefEvent

/-- Every reference is given back after it was taken and every node is freed once, when it is
    used no more. -/
structure Balanced {ρ : Type*} [DecidableEq ρ] (events : List (RefEvent ρ)) : Prop where
  covered : ∀ early, early <+: events → ∀ r, puts early r ≤ gets early r
  settled : ∀ r, gets events r = puts events r
  freed : ∀ n, alloc n ∈ events → events.count (free n) = 1
  live : ∀ early n, early ++ [use n] <+: events ∨ early ++ [free n] <+: events → alloc n ∈ early ∧
    free n ∉ early

/-- Code that takes nothing. -/
lemma Balanced.nil {ρ : Type*} [DecidableEq ρ] : Balanced ([] : List (RefEvent ρ)) where
  covered := by
    intro early hearly r
    rw [List.prefix_nil.mp hearly]
    rfl
  settled := fun _ => rfl
  freed := fun n hn => absurd hn List.not_mem_nil
  live := by
    rintro early n (h | h)
    · simpa using List.prefix_nil.mp h
    · simpa using List.prefix_nil.mp h

end KLRM
