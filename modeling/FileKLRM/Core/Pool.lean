import Mathlib.Tactic

/-!
# Pools of numbered objects

Objects are created under numbers that are never used again and destroyed by number.  A number
that is not that of a live object is a dangling pointer: destroying it fails.  `kinds` forgets the
numbers and is what a ledger speaks of.

* `Pool.create`, `Pool.destroy` — the two operations; the second one fails on a number that is not
  live.
* `Alive`, `Dead` — what a holder of a number knows about it, kept by every operation on other
  numbers.
-/

namespace KLRM

variable {κ : Type*}

/-- The live objects, each with its kind, and the next number. -/
structure Pool (κ : Type*) where
  live : List (ℕ × κ)
  next : ℕ
  lt_next : ∀ o ∈ live, o.1 < next
  nodup : (live.map Prod.fst).Nodup

namespace Pool

variable {p p' : Pool κ} {n m : ℕ} {k k' : κ}

/-- Nothing has been created. -/
def empty : Pool κ := ⟨[], 0, by simp, by simp⟩

/-- The object is live, and of this kind. -/
def Alive (p : Pool κ) (n : ℕ) (k : κ) : Prop := (n, k) ∈ p.live

/-- The number was given to an object that is gone. -/
def Dead (p : Pool κ) (n : ℕ) : Prop := n < p.next ∧ ∀ k, ¬ p.Alive n k

/-- The kinds of the live objects. -/
def kinds (p : Pool κ) : Multiset κ := ↑(p.live.map Prod.snd)

/-- A new object; its number is `p.next`. -/
def create (p : Pool κ) (k : κ) : Pool κ where
  live := (p.next, k) :: p.live
  next := p.next + 1
  lt_next o ho := by
    rcases List.mem_cons.mp ho with rfl | ho
    · exact Nat.lt_succ_self _
    · exact (p.lt_next o ho).trans (Nat.lt_succ_self _)
  nodup := by
    rw [List.map_cons, List.nodup_cons]
    refine ⟨fun hmem => ?_, p.nodup⟩
    obtain ⟨o, ho, heq⟩ := List.mem_map.mp hmem
    exact absurd (p.lt_next o ho) (by simp [heq])

/-- The object is destroyed, if there is one of this number. -/
def destroy (p : Pool κ) (n : ℕ) : Option (Pool κ) :=
  if n ∈ p.live.map Prod.fst then
    some
      { live := p.live.filter fun o => o.1 ≠ n
        next := p.next
        lt_next := fun o ho => p.lt_next o (List.mem_of_mem_filter ho)
        nodup := p.nodup.sublist (List.filter_sublist.map Prod.fst) }
  else none

@[simp] lemma kinds_create (p : Pool κ) (k : κ) : (p.create k).kinds = k ::ₘ p.kinds := rfl

lemma Alive.lt_next (h : p.Alive n k) : n < p.next := p.lt_next _ h

/-- One object has one kind. -/
lemma Alive.kind_eq (h : p.Alive n k) (h' : p.Alive n k') : k = k' := by
  have hpair := List.inj_on_of_nodup_map p.nodup h h' rfl
  exact congrArg Prod.snd hpair

lemma Alive.ne (h : p.Alive n k) (h' : p.Alive m k') (hk : k ≠ k') : n ≠ m := by
  rintro rfl
  exact hk (h.kind_eq h')

lemma alive_create (p : Pool κ) (k : κ) : (p.create k).Alive p.next k := List.mem_cons_self

lemma Alive.create (h : p.Alive n k) (k' : κ) : (p.create k').Alive n k := List.mem_cons_of_mem _ h

/-- **What destroying a live object does.** -/
lemma Alive.destroy (h : p.Alive n k) :
    ∃ p', p.destroy n = some p' ∧ p.kinds = k ::ₘ p'.kinds ∧ p'.Dead n ∧
    p'.next = p.next ∧ ∀ m k', p'.Alive m k' ↔ p.Alive m k' ∧ m ≠ n := by
  have hmem : n ∈ p.live.map Prod.fst := List.mem_map_of_mem h
  have halive : ∀ m k', (m, k') ∈ p.live.filter (fun o => o.1 ≠ n) ↔ (m, k') ∈ p.live ∧ m ≠ n := by
    simp [List.mem_filter]
  refine ⟨_, if_pos hmem, ?_, ⟨h.lt_next, fun k' hk' => ((halive n k').mp hk').2 rfl⟩, rfl, halive⟩
  have hnodup : p.live.Nodup := p.nodup.of_map
  have hperm : p.live.Perm ((n, k) :: p.live.filter fun o => o.1 ≠ n) := by
    refine (List.perm_ext_iff_of_nodup hnodup (List.nodup_cons.mpr ⟨?_, hnodup.filter _⟩)).mpr
      fun o => ?_
    · exact fun hin => ((halive n k).mp hin).2 rfl
    · rw [List.mem_cons, halive o.1 o.2]
      constructor
      · intro ho
        by_cases hn : o.1 = n
        · exact Or.inl (List.inj_on_of_nodup_map p.nodup ho h hn)
        · exact Or.inr ⟨ho, hn⟩
      · rintro (rfl | ⟨ho, -⟩)
        · exact h
        · exact ho
  exact Multiset.coe_eq_coe.mpr (hperm.map Prod.snd)

/-- A dangling pointer. -/
lemma Dead.destroy (h : p.Dead n) : p.destroy n = none := by
  refine if_neg fun hmem => ?_
  obtain ⟨o, ho, rfl⟩ := List.mem_map.mp hmem
  exact h.2 o.2 ho

/-- A number that was destroyed stays dead. -/
lemma Dead.of_destroy (h : p.Dead n) (hdestroy : p.destroy m = some p') : p'.Dead n := by
  unfold Pool.destroy at hdestroy
  split_ifs at hdestroy
  obtain rfl := Option.some.inj hdestroy
  exact ⟨h.1, fun k hk => h.2 k (List.mem_of_mem_filter hk)⟩

end Pool

end KLRM
