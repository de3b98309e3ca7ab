import Mathlib.Tactic

/-!
# Sets of lists and the tree of their prefixes

A set of lists `S` spans a tree: its nodes are the prefixes of members (`prefixClosure`), its
leaves the members that no other member extends.  Following a list from the root ends at its
`Deepest` node, and whether that node is a leaf can be said in terms of `S` alone.

* `prefixClosure` — the nodes of the tree.
* `Deepest` — where the walk along a list ends; `Deepest.eq_length_iff` and `Deepest.isLeaf_iff`
  say when it has read the whole list and when it ends on a leaf.
-/

namespace KLRM

variable {α : Type*} {S : Set (List α)} {p q : List α}

/-- The empty list and the prefixes of members. -/
def prefixClosure (S : Set (List α)) : Set (List α) := {p | p = [] ∨ ∃ s ∈ S, p <+: s}

lemma nil_mem_prefixClosure (S : Set (List α)) : [] ∈ prefixClosure S := Or.inl rfl

lemma mem_prefixClosure_of_mem (h : p ∈ S) : p ∈ prefixClosure S := Or.inr ⟨p, h, List.prefix_rfl⟩

lemma prefixClosure_closed (h : p ∈ prefixClosure S) (hq : q <+: p) :
    q ∈ prefixClosure S := by
  rcases h with rfl | ⟨s, hs, hp⟩
  · exact Or.inl (List.prefix_nil.mp hq)
  · exact Or.inr ⟨s, hs, hq.trans hp⟩

lemma mem_prefixClosure_insert :
    q ∈ prefixClosure (insert p S) ↔ q ∈ prefixClosure S ∨ q <+: p := by
  constructor
  · rintro (rfl | ⟨s, rfl | hs, hq⟩)
    · exact Or.inl (nil_mem_prefixClosure S)
    · exact Or.inr hq
    · exact Or.inl (Or.inr ⟨s, hs, hq⟩)
  · rintro ((rfl | ⟨s, hs, hq⟩) | hq)
    · exact nil_mem_prefixClosure _
    · exact Or.inr ⟨s, Set.mem_insert_of_mem p hs, hq⟩
    · exact Or.inr ⟨p, Set.mem_insert p S, hq⟩

/-- A proper prefix goes on with one more element. -/
lemma exists_concat_prefix {s : List α} (h : p <+: s) (hne : s ≠ p) : ∃ a, p ++ [a] <+: s := by
  obtain ⟨t, rfl⟩ := h
  cases t with
  | nil => exact absurd (List.append_nil p) hne
  | cons a t => exact ⟨a, t, by simp⟩

lemma take_concat_getElem {d : ℕ} (hd : d < q.length) : q.take d ++ [q[d]] = q.take (d + 1) := by
  simp

/-- No node of `C` is directly below `p`. -/
def IsLeaf (C : Set (List α)) (p : List α) : Prop := ∀ a, p ++ [a] ∉ C

lemma isLeaf_prefixClosure : IsLeaf (prefixClosure S) p ↔ ∀ s ∈ S, p <+: s → s = p := by
  constructor
  · intro h s hs hp
    by_contra hne
    obtain ⟨a, ha⟩ := exists_concat_prefix hp hne
    exact h a (Or.inr ⟨s, hs, ha⟩)
  · rintro h a (hnil | ⟨s, hs, ha⟩)
    · simp at hnil
    · have hsp := h s hs ((List.prefix_append p [a]).trans ha)
      have hlen := ha.length_le
      rw [hsp, List.length_append, List.length_singleton] at hlen
      omega

/-- A leaf other than the root is a member. -/
lemma mem_of_isLeaf (h : p ∈ prefixClosure S) (hne : p ≠ []) (hleaf : IsLeaf (prefixClosure S) p) :
    p ∈ S := by
  rcases h with rfl | ⟨s, hs, hp⟩
  · exact absurd rfl hne
  · rw [← isLeaf_prefixClosure.mp hleaf s hs hp]
    exact hs

/-- The root is a leaf when there is no member, or only the empty list. -/
lemma isLeaf_nil : IsLeaf (prefixClosure S) [] ↔ ∀ s ∈ S, s = [] := by
  rw [isLeaf_prefixClosure]
  exact forall₂_congr fun s _ => ⟨fun h => h (List.nil_prefix), fun h _ => h⟩

/-- Following `q` from the root leads `d` steps down and no further. -/
structure Deepest (C : Set (List α)) (q : List α) (d : ℕ) : Prop where
  le : d ≤ q.length
  mem : q.take d ∈ C
  stop : d < q.length → q.take (d + 1) ∉ C

namespace Deepest

variable {C : Set (List α)} {d : ℕ}

lemma eq_length_iff (h : Deepest (prefixClosure S) q d) :
    d = q.length ↔ q ∈ prefixClosure S := by
  constructor
  · rintro rfl
    simpa using h.mem
  · intro hq
    by_contra hne
    exact h.stop (lt_of_le_of_ne h.le hne) (prefixClosure_closed hq (List.take_prefix _ _))

/-- Where the way of an absent `q` ends is a leaf exactly when `q` lies below a member that no other
    member extends. -/
lemma isLeaf_iff (h : Deepest (prefixClosure S) q d) (hd : d < q.length) (hS : ¬ ∀ s ∈ S, s = []) :
    IsLeaf (prefixClosure S) (q.take d) ↔ ∃ s ∈ S, s <+: q ∧ ∀ s' ∈ S, s <+: s' → s' = s := by
  constructor
  · intro hleaf
    have hne : q.take d ≠ [] := by
      intro hnil
      rw [hnil, isLeaf_nil] at hleaf
      exact hS hleaf
    exact ⟨q.take d, mem_of_isLeaf h.mem hne hleaf, List.take_prefix d q,
      isLeaf_prefixClosure.mp hleaf⟩
  · rintro ⟨s, hs, hsq, hmax⟩
    have hlen : s.length ≤ d := by
      by_contra hlt
      refine h.stop hd (Or.inr ⟨s, hs, ?_⟩)
      refine List.prefix_of_prefix_length_le (List.take_prefix _ _) hsq ?_
      rw [List.length_take]
      omega
    have hst : s <+: q.take d :=
      List.prefix_of_prefix_length_le hsq (List.take_prefix _ _) (by rw [List.length_take]; omega)
    have heq : q.take d = s := by
      rcases h.mem with hnil | ⟨s', hs', hpre⟩
      · rw [hnil] at hst ⊢
        exact (List.prefix_nil.mp hst).symm
      · have := hmax s' hs' (hst.trans hpre)
        rw [this] at hpre
        exact hpre.eq_of_length_le hst.length_le
    rw [heq, isLeaf_prefixClosure]
    exact hmax

end Deepest

end KLRM
