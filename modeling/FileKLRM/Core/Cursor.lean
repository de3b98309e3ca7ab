import Mathlib.Tactic

/-!
# A cursor behind a growing stream

A stream grows at its end, and only its last `N` elements can still be read.  A cursor goes
forward over it: it delivers an element, finds that it is gone, or is set past it.  What became of
the elements that it has passed is a list of fates, the one of element `p` at index `p`; so no
element is delivered twice, and none out of order.  `Follows` says that the fates are right, and
there is one rule for each thing that can happen to the cursor.

* `Follows` — the fates of the elements passed so far are right; `Follows.extend`, `Follows.miss`,
  `Follows.jump` and `Follows.deliver` are the rules, one for a growing stream and one for each
  move.
* `deliveries` — what a history of fates has delivered; `Follows.deliveries_eq` reads it off the
  stream when nothing was missed.
-/

namespace KLRM

variable {β : Type*}

/-- What became of an element that the cursor has passed. -/
inductive Fate (β : Type*)
  | delivered (b : β)
  | gone
  | jumped

/-- The element that was delivered, if one was. -/
def Fate.element : Fate β → Option β
  | delivered b => some b
  | gone | jumped => none

/-- The elements that were delivered. -/
def deliveries (fates : List (Fate β)) : List β := fates.filterMap Fate.element

/-- The fates of the first elements of the stream: what was delivered is the element at its
    position, and an element that was gone has more than `N - 1` elements behind it. -/
structure Follows (N : ℕ) (stream : List β) (fates : List (Fate β)) : Prop where
  length_le : fates.length ≤ stream.length
  right : ∀ (p : ℕ) (b : β), fates[p]? = some (Fate.delivered b) → stream[p]? = some b
  overrun : ∀ p : ℕ, fates[p]? = some Fate.gone → p + N < stream.length

@[simp] lemma deliveries_append (as bs : List (Fate β)) :
    deliveries (as ++ bs) = deliveries as ++ deliveries bs :=
  List.filterMap_append

@[simp] lemma deliveries_delivered (bs : List β) : deliveries (bs.map Fate.delivered) = bs := by
  induction bs with
  | nil => rfl
  | cons b bs ih => simpa [deliveries, Fate.element] using ih

lemma deliveries_replicate {fate : Fate β} (h : fate.element = none) (n : ℕ) :
    deliveries (List.replicate n fate) = [] := by
  rw [deliveries, List.filterMap_eq_nil_iff]
  intro a ha
  rw [List.eq_of_mem_replicate ha, h]

namespace Follows

variable {N : ℕ} {stream more : List β} {fates : List (Fate β)}

lemma nil (N : ℕ) (stream : List β) : Follows N stream [] where
  length_le := Nat.zero_le _
  right p b h := by simp at h
  overrun p h := by simp at h

/-- The stream grows. -/
lemma extend (h : Follows N stream fates) (more : List β) : Follows N (stream ++ more) fates where
  length_le := by
    rw [List.length_append]
    exact h.length_le.trans (Nat.le_add_right _ _)
  right p b hp := by
    have hlt : p < stream.length := (List.getElem?_eq_some_iff.mp (h.right p b hp)).1
    rw [List.getElem?_append_left hlt]
    exact h.right p b hp
  overrun p hp := by
    rw [List.length_append]
    exact (h.overrun p hp).trans_le (Nat.le_add_right _ _)

/-- The cursor finds `k` elements gone. -/
lemma miss (h : Follows N stream fates) {k : ℕ}
    (hk : k = 0 ∨ fates.length + k + N ≤ stream.length) :
    Follows N stream (fates ++ List.replicate k Fate.gone) := by
  have hcases : ∀ (p : ℕ) (fate : Fate β), (fates ++ List.replicate k Fate.gone)[p]? = some fate →
      fates[p]? = some fate ∨ fate = .gone ∧ p < fates.length + k := by
    intro p fate hp
    rw [List.getElem?_append] at hp
    split_ifs at hp with hlt
    · exact Or.inl hp
    · rw [List.getElem?_replicate] at hp
      split_ifs at hp with hk
      exact Or.inr ⟨(Option.some.inj hp).symm, by omega⟩
  refine ⟨?_, ?_, ?_⟩
  · have hle := h.length_le
    rw [List.length_append, List.length_replicate]
    omega
  · intro p b hp
    rcases hcases p _ hp with hp | ⟨hfate, -⟩
    · exact h.right p b hp
    · exact absurd hfate (by simp)
  · intro p hp
    rcases hcases p _ hp with hp | ⟨-, hlt⟩
    · exact h.overrun p hp
    · by_cases hold : p < fates.length
      · rw [List.getElem?_append_left hold] at hp
        exact h.overrun p hp
      · omega

/-- The cursor is set past `k` elements. -/
lemma jump (h : Follows N stream fates) {k : ℕ} (hk : fates.length + k ≤ stream.length) :
    Follows N stream (fates ++ List.replicate k Fate.jumped) := by
  have hcases : ∀ (p : ℕ) (fate : Fate β), fate ≠ .jumped →
      (fates ++ List.replicate k Fate.jumped)[p]? = some fate → fates[p]? = some fate := by
    intro p fate hne hp
    rw [List.getElem?_append] at hp
    split_ifs at hp with hlt
    · exact hp
    · rw [List.getElem?_replicate] at hp
      split_ifs at hp
      exact absurd (Option.some.inj hp).symm hne
  refine ⟨?_, fun p b hp => h.right p b (hcases p _ (by simp) hp),
    fun p hp => h.overrun p (hcases p _ (by simp) hp)⟩
  rw [List.length_append, List.length_replicate]
  exact hk

/-- The cursor delivers the next `m` elements. -/
lemma deliver (h : Follows N stream fates) {m : ℕ} (hm : fates.length + m ≤ stream.length) :
    Follows N stream (fates ++ ((stream.drop fates.length).take m).map Fate.delivered) := by
  have hcases : ∀ (p : ℕ) (fate : Fate β),
      (fates ++ ((stream.drop fates.length).take m).map Fate.delivered)[p]? = some fate →
      fates[p]? = some fate ∨ ∃ b, fate = .delivered b ∧ stream[p]? = some b := by
    intro p fate hp
    rw [List.getElem?_append] at hp
    split_ifs at hp with hlt
    · exact Or.inl hp
    · rw [List.getElem?_map, Option.map_eq_some_iff] at hp
      obtain ⟨b, hb, rfl⟩ := hp
      rw [List.getElem?_take] at hb
      split_ifs at hb
      rw [List.getElem?_drop, Nat.add_sub_of_le (Nat.le_of_not_lt hlt)] at hb
      exact Or.inr ⟨b, rfl, hb⟩
  refine ⟨?_, ?_, ?_⟩
  · rw [List.length_append, List.length_map, List.length_take, List.length_drop]
    omega
  · intro p b hp
    rcases hcases p _ hp with hp | ⟨b', hb', hp⟩
    · exact h.right p b hp
    · obtain rfl := Fate.delivered.inj hb'
      exact hp
  · intro p hp
    rcases hcases p _ hp with hp | ⟨b, hb, -⟩
    · exact h.overrun p hp
    · exact absurd hb (by simp)

/-- When every element that was passed was delivered, these are the first ones of the stream. -/
lemma deliveries_eq (h : Follows N stream fates) (hall : ∀ fate ∈ fates, fate.element ≠ none) :
    deliveries fates = stream.take fates.length := by
  have hmap : fates.map Fate.element = (stream.take fates.length).map some := by
    refine List.ext_getElem? fun p => ?_
    rw [List.getElem?_map, List.getElem?_map, List.getElem?_take]
    by_cases hp : p < fates.length
    · obtain ⟨b, hb⟩ := Option.ne_none_iff_exists'.mp (hall fates[p] (List.getElem_mem hp))
      have hfate : fates[p]? = some (Fate.delivered b) := by
        rw [List.getElem?_eq_getElem hp]
        cases hf : fates[p] with
        | delivered c =>
            rw [hf] at hb
            exact congrArg (fun c => some (Fate.delivered c)) (Option.some.inj hb)
        | gone =>
            rw [hf] at hb
            exact absurd hb (by simp [Fate.element])
        | jumped =>
            rw [hf] at hb
            exact absurd hb (by simp [Fate.element])
      rw [if_pos hp, hfate, h.right p b hfate]
      rfl
    · rw [if_neg hp, List.getElem?_eq_none (Nat.le_of_not_lt hp)]
      rfl
  calc deliveries fates = (fates.map Fate.element).filterMap id := by
          rw [List.filterMap_map, deliveries]; rfl
    _ = ((stream.take fates.length).map some).filterMap id := by rw [hmap]
    _ = stream.take fates.length := by rw [List.filterMap_map]; exact List.filterMap_some

end Follows

end KLRM
