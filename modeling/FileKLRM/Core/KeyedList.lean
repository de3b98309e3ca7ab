import Mathlib.Tactic

/-!
# Lists read as maps

A list whose elements carry a key, read by taking the first element with a given key.  Replacing
that element by at most one with the same key changes what is read at this key and nowhere else.

* `findKey` — the reading; `findKey_replace` and `findKey_replace_of_ne` are what a replacement
  does to it.
* `exists_split` — a key that is found splits the list, and the part in front does not have it.
-/

namespace KLRM

variable {β κ : Type*}

/-- The first element with the key `k`. -/
def findKey [DecidableEq κ] (key : β → κ) (k : κ) (l : List β) : Option β :=
  l.find? fun b => key b = k

variable {key : β → κ} {k k' : κ} {l pre mid post : List β} {x : β}

section

variable [DecidableEq κ]

@[simp] lemma findKey_nil : findKey key k [] = none := rfl

lemma findKey_cons : findKey key k (x :: l) = if key x = k then some x else findKey key k l := by
  rw [findKey, List.find?_cons]
  split_ifs with hx
  · simp [hx]
  · simp [hx, findKey]

lemma findKey_eq_none : findKey key k l = none ↔ ∀ b ∈ l, key b ≠ k := by
  simp [findKey]

lemma findKey_append_of_forall_ne (h : ∀ b ∈ pre, key b ≠ k) :
    findKey key k (pre ++ l) = findKey key k l := by
  rw [findKey, List.find?_append, ← findKey, findKey_eq_none.mpr h, Option.none_or]
  rfl

/-- Where the first element with a key stands. -/
lemma exists_split (h : findKey key k l = some x) :
    ∃ pre post, l = pre ++ x :: post ∧ key x = k ∧ ∀ b ∈ pre, key b ≠ k := by
  induction l with
  | nil => cases h
  | cons y l ih =>
      rw [findKey_cons] at h
      split_ifs at h with hy
      · obtain rfl := Option.some.inj h
        exact ⟨[], l, rfl, hy, by simp⟩
      · obtain ⟨pre, post, rfl, hx, hpre⟩ := ih h
        refine ⟨y :: pre, post, rfl, hx, fun b hb => ?_⟩
        rcases List.mem_cons.mp hb with rfl | hb
        · exact hy
        · exact hpre b hb

end

/-- With distinct keys, no other element has the key of an element. -/
lemma key_ne_of_nodup (h : ((pre ++ x :: post).map key).Nodup) :
    (∀ b ∈ pre, key b ≠ key x) ∧ ∀ b ∈ post, key b ≠ key x := by
  rw [List.map_append, List.map_cons, List.nodup_append] at h
  obtain ⟨-, hpost, hdisj⟩ := h
  constructor
  · intro b hb heq
    exact hdisj _ (List.mem_map_of_mem hb) _ (by simp) heq
  · intro b hb heq
    exact (List.nodup_cons.mp hpost).1 (heq ▸ List.mem_map_of_mem hb)

lemma findKey_replace [DecidableEq κ] (hpre : ∀ b ∈ pre, key b ≠ key x)
    (hmid : ∀ y ∈ mid, key y = key x) (hpost : mid = [] → ∀ b ∈ post, key b ≠ key x) :
    findKey key (key x) (pre ++ mid ++ post) = mid.head? := by
  rw [List.append_assoc, findKey_append_of_forall_ne hpre]
  cases mid with
  | nil => exact findKey_eq_none.mpr (hpost rfl)
  | cons y mid => simp [findKey_cons, hmid y (by simp)]

lemma findKey_replace_of_ne [DecidableEq κ] (hmid : ∀ y ∈ mid, key y = key x) (hk : k ≠ key x) :
    findKey key k (pre ++ mid ++ post) = findKey key k (pre ++ x :: post) := by
  induction pre with
  | nil =>
      rw [List.nil_append, List.nil_append, findKey_cons, if_neg hk.symm,
        findKey_append_of_forall_ne fun y hy => by rw [hmid y hy]; exact hk.symm]
  | cons y pre ih => simp only [List.cons_append, findKey_cons, ih]

lemma nodup_replace (h : ((pre ++ x :: post).map key).Nodup) (hmid : ∀ y ∈ mid, key y = key x)
    (hlen : mid.length ≤ 1) : ((pre ++ mid ++ post).map key).Nodup := by
  match mid, hlen with
  | [], _ =>
      refine h.sublist ?_
      rw [List.append_nil]
      exact (List.Sublist.append_left (List.sublist_cons_self x post) pre).map key
  | [y], _ =>
      rw [List.append_assoc, List.singleton_append, List.map_append, List.map_cons,
        hmid y (by simp), ← List.map_cons, ← List.map_append]
      exact h

end KLRM
