import Mathlib.Tactic

/-!
# Frames around unescaped text

Records that are written one after the other: a head, a text that may be anything, and an end.
Heads and ends are self-delimiting, an end does not begin inside another end, and none begins
inside a head (`Framing`).

A text may then look like a piece of the sequence only where it holds an end with a head behind it
(`Forges`).  Sequences of records whose texts do not are told apart by what is written
(`Framing.frames_injective`), and any text that does can be read as two records (`Forges.split`).

The induction behind `frames_injective` is on the first record: its head is recognised, its text
ends where the first end with a head behind it stands, and what is left is a shorter sequence.
-/

namespace KLRM

variable {α ι κ : Type*} {head : ι → List α} {stop : κ → List α}

/-- A record as it is written. -/
def frame (head : ι → List α) (stop : κ → List α) (r : ι × List α × κ) : List α :=
  head r.1 ++ r.2.1 ++ stop r.2.2

/-- A sequence of records as it is written. -/
def frames (head : ι → List α) (stop : κ → List α) (rs : List (ι × List α × κ)) : List α :=
  rs.flatMap (frame head stop)

/-- What makes the parts of a record recognisable. -/
structure Framing (head : ι → List α) (stop : κ → List α) : Prop where
  head_inj : ∀ i j u v, head i ++ u = head j ++ v → i = j ∧ u = v
  stop_inj : ∀ s t u v, stop s ++ u = stop t ++ v → s = t ∧ u = v
  stop_apart : ∀ s t q u v, q ≠ [] → stop s ++ u = q ++ stop t ++ v → stop s <+: q
  head_apart : ∀ i t q u v, head i ++ u = q ++ stop t ++ v → head i <+: q
  stop_ne_nil : ∀ s, stop s ≠ []

/-- The text holds an end with a head behind it. -/
def Forges (head : ι → List α) (stop : κ → List α) (text : List α) : Prop :=
  ∃ s i, stop s ++ head i <:+: text

/-- **A text that forges makes one record read as two.** -/
theorem Forges.split {text : List α} (h : Forges head stop text) (i : ι) (t : κ) :
    ∃ before s j after, text = before ++ (stop s ++ head j) ++ after ∧
      frames head stop [(i, text, t)] = frames head stop [(i, before, s), (j, after, t)] := by
  obtain ⟨s, j, before, after, htext⟩ := h
  exact ⟨before, s, j, after, htext.symm, by simp [frames, frame, ← htext]⟩

namespace Framing

variable (F : Framing head stop) {rs rs' : List (ι × List α × κ)} {text text' : List α} {t t' : κ}
include F

/-- What follows a text that ends too early is a head. -/
lemma text_prefix (hforge : ¬ Forges head stop text') {q : List α} (hq : q ≠ [])
    (htext : text' = text ++ q)
    (h : stop t ++ frames head stop rs = q ++ stop t' ++ frames head stop rs') : False := by
  obtain ⟨rest, rfl⟩ := F.stop_apart t t' q _ _ hq h
  rw [List.append_assoc, List.append_assoc, List.append_cancel_left_eq] at h
  cases rs with
  | nil =>
      have hnil := congrArg List.length h
      simp only [frames, List.flatMap_nil, List.length_nil, List.length_append] at hnil
      exact F.stop_ne_nil t' (List.length_eq_zero_iff.mp (by omega))
  | cons r rs =>
      rw [frames, List.flatMap_cons, frame, List.append_assoc, List.append_assoc,
        ← List.append_assoc rest] at h
      obtain ⟨more, rfl⟩ := F.head_apart r.1 t' rest _ _ h
      exact hforge ⟨t, r.1, text, more, by simp [htext]⟩

/-- Two texts in the same place are the same. -/
lemma text_eq (hforge : ¬ Forges head stop text) (hforge' : ¬ Forges head stop text')
    (h : text ++ (stop t ++ frames head stop rs) = text' ++ (stop t' ++ frames head stop rs')) :
    text = text' := by
  rcases List.append_eq_append_iff.mp h with ⟨q, hq, hrest⟩ | ⟨q, hq, hrest⟩
  · by_cases hnil : q = []
    · rw [hq, hnil, List.append_nil]
    · exact (F.text_prefix hforge' hnil hq (by rw [hrest, List.append_assoc])).elim
  · by_cases hnil : q = []
    · rw [hq, hnil, List.append_nil]
    · exact (F.text_prefix hforge hnil hq (by rw [hrest, List.append_assoc])).elim

lemma frames_eq_nil : frames head stop rs = [] → rs = [] := by
  intro h
  cases rs with
  | nil => rfl
  | cons r rs =>
      simp only [frames, frame, List.flatMap_cons, List.append_eq_nil_iff] at h
      exact (F.stop_ne_nil _ h.1.2).elim

/-- **Sequences whose texts forge nothing are told apart by what is written.** -/
theorem frames_injective :
    ∀ {rs rs' : List (ι × List α × κ)}, (∀ r ∈ rs, ¬ Forges head stop r.2.1) →
    (∀ r ∈ rs', ¬ Forges head stop r.2.1) → frames head stop rs = frames head stop rs' → rs = rs'
  | [], rs', _, _, h => (F.frames_eq_nil h.symm).symm
  | r :: rs, [], _, _, h => F.frames_eq_nil h
  | (i, text, t) :: rs, (i', text', t') :: rs', hrs, hrs', h => by
      simp only [frames, frame, List.flatMap_cons, List.append_assoc] at h
      obtain ⟨hi, hbody⟩ := F.head_inj _ _ _ _ h
      have htext : text = text' :=
        F.text_eq (hrs _ List.mem_cons_self) (hrs' _ List.mem_cons_self) hbody
      rw [htext] at hbody ⊢
      obtain ⟨ht, htail⟩ := F.stop_inj _ _ _ _ (List.append_cancel_left hbody)
      rw [hi, ht, frames_injective (fun r hr => hrs r (List.mem_cons_of_mem _ hr))
        (fun r hr => hrs' r (List.mem_cons_of_mem _ hr)) htail]

end Framing

end KLRM
