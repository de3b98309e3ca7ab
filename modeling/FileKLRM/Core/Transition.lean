import Mathlib.Tactic

/-!
# Labelled transition systems

Runs of a step relation `σ → α → σ → Prop`, the label saying which party moved and what the
environment decided.  A property of every reachable state is proved once per step
(`Run.invariant`), and a schedule restricted by a condition on each step is a run of the step
relation restricted by it (`When`).
-/

namespace KLRM

variable {σ α : Type*}

/-- The steps that `labels` names lead from one state to the other. -/
inductive Run (step : σ → α → σ → Prop) : σ → List α → σ → Prop
  | nil (s : σ) : Run step s [] s
  | cons {s t u : σ} {a : α} {labels : List α} (head : step s a t) (tail : Run step t labels u) :
      Run step s (a :: labels) u

/-- The step relation restricted to the steps that meet a condition in the state before them. -/
def When (good : σ → α → Prop) (step : σ → α → σ → Prop) : σ → α → σ → Prop :=
  fun s a t => good s a ∧ step s a t

/-- The steps of a function that may not be enabled. -/
def stepsOf (next : σ → α → Option σ) : σ → α → σ → Prop := fun s a t => next s a = some t

namespace Run

variable {step : σ → α → σ → Prop} {s t : σ} {as bs : List α}

/-- **The invariant rule.**  What every step keeps, a run keeps. -/
theorem invariant {P : σ → Prop} (hstep : ∀ s a t, P s → step s a t → P t)
    (hrun : Run step s as t) (h : P s) : P t := by
  induction hrun with
  | nil s => exact h
  | cons head tail ih => exact ih (hstep _ _ _ h head)

/-- A run of a smaller step relation. -/
lemma mono {step' : σ → α → σ → Prop} (hle : ∀ s a t, step s a t → step' s a t)
    (hrun : Run step s as t) : Run step' s as t := by
  induction hrun with
  | nil s => exact .nil s
  | cons head tail ih => exact .cons (hle _ _ _ head) ih

/-- A run splits where its labels do. -/
lemma append_iff : Run step s (as ++ bs) t ↔ ∃ u, Run step s as u ∧ Run step u bs t := by
  constructor
  · intro h
    induction as generalizing s with
    | nil => exact ⟨s, .nil s, h⟩
    | cons a as ih =>
        cases h with
        | cons head tail =>
            obtain ⟨u, hu, hrest⟩ := ih tail
            exact ⟨u, .cons head hu, hrest⟩
  · rintro ⟨u, hu, hrest⟩
    induction hu with
    | nil s => exact hrest
    | cons head tail ih => exact .cons head (ih hrest)

/-- **A property that is lost for good by the steps that are not good**, and by no others, holds
    at the end of a run exactly when all its steps are good. -/
theorem kept_iff {good : σ → α → Prop} {I P : σ → Prop}
    (hstep : ∀ s a t, I s → step s a t → I t ∧ (P t ↔ P s ∧ good s a)) (hI : I s) (hP : P s)
    (hrun : Run step s as t) : P t ↔ Run (When good step) s as t := by
  constructor
  · intro ht
    induction hrun with
    | nil s => exact .nil s
    | @cons s t u a as head tail ih =>
        obtain ⟨hI', hkeep⟩ := hstep _ _ _ hI head
        have hmid : P t := by
          by_contra hlost
          refine (tail.invariant (P := fun s => I s ∧ ¬ P s) ?_ ⟨hI', hlost⟩).2 ht
          rintro s a t ⟨hI, hlost⟩ hst
          exact ⟨(hstep _ _ _ hI hst).1, fun hkept => hlost ((hstep _ _ _ hI hst).2.mp hkept).1⟩
        exact .cons ⟨(hkeep.mp hmid).2, head⟩ (ih hI' hmid ht)
  · intro hgood
    refine (hgood.invariant (P := fun s => I s ∧ P s) ?_ ⟨hI, hP⟩).2
    rintro s a t ⟨hI, hP⟩ ⟨hg, hst⟩
    obtain ⟨hI', hkeep⟩ := hstep _ _ _ hI hst
    exact ⟨hI', hkeep.mpr ⟨hP, hg⟩⟩

end Run

/-! ## Threads and a counter

How many threads are in a given class of program points, bounded by a counter that the threads
themselves keep: the bound on `readers` by which a lock knows who holds it. -/

/-- At most `n` threads are at a point with `p`. -/
def AtMost {β : Type*} (p : β → Bool) (threads : ℕ → β) (n : ℕ) : Prop :=
  ∃ H : Finset ℕ, H.card ≤ n ∧ ∀ t, p (threads t) = true → t ∈ H

namespace AtMost

variable {β : Type*} {p : β → Bool} {threads : ℕ → β} {n : ℕ} {t : ℕ} {x : β}

lemma pos (h : AtMost p threads n) (ht : p (threads t) = true) : 0 < n := by
  obtain ⟨H, hcard, hmem⟩ := h
  exact lt_of_lt_of_le (Finset.card_pos.mpr ⟨t, hmem t ht⟩) hcard

/-- A thread moves without entering the class; the counter may grow. -/
lemma move (h : AtMost p threads n) (hx : p x = true → p (threads t) = true) :
    AtMost p (Function.update threads t x) n := by
  obtain ⟨H, hcard, hmem⟩ := h
  refine ⟨H, hcard, fun u hu => ?_⟩
  by_cases hut : u = t
  · subst hut
    exact hmem u (hx (by simpa using hu))
  · exact hmem u (by simpa [hut] using hu)

/-- A thread enters the class and counts itself. -/
lemma enter (h : AtMost p threads n) : AtMost p (Function.update threads t x) (n + 1) := by
  obtain ⟨H, hcard, hmem⟩ := h
  refine ⟨insert t H, (Finset.card_insert_le t H).trans (Nat.succ_le_succ hcard), fun u hu => ?_⟩
  by_cases hut : u = t
  · simp [hut]
  · exact Finset.mem_insert_of_mem (hmem u (by simpa [hut] using hu))

/-- A thread leaves the class and uncounts itself. -/
lemma leave (h : AtMost p threads n) (ht : p (threads t) = true) (hx : p x = false) :
    AtMost p (Function.update threads t x) (n - 1) := by
  obtain ⟨H, hcard, hmem⟩ := h
  refine ⟨H.erase t, ?_, fun u hu => ?_⟩
  · rw [Finset.card_erase_of_mem (hmem t ht)]
    omega
  · by_cases hut : u = t
    · subst hut
      rw [Function.update_self, hx] at hu
      exact Bool.noConfusion hu
    · exact Finset.mem_erase.mpr ⟨hut, hmem u (by simpa [hut] using hu)⟩

end AtMost

end KLRM
