import Mathlib.Tactic

/-!
# Reader/writer semaphores

A semaphore counts its read holds, remembers whether it is held for writing, and counts the
callers that wait.  Acquiring returns `none` when the caller has to wait.  Whether a reader may
overtake a waiting caller differs between implementations and is an argument.

`RwSem.held` adds read holds that nobody gives back; the lemmas about it say what such holds do to
the four operations.
-/

namespace KLRM

/-- A `struct rw_semaphore`. -/
structure RwSem where
  readers : ℕ
  writer : Bool
  waiting : ℕ
deriving DecidableEq, Repr

namespace RwSem

/-- `init_rwsem`. -/
def initial : RwSem := ⟨0, false, 0⟩

/-- `down_read`: waits for the writer and, unless readers may overtake, behind earlier waiters. -/
def downRead (overtake : Bool) (s : RwSem) : Option RwSem :=
  if s.writer = false ∧
    (s.waiting = 0 ∨ overtake = true) then some { s with readers := s.readers + 1 }
  else none

/-- `up_read`. -/
def upRead (s : RwSem) : RwSem := { s with readers := s.readers - 1 }

/-- `down_write`: waits for the writer and for every reader. -/
def downWrite (s : RwSem) : Option RwSem :=
  if s.writer = false ∧ s.readers = 0 then some { s with writer := true } else none

/-- `up_write`. -/
def upWrite (s : RwSem) : RwSem := { s with writer := false }

/-- One more caller waits. -/
def wait (s : RwSem) : RwSem := { s with waiting := s.waiting + 1 }

/-- The semaphore with `n` more read holds. -/
def held (n : ℕ) (s : RwSem) : RwSem := { s with readers := s.readers + n }

@[simp] lemma held_zero (s : RwSem) : s.held 0 = s := rfl

lemma downRead_eq_some {overtake : Bool} {s t : RwSem} (h : s.downRead overtake = some t) :
    t = s.held 1 ∧ s.writer = false := by
  unfold downRead at h
  split_ifs at h with hc
  exact ⟨(Option.some.inj h).symm, hc.1⟩

lemma downWrite_eq_some {s t : RwSem} (h : s.downWrite = some t) :
    t = { s with writer := true } ∧ s.writer = false ∧ s.readers = 0 := by
  unfold downWrite at h
  split_ifs at h with hc
  exact ⟨(Option.some.inj h).symm, hc.1, hc.2⟩

/-- Other read holds do not hinder a reader. -/
lemma downRead_held (overtake : Bool) (n : ℕ) (s : RwSem) :
    (s.held n).downRead overtake = (s.downRead overtake).map (held n) := by
  unfold downRead held
  split_ifs
  · simp [Nat.add_right_comm]
  · rfl

/-- Unless they are the only ones, other read holds make no difference to a writer, which takes the
    semaphore for a moment. -/
lemma downWrite_held {n : ℕ} {s : RwSem} (h : ¬ (0 < n ∧ s.readers = 0 ∧ s.writer = false)) :
    (s.held n).downWrite.map upWrite = (s.downWrite.map upWrite).map (held n) := by
  by_cases hn : n = 0
  · subst hn
    simp only [held_zero, Option.map_map]
    rfl
  · have hbusy : ¬ (s.writer = false ∧ s.readers = 0) := fun hfree =>
      h ⟨Nat.pos_of_ne_zero hn, hfree.2, hfree.1⟩
    have hbusy' : ¬ (s.writer = false ∧ s.readers + n = 0) := fun hfree => hn (by omega)
    unfold downWrite held
    rw [if_neg hbusy, if_neg hbusy']
    rfl

/-- A hold given back is taken from one's own. -/
lemma upRead_held_one (n : ℕ) (s : RwSem) : ((s.held 1).held n).upRead = s.held n := by
  simp only [held, upRead, RwSem.mk.injEq, and_self, and_true]
  omega

@[simp] lemma upRead_held (s : RwSem) : (s.held 1).upRead = s := rfl

lemma held_held (n m : ℕ) (s : RwSem) : (s.held n).held m = s.held (n + m) := by
  simp [held, Nat.add_assoc]

end RwSem

end KLRM
