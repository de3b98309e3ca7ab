import Mathlib.Tactic

/-!
# A ring that holds the tail of a stream

A ring of `N` cells into which a stream is written cell after cell, starting again at cell `0`
when the end is reached, holds the last `N` elements of the stream: element `a` is in cell
`a % N`.  `HoldsTail` says so for a stream of any length, and `HoldsTail.append` is the one rule a
writer needs: laying a piece of the stream over consecutive cells from the current position,
without passing the last cell, extends the stream by that piece.  A writer that splits its
payload at the end of the ring, or at any smaller unit, applies the rule once per piece.
-/

namespace KLRM

variable {β : Type*}

/-! ## Laying a list over cells

`overlay` writes a list from a cell on and `cellsAt` reads one; they are functions on `ℕ → α`,
with no bound and no ring in them. -/

/-- The cells with `src` laid over those from `pos` on. -/
def overlay (cells : ℕ → β) (pos : ℕ) (src : List β) : ℕ → β := fun p =>
  if h : pos ≤ p ∧ p - pos < src.length then src[p - pos] else cells p

@[simp] lemma overlay_nil (cells : ℕ → β) (pos : ℕ) : overlay cells pos [] = cells := by
  funext p
  simp [overlay]

lemma overlay_outside (cells : ℕ → β) {pos p : ℕ} {src : List β}
    (h : p < pos ∨ pos + src.length ≤ p) : overlay cells pos src p = cells p := by
  unfold overlay
  rw [dif_neg]
  omega

lemma overlay_inside (cells : ℕ → β) (pos : ℕ) {src : List β} {i : ℕ} (h : i < src.length) :
    overlay cells pos src (pos + i) = src[i] := by
  unfold overlay
  rw [dif_pos (by omega)]
  congr 1
  omega

/-- The cells `[pos, pos + n)` as a list. -/
def cellsAt (cells : ℕ → β) (pos n : ℕ) : List β := (List.range n).map fun i => cells (pos + i)

@[simp] lemma length_cellsAt (cells : ℕ → β) (pos n : ℕ) : (cellsAt cells pos n).length = n := by
  simp [cellsAt]

lemma getElem_cellsAt (cells : ℕ → β) (pos n : ℕ) {i : ℕ} (h : i < (cellsAt cells pos n).length) :
    (cellsAt cells pos n)[i] = cells (pos + i) := by
  simp [cellsAt]

lemma cellsAt_overlay (cells : ℕ → β) (pos : ℕ) (src : List β) :
    cellsAt (overlay cells pos src) pos src.length = src := by
  refine List.ext_getElem (by simp) fun i h₁ h₂ => ?_
  simpa [cellsAt] using overlay_inside cells pos h₂

lemma cellsAt_overlay_disjoint (cells : ℕ → β) {pos p n : ℕ} {src : List β}
    (h : p + n ≤ pos ∨ pos + src.length ≤ p) :
    cellsAt (overlay cells pos src) p n = cellsAt cells p n := by
  refine List.map_congr_left fun i hi => ?_
  rw [List.mem_range] at hi
  exact overlay_outside cells (by omega)

/-! ## The tail of a stream

`HoldsTail` speaks of the last `N` elements only, so that it also holds at the beginning, when the
stream is shorter than the ring.  `KeepsTail` is for a writer that breaks off: what it has already
laid into the cells may lie over the oldest elements, and `HoldsTail.keeps_iff` says when it has
not harmed them. -/

/-- The ring of `N` cells holds the last `N` elements of the stream. -/
def HoldsTail (N : ℕ) (ring : ℕ → β) (stream : List β) : Prop :=
  ∀ a (h : a < stream.length), stream.length ≤ a + N → ring (a % N) = stream[a]

lemma HoldsTail.nil (N : ℕ) (ring : ℕ → β) : HoldsTail N ring [] :=
  fun _ h => absurd h (by simp)

lemma HoldsTail.congr {N : ℕ} (hN : 0 < N) {ring ring' : ℕ → β} {stream : List β}
    (h : HoldsTail N ring stream) (heq : ∀ p < N, ring' p = ring p) :
    HoldsTail N ring' stream := fun a ha hw => by
  rw [heq _ (Nat.mod_lt _ hN)]
  exact h a ha hw

/-- A position at most `N - m` before `n` is not among the `m` cells the writer is about to
    overwrite from `n % N` on. -/
lemma mod_outside_of_window {N n a m : ℕ} (hfit : n % N + m ≤ N) (ha : a < n)
    (hw : n + m ≤ a + N) : a % N < n % N ∨ n % N + m ≤ a % N := by
  have hn := Nat.div_add_mod n N
  set q := n / N
  set r := n % N
  by_cases hd : n - a ≤ r
  · left
    have : a = N * q + (r - (n - a)) := by omega
    rw [this, Nat.mul_add_mod, Nat.mod_eq_of_lt (by omega)]
    omega
  · right
    have hq : 0 < q := by
      rcases Nat.eq_zero_or_pos q with h | h
      · rw [h] at hn
        omega
      · exact h
    obtain ⟨q', hq'⟩ := Nat.exists_eq_succ_of_ne_zero hq.ne'
    rw [hq', Nat.mul_succ] at hn
    have : a = N * q' + (r + N - (n - a)) := by omega
    rw [this, Nat.mul_add_mod, Nat.mod_eq_of_lt (by omega)]
    omega

/-- **The writer's rule.**  A piece that fits before the last cell, laid from the current
    position, extends the stream. -/
theorem HoldsTail.append {N : ℕ} {ring : ℕ → β} {stream : List β}
    (h : HoldsTail N ring stream) (src : List β) (hfit : stream.length % N + src.length ≤ N) :
    HoldsTail N (overlay ring (stream.length % N) src) (stream ++ src) := by
  intro a ha hw
  rw [List.length_append] at ha hw
  by_cases hold : a < stream.length
  · rw [overlay_outside ring (mod_outside_of_window hfit hold hw), List.getElem_append_left hold]
    exact h a hold (by omega)
  · obtain ⟨i, rfl⟩ := Nat.exists_eq_add_of_le (Nat.le_of_not_lt hold)
    have hi : i < src.length := by omega
    have hmod : (stream.length + i) % N = stream.length % N + i := by
      conv_lhs => rw [← Nat.div_add_mod stream.length N, Nat.add_assoc, Nat.mul_add_mod]
      exact Nat.mod_eq_of_lt (by omega)
    rw [hmod, overlay_inside ring _ hi, List.getElem_append_right (by omega)]
    simp

/-- What `spill` covers, laid behind the stream, is not missed: no element of it falls on the
    cell of an element that is still in the window of the stream, but for equal ones.  Where
    `spill` passes a cell more than once the last time counts. -/
def KeepsTail (N : ℕ) (stream spill : List β) : Prop :=
  ∀ a (ha : a < stream.length), stream.length ≤ a + N →
    ∀ i (hi : i < spill.length), spill.length ≤ i + N → a % N = (stream.length + i) % N →
    spill[i] = stream[a]

lemma KeepsTail.nil (N : ℕ) (stream : List β) : KeepsTail N stream [] :=
  fun _ _ _ _ hi => absurd hi (by simp)

/-- In free cells nothing is missed. -/
lemma KeepsTail.of_room {N : ℕ} {stream spill : List β} (h : stream.length + spill.length ≤ N) :
    KeepsTail N stream spill := fun a ha _ i hi _ hmod => by
  rw [Nat.mod_eq_of_lt (by omega), Nat.mod_eq_of_lt (by omega)] at hmod
  omega

/-- **When a writer that gives up has done no harm.**  A ring that holds the tail of
    `stream ++ spill` still holds that of `stream` exactly when `spill` has not been laid over
    anything that differs from it. -/
theorem HoldsTail.keeps_iff {N : ℕ} (hN : 0 < N) {ring : ℕ → β} {stream spill : List β}
    (h : HoldsTail N ring (stream ++ spill)) :
    HoldsTail N ring stream ↔ KeepsTail N stream spill := by
  have hover : ∀ i (hi : i < spill.length), spill.length ≤ i + N →
      ring ((stream.length + i) % N) = spill[i] := by
    intro i hi hw
    have hcell :=
      h (stream.length + i) (by rw [List.length_append]; omega) (by rw [List.length_append]; omega)
    rw [hcell, List.getElem_append_right (by omega)]
    simp
  constructor
  · intro hs a ha hw i hi hwi hmod
    rw [← hover i hi hwi, ← hmod]
    exact hs a ha hw
  · intro hk a ha hw
    by_cases hin : stream.length + spill.length ≤ a + N
    · rw [h a (by rw [List.length_append]; omega) (by rw [List.length_append]; exact hin),
        List.getElem_append_left ha]
    · -- the last element that was laid over the cell
      set q := (stream.length + spill.length - 1 - a) / N with hq
      have hdiv := Nat.div_add_mod (stream.length + spill.length - 1 - a) N
      have hmod := Nat.mod_lt (stream.length + spill.length - 1 - a) hN
      rw [← hq] at hdiv
      have hpos : 1 ≤ q := (Nat.one_le_div_iff hN).mpr (by omega)
      have hle : N ≤ N * q := Nat.le_mul_of_pos_right N hpos
      have hcell : (stream.length + (a + N * q - stream.length)) % N = a % N := by
        rw [show stream.length + (a + N * q - stream.length) = a + N * q by omega,
          Nat.add_mul_mod_self_left]
      have hi : a + N * q - stream.length < spill.length := by omega
      have hwi : spill.length ≤ a + N * q - stream.length + N := by omega
      rw [← hk a ha hw _ hi hwi hcell.symm, ← hover _ hi hwi, hcell]

/-- **The reader's rule.**  A run of cells that does not pass the last one, inside the window,
    is the slice of the stream at that position. -/
theorem HoldsTail.read {N : ℕ} {ring : ℕ → β} {stream : List β} (h : HoldsTail N ring stream)
    {o n : ℕ} (hwin : stream.length ≤ o + N) (hend : o + n ≤ stream.length)
    (hfit : o % N + n ≤ N) : cellsAt ring (o % N) n = (stream.drop o).take n := by
  refine List.ext_getElem (by simp; omega) fun i h₁ h₂ => ?_
  rw [length_cellsAt] at h₁
  have hmod : (o + i) % N = o % N + i := by
    conv_lhs => rw [← Nat.div_add_mod o N, Nat.add_assoc, Nat.mul_add_mod]
    exact Nat.mod_eq_of_lt (by omega)
  have hcell := h (o + i) (by omega) (by omega)
  rw [hmod] at hcell
  simpa [cellsAt] using hcell

end KLRM
