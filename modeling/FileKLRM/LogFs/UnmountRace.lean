import FileKLRM.Core.Transition
import FileKLRM.LogFs.Lifecycle

/-!
# Log writers against unmount

Any number of `internal_logfilefs_write` calls, each under `log_file_mutex`, and one
`singlefilefs_kill_superblock`, under `sb_lock`, step by step.  A writer tests `mounted` once and
then uses `singleton_sb` in every round of its block loop; the unmount stores the two
bounds, clears `singleton_sb` and clears `mounted`, and neither side takes the other's lock.

`RaceOk` is the condition on a step, in the state before it, that keeps the two apart:
`circular_buffer_end` is stored while no writer is between its test of `mounted` and its update of
the bounds, no writer passes the test between that store and the clearing of `mounted`, and no
writer moves `circular_buffer_start` between the two stores.  In a run of such steps no writer
calls `sb_bread` with `NULL`, and once the unmount has stored the bounds they stay the current
ones (`unmountRace_safe`).  The code does not enforce the condition (`unmountRace_null`).
-/

namespace KLRM

open LogFs

/-! ## The steps of the two sides

A program counter for every thread, with the values that it has read so far.  A step is one access
to a shared variable or one call of the buffer cache. -/

/-- Where a call of `internal_logfilefs_write` is.  `looping` is before an `sb_bread`, `copying`
    before its `memcpy`; the last two update one bound each. -/
inductive Writer
  | idle
  | entering (payload : List UInt8)
  | locked (payload : List UInt8)
  | checked (payload : List UInt8)
  | looping (payload : List UInt8) (origEnd : ℤ) (copied : ℕ)
  | copying (payload : List UInt8) (origEnd : ℤ) (copied : ℕ) (sb : SuperBlock) (chunk : Chunk)
  | movingStart (copied : ℕ)
  | movingEnd (copied : ℕ)
  | unlocking
  | stopped (why : Stop)

/-- Where the unmount is, named by what it did last.  `gaveUp` is its early exit. -/
inductive Unmounter
  | notStarted
  | locked
  | read
  | storedStart
  | storedEnd
  | synced
  | cleared
  | unmounted
  | done
  | gaveUp
deriving DecidableEq

/-- The file system, the superblock being unmounted, the mutex and the threads. -/
structure Race where
  fs : LogFs
  sb : SuperBlock
  logFileMutex : Option ℕ
  writers : ℕ → Writer
  unmounter : Unmounter

/-- Who moves: a thread calls `internal_logfilefs_write`, a writer takes its next step, the unmount
    takes its next step.  `breadOk` is the result of the `sb_bread` of that step, if it has one. -/
inductive RaceStep
  | call (w : ℕ) (payload : List UInt8)
  | writer (w : ℕ) (breadOk : Bool)
  | unmount (breadOk : Bool)

namespace Race

/-- Writer `w` is now at `pc`. -/
def goto (s : Race) (w : ℕ) (pc : Writer) : Race :=
  { s with writers := Function.update s.writers w pc }

/-- The head of the block loop's body, up to and including `sb_bread (singleton_sb, …)`. -/
def loopHead (s : Race) (w : ℕ) (payload : List UInt8) (origEnd : ℤ) (copied : ℕ) (breadOk : Bool) :
    Race :=
  if s.fs.fileSize = 0 then s.goto w (.stopped .divideError)
  else
    let chunk := nextChunk s.fs.fileSize origEnd (strlen payload) copied
    match s.fs.singletonSb with
    | none => s.goto w (.stopped .nullPointer)
    | some sb =>
        if !breadOk then s.goto w .unlocking
        else if chunk.posIndex < 0 ∨ chunk.delta < 0 then s.goto w (.stopped .outOfBounds)
        else { s with fs := s.fs.bread sb chunk.sector }.goto w
          (.copying payload origEnd copied sb chunk)

/-- The rest of the body: the `memcpy`, and back to the head unless the payload is copied. -/
def loopTail (s : Race) (w : ℕ) (payload : List UInt8) (origEnd : ℤ) (copied : ℕ) (sb : SuperBlock)
    (chunk : Chunk) : Race :=
  let delta := chunk.delta.toNat
  let data := overlay (s.fs.block sb chunk.sector) chunk.posIndex.toNat
    ((payload.drop copied).take delta)
  { s with fs := s.fs.store sb chunk.sector data }.goto w
    (if copied + delta = strlen payload then .movingStart (copied + delta)
      else .looping payload origEnd (copied + delta))

/-- The next step of writer `w`; nothing when it has none, or waits for the mutex. -/
def writerStep (s : Race) (w : ℕ) (breadOk : Bool) : Option Race :=
  match s.writers w with
  | .idle | .stopped _ => none
  | .entering payload =>
      if s.logFileMutex = none then
        some ({ s with logFileMutex := some w }.goto w (.locked payload))
      else none
  | .locked payload => some (s.goto w (if s.fs.mounted = 0 then .unlocking else .checked payload))
  | .checked payload => some (s.goto w (.looping payload s.fs.circularBufferEnd 0))
  | .looping payload origEnd copied => some (s.loopHead w payload origEnd copied breadOk)
  | .copying payload origEnd copied sb chunk =>
      some (s.loopTail w payload origEnd copied sb chunk)
  | .movingStart copied =>
      some ({ s with
        fs := { s.fs with
          circularBufferStart := (advanceBounds s.fs.fileSize s.fs.bounds copied).1 } }.goto w
        (.movingEnd copied))
  | .movingEnd copied =>
      some ({ s with
        fs := { s.fs with
          circularBufferEnd := (advanceBounds s.fs.fileSize s.fs.bounds copied).2 } }.goto w
        .unlocking)
  | .unlocking => some ({ s with logFileMutex := none }.goto w .idle)

/-- The next step of the unmount; nothing when it is over, or waits for `sb_lock`. -/
def unmountStep (s : Race) (breadOk : Bool) : Option Race :=
  match s.unmounter with
  | .notStarted =>
      if s.fs.sbLock then none
      else some { s with fs := { s.fs with sbLock := true }, unmounter := .locked }
  | .locked =>
      if breadOk then some { s with fs := s.fs.bread s.sb 1, unmounter := .read }
      else some { s with unmounter := .gaveUp }
  | .read =>
      some { s with
        fs := s.fs.store s.sb 1 (writeS64 (s.fs.block s.sb 1) 24 s.fs.circularBufferStart)
        unmounter := .storedStart }
  | .storedStart =>
      some { s with
        fs := s.fs.store s.sb 1 (writeS64 (s.fs.block s.sb 1) 32 s.fs.circularBufferEnd)
        unmounter := .storedEnd }
  | .storedEnd => some { s with fs := s.fs.syncFilesystem s.sb, unmounter := .synced }
  | .synced => some { s with fs := { s.fs with singletonSb := none }, unmounter := .cleared }
  | .cleared => some { s with fs := { s.fs with mounted := 0 }, unmounter := .unmounted }
  | .unmounted => some { s with fs := { s.fs with sbLock := false }, unmounter := .done }
  | .done | .gaveUp => none

/-- One step. -/
def step (s : Race) : RaceStep → Option Race
  | .call w payload =>
      match s.writers w with
      | .idle => some (if strlen payload = 0 then s else s.goto w (.entering payload))
      | _ => none
  | .writer w breadOk => s.writerStep w breadOk
  | .unmount breadOk => s.unmountStep breadOk

end Race

/-! ## The condition on a step

What would have to be excluded by a lock that both sides take.  It is asked of the state before
the step and of the step, never of what comes after. -/

/-- The writer is between its test of `mounted` and its update of the bounds. -/
def Writer.busy : Writer → Bool
  | .checked _ | .looping .. | .copying .. | .movingStart _ | .movingEnd _ => true
  | .idle | .entering _ | .locked _ | .unlocking | .stopped _ => false

/-- The unmount has stored both bounds. -/
def Unmounter.stored : Unmounter → Bool
  | .storedEnd | .synced | .cleared | .unmounted | .done => true
  | .notStarted | .locked | .read | .storedStart | .gaveUp => false

/-- The unmount has cleared `singleton_sb`. -/
def Unmounter.clearedSb : Unmounter → Bool
  | .cleared | .unmounted | .done => true
  | .notStarted | .locked | .read | .storedStart | .storedEnd | .synced | .gaveUp => false

/-- The unmount has cleared `mounted`. -/
def Unmounter.clearedMounted : Unmounter → Bool
  | .unmounted | .done => true
  | .notStarted | .locked | .read | .storedStart | .storedEnd | .synced | .cleared | .gaveUp =>
      false

/-- The condition on one step, in the state before it. -/
def RaceOk (s : Race) : RaceStep → Prop
  | .call .. => True
  | .unmount _ => s.unmounter = .storedStart → ∀ w, (s.writers w).busy = false
  | .writer w _ =>
      match s.writers w with
      | .locked _ => s.unmounter.stored = true → s.unmounter.clearedMounted = true
      | .movingStart copied => s.unmounter = .storedStart →
          (advanceBounds s.fs.fileSize s.fs.bounds copied).1 = s.fs.circularBufferStart
      | _ => True

/-- A mounted file system, before any of the threads has moved. -/
structure MountedFs where
  fs : LogFs
  sb : SuperBlock
  mounted : fs.mounted = 1
  singleton : fs.singletonSb = some sb
  size_lt : fs.fileSize < 2 ^ 63
  range₁ : -2 ^ 63 ≤ fs.bounds.1 ∧ fs.bounds.1 < 2 ^ 63
  range₂ : -2 ^ 63 ≤ fs.bounds.2 ∧ fs.bounds.2 < 2 ^ 63

/-- No call of `internal_logfilefs_write` and no unmount has begun. -/
def Race.start (m : MountedFs) : Race where
  fs := m.fs
  sb := m.sb
  logFileMutex := none
  writers := fun _ => .idle
  unmounter := .notStarted

/-! ## The invariant

For every program point of the two sides, what is known of `mounted`, `singleton_sb` and the
stored bounds.  The lemmas for the moves between two points come first, the steps of the two sides
are then short. -/

/-- What storing into the inode block leaves there. -/
lemma block_store_self (s : LogFs) (sb : SuperBlock) (b : ℕ) (data : Block) :
    (s.store sb b data).block sb b = data := by
  rw [block_eq_contents, contents_store, Function.update_self, Function.update_self]

lemma boundsOf_storeStart (inode : Block) {x : ℤ} (h : -2 ^ 63 ≤ x ∧ x < 2 ^ 63) :
    (boundsOf (writeS64 inode 24 x)).1 = x := by
  unfold boundsOf
  exact readS64_writeS64 _ _ h.1 h.2

lemma boundsOf_storeEnd (inode : Block) {x : ℤ} (h : -2 ^ 63 ≤ x ∧ x < 2 ^ 63) :
    boundsOf (writeS64 inode 32 x) = ((boundsOf inode).1, x) := by
  unfold boundsOf
  rw [readS64_writeS64_disjoint _ _ (by norm_num), readS64_writeS64 _ _ h.1 h.2]

/-- What the steps that meet the condition keep. -/
structure RaceInv (s : Race) : Prop where
  noNull : ∀ w, s.writers w ≠ .stopped .nullPointer
  singleton : s.unmounter.clearedSb = false → s.fs.singletonSb = some s.sb
  mounted : s.unmounter.clearedMounted = true → s.fs.mounted = 0
  quiet : s.unmounter.stored = true → ∀ w, (s.writers w).busy = false
  startStored : s.unmounter = .storedStart →
    (boundsOf (s.fs.block s.sb 1)).1 = s.fs.circularBufferStart
  boundsStored : s.unmounter.stored = true → boundsOf (s.fs.block s.sb 1) = s.fs.bounds
  target : ∀ w payload origEnd copied sb chunk,
    s.writers w = .copying payload origEnd copied sb chunk → sb = s.sb ∧ 2 ≤ chunk.sector
  size_lt : s.fs.fileSize < 2 ^ 63
  range₁ : -2 ^ 63 ≤ s.fs.bounds.1 ∧ s.fs.bounds.1 < 2 ^ 63
  range₂ : -2 ^ 63 ≤ s.fs.bounds.2 ∧ s.fs.bounds.2 < 2 ^ 63

namespace RaceInv

variable {s t : Race}

lemma start (m : MountedFs) : RaceInv (Race.start m) where
  noNull _ := Writer.noConfusion
  singleton _ := m.singleton
  mounted h := Bool.noConfusion h
  quiet h := Bool.noConfusion h
  startStored h := Unmounter.noConfusion h
  boundsStored h := Bool.noConfusion h
  target _ _ _ _ _ _ h := Writer.noConfusion h
  size_lt := m.size_lt
  range₁ := m.range₁
  range₂ := m.range₂

/-- A writer moves on without touching the file system. -/
lemma goto (h : RaceInv s) (w : ℕ) {pc : Writer} (hnull : pc ≠ .stopped .nullPointer)
    (hbusy : s.unmounter.stored = true → pc.busy = false)
    (htarget : ∀ payload origEnd copied sb chunk, pc = .copying payload origEnd copied sb chunk →
      sb = s.sb ∧ 2 ≤ chunk.sector) : RaceInv (s.goto w pc) where
  noNull x := by
    by_cases hx : x = w
    · simpa [Race.goto, hx] using hnull
    · simpa [Race.goto, hx] using h.noNull x
  singleton := h.singleton
  mounted := h.mounted
  quiet hs x := by
    by_cases hx : x = w
    · simpa [Race.goto, hx] using hbusy hs
    · simpa [Race.goto, hx] using h.quiet hs x
  startStored := h.startStored
  boundsStored := h.boundsStored
  target x payload origEnd copied sb chunk hx := by
    by_cases hxw : x = w
    · exact htarget payload origEnd copied sb chunk (by simpa [Race.goto, hxw] using hx)
    · exact h.target x payload origEnd copied sb chunk (by simpa [Race.goto, hxw] using hx)
  size_lt := h.size_lt
  range₁ := h.range₁
  range₂ := h.range₂

/-- A busy writer has been in since before the second bound was stored. -/
lemma not_stored (h : RaceInv s) {w : ℕ} (hbusy : (s.writers w).busy = true) :
    s.unmounter.stored = false := by
  by_contra hs
  rw [h.quiet (Bool.eq_true_of_not_eq_false hs) w] at hbusy
  exact Bool.noConfusion hbusy

/-- Until then `singleton_sb` is there. -/
lemma present (h : RaceInv s) {w : ℕ} (hbusy : (s.writers w).busy = true) :
    s.fs.singletonSb = some s.sb := by
  have hs := h.not_stored hbusy
  refine h.singleton ?_
  cases hu : s.unmounter <;> simp_all [Unmounter.stored, Unmounter.clearedSb]

/-- The devices change, the inode block apart. -/
lemma withDevs (h : RaceInv s) {devs : ℕ → BlockDev}
    (hblock : (devs s.sb.sDev).content 1 = s.fs.block s.sb 1) :
    RaceInv { s with fs := { s.fs with devs := devs } } where
  noNull := h.noNull
  singleton := h.singleton
  mounted := h.mounted
  quiet := h.quiet
  startStored hu := (congrArg (fun b => (boundsOf b).1) hblock).trans (h.startStored hu)
  boundsStored hu := (congrArg boundsOf hblock).trans (h.boundsStored hu)
  target := h.target
  size_lt := h.size_lt
  range₁ := h.range₁
  range₂ := h.range₂

lemma bread (h : RaceInv s) (sb : SuperBlock) (b : ℕ) : RaceInv { s with fs := s.fs.bread sb b } :=
  h.withDevs (congrFun (block_bread s.fs sb s.sb b) 1)

lemma store (h : RaceInv s) (sb : SuperBlock) {b : ℕ} (hb : 2 ≤ b) (data : Block) :
    RaceInv { s with fs := s.fs.store sb b data } := by
  refine h.withDevs ?_
  show (s.fs.store sb b data).contents s.sb.sDev 1 = s.fs.contents s.sb.sDev 1
  rw [contents_store]
  by_cases hdev : s.sb.sDev = sb.sDev
  · rw [hdev, Function.update_self, Function.update_of_ne (by omega)]
  · rw [Function.update_of_ne hdev]

/-- The bounds move before the second store, and not the first of them once it is stored. -/
lemma withBounds (h : RaceInv s) {b : ℤ × ℤ} (hstored : s.unmounter.stored = false)
    (hstart : s.unmounter = .storedStart → b.1 = s.fs.circularBufferStart)
    (range₁ : -2 ^ 63 ≤ b.1 ∧ b.1 < 2 ^ 63) (range₂ : -2 ^ 63 ≤ b.2 ∧ b.2 < 2 ^ 63) :
    RaceInv { s with fs := { s.fs with circularBufferStart := b.1, circularBufferEnd := b.2 } }
    where
  noNull := h.noNull
  singleton := h.singleton
  mounted := h.mounted
  quiet := h.quiet
  startStored hu := (h.startStored hu).trans (hstart hu).symm
  boundsStored hu := by
    rw [show s.unmounter.stored = true from hu] at hstored
    exact Bool.noConfusion hstored
  target := h.target
  size_lt := h.size_lt
  range₁ := range₁
  range₂ := range₂

/-! ### One step

By the program point of the thread that steps.  Once the unmounter has stored the bounds no writer
is busy, so that nothing changes them any more; this is where the condition on the run is used. -/

lemma loopHead (h : RaceInv s) {w : ℕ} {payload : List UInt8} {origEnd : ℤ} {copied : ℕ}
    (hw : s.writers w = .looping payload origEnd copied) (breadOk : Bool) :
    RaceInv (s.loopHead w payload origEnd copied breadOk) := by
  have hbusy : (s.writers w).busy = true := by rw [hw]; rfl
  have hstored := h.not_stored hbusy
  have hnot : ∀ {pc : Writer}, s.unmounter.stored = true → pc.busy = false := by
    intro pc hs
    rw [hs] at hstored
    exact Bool.noConfusion hstored
  unfold Race.loopHead
  by_cases hN : s.fs.fileSize = 0
  · rw [if_pos hN]
    exact h.goto w (by simp) hnot (by simp)
  · rw [if_neg hN]
    simp only [h.present hbusy]
    split_ifs with hread hneg
    · exact h.goto w (by simp) hnot (by simp)
    · exact h.goto w (by simp) hnot (by simp)
    · refine (h.bread s.sb _).goto w (by simp) hnot ?_
      rintro _ _ _ _ _ ⟨⟩
      exact ⟨rfl, two_le_sector (Nat.pos_of_ne_zero hN) h.size_lt⟩

lemma loopTail (h : RaceInv s) {w : ℕ} {payload : List UInt8} {origEnd : ℤ} {copied : ℕ}
    {sb : SuperBlock} {chunk : Chunk}
    (hw : s.writers w = .copying payload origEnd copied sb chunk) :
    RaceInv (s.loopTail w payload origEnd copied sb chunk) := by
  have hstored := h.not_stored (w := w) (by rw [hw]; rfl)
  obtain ⟨rfl, hsector⟩ := h.target w _ _ _ _ _ hw
  refine (h.store s.sb hsector _).goto w ?_ (fun hs => ?_) ?_
  · split_ifs <;> simp
  · rw [show s.unmounter.stored = true from hs] at hstored
    exact Bool.noConfusion hstored
  · split_ifs <;> simp

lemma writerStep (h : RaceInv s) {w : ℕ} {breadOk : Bool} (hok : RaceOk s (.writer w breadOk))
    (hstep : s.writerStep w breadOk = some t) : RaceInv t := by
  unfold Race.writerStep at hstep
  unfold RaceOk at hok
  cases hw : s.writers w with
  | idle => simp [hw] at hstep
  | stopped why => simp [hw] at hstep
  | entering payload =>
      simp only [hw] at hstep
      split_ifs at hstep
      cases hstep
      exact RaceInv.goto (s := { s with logFileMutex := some w }) ⟨h.1, h.2, h.3, h.4,
        h.5, h.6, h.7, h.8, h.9, h.10⟩ w (by simp) (fun _ => rfl) (by simp)
  | locked payload =>
      simp only [hw] at hstep hok
      cases hstep
      refine h.goto w (by split_ifs <;> simp) (fun hs => ?_) (by split_ifs <;> simp)
      rw [if_pos (h.mounted (hok hs))]
      rfl
  | checked payload =>
      have hstored := h.not_stored (w := w) (by rw [hw]; rfl)
      simp only [hw] at hstep
      cases hstep
      exact h.goto w (by simp) (fun hs => by rw [hs] at hstored; cases hstored) (by simp)
  | looping payload origEnd copied =>
      simp only [hw] at hstep
      cases hstep
      exact h.loopHead hw breadOk
  | copying payload origEnd copied sb chunk =>
      simp only [hw] at hstep
      cases hstep
      exact h.loopTail hw
  | movingStart copied =>
      have hstored := h.not_stored (w := w) (by rw [hw]; rfl)
      have hrange := advanceBounds_range s.fs.fileSize h.range₁ copied
      simp only [hw] at hstep hok
      cases hstep
      exact (h.withBounds (b := ((advanceBounds s.fs.fileSize s.fs.bounds copied).1,
        s.fs.circularBufferEnd)) hstored hok hrange.1 h.range₂).goto w (by simp)
        (fun hs => by rw [show s.unmounter.stored = true from hs] at hstored; cases hstored)
        (by simp)
  | movingEnd copied =>
      have hstored := h.not_stored (w := w) (by rw [hw]; rfl)
      have hrange := advanceBounds_range s.fs.fileSize h.range₁ copied
      simp only [hw] at hstep
      cases hstep
      exact (h.withBounds (b := (s.fs.circularBufferStart,
        (advanceBounds s.fs.fileSize s.fs.bounds copied).2)) hstored (fun _ => rfl) h.range₁
        hrange.2).goto w (by simp) (fun _ => rfl) (by simp)
  | unlocking =>
      simp only [hw] at hstep
      cases hstep
      exact RaceInv.goto (s := { s with logFileMutex := none }) ⟨h.1, h.2, h.3, h.4, h.5, h.6, h.7,
        h.8, h.9, h.10⟩ w (by simp) (fun _ => rfl) (by simp)

lemma unmountStep (h : RaceInv s) {breadOk : Bool} (hok : RaceOk s (.unmount breadOk))
    (hstep : s.unmountStep breadOk = some t) : RaceInv t := by
  unfold Race.unmountStep at hstep
  unfold RaceOk at hok
  have hsing := h.singleton
  have hquiet := h.quiet
  have hbounds := h.boundsStored
  cases hu : s.unmounter with
  | notStarted =>
      rw [hu] at hsing
      simp only [hu] at hstep
      split_ifs at hstep
      cases hstep
      exact ⟨h.noNull, hsing, Bool.noConfusion, Bool.noConfusion, Unmounter.noConfusion,
        Bool.noConfusion, h.target, h.size_lt, h.range₁, h.range₂⟩
  | locked =>
      rw [hu] at hsing
      simp only [hu] at hstep
      split_ifs at hstep
      · cases hstep
        exact ⟨h.noNull, hsing, Bool.noConfusion, Bool.noConfusion, Unmounter.noConfusion,
          Bool.noConfusion, h.target, h.size_lt, h.range₁, h.range₂⟩
      · cases hstep
        exact ⟨h.noNull, hsing, Bool.noConfusion, Bool.noConfusion, Unmounter.noConfusion,
          Bool.noConfusion, h.target, h.size_lt, h.range₁, h.range₂⟩
  | read =>
      rw [hu] at hsing
      simp only [hu] at hstep
      cases hstep
      refine ⟨h.noNull, hsing, Bool.noConfusion, Bool.noConfusion, fun _ => ?_, Bool.noConfusion,
        h.target, h.size_lt, h.range₁, h.range₂⟩
      rw [block_store_self]
      exact boundsOf_storeStart _ h.range₁
  | storedStart =>
      rw [hu] at hsing
      simp only [hu] at hstep
      cases hstep
      refine ⟨h.noNull, hsing, Bool.noConfusion, fun _ => hok hu, Unmounter.noConfusion,
        fun _ => ?_, h.target, h.size_lt, h.range₁, h.range₂⟩
      rw [block_store_self]
      exact (boundsOf_storeEnd _ h.range₂).trans (Prod.ext (h.startStored hu) rfl)
  | storedEnd =>
      rw [hu] at hsing hquiet hbounds
      simp only [hu] at hstep
      cases hstep
      refine ⟨h.noNull, hsing, Bool.noConfusion, fun _ => hquiet rfl, Unmounter.noConfusion,
        fun _ => ?_, h.target, h.size_lt, h.range₁, h.range₂⟩
      rw [block_eq_contents, contents_syncFilesystem]
      exact hbounds rfl
  | synced =>
      rw [hu] at hquiet hbounds
      simp only [hu] at hstep
      cases hstep
      exact ⟨h.noNull, Bool.noConfusion, Bool.noConfusion, fun _ => hquiet rfl,
        Unmounter.noConfusion, fun _ => hbounds rfl, h.target, h.size_lt, h.range₁, h.range₂⟩
  | cleared =>
      rw [hu] at hquiet hbounds
      simp only [hu] at hstep
      cases hstep
      exact ⟨h.noNull, Bool.noConfusion, fun _ => rfl, fun _ => hquiet rfl,
        Unmounter.noConfusion, fun _ => hbounds rfl, h.target, h.size_lt, h.range₁, h.range₂⟩
  | unmounted =>
      have hmounted := h.mounted
      rw [hu] at hquiet hbounds hmounted
      simp only [hu] at hstep
      cases hstep
      exact ⟨h.noNull, Bool.noConfusion, fun _ => hmounted rfl, fun _ => hquiet rfl,
        Unmounter.noConfusion, fun _ => hbounds rfl, h.target, h.size_lt, h.range₁, h.range₂⟩
  | done => simp [hu] at hstep
  | gaveUp => simp [hu] at hstep

/-- **One step** that meets the condition keeps the invariant. -/
lemma step (h : RaceInv s) {label : RaceStep} (hok : RaceOk s label)
    (hstep : s.step label = some t) : RaceInv t := by
  cases label with
  | call w payload =>
      unfold Race.step at hstep
      cases hw : s.writers w <;> simp only [hw, reduceCtorEq] at hstep
      cases hstep
      split_ifs
      · exact h
      · exact h.goto w (by simp) (fun _ => rfl) (by simp)
  | writer w breadOk => exact h.writerStep hok hstep
  | unmount breadOk => exact h.unmountStep hok hstep

end RaceInv

/-- **Writers and unmount kept apart.**  In every state that a run of steps meeting the condition
    reaches, no writer has called `sb_bread` with `NULL`, and once the unmount has stored the
    bounds the inode block holds the current ones. -/
theorem unmountRace_safe (m : MountedFs) {labels : List RaceStep} {t : Race}
    (hrun : Run (When RaceOk (stepsOf Race.step)) (Race.start m) labels t) :
    (∀ w, t.writers w ≠ .stopped .nullPointer) ∧
      (t.unmounter.stored = true → boundsOf (t.fs.block t.sb 1) = t.fs.bounds) := by
  have h : RaceInv t := hrun.invariant (fun _ _ _ h hs => h.step hs.1 hs.2) (RaceInv.start m)
  exact ⟨h.noNull, h.boundsStored⟩

/-- An empty mounted log of one block. -/
def mountedBlock : MountedFs where
  fs := { mounted := 1, singletonSb := some ⟨0, 0⟩, sbLock := false, fileSize := 4096
          circularBufferStart := 0, circularBufferEnd := 0
          devs := fun _ => ⟨fun _ _ => 0, fun _ => none⟩ }
  sb := ⟨0, 0⟩
  mounted := rfl
  singleton := rfl
  size_lt := by norm_num
  range₁ := by norm_num [bounds]
  range₂ := by norm_num [bounds]

/-- A writer that waits with the mutex through a whole unmount finds `mounted` cleared. -/
theorem unmountRace_writer_late :
    ∃ t : Race, ((∀ w, t.writers w ≠ .stopped .nullPointer) ∧
      (t.unmounter.stored = true → boundsOf (t.fs.block t.sb 1) = t.fs.bounds)) ∧
      t.unmounter = .done ∧ t.writers 0 = .unlocking := by
  obtain ⟨t, hrun, hdone, hw⟩ : ∃ t, Run (When RaceOk (stepsOf Race.step)) (Race.start mountedBlock)
      [.call 0 [65, 0], .writer 0 true, .unmount true, .unmount true, .unmount true, .unmount true,
        .unmount true, .unmount true, .unmount true, .unmount true, .writer 0 true] t ∧
      t.unmounter = .done ∧ t.writers 0 = .unlocking := by
    refine ⟨_, .cons ⟨trivial, rfl⟩ <| .cons ⟨trivial, rfl⟩ <| .cons ⟨Unmounter.noConfusion, rfl⟩ <|
      .cons ⟨Unmounter.noConfusion, rfl⟩ <| .cons ⟨Unmounter.noConfusion, rfl⟩ <|
      .cons ⟨fun _ w => ?_, rfl⟩ <| .cons ⟨Unmounter.noConfusion, rfl⟩ <|
      .cons ⟨Unmounter.noConfusion, rfl⟩ <| .cons ⟨Unmounter.noConfusion, rfl⟩ <|
      .cons ⟨Unmounter.noConfusion, rfl⟩ <| .cons ⟨fun _ => rfl, rfl⟩ <| .nil _, rfl, rfl⟩
    by_cases hw : w = 0
    · subst hw
      rfl
    · simp [Race.goto, Race.start, hw, Writer.busy, show strlen [65, 0] = 1 from rfl]
  exact ⟨t, unmountRace_safe mountedBlock hrun, hdone, hw⟩

/-- **The losing schedule.**  A writer passes its test of `mounted`, the unmount runs to its end,
    and the writer goes on to `sb_bread (singleton_sb, …)`. -/
theorem unmountRace_null :
    ∃ labels t, Run (stepsOf Race.step) (Race.start mountedBlock) labels t ∧
      t.writers 0 = .stopped .nullPointer := by
  exact ⟨[.call 0 [65, 0], .writer 0 true, .writer 0 true, .unmount true, .unmount true,
    .unmount true, .unmount true, .unmount true, .unmount true, .unmount true, .unmount true,
    .writer 0 true, .writer 0 true], _,
    .cons rfl <| .cons rfl <| .cons rfl <| .cons rfl <| .cons rfl <| .cons rfl <| .cons rfl <|
      .cons rfl <| .cons rfl <| .cons rfl <| .cons rfl <| .cons rfl <| .cons rfl <| .nil _, rfl⟩

end KLRM
