import FileKLRM.Core.LittleEndian

/-!
# Block devices behind the buffer cache

`sb_bread` returns the cached copy of a block, reading it from the device when there is none.
The bytes a caller changes through `b_data` are those of the cached copy; they reach the device
only if the buffer is marked dirty and a sync writes it back, and a buffer that is not dirty may
be dropped at any time once it is released.  Nothing in the file system marks a buffer dirty.

`BlockDev.content` is the block as the next `sb_bread` returns it.  Everything except dropping a
buffer is described by what it does to `content`.

* `BlockDev.sbBread`, `BlockDev.setData` — the two ways in which the file system uses a block.
* `BlockDev.drop`, `BlockDev.syncFilesystem` — what the kernel may do between two calls.
* `BlockDev.Clean` — no buffer is dirty; every operation above keeps it, so a sync never writes
  anything.
-/

namespace KLRM

/-- The bytes of a block, by offset in `b_data`. -/
abbrev Block := ℕ → UInt8

/-- `DEFAULT_BLOCK_SIZE`. -/
def defaultBlockSize : ℕ := 4096

/-- A block's cached copy. -/
structure Buffer where
  bData : Block
  dirty : Bool

/-- A device and the buffers the cache holds for it. -/
structure BlockDev where
  disk : ℕ → Block
  cache : ℕ → Option Buffer

namespace BlockDev

/-- The block as `sb_bread` returns it. -/
def content (d : BlockDev) (b : ℕ) : Block :=
  match d.cache b with
  | some buf => buf.bData
  | none => d.disk b

/-- `sb_bread`, when it succeeds: afterwards the block is cached. -/
def sbBread (d : BlockDev) (b : ℕ) : BlockDev :=
  match d.cache b with
  | some _ => d
  | none => { d with cache := Function.update d.cache b (some ⟨d.disk b, false⟩) }

/-- A store through `bh->b_data`: the cached copy changes and its dirty mark does not. -/
def setData (d : BlockDev) (b : ℕ) (data : Block) : BlockDev :=
  { d with
    cache := Function.update d.cache b
      (some ⟨data, (d.cache b).elim false Buffer.dirty⟩) }

/-- The cache drops the released buffer of block `b`, if it is clean. -/
def drop (d : BlockDev) (b : ℕ) : BlockDev :=
  match d.cache b with
  | some ⟨_, false⟩ => { d with cache := Function.update d.cache b none }
  | _ => d

/-- `sync_filesystem`: every dirty buffer is written back and becomes clean. -/
def syncFilesystem (d : BlockDev) : BlockDev where
  disk := fun b =>
    match d.cache b with
    | some ⟨data, true⟩ => data
    | _ => d.disk b
  cache := fun b => (d.cache b).map fun buf => { buf with dirty := false }

/-- No buffer is marked dirty. -/
def Clean (d : BlockDev) : Prop := ∀ b buf, d.cache b = some buf → buf.dirty = false

lemma content_of_uncached {d : BlockDev} {b : ℕ} (h : d.cache b = none) :
    d.content b = d.disk b := by
  simp [content, h]

@[simp] lemma content_sbBread (d : BlockDev) (b : ℕ) : (d.sbBread b).content = d.content := by
  funext x
  unfold sbBread
  cases h : d.cache b with
  | some buf => rfl
  | none =>
      by_cases hx : x = b
      · subst hx
        simp [content, h]
      · simp [content, hx]

@[simp] lemma content_setData (d : BlockDev) (b : ℕ) (data : Block) :
    (d.setData b data).content = Function.update d.content b data := by
  funext x
  by_cases hx : x = b
  · subst hx
    simp [content, setData]
  · simp [content, setData, hx]

@[simp] lemma content_syncFilesystem (d : BlockDev) : d.syncFilesystem.content = d.content := by
  funext x
  cases h : d.cache x with
  | none => simp [content, syncFilesystem, h]
  | some buf => simp [content, syncFilesystem, h]

@[simp] lemma disk_sbBread (d : BlockDev) (b : ℕ) : (d.sbBread b).disk = d.disk := by
  unfold sbBread
  cases d.cache b <;> rfl

@[simp] lemma disk_setData (d : BlockDev) (b : ℕ) (data : Block) :
    (d.setData b data).disk = d.disk := rfl

@[simp] lemma disk_drop (d : BlockDev) (b : ℕ) : (d.drop b).disk = d.disk := by
  unfold drop
  split <;> rfl

/-- What is cached after a read. -/
lemma isSome_sbBread (d : BlockDev) (b x : ℕ) :
    ((d.sbBread b).cache x).isSome ↔ (d.cache x).isSome ∨ b = x := by
  unfold sbBread
  cases h : d.cache b with
  | some buf =>
      refine ⟨Or.inl, ?_⟩
      rintro (hx | rfl)
      · exact hx
      · rw [h]
        rfl
  | none =>
      by_cases hx : x = b
      · subst hx
        simp
      · simp [hx, Ne.symm hx]

/-- And after a store. -/
lemma isSome_setData (d : BlockDev) (b x : ℕ) (data : Block) :
    ((d.setData b data).cache x).isSome ↔ (d.cache x).isSome ∨ b = x := by
  by_cases hx : x = b
  · subst hx
    simp [setData]
  · simp [setData, hx, Ne.symm hx]

/-- With no buffer dirty a sync writes nothing. -/
lemma disk_syncFilesystem {d : BlockDev} (h : d.Clean) : d.syncFilesystem.disk = d.disk := by
  funext b
  cases hb : d.cache b with
  | none => simp [syncFilesystem, hb]
  | some buf =>
      obtain ⟨data, dirty⟩ := buf
      have : dirty = false := h b _ hb
      subst this
      simp [syncFilesystem, hb]

lemma Clean.sbBread {d : BlockDev} (h : d.Clean) (b : ℕ) : (d.sbBread b).Clean := by
  intro x buf hx
  unfold BlockDev.sbBread at hx
  cases hb : d.cache b with
  | some _ =>
      rw [hb] at hx
      exact h x buf hx
  | none =>
      simp only [hb, Function.update_apply] at hx
      split_ifs at hx with hxb
      · cases hx
        rfl
      · exact h x buf hx

lemma Clean.setData {d : BlockDev} (h : d.Clean) (b : ℕ) (data : Block) :
    (d.setData b data).Clean := by
  intro x buf hx
  simp only [BlockDev.setData, Function.update_apply] at hx
  split_ifs at hx with hxb
  · cases hx
    cases hb : d.cache b with
    | none => rfl
    | some buf => exact h b buf hb
  · exact h x buf hx

lemma Clean.drop {d : BlockDev} (h : d.Clean) (b : ℕ) : (d.drop b).Clean := by
  intro x buf hx
  unfold BlockDev.drop at hx
  split at hx
  · simp only [Function.update_apply] at hx
    split_ifs at hx with hxb
    exact h x buf hx
  · exact h x buf hx

/-- After a sync no buffer is dirty, whatever was before. -/
lemma clean_syncFilesystem (d : BlockDev) : d.syncFilesystem.Clean := by
  intro x buf hx
  cases hb : d.cache x with
  | none => simp [BlockDev.syncFilesystem, hb] at hx
  | some old =>
      simp only [BlockDev.syncFilesystem, hb, Option.map_some, Option.some.injEq] at hx
      rw [← hx]

/-- Dropping a clean buffer makes the block read from the device again; other blocks are
    as they were. -/
lemma content_drop {d : BlockDev} (h : d.Clean) (b : ℕ) :
    (d.drop b).content = Function.update d.content b (d.disk b) := by
  funext x
  cases hb : d.cache b with
  | none =>
      have hdrop : d.drop b = d := by simp [drop, hb]
      rw [hdrop, ← content_of_uncached hb, Function.update_eq_self]
  | some buf =>
      obtain ⟨data, dirty⟩ := buf
      have hclean : dirty = false := h b _ hb
      subst hclean
      by_cases hx : x = b
      · subst hx
        simp [content, drop, hb]
      · simp [content, drop, hb, hx]

end BlockDev

end KLRM
