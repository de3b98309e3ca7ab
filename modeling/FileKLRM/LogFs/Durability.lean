import FileKLRM.LogFs.Lifecycle
import FileKLRM.LogFs.StreamRefinement

/-!
# What survives unmount and remount

`kill_superblock` stores the bounds in the inode block and syncs, and the next `fill_super`
decodes what was stored.  But no buffer is ever marked dirty, neither by the writers nor by
`kill_superblock`, so a sync writes nothing and the device keeps the contents it was formatted
with (`Stored.disk`): the log lives in the buffer cache.

`MountedLog.view` is what can be read from the log: the two bounds and the bytes between them.
`remount_view_iff` says when one unmount and remount keeps it, and `log_survives_iff` says it for
every run of appends, cache drops and remounts: each remount must lose only buffers that
agree with the device, the inode block on the bounds and a data block on the bytes of the window.
-/

namespace KLRM

open LogFs

/-! ## The log as its reader sees it

`MountedLog.view` forgets how the log is stored: blocks, cache and device are gone, and the bytes
are numbered by their absolute positions.  `StreamInv.view` says that the view of a log which
holds a stream is the tail of that stream. -/

/-- A device that holds a log: the magic number, and a size that `logfilemakefs` can write. -/
structure LogImage where
  disk : ℕ → Block
  magic : magicOf (disk 0) = logMagic
  size_pos : 0 < fileSizeOf (disk 1)
  size_dvd : defaultBlockSize ∣ fileSizeOf (disk 1)
  size_lt : fileSizeOf (disk 1) < 2 ^ 31

/-- The file system with the superblock it is mounted on. -/
structure MountedLog where
  sb : SuperBlock
  fs : LogFs

/-- The bounds of the log and the bytes between them. -/
structure LogView where
  start : ℤ
  stop : ℤ
  window : List UInt8

/-- The block that holds the byte at absolute position `x` of a log of `N` bytes. -/
def blockOf (N : ℕ) (x : ℤ) : ℕ := toU64 x % N / defaultBlockSize + 2

/-- The place of that byte in its block. -/
def offsetOf (N : ℕ) (x : ℤ) : ℕ := toU64 x % N % defaultBlockSize

namespace MountedLog

/-- The block as `sb_bread` returns it. -/
def block (m : MountedLog) (b : ℕ) : Block := m.fs.block m.sb b

/-- The byte of the log at absolute position `x`. -/
def byteAt (m : MountedLog) (x : ℤ) : UInt8 :=
  m.block (blockOf m.fs.fileSize x) (offsetOf m.fs.fileSize x)

/-- What can be read. -/
def view (m : MountedLog) : LogView where
  start := m.fs.circularBufferStart
  stop := m.fs.circularBufferEnd
  window := (List.range (m.fs.circularBufferEnd - m.fs.circularBufferStart).toNat).map
    fun i : ℕ => m.byteAt (m.fs.circularBufferStart + i)

/-- Position `x` is between the bounds. -/
def InWindow (m : MountedLog) (x : ℤ) : Prop :=
  m.fs.circularBufferStart ≤ x ∧ x < m.fs.circularBufferEnd

lemma view_eq_iff {m m' : MountedLog} :
    m'.view = m.view ↔
      m'.fs.bounds = m.fs.bounds ∧ ∀ x, m.InWindow x → m'.byteAt x = m.byteAt x := by
  simp only [view, LogView.mk.injEq, bounds, Prod.mk.injEq, and_assoc]
  refine and_congr_right fun hstart => and_congr_right fun hstop => ?_
  rw [hstart, hstop]
  constructor
  · intro h x hx
    have hi := List.map_inj_left.mp h (x - m.fs.circularBufferStart).toNat (by
      rw [List.mem_range]
      have := hx.1
      have := hx.2
      omega)
    have hcast : m.fs.circularBufferStart + ((x - m.fs.circularBufferStart).toNat : ℤ) = x := by
      have := hx.1
      omega
    rwa [hcast] at hi
  · intro h
    refine List.map_congr_left fun i hi => h _ ⟨by omega, ?_⟩
    rw [List.mem_range] at hi
    omega

end MountedLog

/-- A log that holds the tail of a stream shows that tail. -/
theorem StreamInv.view {m : MountedLog} {N : ℕ} {stream : List UInt8}
    (h : StreamInv m.fs m.sb N stream) (hlen : stream.length < 2 ^ 63) :
    m.view.window = stream.drop m.fs.circularBufferStart.toNat := by
  have hs := h.start
  have he := h.stop
  refine List.ext_getElem ?_ fun i h₁ h₂ => ?_
  · simp only [MountedLog.view, List.length_map, List.length_range, List.length_drop]
    omega
  · simp only [MountedLog.view, List.length_map, List.length_range] at h₁
    rw [List.getElem_drop]
    set a := m.fs.circularBufferStart.toNat + i with ha
    have hcast : m.fs.circularBufferStart + (i : ℤ) = a := by omega
    have hcell := h.holds a (by omega) (by omega)
    simp only [MountedLog.view, List.getElem_map, List.getElem_range, hcast, MountedLog.byteAt,
      blockOf, offsetOf, h.fileSize, toU64_natCast (show a < 2 ^ 64 by omega)]
    exact hcell

/-! ## No operation writes to a device

`Untouched` relates two states whose devices agree.  It holds across every operation of the file
system, the unmount included, because no path of the source reaches `mark_buffer_dirty`. -/

/-- No buffer of the device is dirty, and the device holds `disk`. -/
def Untouched (disk : ℕ → Block) (dev : ℕ) (s : LogFs) : Prop :=
  (s.devs dev).Clean ∧ (s.devs dev).disk = disk

namespace Untouched

variable {disk : ℕ → Block} {dev : ℕ} {s s' : LogFs}

/-- What one device's change leaves. -/
lemma update (h : Untouched disk dev s) (x : ℕ) (change : BlockDev → BlockDev)
    (hclean : (s.devs dev).Clean → (change (s.devs dev)).Clean)
    (hdisk : (s.devs dev).Clean → (change (s.devs dev)).disk = (s.devs dev).disk) :
    Untouched disk dev { s with devs := Function.update s.devs x (change (s.devs x)) } := by
  by_cases hx : dev = x
  · subst hx
    simpa [Untouched] using ⟨hclean h.1, (hdisk h.1).trans h.2⟩
  · simpa [Untouched, hx] using h

lemma bread (h : Untouched disk dev s) (sb : SuperBlock) (b : ℕ) :
    Untouched disk dev (s.bread sb b) :=
  h.update sb.sDev (fun d => d.sbBread b) (fun hc => hc.sbBread b) fun _ =>
    BlockDev.disk_sbBread _ b

lemma store (h : Untouched disk dev s) (sb : SuperBlock) (b : ℕ) (data : Block) :
    Untouched disk dev (s.store sb b data) :=
  h.update sb.sDev (fun d => d.setData b data) (fun hc => hc.setData b data) fun _ => rfl

/-- With no buffer dirty a sync has nothing to write back. -/
lemma sync (h : Untouched disk dev s) (sb : SuperBlock) :
    Untouched disk dev (s.syncFilesystem sb) :=
  h.update sb.sDev BlockDev.syncFilesystem (fun _ => BlockDev.clean_syncFilesystem _)
    BlockDev.disk_syncFilesystem

lemma fillSuper (h : Untouched disk dev s) {env : MountEnv} {sb : SuperBlock} {ret : ℤ}
    (hrun : singlefilefsFillSuper env sb s = .ok (ret, s')) : Untouched disk dev s' := by
  unfold singlefilefsFillSuper at hrun
  dsimp only at hrun
  have h₀ := h.bread sb 0
  have h₁ := h₀.bread sb 1
  split_ifs at hrun
  · cases hrun
    exact h
  · cases hrun
    exact h₀
  · cases hrun
    exact h₀
  · cases hrun
    exact h₁
  · cases hrun
    exact h₁
  · cases hrun
    exact h₁

lemma killSuperblock (h : Untouched disk dev s) {breadOk : Bool} {sb : SuperBlock}
    (hrun : singlefilefsKillSuperblock breadOk sb s = .ok s') : Untouched disk dev s' := by
  unfold singlefilefsKillSuperblock at hrun
  dsimp only at hrun
  split_ifs at hrun
  · cases hrun
    exact h
  · cases hrun
    exact ((h.bread sb 1).store sb 1 _).sync sb

end Untouched

/-! ## Unmount, loss, remount

Between the unmount and the next mount the kernel may drop any of the buffers, since all of them
are clean.  What the mount then finds is the device where a buffer was dropped and the buffer
where it was not. -/

/-- The cache drops the clean buffers of these blocks of a device. -/
def LogFs.dropBlocks (s : LogFs) (dev : ℕ) (lost : List ℕ) : LogFs :=
  { s with devs := Function.update s.devs dev (lost.foldl BlockDev.drop (s.devs dev)) }

lemma foldl_drop {d : BlockDev} (lost : List ℕ) (h : d.Clean) :
    (lost.foldl BlockDev.drop d).Clean ∧ (lost.foldl BlockDev.drop d).disk = d.disk ∧
      ∀ b, (lost.foldl BlockDev.drop d).content b
        = if b ∈ lost then d.disk b else d.content b := by
  induction lost generalizing d with
  | nil => exact ⟨h, rfl, fun b => by simp⟩
  | cons b₀ lost ih =>
      obtain ⟨hclean, hdisk, hcontent⟩ := ih (h.drop b₀)
      refine ⟨hclean, by rw [List.foldl_cons, hdisk, BlockDev.disk_drop], fun b => ?_⟩
      rw [List.foldl_cons, hcontent, BlockDev.disk_drop, BlockDev.content_drop h]
      by_cases hmem : b ∈ lost
      · simp [hmem]
      · by_cases hb : b = b₀
        · simp [hb]
        · simp [hb, hmem]

lemma Untouched.dropBlocks {disk : ℕ → Block} {dev : ℕ} {s : LogFs} (h : Untouched disk dev s)
    (x : ℕ) (lost : List ℕ) : Untouched disk dev (s.dropBlocks x lost) :=
  h.update x (fun d => lost.foldl BlockDev.drop d) (fun hc => (foldl_drop lost hc).1)
    fun hc => (foldl_drop lost hc).2.1

/-- A dropped block is read from the device again. -/
lemma contents_dropBlocks {disk : ℕ → Block} {dev : ℕ} {s : LogFs} (h : Untouched disk dev s)
    (lost : List ℕ) (b : ℕ) :
    (s.dropBlocks dev lost).contents dev b = if b ∈ lost then disk b else s.contents dev b := by
  have hcontent := (foldl_drop lost h.1).2.2 b
  rw [h.2] at hcontent
  simpa [contents, LogFs.dropBlocks] using hcontent

namespace MountedLog

/-- A clean cycle: the log is unmounted, the cache drops the buffers of `lost`, and a fresh
    superblock of the same device is mounted.  The return value is that of the mount. -/
def remount (ident : ℕ) (lost : List ℕ) (m : MountedLog) : Except Stop (ℤ × MountedLog) := do
  let fs ← singlefilefsKillSuperblock true m.sb m.fs
  let sb : SuperBlock := ⟨ident, m.sb.sDev⟩
  let (ret, fs) ← singlefilefsMount ⟨true, true, true, true⟩ true sb (fs.dropBlocks m.sb.sDev lost)
  .ok (ret, ⟨sb, fs⟩)

end MountedLog

/-- The log of an image while it is mounted: its size is that of the image, the blocks before the
    data decode as the image's do, and the device still holds the image. -/
structure Stored (img : LogImage) (m : MountedLog) : Prop where
  mounted : m.fs.mounted = 1
  singleton : m.fs.singletonSb = some m.sb
  unlocked : m.fs.sbLock = false
  fileSize : m.fs.fileSize = fileSizeOf (img.disk 1)
  untouched : Untouched img.disk m.sb.sDev m.fs
  magic : magicOf (m.block 0) = logMagic
  inodeSize : fileSizeOf (m.block 1) = fileSizeOf (img.disk 1)
  range₁ : -2 ^ 63 ≤ m.fs.bounds.1 ∧ m.fs.bounds.1 < 2 ^ 63
  range₂ : -2 ^ 63 ≤ m.fs.bounds.2 ∧ m.fs.bounds.2 < 2 ^ 63

namespace Stored

variable {img : LogImage} {m : MountedLog}

/-- A mount of a device whose first two blocks decode as the image's do. -/
lemma mount {s : LogFs} (sb : SuperBlock) (hmounted : s.mounted = 0)
    (hunlocked : s.sbLock = false) (huntouched : Untouched img.disk sb.sDev s)
    (hmagic : magicOf (s.block sb 0) = logMagic)
    (hsize : fileSizeOf (s.block sb 1) = fileSizeOf (img.disk 1)) :
    ∃ s', singlefilefsMount ⟨true, true, true, true⟩ true sb s = .ok (0, s') ∧
      Stored img ⟨sb, s'⟩ ∧ s'.bounds = boundsOf (s.block sb 1) ∧ s'.block sb = s.block sb := by
  obtain ⟨s', hfill, hm, hs, hl, hc, hb, hz⟩ :=
    fillSuper_succeeds ⟨true, true, true, true⟩ sb hunlocked
      ⟨hmounted, rfl, ⟨hmagic, rfl⟩, rfl, rfl⟩
  have hblock : s'.block sb = s.block sb := by rw [block_eq_contents, hc]; rfl
  have hrange := boundsOf_range (s.block sb 1)
  refine ⟨s', ?_, ⟨hm, hs, hl, hz.trans hsize, huntouched.fillSuper hfill, ?_, ?_,
    ?_, ?_⟩, hb, hblock⟩
  · simp only [singlefilefsMount, hfill, bind, Except.bind, if_true]
  · exact (congrArg magicOf (congrFun hblock 0)).trans hmagic
  · exact (congrArg fileSizeOf (congrFun hblock 1)).trans hsize
  · exact hb ▸ hrange.1
  · exact hb ▸ hrange.2

/-- **One cycle.**  The mount succeeds; the bounds and each data byte are what they were, except
    that a buffer that was lost is read from the image. -/
lemma remount (h : Stored img m) (ident : ℕ) (lost : List ℕ) :
    ∃ m', m.remount ident lost = .ok (0, m') ∧ Stored img m' ∧
      m'.fs.bounds = (if 1 ∈ lost then boundsOf (img.disk 1) else m.fs.bounds) ∧
      ∀ b, 2 ≤ b → m'.block b = if b ∈ lost then img.disk b else m.block b := by
  obtain ⟨s, hkill, hm, -, hl, -, -, hc⟩ := killSuperblock_reads m.sb h.unlocked
  have hs := h.untouched.killSuperblock hkill
  -- each block of the device after the loss
  have hblock : ∀ b, (s.dropBlocks m.sb.sDev lost).contents m.sb.sDev b
      = if b ∈ lost then img.disk b
      else Function.update m.block 1 (storeBounds (m.block 1) m.fs.bounds) b := by
    intro b
    rw [contents_dropBlocks hs, hc, Function.update_self]
    rfl
  have hmagic : magicOf ((s.dropBlocks m.sb.sDev lost).contents m.sb.sDev 0) = logMagic := by
    rw [hblock, Function.update_of_ne zero_ne_one]
    split_ifs
    · exact img.magic
    · exact h.magic
  have hsize : fileSizeOf ((s.dropBlocks m.sb.sDev lost).contents m.sb.sDev 1)
      = fileSizeOf (img.disk 1) := by
    rw [hblock, Function.update_self]
    split_ifs
    · rfl
    · rw [fileSizeOf_storeBounds]
      exact h.inodeSize
  obtain ⟨s', hmount, hstored, hb, hsame⟩ :=
    mount (s := s.dropBlocks m.sb.sDev lost) ⟨ident, m.sb.sDev⟩ hm hl
      (hs.dropBlocks m.sb.sDev lost) hmagic hsize
  refine ⟨⟨⟨ident, m.sb.sDev⟩, s'⟩, ?_, hstored, ?_, fun b hb2 => ?_⟩
  · simp only [MountedLog.remount, hkill, hmount, bind, Except.bind]
  · rw [hb, block_eq_contents, hblock, Function.update_self]
    split_ifs
    · rfl
    · exact boundsOf_storeBounds _ h.range₁ h.range₂
  · show s'.block ⟨ident, m.sb.sDev⟩ b = _
    rw [hsame, block_eq_contents, hblock, Function.update_of_ne (by omega)]

/-- Storing into a data block. -/
lemma store (h : Stored img m) {sector : ℕ} (hsector : 2 ≤ sector) (data : Block) :
    Stored img ⟨m.sb, (m.fs.bread m.sb sector).store m.sb sector data⟩ := by
  have hblock : ∀ b < 2, ((m.fs.bread m.sb sector).store m.sb sector data).block m.sb b
      = m.block b := by
    intro b hb
    rw [block_eq_contents, contents_store, contents_bread, Function.update_self,
      Function.update_of_ne (by omega)]
    rfl
  refine ⟨h.mounted, h.singleton, h.unlocked, h.fileSize,
    (h.untouched.bread m.sb sector).store m.sb sector data, ?_, ?_, h.range₁, h.range₂⟩
  · exact (congrArg magicOf (hblock 0 (by omega))).trans h.magic
  · exact (congrArg fileSizeOf (hblock 1 (by omega))).trans h.inodeSize

/-- Moving the bounds. -/
lemma advance (h : Stored img m) (copied : ℕ) : Stored img ⟨m.sb, m.fs.advance copied⟩ := by
  have hrange := advanceBounds_range m.fs.fileSize h.range₁ copied
  exact ⟨h.mounted, h.singleton, h.unlocked, h.fileSize, h.untouched, h.magic,
    h.inodeSize, hrange.1, hrange.2⟩

/-- An append does nothing else. -/
lemma append (h : Stored img m) {breadOk : ℕ → Bool} {payload : List UInt8} {s' : LogFs}
    (hrun : internalLogfilefsWrite breadOk payload m.fs = .ok s') : Stored img ⟨m.sb, s'⟩ := by
  refine internalLogfilefsWrite_preserves (P := fun s => Stored img ⟨m.sb, s⟩) ?_ ?_ hrun h
  · intro s sb sector data hs hsb hsector
    obtain rfl : m.sb = sb := Option.some.inj (hs.singleton.symm.trans hsb)
    have hlt : s.fileSize < 2 ^ 63 := by
      rw [hs.fileSize]
      exact lt_trans img.size_lt (by norm_num)
    exact hs.store (hsector hlt) data
  · exact fun s copied hs => hs.advance copied

/-- A buffer is dropped while the log is mounted. -/
lemma drop (h : Stored img m) (b : ℕ) : Stored img ⟨m.sb, m.fs.dropBlocks m.sb.sDev [b]⟩ := by
  have hblock : ∀ x, (m.fs.dropBlocks m.sb.sDev [b]).block m.sb x
      = if x ∈ [b] then img.disk x else m.block x := by
    intro x
    rw [block_eq_contents, contents_dropBlocks h.untouched]
    rfl
  refine ⟨h.mounted, h.singleton, h.unlocked, h.fileSize,
    h.untouched.dropBlocks m.sb.sDev [b], ?_, ?_, h.range₁, h.range₂⟩
  · rw [MountedLog.block, hblock]
    split_ifs
    · exact img.magic
    · exact h.magic
  · rw [MountedLog.block, hblock]
    split_ifs
    · rfl
    · exact h.inodeSize

end Stored

/-! ## Runs

A run interleaves appends, drops and remounts.  A remount is harmless when what was dropped agrees
with the device on all that the view shows, and the view survives a run exactly when every remount
of it is harmless; the direction from survival to harmlessness needs that an append adds to the
view and never restores what was lost. -/

/-- What happens to a mounted log: an append by the kernel, a buffer dropped from the cache, and an
    unmount and remount during which the buffers of `lost` are dropped. -/
inductive StorageEvent
  | append (breadOk : ℕ → Bool) (payload : List UInt8)
  | drop (block : ℕ)
  | remount (ident : ℕ) (lost : List ℕ)

/-- The event is an unmount and remount. -/
def StorageEvent.isRemount : StorageEvent → Bool
  | .append .. | .drop _ => false
  | .remount .. => true

/-- One event: the mount's return value, `0` for the others, and the next state. -/
def MountedLog.step (m : MountedLog) : StorageEvent → Except Stop (ℤ × MountedLog)
  | .append breadOk payload => do
      let fs ← internalLogfilefsWrite breadOk payload m.fs
      .ok (0, ⟨m.sb, fs⟩)
  | .drop block => .ok (0, ⟨m.sb, m.fs.dropBlocks m.sb.sDev [block]⟩)
  | .remount ident lost => m.remount ident lost

/-- Through the whole run every remount succeeds and shows what was there before the unmount. -/
def Survives : MountedLog → List StorageEvent → Prop
  | _, [] => True
  | m, ev :: evs =>
      match m.step ev with
      | .ok (ret, m') => (ev.isRemount = true → ret = 0 ∧ m'.view = m.view) ∧ Survives m' evs
      | .error _ => ev.isRemount = false

/-- What is lost agrees with the image: the inode block on the bounds, a data block on the bytes of
    the window. -/
def HarmlessLoss (img : LogImage) (m : MountedLog) (lost : List ℕ) : Prop :=
  (1 ∈ lost → boundsOf (img.disk 1) = m.fs.bounds) ∧
    ∀ x, m.InWindow x → blockOf m.fs.fileSize x ∈ lost →
      img.disk (blockOf m.fs.fileSize x) (offsetOf m.fs.fileSize x) = m.byteAt x

/-- Every remount of the run loses only buffers that agree with the image. -/
def LossesHarmless (img : LogImage) : MountedLog → List StorageEvent → Prop
  | _, [] => True
  | m, ev :: evs =>
      (∀ ident lost, ev = .remount ident lost → HarmlessLoss img m lost) ∧
        match m.step ev with
        | .ok (_, m') => LossesHarmless img m' evs
        | .error _ => True

namespace Stored

variable {img : LogImage} {m : MountedLog}

/-- One cycle keeps what can be read exactly when it loses nothing the image does not hold. -/
theorem remount_view_iff (h : Stored img m) {ident : ℕ} {lost : List ℕ} {m' : MountedLog}
    (hrun : m.remount ident lost = .ok (0, m')) : m'.view = m.view ↔ HarmlessLoss img m lost := by
  obtain ⟨m'', hrun', hstored, hb, hblock⟩ := h.remount ident lost
  obtain rfl : m'' = m' := by
    rw [hrun'] at hrun
    exact congrArg Prod.snd (Except.ok.inj hrun)
  have hbyte : ∀ x, m''.byteAt x =
      if blockOf m.fs.fileSize x ∈ lost
        then img.disk (blockOf m.fs.fileSize x) (offsetOf m.fs.fileSize x) else m.byteAt x := by
    intro x
    rw [MountedLog.byteAt, hstored.fileSize, ← h.fileSize,
      hblock (blockOf m.fs.fileSize x) (Nat.le_add_left _ _)]
    split_ifs
    · rfl
    · rfl
  rw [MountedLog.view_eq_iff, HarmlessLoss]
  refine and_congr ?_ (forall_congr' fun x => imp_congr_right fun _ => ?_)
  · rw [hb]
    split_ifs with hlost
    · simp [hlost]
    · simp [hlost]
  · rw [hbyte]
    split_ifs with hlost
    · simp [hlost]
    · simp [hlost]

/-- Each event keeps the invariant, and a remount succeeds. -/
lemma step (h : Stored img m) {ev : StorageEvent} {ret : ℤ} {m' : MountedLog}
    (hrun : m.step ev = .ok (ret, m')) : ret = 0 ∧ Stored img m' := by
  cases ev with
  | append breadOk payload =>
      cases hw : internalLogfilefsWrite breadOk payload m.fs with
      | error e => simp [MountedLog.step, hw, bind, Except.bind] at hrun
      | ok s' =>
          simp only [MountedLog.step, hw, bind, Except.bind] at hrun
          cases hrun
          exact ⟨rfl, h.append hw⟩
  | drop b =>
      cases hrun
      exact ⟨rfl, h.drop b⟩
  | remount ident lost =>
      obtain ⟨m'', hrun', hstored, -⟩ := h.remount ident lost
      rw [MountedLog.step, hrun'] at hrun
      cases hrun
      exact ⟨rfl, hstored⟩

/-- What can be read survives a run from a mounted image exactly when its losses are harmless. -/
lemma survives_iff (events : List StorageEvent) :
    ∀ {m : MountedLog}, Stored img m → (Survives m events ↔ LossesHarmless img m events) := by
  induction events with
  | nil => exact fun _ => Iff.rfl
  | cons ev evs ih =>
      intro m h
      unfold Survives LossesHarmless
      cases hrun : m.step ev with
      | error e =>
          cases ev with
          | append breadOk payload => simp [StorageEvent.isRemount]
          | drop b => simp [StorageEvent.isRemount]
          | remount ident lost =>
              obtain ⟨m', hok, -⟩ := h.remount ident lost
              rw [MountedLog.step, hok] at hrun
              cases hrun
      | ok r =>
          obtain ⟨ret, m'⟩ := r
          obtain ⟨rfl, hm'⟩ := h.step hrun
          simp only [ih hm', true_and]
          refine and_congr_left fun _ => ?_
          cases ev with
          | append breadOk payload => simp [StorageEvent.isRemount]
          | drop b => simp [StorageEvent.isRemount]
          | remount ident lost => simp [StorageEvent.isRemount, h.remount_view_iff hrun]

end Stored

/-- **The log survives unmount and remount exactly when the cache loses nothing that matters.**
    For every image, mounted on any device whose cache is empty, and every run of appends, cache
    drops and clean remounts: each remount shows what could be read before the unmount if and
    only if each loses only buffers that agree with the image. -/
theorem log_survives_iff (img : LogImage) (others : ℕ → BlockDev) (dev ident : ℕ)
    (events : List StorageEvent) :
    ∃ s, singlefilefsMount ⟨true, true, true, true⟩ true ⟨ident, dev⟩
        (Lifecycle.start (Function.update others dev ⟨img.disk, fun _ => none⟩)).fs = .ok (0, s) ∧
      (Survives ⟨⟨ident, dev⟩, s⟩ events ↔ LossesHarmless img ⟨⟨ident, dev⟩, s⟩ events) := by
  set devs := Function.update others dev ⟨img.disk, fun _ => none⟩ with hdevs
  have hdev : devs dev = ⟨img.disk, fun _ => none⟩ := by rw [hdevs, Function.update_self]
  have hblock : ∀ b, (Lifecycle.start devs).fs.block ⟨ident, dev⟩ b = img.disk b := by
    intro b
    show (devs dev).content b = img.disk b
    rw [hdev]
    rfl
  have huntouched : Untouched img.disk dev (Lifecycle.start devs).fs := by
    show (devs dev).Clean ∧ (devs dev).disk = img.disk
    rw [hdev]
    exact ⟨fun b buf hbuf => by simp at hbuf, rfl⟩
  obtain ⟨s, hmount, hstored, -⟩ := Stored.mount (s := (Lifecycle.start devs).fs)
    ⟨ident, dev⟩ rfl rfl huntouched (by rw [hblock]; exact img.magic)
    (by rw [hblock])
  exact ⟨s, hmount, hstored.survives_iff events⟩

/-- What `logfilemakefs` writes for one data block. -/
def oneBlockImage : LogImage where
  disk := fun b =>
    if b = 0 then writeLE (fun _ => 0) 8 8 logMagic
    else if b = 1 then storeBounds (writeLE (fun _ => 0) 40 8 4096) (0, 0)
    else fun _ => 0
  magic := by
    unfold magicOf
    exact (readLE_writeLE _ 8 8 logMagic).trans (by decide)
  size_pos := by
    rw [if_neg one_ne_zero, if_pos rfl, fileSizeOf_storeBounds]
    unfold fileSizeOf
    exact (readLE_writeLE _ 40 8 4096).symm ▸ by decide
  size_dvd := by
    rw [if_neg one_ne_zero, if_pos rfl, fileSizeOf_storeBounds]
    unfold fileSizeOf
    exact (readLE_writeLE _ 40 8 4096).symm ▸ by decide
  size_lt := by
    rw [if_neg one_ne_zero, if_pos rfl, fileSizeOf_storeBounds]
    unfold fileSizeOf
    exact (readLE_writeLE _ 40 8 4096).symm ▸ by decide

lemma oneBlockImage_bounds : boundsOf (oneBlockImage.disk 1) = (0, 0) :=
  boundsOf_storeBounds _ (by norm_num) (by norm_num)

/-- **One byte is forgotten.**  The byte is appended, the log is unmounted, the cache drops its
    buffers, and the remounted log is empty. -/
theorem log_lost_with_cache :
    ∃ s, singlefilefsMount ⟨true, true, true, true⟩ true ⟨0, 0⟩
        (Lifecycle.start fun _ => ⟨oneBlockImage.disk, fun _ => none⟩).fs = .ok (0, s) ∧
      ¬ Survives ⟨⟨0, 0⟩, s⟩ [.append (fun _ => true) [65, 0], .remount 1 [0, 1, 2]] := by
  set img := oneBlockImage
  obtain ⟨s, hmount, hstored, hb, -⟩ := Stored.mount
    (s := (Lifecycle.start fun _ => ⟨img.disk, fun _ => none⟩).fs) ⟨0, 0⟩ rfl rfl
    ⟨fun b buf hbuf => by simp [Lifecycle.start] at hbuf, rfl⟩ img.magic rfl
  have hbounds : s.bounds = (0, 0) := hb.trans oneBlockImage_bounds
  have hopen : Mounted s ⟨0, 0⟩ (fileSizeOf (img.disk 1)) :=
    ⟨by rw [hstored.mounted]; exact one_ne_zero, hstored.singleton, hstored.fileSize, img.size_pos,
      img.size_dvd, img.size_lt⟩
  have hempty := hopen.streamInv (congrArg Prod.fst hbounds) (congrArg Prod.snd hbounds)
  obtain ⟨s', hrun, hinv⟩ := internalLogfilefsWrite_appends hempty
    (show ([65] : List UInt8) ≠ [] by simp) (by simp) (by norm_num)
  refine ⟨s, hmount, ?_⟩
  rw [hstored.survives_iff]
  rintro ⟨-, hrest⟩
  simp only [MountedLog.step, show ([65, 0] : List UInt8) = [65] ++ [0] from rfl, hrun, bind,
    Except.bind] at hrest
  have hlost := (hrest.1 1 [0, 1, 2] rfl).1 (by decide)
  have hstop : s'.circularBufferEnd = 1 := hinv.stop
  rw [oneBlockImage_bounds] at hlost
  have hzero : (0 : ℤ) = s'.circularBufferEnd := congrArg Prod.snd hlost
  omega

end KLRM
