import FileKLRM.LogFs.File

/-!
# Mounting and unmounting: `lib/logfs/logfilefs_src.c`

`singlefilefs_fill_super` decodes the bounds and the size of the log from the inode block of the
device into globals, and `singlefilefs_kill_superblock` stores the bounds back.  Linux calls
`kill_sb` for every superblock it gave to `fill_super`, on unmount and also after an error, so
`singlefilefsMount` is the pair.

The globals are shared by all superblocks, `fill_super` sets them at different points, and
`kill_superblock` returns early with `sb_lock` held when it cannot read the inode block: the
translation keeps each of these.
-/

namespace KLRM

open LogFs

/-! ## The blocks on the device

The fields of the superblock and of the inode block, at their byte offsets.  Reading back a field
that was stored gives it modulo its width; the bounds are signed. -/

/-- `MAGIC`. -/
def logMagic : ℕ := 0x69420694

/-- `onefilefs_sb_info.magic`. -/
def magicOf (sbBlock : Block) : ℕ := readLE sbBlock 8 8

/-- `onefilefs_inode.circular_buffer_start` and `.circular_buffer_end`. -/
def boundsOf (inode : Block) : ℤ × ℤ := (readS64 inode 24, readS64 inode 32)

/-- `onefilefs_inode.file_size`. -/
def fileSizeOf (inode : Block) : ℕ := readLE inode 40 8

/-- The inode block with new bounds stored in it. -/
def storeBounds (inode : Block) (bounds : ℤ × ℤ) : Block :=
  writeS64 (writeS64 inode 24 bounds.1) 32 bounds.2

lemma boundsOf_storeBounds (inode : Block) {b : ℤ × ℤ} (h₁ : -2 ^ 63 ≤ b.1 ∧ b.1 < 2 ^ 63)
    (h₂ : -2 ^ 63 ≤ b.2 ∧ b.2 < 2 ^ 63) : boundsOf (storeBounds inode b) = b := by
  unfold boundsOf storeBounds
  rw [readS64_writeS64_disjoint _ _ (by norm_num), readS64_writeS64 _ _ h₁.1 h₁.2,
    readS64_writeS64 _ _ h₂.1 h₂.2]

lemma fileSizeOf_storeBounds (inode : Block) (b : ℤ × ℤ) :
    fileSizeOf (storeBounds inode b) = fileSizeOf inode := by
  simp only [fileSizeOf, storeBounds, writeS64]
  rw [readLE_writeLE_disjoint _ _ (by norm_num), readLE_writeLE_disjoint _ _ (by norm_num)]

lemma storeBounds_boundsOf (inode : Block) : storeBounds inode (boundsOf inode) = inode := by
  unfold storeBounds boundsOf
  rw [writeS64_readS64]
  exact writeS64_readS64 inode 32

-- otherwise a field-by-field comparison of two states evaluates the codec
attribute [irreducible] magicOf boundsOf fileSizeOf storeBounds

/-! ## fill_super and kill_superblock

Each takes from `MountEnv` what the kernel decides: which blocks can be read, and whether the
allocations of the root inode succeed.  A mount that fails runs both. -/

/-- What the kernel decides in one call of `fill_super`: whether each `sb_bread`, `iget_locked` and
    `d_make_root` succeeds. -/
structure MountEnv where
  breadSb : Bool
  breadInode : Bool
  igetLocked : Bool
  dMakeRoot : Bool

/-- The globals after the inode block has been decoded. -/
def LogFs.load (s : LogFs) (inode : Block) : LogFs :=
  { s with
    fileSize := fileSizeOf inode
    circularBufferStart := (boundsOf inode).1
    circularBufferEnd := (boundsOf inode).2 }

/-- `singlefilefs_fill_super`: the return value and the state. -/
def singlefilefsFillSuper (env : MountEnv) (sb : SuperBlock) (s : LogFs) :
    Except Stop (ℤ × LogFs) :=
  if s.mounted ≠ 0 then .ok (-ebusy, s)
  -- the result of this `sb_bread` is not what the next test looks at
  else if !env.breadSb then .error .nullPointer
  else
    let s := s.bread sb 0
    if magicOf (s.block sb 0) ≠ logMagic then .ok (-ebadf, s)
    else if !env.breadInode then .ok (-eio, s)
    else
      let s := (s.bread sb 1).load (s.block sb 1)
      if !env.igetLocked then .ok (-enomem, s)
      else if !env.dMakeRoot then .ok (-enomem, s)
      else if s.sbLock then .error .spinForever
      else .ok (0, { s with singletonSb := some sb, mounted := 1 })

/-- `sync_filesystem` on the device of a superblock. -/
def LogFs.syncFilesystem (s : LogFs) (sb : SuperBlock) : LogFs :=
  { s with devs := Function.update s.devs sb.sDev (s.devs sb.sDev).syncFilesystem }

/-- `singlefilefs_kill_superblock`, up to `kill_block_super`. -/
def singlefilefsKillSuperblock (breadOk : Bool) (sb : SuperBlock) (s : LogFs) :
    Except Stop LogFs :=
  if s.sbLock then .error .spinForever
  -- the early exit leaves with the lock held
  else if !breadOk then .ok { s with sbLock := true }
  else
    let s := s.bread sb 1
    let s := s.store sb 1 (storeBounds (s.block sb 1) s.bounds)
    let s := s.syncFilesystem sb
    .ok { s with singletonSb := none, mounted := 0 }

/-- `singlefilefs_mount`: `mount_bdev` hands a fresh superblock to `fill_super` and, when that
    fails, the same one to `kill_sb`. -/
def singlefilefsMount (env : MountEnv) (killBread : Bool) (sb : SuperBlock) (s : LogFs) :
    Except Stop (ℤ × LogFs) := do
  let (ret, s) ← singlefilefsFillSuper env sb s
  if ret = 0 then .ok (0, s)
  else do
    let s ← singlefilefsKillSuperblock killBread sb s
    .ok (ret, s)

end KLRM
