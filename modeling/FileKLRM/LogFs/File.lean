import FileKLRM.LogFs.BlockDevice

/-!
# The log file: `lib/logfs/file.c`

The log is a circular buffer over the data blocks of one device.  `circular_buffer_start` and
`circular_buffer_end` are absolute positions that only grow; a position is taken modulo
`file_size` to find its byte, and the two blocks before the data are the superblock and the
file's inode.

`onefilefs_read`, `logfilefs_write` and `internal_logfilefs_write` are translated with the
conversions C inserts.  The two writers run the same block loop, `copyLoop`, and advance the
bounds by the same three-way case, `advanceBounds`; they differ in what they do when a block
cannot be read and in where the length comes from.  What the kernel decides is an argument:
whether the `i`-th `sb_bread` of a call succeeds, and how many bytes the user copy leaves
uncopied.

A call runs here from start to end with `log_file_mutex` held; interleavings are the subject of
`FileKLRM.LogFs.UnmountRace`.
-/

namespace KLRM

/-- What a `struct super_block` contributes: its identity and its device. -/
structure SuperBlock where
  ident : ℕ
  sDev : ℕ
deriving DecidableEq, Repr

/-- The globals of `logfilefs_src.c` and `file.c`, and the block devices. -/
structure LogFs where
  mounted : ℕ
  singletonSb : Option SuperBlock
  sbLock : Bool
  fileSize : ℕ
  circularBufferStart : ℤ
  circularBufferEnd : ℤ
  devs : ℕ → BlockDev

namespace LogFs

/-- The block that `sb_bread (sb, sector)` returns. -/
def block (s : LogFs) (sb : SuperBlock) (sector : ℕ) : Block :=
  (s.devs sb.sDev).content sector

/-- The state once `sb_bread (sb, sector)` has cached its block. -/
def bread (s : LogFs) (sb : SuperBlock) (sector : ℕ) : LogFs :=
  { s with devs := Function.update s.devs sb.sDev ((s.devs sb.sDev).sbBread sector) }

/-- The state once the bytes of a block that was read have been changed. -/
def store (s : LogFs) (sb : SuperBlock) (sector : ℕ) (data : Block) : LogFs :=
  { s with devs := Function.update s.devs sb.sDev ((s.devs sb.sDev).setData sector data) }

@[simp] lemma block_bread (s : LogFs) (sb sb' : SuperBlock) (sector : ℕ) :
    (s.bread sb sector).block sb' = s.block sb' := by
  funext b
  by_cases h : sb'.sDev = sb.sDev <;> simp [block, bread, h]

end LogFs

/-! ## Reading

`readSpan` is the arithmetic of `onefilefs_read`: where the read starts, in which block, and how
many bytes of it are returned after the three clips, at the end of the log, at the end of the ring
and at the end of the block. -/

/-- What `onefilefs_read` leaves: its return value, the bytes it stored in the user's buffer,
    the new `*off`, and the state. -/
structure ReadResult where
  ret : ℤ
  bytes : List UInt8
  off : ℤ
  fs : LogFs

/-- What is read from the device: the block, the offset in it and the byte count. -/
structure ReadSpan where
  blockToRead : ℕ
  offset : ℤ
  len : ℕ

/-- A request cut at the end of the log. -/
def clipAtEnd (stop off : ℤ) (len : ℕ) : ℕ :=
  if toU64 stop < toU64 (off + len) then toU64 (stop - off) else len

/-- A request cut where the circular buffer wraps. -/
def clipAtWrap (fileSize : ℕ) (circularPos off : ℤ) (len : ℕ) : ℕ :=
  if toU64 (off + len) % fileSize < toU64 circularPos then toU64 (fileSize - circularPos) else len

/-- A request cut at the end of its block: just stuff in a single block is read, the residual is
    left to the caller. -/
def clipAtBlock (offset : ℤ) (len : ℕ) : ℕ :=
  if defaultBlockSize < toU64 (offset + len) then toU64 (defaultBlockSize - offset) else len

/-- The part of `onefilefs_read` between the bounds check and `sb_bread`. -/
def readSpan (fileSize : ℕ) (stop off : ℤ) (len : ℕ) : ReadSpan :=
  let circularPos := toS64 (toU64 off % fileSize : ℕ)
  let offset := circularPos.tmod defaultBlockSize
  { blockToRead := toU64 (toS32 (circularPos.tdiv defaultBlockSize + 2))
    offset := offset
    len := clipAtBlock offset (clipAtWrap fileSize circularPos off (clipAtEnd stop off len)) }

/-- `onefilefs_read`, for a file of `sb` at `*off`. -/
def onefilefsRead (sb : SuperBlock) (breadOk : Bool) (uncopied len : ℕ) (off : ℤ) (s : LogFs) :
    Except Stop ReadResult :=
  let off := if off < s.circularBufferStart then s.circularBufferStart else off
  if s.circularBufferEnd ≤ off then .ok { ret := 0, bytes := [], off := off, fs := s }
  else if s.fileSize = 0 then .error .divideError
  else if !breadOk then .ok { ret := -eio, bytes := [], off := off, fs := s }
  else
    let span := readSpan s.fileSize s.circularBufferEnd off len
    if span.offset < 0 then .error .outOfBounds
    else
      let got := span.len - min uncopied span.len
      .ok { ret := got
            bytes := cellsAt (s.block sb span.blockToRead) span.offset.toNat got
            off := off + got
            fs := s.bread sb span.blockToRead }

/-! ## Writing

`copyLoop` is the loop that the two writers share.  It ends because the payload is laid, because a
block could not be read, or because the user copy stopped short (`CopyEnd`); what the writers then
do differs and is kept apart. -/

/-- Where the block loop continues: the sector, the position in it and the byte count. -/
structure Chunk where
  sector : ℕ
  posIndex : ℤ
  delta : ℤ

/-- The head of the block loop's body. -/
def nextChunk (fileSize : ℕ) (origEnd : ℤ) (len copied : ℕ) : Chunk :=
  let circularBufferPos := toS64 (toU64 (origEnd + copied) % fileSize : ℕ)
  let posIndex := circularBufferPos.tmod defaultBlockSize
  let delta := toS64 ((len : ℤ) - copied)
  { sector := toU64 (circularBufferPos.tdiv defaultBlockSize + 2)
    posIndex := posIndex
    delta := if defaultBlockSize < posIndex + delta then defaultBlockSize - posIndex else delta }

/-- How the block loop ended: the bytes copied, whether it ran to the end of the payload, and
    the state. -/
structure CopyEnd where
  copied : ℕ
  complete : Bool
  fs : LogFs

/-- The block loop of both writers.  `breadOk i` says whether its `i`-th `sb_bread` succeeds and
    `uncopied i` how many bytes the `i`-th user copy leaves; those are zero-filled, as
    `copy_from_user` does.  The kernel's writer copies with `memcpy`, which leaves none. -/
def copyLoop (breadOk : ℕ → Bool) (uncopied : ℕ → ℕ) (src : List UInt8) (len : ℕ)
    (origEnd : ℤ) : (fuel i copied : ℕ) → LogFs → Except Stop CopyEnd
  | 0, _, _, _ => .error .outOfFuel
  | fuel + 1, i, copied, s =>
      if s.fileSize = 0 then .error .divideError
      else
        let c := nextChunk s.fileSize origEnd len copied
        match s.singletonSb with
        | none => .error .nullPointer
        | some sb =>
            if !breadOk i then .ok { copied := copied, complete := false, fs := s }
            else if c.posIndex < 0 ∨ c.delta < 0 then .error .outOfBounds
            else
              let delta := c.delta.toNat
              let left := min (uncopied i) delta
              let piece := (src.drop copied).take (delta - left) ++ List.replicate left 0
              let data := overlay (s.block sb c.sector) c.posIndex.toNat piece
              let s' := (s.bread sb c.sector).store sb c.sector data
              let copied' := copied + (delta - left)
              if left ≠ 0 then .ok { copied := copied', complete := false, fs := s' }
              else if copied' = len then .ok { copied := copied', complete := true, fs := s' }
              else copyLoop breadOk uncopied src len origEnd fuel (i + 1) copied' s'

/-- The new bounds after `copied` more bytes. -/
def advanceBounds (fileSize : ℕ) (bounds : ℤ × ℤ) (copied : ℕ) : ℤ × ℤ :=
  let start :=
    if fileSize ≤ toU64 bounds.2 then toS64 (bounds.1 + copied)
    else if fileSize ≤ toU64 (bounds.2 + copied) then
      toS64 (bounds.1 + (bounds.2 + copied - fileSize))
    else bounds.1
  (start, toS64 (bounds.2 + copied))

/-- The current bounds. -/
def LogFs.bounds (s : LogFs) : ℤ × ℤ := (s.circularBufferStart, s.circularBufferEnd)

/-- Both writers' last statements before they release the mutex. -/
def LogFs.advance (s : LogFs) (copied : ℕ) : LogFs :=
  let b := advanceBounds s.fileSize s.bounds copied
  { s with circularBufferStart := b.1, circularBufferEnd := b.2 }

/-- `internal_logfilefs_write`: an append by the kernel.  When a block cannot be read it gives up
    without moving the bounds. -/
def internalLogfilefsWrite (breadOk : ℕ → Bool) (payload : List UInt8) (s : LogFs) :
    Except Stop LogFs :=
  let len := strlen payload
  if len = 0 then .ok s
  else if s.mounted = 0 then .ok s
  else do
    let e ← copyLoop breadOk (fun _ => 0) payload len s.circularBufferEnd (len + 1) 0 0 s
    if e.complete then .ok (e.fs.advance e.copied) else .ok e.fs

/-- What `logfilefs_write` leaves: its return value, the new `*off`, and the state. -/
structure WriteResult where
  ret : ℤ
  off : ℤ
  fs : LogFs

/-- `logfilefs_write`: an append through the file.  It reports, and moves the bounds by, what was
    copied before a block or a byte could not be. -/
def logfilefsWrite (breadOk : ℕ → Bool) (uncopied : ℕ → ℕ) (buf : List UInt8) (s : LogFs) :
    Except Stop WriteResult := do
  let len := buf.length
  let e ← copyLoop breadOk uncopied buf len s.circularBufferEnd (len + 1) 0 0 s
  let fs := e.fs.advance e.copied
  .ok { ret := toS64 e.copied, off := fs.circularBufferEnd, fs := fs }

end KLRM
