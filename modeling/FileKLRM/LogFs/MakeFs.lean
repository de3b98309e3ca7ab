import FileKLRM.Core.Transition
import FileKLRM.LogFs.Lifecycle
import FileKLRM.LogFs.PartialAppend

/-!
# Images made by `user/logfilemakefs.c`

The block count comes as a string and becomes the size of the file: through `strtol`, which
saturates, an `int`, which is cut to 32 bits, a product of two `int`s, which wraps, and a field of
64 bits without a sign, all unchecked.  The module divides by the field and compares positions
with it.

The size is what was asked for, and stays a safe divisor and bound in every run of appends and
reads, exactly for the counts whose product is a positive `int` (`logfilemakefs_safe_iff`).  Just
below `2 ^ 52` there are counts whose size wraps to the right number of 64 bits; there it is a
read that fails, behind 8 TiB of log.
-/

namespace KLRM

open LogFs

/-! ## The program

`logfilemakefs` writes the superblock, the inode and the rest of its block, and gives up after a
write that falls short (`MkfsEnv`).  The only input that matters is the string with the block
count, and `fileSizeFor` is what becomes of it on the way into the field. -/

/-- `isspace`. -/
def isSpace (b : UInt8) : Bool := b = 32 || (9 ≤ b && b ≤ 13)

/-- `isdigit`. -/
def isDigit (b : UInt8) : Bool := 48 ≤ b && b ≤ 57

/-- The number that digits say. -/
def digitsValue (digits : List UInt8) : ℕ := digits.foldl (fun n d => 10 * n + (d.toNat - 48)) 0

/-- The number that the head of a string says, as an exact integer: blanks, a sign, and the
    digits; zero without any. -/
def numeral (s : List UInt8) : ℤ :=
  match s.dropWhile isSpace with
  | 45 :: rest => -(digitsValue (rest.takeWhile isDigit))
  | 43 :: rest => digitsValue (rest.takeWhile isDigit)
  | rest => digitsValue (rest.takeWhile isDigit)

/-- `strtol`, to base ten. -/
def strtol (buf : List UInt8) : ℤ := max (-2 ^ 63) (min (2 ^ 63 - 1) (numeral (cString buf)))

/-- The `file_size` for an argument; the product of two `int`s wraps. -/
def fileSizeFor (arg : List UInt8) : ℕ :=
  let blocks := toS32 (strtol arg)
  toU64 (toS32 (blocks * defaultBlockSize))

/-- The variable `sb`: the stack, and the three fields that are set. -/
def sbInfo (stack : Block) : Block :=
  writeLE (writeLE (writeLE stack 0 8 1) 8 8 logMagic) 16 8 defaultBlockSize

/-- The variable `file_inode`: the stack, and the fields that are set. -/
def fileInode (stack : Block) (fileSize : ℕ) : Block :=
  storeBounds (writeLE (writeLE (writeLE stack 0 4 0x8000) 8 8 1) 40 8 fileSize) (0, 0)

/-- What `logfilemakefs` finds: whether the device can be opened, what each `write` returns, and
    what was in the memory of the two variables and of the padding. -/
structure MkfsEnv where
  opens : Bool
  wrote : ℕ → ℤ
  stackSb : Block
  stackInode : Block
  padding : Block

namespace MkfsEnv

/-- The bytes that `write` is given. -/
def bytes (env : MkfsEnv) (arg : List UInt8) : ℕ → List UInt8
  | 0 => cellsAt (sbInfo env.stackSb) 0 4096
  | 1 => cellsAt (fileInode env.stackInode (fileSizeFor arg)) 0 48
  | _ => cellsAt env.padding 0 4048

/-- The device after a `write` at a position. -/
def write (env : MkfsEnv) (arg : List UInt8) (i pos : ℕ) (device : ℕ → UInt8) : ℕ → UInt8 :=
  overlay device pos ((env.bytes arg i).take (env.wrote i).toNat)

/-- The device is large enough: what is written is written whole. -/
def Roomy (env : MkfsEnv) : Prop := env.wrote 0 = 4096 ∧ env.wrote 1 = 48 ∧ env.wrote 2 = 4048

end MkfsEnv

/-- `main`: what it returns, and the device. -/
def logfilemakefs (env : MkfsEnv) (argv : List (List UInt8)) (device : ℕ → UInt8) :
    ℤ × (ℕ → UInt8) :=
  if argv.length ≠ 3 then (-1, device)
  else
    let arg := argv.getD 1 []
    if !env.opens then (-1, device)
    else
      let device := env.write arg 0 0 device
      if env.wrote 0 ≠ defaultBlockSize then (toS32 (env.wrote 0), device)
      else
        let device := env.write arg 1 4096 device
        if env.wrote 1 ≠ 48 then (-1, device)
        else
          let device := env.write arg 2 4144 device
          if env.wrote 2 ≠ 4048 then (-1, device) else (0, device)

/-- A device by its blocks. -/
def blocksOf (device : ℕ → UInt8) : ℕ → Block := fun b p => device (defaultBlockSize * b + p)

/-! ## What the module computes on it

An operation is `Safe` when it takes no remainder by zero and computes no block outside the image.
`copySectors` lists the blocks that an append goes through, so that an operation of the log can be
said to stay on the image; `LogOp.Step.cached` shows that the blocks which an operation brings
into the cache are among them. -/

/-- The sectors that the block loop of the writers computes. -/
def copySectors (breadOk : ℕ → Bool) (uncopied : ℕ → ℕ) (fileSize len : ℕ) (origEnd : ℤ) :
    (fuel i copied : ℕ) → List ℕ
  | 0, _, _ => []
  | fuel + 1, i, copied =>
      if fileSize = 0 then []
      else
        let c := nextChunk fileSize origEnd len copied
        c.sector ::
          if !breadOk i ∨ c.posIndex < 0 ∨ c.delta < 0 then []
          else
            let delta := c.delta.toNat
            let left := min (uncopied i) delta
            let copied' := copied + (delta - left)
            if left ≠ 0 ∨ copied' = len then []
            else copySectors breadOk uncopied fileSize len origEnd fuel (i + 1) copied'

/-- An append or a read. -/
inductive LogOp
  | append (c : Append)
  | read (sb : SuperBlock) (breadOk : Bool) (uncopied len : ℕ) (off : ℤ)

namespace LogOp

/-- The state after it. -/
def run (s : LogFs) : LogOp → Except Stop LogFs
  | append c => (c.run s).map Prod.snd
  | read sb breadOk uncopied len off =>
      (onefilefsRead sb breadOk uncopied len off s).map ReadResult.fs

/-- The block indices that it computes. -/
def indices (s : LogFs) : LogOp → List ℕ
  | append c =>
      let len := if c.kernel then strlen (c.payload ++ [0]) else c.payload.length
      if c.kernel ∧ (len = 0 ∨ s.mounted = 0) then []
      else copySectors c.breadOk c.left s.fileSize len s.circularBufferEnd (len + 1) 0 0
  | read _ _ _ len off =>
      let off := if off < s.circularBufferStart then s.circularBufferStart else off
      if s.circularBufferEnd ≤ off ∨ s.fileSize = 0 then []
      else [(readSpan s.fileSize s.circularBufferEnd off len).blockToRead]

/-- The superblock whose device it reads. -/
def reads (s : LogFs) : LogOp → Option SuperBlock
  | append _ => s.singletonSb
  | read sb _ _ _ _ => some sb

/-- An operation that returns. -/
def Step (s : LogFs) (op : LogOp) (s' : LogFs) : Prop := op.run s = .ok s'

/-- It computes no remainder by zero, and no block index outside the `count` data blocks. -/
def Safe (count : ℤ) (s : LogFs) (op : LogOp) : Prop :=
  op.run s ≠ .error .divideError ∧ ∀ b ∈ op.indices s, 2 ≤ b ∧ (b : ℤ) < count + 2

end LogOp

/-- **What an image for `count` blocks should be**: its size is exactly that of the blocks, and
    positive; and once `fill_super` has accepted it, every operation is safe in every run of
    appends and reads. -/
def SafeImage (count : ℤ) (device : ℕ → UInt8) : Prop :=
  ((fileSizeOf (blocksOf device 1) : ℤ) = defaultBlockSize * count ∧
      0 < fileSizeOf (blocksOf device 1)) ∧
    ∀ (s s₁ : LogFs) (sb : SuperBlock) (env : MountEnv), s.contents sb.sDev = blocksOf device →
      singlefilefsFillSuper env sb s = .ok (0, s₁) →
      ∀ (ops : List LogOp) (s₂ : LogFs), Run LogOp.Step s₁ ops s₂ → ∀ op : LogOp, op.Safe count s₂

/-! ## What is on the device

The image block by block, and what `fill_super` decodes from it: the magic number, the bounds,
which start empty, and the size. -/

section Device

variable {env : MkfsEnv} {argv : List (List UInt8)} {arg : List UInt8} {device : ℕ → UInt8}

lemma length_bytes (env : MkfsEnv) (arg : List UInt8) : (env.bytes arg 0).length = 4096 ∧
    (env.bytes arg 1).length = 48 ∧ (env.bytes arg 2).length = 4048 :=
  ⟨length_cellsAt _ _ _, length_cellsAt _ _ _, length_cellsAt _ _ _⟩

/-- A write that is complete. -/
lemma MkfsEnv.write_full {i : ℕ} (h : env.wrote i = (env.bytes arg i).length) (pos : ℕ)
    (device : ℕ → UInt8) : env.write arg i pos device = overlay device pos (env.bytes arg i) := by
  rw [MkfsEnv.write, h, Int.toNat_natCast, List.take_length]

/-- With room enough the program returns zero only behind the last write. -/
lemma logfilemakefs_device (hroom : env.Roomy) (hexit : (logfilemakefs env argv device).1 = 0) :
    (logfilemakefs env argv device).2
      = overlay
          (overlay (overlay device 0 (env.bytes (argv.getD 1 []) 0)) 4096
            (env.bytes (argv.getD 1 []) 1))
          4144 (env.bytes (argv.getD 1 []) 2) := by
  obtain ⟨h0, h1, h2⟩ := hroom
  have hsb : env.wrote 0 = defaultBlockSize := h0
  obtain ⟨hlen0, hlen1, hlen2⟩ := length_bytes env (argv.getD 1 [])
  unfold logfilemakefs at hexit ⊢
  by_cases hargc : argv.length = 3
  · rw [if_neg (not_not_intro hargc)] at hexit ⊢
    dsimp only at hexit ⊢
    cases hopen : env.opens with
    | false =>
        rw [hopen, Bool.not_false, if_pos rfl] at hexit
        cases hexit
    | true =>
        rw [if_neg (by decide), if_neg (not_not_intro hsb), if_neg (not_not_intro h1),
          if_neg (not_not_intro h2),
          MkfsEnv.write_full (by rw [h2, hlen2]; norm_num),
          MkfsEnv.write_full (by rw [h1, hlen1]; norm_num),
          MkfsEnv.write_full (by rw [h0, hlen0]; norm_num)]
  · rw [if_pos hargc] at hexit
    cases hexit

/-- The superblock as it was packed. -/
lemma block_zero (hroom : env.Roomy) (hexit : (logfilemakefs env argv device).1 = 0) {p : ℕ}
    (hp : p < 4096) : blocksOf (logfilemakefs env argv device).2 0 p = sbInfo env.stackSb p := by
  have hlen := (length_bytes env (argv.getD 1 [])).1
  rw [blocksOf, logfilemakefs_device hroom hexit, Nat.mul_zero,
    overlay_outside _ (Or.inl (by omega)),
    overlay_outside _ (Or.inl (by omega)), overlay_inside _ 0 (by omega)]
  exact (getElem_cellsAt _ _ _ _).trans (congrArg _ (Nat.zero_add p))

/-- The inode as it was packed. -/
lemma block_one (hroom : env.Roomy) (hexit : (logfilemakefs env argv device).1 = 0) {p : ℕ}
    (hp : p < 48) : blocksOf (logfilemakefs env argv device).2 1 p
      = fileInode env.stackInode (fileSizeFor (argv.getD 1 [])) p := by
  have hlen := (length_bytes env (argv.getD 1 [])).2.1
  have hpos : defaultBlockSize * 1 = 4096 := rfl
  rw [blocksOf, logfilemakefs_device hroom hexit, hpos, overlay_outside _ (Or.inl (by omega)),
    overlay_inside _ 4096 (by omega)]
  exact (getElem_cellsAt _ _ _ _).trans (congrArg _ (Nat.zero_add p))

lemma magicOf_image (hroom : env.Roomy) (hexit : (logfilemakefs env argv device).1 = 0) :
    magicOf (blocksOf (logfilemakefs env argv device).2 0) = logMagic := by
  unfold magicOf
  rw [readLE_congr fun i hi => block_zero hroom hexit (by omega), sbInfo,
    readLE_writeLE_disjoint _ _ (Or.inl (by norm_num)), readLE_writeLE]
  rfl

lemma fileSizeFor_lt (arg : List UInt8) : fileSizeFor arg < 2 ^ 64 := toU64_lt _

lemma fileSizeOf_image (hroom : env.Roomy) (hexit : (logfilemakefs env argv device).1 = 0) :
    fileSizeOf (blocksOf (logfilemakefs env argv device).2 1) = fileSizeFor (argv.getD 1 []) := by
  have hcongr : fileSizeOf (blocksOf (logfilemakefs env argv device).2 1)
      = fileSizeOf (fileInode env.stackInode (fileSizeFor (argv.getD 1 []))) := by
    unfold fileSizeOf
    exact readLE_congr fun i hi => block_one hroom hexit (by omega)
  rw [hcongr, fileInode, fileSizeOf_storeBounds]
  unfold fileSizeOf
  rw [readLE_writeLE, Nat.mod_eq_of_lt]
  exact lt_of_lt_of_eq (fileSizeFor_lt _) (by norm_num)

lemma boundsOf_image (hroom : env.Roomy) (hexit : (logfilemakefs env argv device).1 = 0) :
    boundsOf (blocksOf (logfilemakefs env argv device).2 1) = (0, 0) := by
  have hcongr : boundsOf (blocksOf (logfilemakefs env argv device).2 1)
      = boundsOf (fileInode env.stackInode (fileSizeFor (argv.getD 1 []))) := by
    unfold boundsOf readS64
    rw [readLE_congr fun i hi => block_one hroom hexit (p := 24 + i) (by omega),
      readLE_congr fun i hi => block_one hroom hexit (p := 32 + i) (by omega)]
  rw [hcongr, fileInode, boundsOf_storeBounds _ (by norm_num) (by norm_num)]

end Device

/-! ## A size that is safe

On a safe size no division is by zero, every block stays inside the image, and neither changes in
any run of appends and reads. -/

section Indices

variable {breadOk : ℕ → Bool} {uncopied : ℕ → ℕ} {src : List UInt8} {N len : ℕ} {origEnd : ℤ}

/-- The sector of a chunk. -/
lemma nextChunk_sector (hN0 : 0 < N) (hN : N < 2 ^ 63) (origEnd : ℤ) (len copied : ℕ) :
    (nextChunk N origEnd len copied).sector
      = toU64 (origEnd + copied) % N / defaultBlockSize + 2 := by
  have hlt : toU64 (origEnd + copied) % N < N := Nat.mod_lt _ hN0
  simp only [nextChunk]
  rw [toS64_of_range (by omega) (by omega), sector_of_pos (by omega)]

/-- The block that is read, while the position fits in an `int`. -/
lemma readSpan_block (hN0 : 0 < N) (hN : N < 2 ^ 31) (stop off : ℤ) (len : ℕ) :
    (readSpan N stop off len).blockToRead = toU64 off % N / defaultBlockSize + 2 := by
  have hlt : toU64 off % N < N := Nat.mod_lt _ hN0
  obtain ⟨k, hk⟩ : ∃ k, k = toU64 off % N / defaultBlockSize := ⟨_, rfl⟩
  have hsmall : k < 2 ^ 30 := by
    rw [hk]
    exact Nat.div_lt_of_lt_mul (by rw [defaultBlockSize]; omega)
  have hcast : ((toU64 off % N : ℕ) : ℤ).tdiv defaultBlockSize = k := by
    rw [Int.tdiv_eq_ediv_of_nonneg (by omega), ← Int.natCast_ediv, hk]
  simp only [readSpan]
  rw [toS64_of_range (by omega) (by omega), hcast, toS32_of_range (by omega) (by omega), ← hk]
  exact toU64_natCast (n := k + 2) (by omega)

/-- Every sector of the block loop is that of a chunk. -/
lemma mem_copySectors :
    ∀ {fuel i copied b : ℕ}, b ∈ copySectors breadOk uncopied N len origEnd fuel i copied →
    N ≠ 0 ∧ ∃ copied, b = (nextChunk N origEnd len copied).sector
  | 0, _, _, _, h => by simp [copySectors] at h
  | fuel + 1, i, copied, b, h => by
      rw [copySectors] at h
      split_ifs at h with hN
      · cases h
      · rcases List.mem_cons.mp h with hb | h
        · exact ⟨hN, copied, hb⟩
        · split_ifs at h
          · cases h
          · dsimp only at h
            split_ifs at h
            · cases h
            · exact mem_copySectors h

/-- The cache after a block has been read and written. -/
lemma isSome_store_bread (s : LogFs) (sb : SuperBlock) (sector : ℕ) (data : Block) (b : ℕ) :
    ((((s.bread sb sector).store sb sector data).devs sb.sDev).cache b).isSome ↔
      ((s.devs sb.sDev).cache b).isSome ∨ sector = b := by
  simp only [LogFs.store, LogFs.bread, Function.update_self, BlockDev.isSome_setData,
    BlockDev.isSome_sbBread, or_assoc, or_self]

/-- The first sector, and the ones after it. -/
lemma exists_read_cons (i sector b : ℕ) (rest : List ℕ) :
    (∃ k, (sector :: rest)[k]? = some b ∧ breadOk (i + k) = true) ↔
      (sector = b ∧ breadOk i = true) ∨
        ∃ k, rest[k]? = some b ∧ breadOk (i + 1 + k) = true := by
  rw [← Nat.or_exists_add_one]
  simp [Nat.add_assoc, Nat.add_comm 1]

/-- **The block loop reads exactly these sectors**: the blocks that it has brought into the cache
    are the ones whose `sb_bread` succeeded. -/
lemma copyLoop_cached {sb : SuperBlock} : ∀ {fuel i copied : ℕ} {s : LogFs} {e : CopyEnd},
    s.singletonSb = some sb → copyLoop breadOk uncopied src len origEnd fuel i copied s = .ok e →
    ∀ b, ((e.fs.devs sb.sDev).cache b).isSome ↔ ((s.devs sb.sDev).cache b).isSome ∨
      ∃ k, (copySectors breadOk uncopied s.fileSize len origEnd fuel i copied)[k]? = some b ∧
      breadOk (i + k) = true
  | 0, _, _, _, _, _, h, _ => by simp [copyLoop] at h
  | fuel + 1, i, copied, s, e, hsb, h, b => by
      rw [copyLoop] at h
      by_cases hN : s.fileSize = 0
      · simp [hN] at h
      rw [if_neg hN, hsb] at h
      rw [copySectors, if_neg hN]
      dsimp only at h ⊢
      set c := nextChunk s.fileSize origEnd len copied with hc
      rw [exists_read_cons]
      cases hok : breadOk i with
      | false =>
          simp only [hok, Bool.not_false, if_true] at h
          rw [← Except.ok.inj h]
          simp
      | true =>
          simp only [hok, Bool.not_true, Bool.false_eq_true, if_false, false_or] at h ⊢
          by_cases hneg : c.posIndex < 0 ∨ c.delta < 0
          · rw [if_pos hneg] at h
            cases h
          · rw [if_neg hneg] at h ⊢
            by_cases hleft : min (uncopied i) c.delta.toNat ≠ 0
            · rw [if_pos hleft] at h
              rw [if_pos (Or.inl hleft), ← Except.ok.inj h]
              simp [isSome_store_bread]
            · rw [if_neg hleft] at h
              by_cases hlen : copied + (c.delta.toNat - min (uncopied i) c.delta.toNat) = len
              · rw [if_pos hlen] at h
                rw [if_pos (Or.inr hlen), ← Except.ok.inj h]
                simp [isSome_store_bread]
              · rw [if_neg hlen] at h
                rw [if_neg (not_or.mpr ⟨hleft, hlen⟩)]
                have hrest :=
                  copyLoop_cached (s := (s.bread sb c.sector).store sb c.sector _) hsb h b
                rw [hrest, isSome_store_bread]
                simp only [and_true]
                exact or_assoc

/-- The block loop divides by the size of the file only. -/
lemma copyLoop_ne_divide : ∀ {fuel i copied : ℕ} {s : LogFs}, s.fileSize ≠ 0 →
    copyLoop breadOk uncopied src len origEnd fuel i copied s ≠ .error .divideError
  | 0, _, _, _, _ => by simp [copyLoop]
  | fuel + 1, i, copied, s, hN => by
      rw [copyLoop, if_neg hN]
      cases s.singletonSb with
      | none => simp
      | some sb =>
          dsimp only
          split_ifs
          · simp
          · simp
          · simp
          · simp
          · exact copyLoop_ne_divide hN

end Indices

/-- A read that returns has cached one block at most. -/
lemma onefilefsRead_fileSize {sb : SuperBlock} {breadOk : Bool} {uncopied len : ℕ}
    {off : ℤ} {s : LogFs}
    {r : ReadResult} (h : onefilefsRead sb breadOk uncopied len off s = .ok r) :
    r.fs.fileSize = s.fileSize := by
  simp only [onefilefsRead] at h
  generalize (if off < s.circularBufferStart then s.circularBufferStart else off) = off' at h
  split_ifs at h
  · rw [← Except.ok.inj h]
  · rw [← Except.ok.inj h]
  · rw [← Except.ok.inj h]
    rfl

namespace LogOp

variable {s s' : LogFs} {op : LogOp}

/-- No operation changes the size. -/
lemma Step.fileSize (h : Step s op s') : s'.fileSize = s.fileSize := by
  cases op with
  | read sb breadOk uncopied len off =>
      cases hrun : onefilefsRead sb breadOk uncopied len off s with
      | error stop => simp [Step, run, hrun, Except.map] at h
      | ok r =>
          simp only [Step, run, hrun, Except.map, Except.ok.injEq] at h
          rw [← h]
          exact onefilefsRead_fileSize hrun
  | append c =>
      simp only [Step, run, Append.run] at h
      split_ifs at h
      · cases hrun : internalLogfilefsWrite c.breadOk (c.payload ++ [0]) s with
        | error stop => simp [hrun, Except.map] at h
        | ok t =>
            rw [hrun] at h
            rw [← Except.ok.inj h]
            exact internalLogfilefsWrite_preserves (P := fun t => t.fileSize = s.fileSize)
              (fun _ _ _ _ hP _ _ => hP) (fun _ _ hP => hP) hrun rfl
      · simp only [logfilefsWrite, bind, Except.bind] at h
        split at h
        · cases h
        · rename_i e hrun
          have hfs := copyLoop_preserves (P := fun t => t.fileSize = s.fileSize)
            (fun _ _ _ _ hP _ _ => hP) _ _ _ _ _ hrun rfl
          rw [← Except.ok.inj h]
          exact hfs

/-- The operations divide by the size of the file only. -/
lemma run_ne_divide (op : LogOp) (hN : s.fileSize ≠ 0) : op.run s ≠ .error .divideError := by
  intro h
  cases op with
  | read sb breadOk uncopied len off =>
      simp only [run, onefilefsRead, if_neg hN] at h
      split_ifs at h <;> simp [Except.map] at h
  | append c =>
      simp only [run, Append.run] at h
      split_ifs at h
      · simp only [internalLogfilefsWrite, bind, Except.bind] at h
        split_ifs at h
        · cases h
        · cases h
        · split at h
          · rename_i hrun
            cases h
            exact copyLoop_ne_divide hN hrun
          · split_ifs at h <;> cases h
      · simp only [logfilefsWrite, bind, Except.bind] at h
        split at h
        · rename_i hrun
          cases h
          exact copyLoop_ne_divide hN hrun
        · cases h

/-- **An operation brings no block into the cache but those whose indices it computes.** -/
theorem Step.cached (h : Step s op s') {sb : SuperBlock} (hsb : op.reads s = some sb) {b : ℕ}
    (hb : ((s'.devs sb.sDev).cache b).isSome) :
    ((s.devs sb.sDev).cache b).isSome ∨ b ∈ op.indices s := by
  cases op with
  | read sb' breadOk uncopied len off =>
      obtain rfl : sb' = sb := Option.some.inj hsb
      simp only [Step, run, onefilefsRead, indices] at h ⊢
      generalize (if off < s.circularBufferStart then s.circularBufferStart else off) = off' at h ⊢
      split_ifs at h with hpast hzero hok hneg
      · cases h
        exact Or.inl hb
      · cases h
      · cases h
        exact Or.inl hb
      · cases h
      · rw [← Except.ok.inj h] at hb
        simp only [LogFs.bread, Function.update_self, BlockDev.isSome_sbBread] at hb
        rw [if_neg (not_or.mpr ⟨hpast, hzero⟩), List.mem_singleton]
        exact hb.imp id Eq.symm
  | append c =>
      -- the sectors of the block loop
      have hloop : ∀ {src : List UInt8} {len : ℕ} {e : CopyEnd},
          copyLoop c.breadOk c.left src len s.circularBufferEnd
            (len + 1) 0 0 s = .ok e → ((e.fs.devs sb.sDev).cache b).isSome →
          ((s.devs sb.sDev).cache b).isSome ∨
            b ∈ copySectors c.breadOk c.left s.fileSize len s.circularBufferEnd (len + 1) 0 0 := by
        intro src len e hrun hcached
        refine ((copyLoop_cached hsb hrun b).mp hcached).imp id ?_
        rintro ⟨k, hk, -⟩
        exact List.mem_of_getElem? hk
      simp only [Step, run, Append.run, indices] at h ⊢
      cases hkernel : c.kernel with
      | true =>
          have hleft : c.left = fun _ => 0 := by
            funext k
            simp [Append.left, hkernel]
          simp only [hkernel, if_true, internalLogfilefsWrite, bind, Except.bind] at h
          simp only [if_true, true_and]
          rw [hleft] at hloop ⊢
          split_ifs at h with hlen hmounted
          · cases h
            exact Or.inl hb
          · cases h
            exact Or.inl hb
          · rw [if_neg (not_or.mpr ⟨hlen, hmounted⟩)]
            split at h
            · cases h
            · rename_i e hrun
              refine hloop hrun ?_
              split_ifs at h <;> cases h <;> exact hb
      | false =>
          have hleft : c.left = c.uncopied := by
            funext k
            simp [Append.left, hkernel]
          simp only [hkernel, Bool.false_eq_true, if_false, logfilefsWrite, bind, Except.bind] at h
          rw [if_neg (by simp), if_neg (by simp)]
          rw [hleft] at hloop ⊢
          split at h
          · cases h
          · rename_i e hrun
            cases h
            exact hloop hrun hb

/-- Whatever the bounds are, the indices are those of blocks of the file, if the size is that of
    a few of them. -/
lemma safe_of_fileSize {count : ℕ} (op : LogOp) (hpos : 0 < count) (hcount : count < 2 ^ 19)
    (hN : s.fileSize = defaultBlockSize * count) : op.Safe count s := by
  have hN0 : 0 < s.fileSize := by
    rw [hN]
    exact Nat.mul_pos (by decide) hpos
  have hN31 : s.fileSize < 2 ^ 31 := by
    rw [hN, defaultBlockSize]
    omega
  -- a position in the file is in one of its blocks
  have hblock : ∀ x, x % s.fileSize / defaultBlockSize < count := fun x => by
    refine Nat.div_lt_of_lt_mul ?_
    rw [← hN]
    exact Nat.mod_lt _ hN0
  refine ⟨op.run_ne_divide hN0.ne', fun b hb => ?_⟩
  obtain ⟨x, hx⟩ : ∃ x, b = x % s.fileSize / defaultBlockSize + 2 := by
    cases op with
    | read sb breadOk uncopied len off =>
        simp only [indices] at hb
        generalize (if off < s.circularBufferStart then s.circularBufferStart else off) = off' at hb
        by_cases hnone : s.circularBufferEnd ≤ off' ∨ s.fileSize = 0
        · rw [if_pos hnone] at hb
          exact absurd hb List.not_mem_nil
        · rw [if_neg hnone] at hb
          exact ⟨_, (List.mem_singleton.mp hb).trans (readSpan_block hN0 hN31 _ _ _)⟩
    | append c =>
        simp only [indices] at hb
        generalize (if c.kernel then strlen (c.payload ++ [0]) else c.payload.length) = len at hb
        by_cases hnone : c.kernel ∧ (len = 0 ∨ s.mounted = 0)
        · rw [if_pos hnone] at hb
          exact absurd hb List.not_mem_nil
        · rw [if_neg hnone] at hb
          obtain ⟨-, copied, hb⟩ := mem_copySectors hb
          exact ⟨_, hb.trans (nextChunk_sector hN0 (by omega) _ _ _)⟩
  have hlt : ((x % s.fileSize / defaultBlockSize : ℕ) : ℤ) < count := Int.ofNat_lt.mpr (hblock x)
  rw [hx]
  refine ⟨Nat.le_add_left _ _, ?_⟩
  push_cast at hlt ⊢
  linarith

end LogOp

/-- The size that `fill_super` finds. -/
lemma fillSuper_fileSize {env : MountEnv} {sb : SuperBlock} {s s₁ : LogFs}
    (h : singlefilefsFillSuper env sb s = .ok (0, s₁)) :
    s₁.fileSize = fileSizeOf (s.contents sb.sDev 1) := by
  unfold singlefilefsFillSuper at h
  dsimp only at h
  split_ifs at h
  all_goals
    obtain ⟨hret, hs⟩ := Prod.mk.inj (Except.ok.inj h)
    first
    | exact absurd hret (by decide)
    | rw [← hs, block_bread, ← block_eq_contents]
      rfl

/-- A small positive count is the size. -/
lemma fileSizeFor_small {arg : List UInt8} (h1 : 1 ≤ numeral (cString arg))
    (h2 : numeral (cString arg) ≤ 2 ^ 19 - 1) :
    (fileSizeFor arg : ℤ) = defaultBlockSize * numeral (cString arg) := by
  have hstrtol : strtol arg = numeral (cString arg) := by
    rw [strtol]
    omega
  have hblocks : toS32 (numeral (cString arg)) = numeral (cString arg) :=
    toS32_of_range (by omega) (by omega)
  have hsize : ((defaultBlockSize : ℕ) : ℤ) = 4096 := rfl
  rw [fileSizeFor, hstrtol, hblocks, hsize, toS32_of_range (by omega) (by omega),
    toU64_of_range (by omega) (by omega)]
  omega

/-- A size that is that of `count` blocks, and is not that of a few: `count` is just below
    `2 ^ 52`. -/
lemma fileSizeFor_exact {arg : List UInt8} {count : ℤ}
    (h : (fileSizeFor arg : ℤ) = defaultBlockSize * count) (hpos : 0 < fileSizeFor arg) :
    (1 ≤ count ∧ count ≤ 2 ^ 19 - 1) ∨ (2 ^ 52 - 2 ^ 19 ≤ count ∧ count < 2 ^ 52) := by
  have hsize : ((defaultBlockSize : ℕ) : ℤ) = 4096 := rfl
  rw [hsize] at h
  obtain ⟨y, hy⟩ : ∃ y, y = toS32 (strtol arg) * defaultBlockSize := ⟨_, rfl⟩
  have hcut : -2 ^ 31 ≤ toS32 y ∧ toS32 y < 2 ^ 31 := by
    unfold toS32
    omega
  have hN : fileSizeFor arg = toU64 (toS32 y) := by rw [hy]; rfl
  have hwrap : (toU64 (toS32 y) : ℤ) = if 0 ≤ toS32 y then toS32 y else toS32 y + 2 ^ 64 := by
    unfold toU64
    split_ifs <;> omega
  rw [← hN] at hwrap
  split_ifs at hwrap <;> omega

/-! ## The sizes that wrap to the right number

The product of the count and the block size is cut to 32 bits and then widened with its sign.  For
the counts whose product is negative the field holds a size close to `2 ^ 64`; some of them agree
with what was asked for, and it takes a log of 8 TiB to see that they are not safe. -/

section Wrapped

variable {N : ℕ} {sb : SuperBlock} {s : LogFs} {k : ℕ}

/-- The log has been written from its start on, block by block, and has `k` blocks. -/
structure BlocksIn (N : ℕ) (sb : SuperBlock) (k : ℕ) (s : LogFs) : Prop where
  mounted : s.mounted ≠ 0
  singleton : s.singletonSb = some sb
  fileSize : s.fileSize = N
  start : s.circularBufferStart = 0
  stop : s.circularBufferEnd = (defaultBlockSize * k : ℕ)

/-- The kernel appends one block. -/
def blockAppend : Append where
  kernel := true
  payload := List.replicate defaultBlockSize 97
  breadOk := fun _ => true
  uncopied := fun _ => 0

lemma strlen_blockAppend : strlen (blockAppend.payload ++ [0]) = defaultBlockSize := by
  have hne : ∀ b ∈ blockAppend.payload, b ≠ 0 := by
    intro b hb
    rw [List.eq_of_mem_replicate hb]
    decide
  rw [strlen, cString_append_zero hne]
  exact List.length_replicate

/-- The positions that are reached are far below the size. -/
lemma block_pos (hN : 2 ^ 63 ≤ N) (hk : k ≤ 2 ^ 31) :
    toU64 ((defaultBlockSize * k : ℕ) : ℤ) = defaultBlockSize * k ∧
    defaultBlockSize * k % N = defaultBlockSize * k ∧
      toS64 ((defaultBlockSize * k : ℕ) : ℤ) = (defaultBlockSize * k : ℕ) ∧
      defaultBlockSize * k < N := by
  have hlt : defaultBlockSize * k < 2 ^ 44 := by
    rw [defaultBlockSize]
    omega
  exact ⟨toU64_natCast (by omega), Nat.mod_eq_of_lt (by omega),
    toS64_of_range (by omega) (by omega), by omega⟩

/-- The loop's only chunk is the next block. -/
lemma nextChunk_block (hN : 2 ^ 63 ≤ N) (hk : k < 2 ^ 31) :
    nextChunk N (defaultBlockSize * k : ℕ) defaultBlockSize 0 = ⟨k + 2, 0, defaultBlockSize⟩ := by
  obtain ⟨hu, hmod, hs, -⟩ := block_pos hN hk.le
  have hdelta : toS64 ((defaultBlockSize : ℤ) - (0 : ℕ)) = defaultBlockSize := by
    rw [Nat.cast_zero, sub_zero, defaultBlockSize]
    exact toS64_of_range (by norm_num) (by norm_num)
  have hpos : ((defaultBlockSize * k : ℕ) : ℤ).tmod defaultBlockSize = 0 := by
    rw [Nat.cast_mul]
    exact Int.mul_tmod_right _ _
  have hdiv : ((defaultBlockSize * k : ℕ) : ℤ).tdiv defaultBlockSize = k := by
    rw [Nat.cast_mul]
    exact Int.mul_tdiv_cancel_left _ (by norm_num [defaultBlockSize])
  have hsector : toU64 ((k : ℤ) + 2) = k + 2 := toU64_natCast (n := k + 2) (by omega)
  simp only [nextChunk, Nat.cast_zero, add_zero]
  rw [hu, hmod, hs, hpos, hdiv, hsector]
  rw [Nat.cast_zero] at hdelta
  rw [hdelta, zero_add, if_neg (lt_irrefl _)]

/-- In a huge file the append goes to the next block, and nothing wraps. -/
lemma BlocksIn.append (h : BlocksIn N sb k s) (hN : 2 ^ 63 ≤ N) (hk : k < 2 ^ 31) :
    ∃ s', LogOp.Step s (.append blockAppend) s' ∧ BlocksIn N sb (k + 1) s' := by
  obtain ⟨data, hloop⟩ : ∃ data,
      copyLoop (fun _ => true) (fun _ => 0) (blockAppend.payload ++ [0]) defaultBlockSize
      s.circularBufferEnd (defaultBlockSize + 1) 0 0 s
      = .ok ⟨defaultBlockSize, true, (s.bread sb (k + 2)).store sb (k + 2) data⟩ := by
    refine ⟨overlay (s.block sb (k + 2)) 0
      (((blockAppend.payload ++ [0]).drop 0).take defaultBlockSize ++ List.replicate 0 0), ?_⟩
    rw [copyLoop, h.fileSize, h.stop, nextChunk_block hN hk, if_neg (by omega), h.singleton]
    simp only [Bool.not_true, Bool.false_eq_true, if_false, lt_irrefl, false_or, Nat.zero_min,
      Nat.sub_zero, Nat.zero_add, ne_eq, not_true_eq_false, Int.toNat_natCast]
    rw [if_neg (by omega)]
    rfl
  obtain ⟨hu, -, -, hlt⟩ := block_pos hN hk.le
  obtain ⟨hu', -, hs', hlt'⟩ := block_pos hN (k := k + 1) (by omega)
  have hsum : ((defaultBlockSize * k : ℕ) : ℤ) + (defaultBlockSize : ℕ)
      = (defaultBlockSize * (k + 1) : ℕ) := by
    push_cast
    ring
  refine ⟨((s.bread sb (k + 2)).store sb (k + 2) data).advance defaultBlockSize, ?_, ?_⟩
  · simp only [LogOp.Step, LogOp.run, Append.run, internalLogfilefsWrite, strlen_blockAppend]
    rw [if_pos (show blockAppend.kernel = true from rfl), if_neg (by decide), if_neg h.mounted]
    rw [show blockAppend.breadOk = fun _ => true from rfl, hloop]
    rfl
  · have hbounds : advanceBounds N (0, ((defaultBlockSize * k : ℕ) : ℤ)) defaultBlockSize
        = (0, ((defaultBlockSize * (k + 1) : ℕ) : ℤ)) := by
      simp only [advanceBounds]
      rw [hu, if_neg (by omega), hsum, hu', if_neg (by omega), hs']
    have hadvance : advanceBounds s.fileSize s.bounds defaultBlockSize
        = (0, ((defaultBlockSize * (k + 1) : ℕ) : ℤ)) := by
      rw [h.fileSize, LogFs.bounds, h.start, h.stop, hbounds]
    exact ⟨h.mounted, h.singleton, h.fileSize, congrArg Prod.fst hadvance,
      congrArg Prod.snd hadvance⟩

/-- And so on, for 8 TiB. -/
lemma BlocksIn.appends (hN : 2 ^ 63 ≤ N) : ∀ (n k : ℕ) (s : LogFs), BlocksIn N sb k s →
    k + n ≤ 2 ^ 31 →
    ∃ s', Run LogOp.Step s (List.replicate n (.append blockAppend)) s' ∧ BlocksIn N sb (k + n) s'
  | 0, k, s, h, _ => ⟨s, .nil s, h⟩
  | n + 1, k, s, h, hle => by
      obtain ⟨t, hstep, ht⟩ := h.append hN (by omega)
      obtain ⟨s', hrun, hs'⟩ := appends hN n (k + 1) t ht (by omega)
      rw [Nat.add_right_comm] at hs'
      exact ⟨s', .cons hstep hrun, hs'⟩

/-- A read of the last of `2 ^ 31 - 1` blocks computes an index that is no `int`. -/
lemma BlocksIn.not_safe {count : ℤ} (h : BlocksIn N sb (2 ^ 31 - 1) s) (hN : 2 ^ 63 ≤ N)
    (hcount : count < 2 ^ 52) :
    ¬ (LogOp.read sb true 0 1 (defaultBlockSize * (2 ^ 31 - 2) : ℕ)).Safe count s := by
  intro hsafe
  obtain ⟨k, hk⟩ : ∃ k, k = 2 ^ 31 - 2 := ⟨_, rfl⟩
  rw [← hk] at hsafe
  obtain ⟨hu, hmod, hs, -⟩ := block_pos hN (k := k) (by omega)
  have hstop : ((defaultBlockSize * k : ℕ) : ℤ) < s.circularBufferEnd := by
    rw [h.stop, hk, defaultBlockSize]
    norm_num
  have hdiv : ((defaultBlockSize * k : ℕ) : ℤ).tdiv defaultBlockSize = k := by
    rw [Nat.cast_mul]
    exact Int.mul_tdiv_cancel_left _ (by norm_num [defaultBlockSize])
  have hblock : (readSpan N s.circularBufferEnd (defaultBlockSize * k : ℕ) 1).blockToRead
      = 2 ^ 64 - 2 ^ 31 := by
    simp only [readSpan]
    rw [hu, hmod, hs, hdiv, hk]
    decide
  have hmem :
      (2 ^ 64 - 2 ^ 31 : ℕ) ∈ (LogOp.read sb true 0 1 (defaultBlockSize * k : ℕ)).indices s := by
    have hfrom :
        (if ((defaultBlockSize * k : ℕ) : ℤ) < 0 then 0 else ((defaultBlockSize * k : ℕ) : ℤ))
        = (defaultBlockSize * k : ℕ) := if_neg (by omega)
    simp only [LogOp.indices]
    rw [h.start, hfrom, h.fileSize, if_neg (by omega), hblock]
    exact List.mem_singleton.mpr rfl
  have hlt := (hsafe.2 _ hmem).2
  norm_num at hlt
  omega

end Wrapped

/-! ## The counts that are safe

Both directions for every count string, and an image of a hundred blocks as an instance. -/

/-- The module before the first mount, with one device. -/
def unmountedLog (device : ℕ → UInt8) : LogFs :=
  (Lifecycle.start fun _ => { disk := blocksOf device, cache := fun _ => none }).fs

section Image

variable {env : MkfsEnv} {argv : List (List UInt8)} {device : ℕ → UInt8}

/-- The image can be mounted, and the log is then empty. -/
lemma mount_image (hroom : env.Roomy) (hexit : (logfilemakefs env argv device).1 = 0) :
    ∃ s₁, singlefilefsFillSuper ⟨true, true, true, true⟩ ⟨0, 0⟩
      (unmountedLog (logfilemakefs env argv device).2)
        = .ok (0, s₁) ∧ BlocksIn (fileSizeFor (argv.getD 1 [])) ⟨0, 0⟩ 0 s₁ := by
  obtain ⟨s₁, hmount, hm, hsb, -, -, hbounds, hsize⟩ := fillSuper_succeeds
    (s := unmountedLog (logfilemakefs env argv device).2) ⟨true, true, true, true⟩ ⟨0, 0⟩ rfl
    ⟨rfl, rfl, ⟨magicOf_image hroom hexit, rfl⟩, rfl, rfl⟩
  have hzero : s₁.bounds = (0, 0) := hbounds.trans (boundsOf_image hroom hexit)
  refine ⟨s₁, hmount, ?_, hsb, hsize.trans (fileSizeOf_image hroom hexit),
    congrArg Prod.fst hzero, ?_⟩
  · rw [hm]
    exact one_ne_zero
  · rw [Nat.mul_zero]
    exact congrArg Prod.snd hzero

/-- **When an image is safe**: exactly when the count is positive and the size of so many blocks
    an `int`. -/
theorem logfilemakefs_safe_iff (hroom : env.Roomy) (hexit : (logfilemakefs env argv device).1 = 0) :
    SafeImage (numeral (cString (argv.getD 1 []))) (logfilemakefs env argv device).2 ↔
      1 ≤ numeral (cString (argv.getD 1 [])) ∧ numeral (cString (argv.getD 1 [])) ≤ 2 ^ 19 - 1 := by
  have hsize := fileSizeOf_image hroom hexit
  constructor
  · rintro ⟨⟨hexact, hpos⟩, hruns⟩
    rw [hsize] at hexact hpos
    rcases fileSizeFor_exact hexact hpos with hsmall | ⟨hlow, hhigh⟩
    · exact hsmall
    · -- a right size by accident: 8 TiB of log and a read
      have hN : 2 ^ 63 ≤ fileSizeFor (argv.getD 1 []) := by
        have hblock : ((defaultBlockSize : ℕ) : ℤ) = 4096 := rfl
        rw [hblock] at hexact
        omega
      obtain ⟨s₁, hmount, hempty⟩ := mount_image hroom hexit
      obtain ⟨s₂, hrun, hfull⟩ := BlocksIn.appends hN (2 ^ 31 - 1) 0 s₁ hempty (by norm_num)
      rw [Nat.zero_add] at hfull
      exact absurd (hruns _ s₁ ⟨0, 0⟩ _ rfl hmount _ s₂ hrun _) (hfull.not_safe hN hhigh)
  · rintro ⟨h1, h2⟩
    have hexact := fileSizeFor_small h1 h2
    obtain ⟨count, hcount⟩ :=
      Int.eq_ofNat_of_zero_le (show 0 ≤ numeral (cString (argv.getD 1 [])) by omega)
    rw [hcount] at h1 h2 hexact ⊢
    have hN : fileSizeFor (argv.getD 1 []) = defaultBlockSize * count := by exact_mod_cast hexact
    refine ⟨⟨by rw [hsize]; exact hexact, ?_⟩, fun s s₁ sb menv hdev hmount ops s₂ hrun op => ?_⟩
    · rw [hsize, hN]
      exact Nat.mul_pos (by decide) (by omega)
    · have hload : s₁.fileSize = defaultBlockSize * count := by
        rw [fillSuper_fileSize hmount, hdev, hsize, hN]
      have hkept : s₂.fileSize = defaultBlockSize * count :=
        hrun.invariant (P := fun s => s.fileSize = defaultBlockSize * count)
          (fun _ _ _ hs hstep => (LogOp.Step.fileSize hstep).trans hs) hload
      exact LogOp.safe_of_fileSize op (by omega) (by omega) hkept

end Image

/-- A device with room, and memory that comes zeroed. -/
def roomyEnv : MkfsEnv where
  opens := true
  wrote := fun i => if i = 0 then 4096 else if i = 1 then 48 else 4048
  stackSb := fun _ => 0
  stackInode := fun _ => 0
  padding := fun _ => 0

/-- `logfilemakefs count image`. -/
def mkfsArgs (count : List UInt8) : List (List UInt8) := [[], count ++ [0], []]

/-- The image of a hundred blocks. -/
theorem logfilemakefs_safe_hundred :
    SafeImage 100 (logfilemakefs roomyEnv (mkfsArgs [49, 48, 48]) fun _ => 0).2 ↔
      (1 : ℤ) ≤ 100 ∧ (100 : ℤ) ≤ 2 ^ 19 - 1 :=
  logfilemakefs_safe_iff (show roomyEnv.Roomy from ⟨rfl, rfl, rfl⟩) rfl

/-- The program exits with zero for no blocks and for `2 ^ 19`.  The module accepts the first
    image and divides by zero at the first append; the second has a size that wrapped. -/
theorem logfilemakefs_unsafe :
    ((logfilemakefs roomyEnv (mkfsArgs [48]) fun _ => 0).1 = 0 ∧
      ¬ SafeImage 0 (logfilemakefs roomyEnv (mkfsArgs [48]) fun _ => 0).2 ∧
      ∃ s₁, singlefilefsFillSuper ⟨true, true, true, true⟩ ⟨0, 0⟩
          (unmountedLog (logfilemakefs roomyEnv (mkfsArgs [48]) fun _ => 0).2) = .ok (0, s₁) ∧
        (LogOp.append blockAppend).run s₁ = .error .divideError) ∧
    (logfilemakefs roomyEnv (mkfsArgs [53, 50, 52, 50, 56, 56]) fun _ => 0).1 = 0 ∧
      fileSizeFor [53, 50, 52, 50, 56, 56, 0] = 2 ^ 64 - 2 ^ 31 ∧
      ¬ SafeImage (2 ^ 19) (logfilemakefs roomyEnv (mkfsArgs [53, 50, 52, 50, 56, 56])
        fun _ => 0).2 := by
  have hroom : roomyEnv.Roomy := ⟨rfl, rfl, rfl⟩
  have hzero : fileSizeFor [48, 0] = 0 := by decide
  have hwrapped : fileSizeFor [53, 50, 52, 50, 56, 56, 0] = 2 ^ 64 - 2 ^ 31 := by decide
  refine ⟨⟨rfl, ?_, ?_⟩, rfl, hwrapped, ?_⟩
  · rintro ⟨⟨-, hpos⟩, -⟩
    rw [fileSizeOf_image hroom rfl] at hpos
    exact absurd hzero hpos.ne'
  · have hexit : (logfilemakefs roomyEnv (mkfsArgs [48]) fun _ => 0).1 = 0 := rfl
    obtain ⟨s₁, hmount, hempty⟩ := mount_image hroom hexit
    refine ⟨s₁, hmount, ?_⟩
    have hsize : s₁.fileSize = 0 := hempty.fileSize.trans hzero
    simp only [LogOp.run, Append.run, internalLogfilefsWrite, strlen_blockAppend]
    rw [if_pos (show blockAppend.kernel = true from rfl), if_neg (by decide),
      if_neg hempty.mounted, copyLoop, if_pos hsize]
    rfl
  · rintro ⟨⟨hexact, -⟩, -⟩
    rw [fileSizeOf_image hroom rfl] at hexact
    rw [show (mkfsArgs [53, 50, 52, 50, 56, 56]).getD 1 [] = [53, 50, 52, 50, 56, 56, 0] from rfl,
      hwrapped] at hexact
    exact absurd hexact (by norm_num [defaultBlockSize])

end KLRM
