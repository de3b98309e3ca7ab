import FileKLRM.LogFs.File

/-!
# The block loop of the writers

What one iteration does, and from it what the loop does.

* `nextChunk_spec` removes the conversions: inside the ranges the writers keep, the loop
  continues at byte `L % N`, in block `L % N / 4096 + 2`, and copies to the end of the payload
  or of the block, whichever comes first.
* `copyLoop_preserves` is the frame rule: a property that storing into a data block keeps is kept
  by the loop, however it ends.
* `copyLoop_appends` is the functional result when every block can be read: the ring of data
  bytes, which held the tail of a stream, holds the tail of the stream with the payload added.
-/

namespace KLRM

open LogFs

/-- The data blocks of a superblock's device as one ring of bytes. -/
def LogFs.ring (s : LogFs) (sb : SuperBlock) : ℕ → UInt8 := fun p =>
  s.block sb (p / defaultBlockSize + 2) (p % defaultBlockSize)

/-! ## One iteration

`nextChunk` computes with `loff_t`, `size_t` and `int` in turn.  On the positions that the writers
reach all of it is plain division with remainder, and this is the only place where that is shown. -/

/-- The sector that holds byte `q` of the ring. -/
lemma sector_of_pos {q : ℕ} (hq : q < 2 ^ 63) :
    toU64 ((q : ℤ).tdiv defaultBlockSize + 2) = q / defaultBlockSize + 2 := by
  rw [Int.tdiv_eq_ediv_of_nonneg (by omega), ← Int.natCast_ediv]
  have : q / defaultBlockSize ≤ q := Nat.div_le_self _ _
  exact toU64_natCast (n := q / defaultBlockSize + 2) (by omega)

/-- The conversions in the loop's head are the identity for positions below `2 ^ 64` and a
    payload below `2 ^ 63` bytes. -/
lemma nextChunk_spec {N len copied L : ℕ} {origEnd : ℤ} (hN0 : 0 < N) (hN : N < 2 ^ 63)
    (hlen : len < 2 ^ 63) (hc : copied ≤ len) (hL : origEnd + copied = L) (hL64 : L < 2 ^ 64) :
    nextChunk N origEnd len copied =
      { sector := L % N / defaultBlockSize + 2
        posIndex := (L % N % defaultBlockSize : ℕ)
        delta := (min (len - copied) (defaultBlockSize - L % N % defaultBlockSize) : ℕ) } := by
  have hp : L % N < N := Nat.mod_lt _ hN0
  have hpos : toS64 ((toU64 (origEnd + copied) % N : ℕ) : ℤ) = (L % N : ℕ) := by
    rw [hL, toU64_natCast hL64, toS64_of_range (by omega) (by omega)]
  have hdelta : toS64 ((len : ℤ) - copied) = (len - copied : ℕ) := by
    rw [toS64_of_range (by omega) (by omega)]
    omega
  have hmod : ((L % N : ℕ) : ℤ).tmod defaultBlockSize = (L % N % defaultBlockSize : ℕ) := by
    rw [Int.tmod_eq_emod_of_nonneg (by omega), Int.natCast_emod (L % N)]
  have hsector := sector_of_pos (lt_trans hp hN)
  have hr : L % N % defaultBlockSize < defaultBlockSize := Nat.mod_lt _ (by decide)
  simp only [nextChunk, hpos, hdelta, hmod, hsector, Chunk.mk.injEq, true_and]
  have hmin : ((min (len - copied) (defaultBlockSize - L % N % defaultBlockSize) : ℕ) : ℤ)
      = min ((len - copied : ℕ) : ℤ) ((defaultBlockSize : ℤ) - (L % N % defaultBlockSize : ℕ)) := by
    rw [Nat.cast_min, Nat.cast_sub hr.le]
  rw [hmin]
  split_ifs with h
  · rw [min_eq_right (by omega)]
  · rw [min_eq_left (by omega)]

/-- The loop never touches the superblock and the inode: the sector is a data block. -/
lemma two_le_sector {N len copied : ℕ} {origEnd : ℤ} (hN0 : 0 < N) (hN : N < 2 ^ 63) :
    2 ≤ (nextChunk N origEnd len copied).sector := by
  have hp := Nat.mod_lt (toU64 (origEnd + copied)) hN0
  simp only [nextChunk]
  rw [toS64_of_range (by omega) (by omega), sector_of_pos (by omega)]
  exact Nat.le_add_left _ _

/-- Storing a piece that stays inside a block is laying it over the ring. -/
lemma ring_store (s : LogFs) (sb : SuperBlock) (p : ℕ) (piece : List UInt8)
    (hfit : p % defaultBlockSize + piece.length ≤ defaultBlockSize) :
    ((s.bread sb (p / defaultBlockSize + 2)).store sb (p / defaultBlockSize + 2)
      (overlay (s.block sb (p / defaultBlockSize + 2)) (p % defaultBlockSize) piece)).ring sb
      = overlay (s.ring sb) p piece := by
  funext x
  have hx := Nat.div_add_mod x defaultBlockSize
  have hp := Nat.div_add_mod p defaultBlockSize
  have hxr : x % defaultBlockSize < defaultBlockSize := Nat.mod_lt _ (by decide)
  by_cases hblk : x / defaultBlockSize = p / defaultBlockSize
  · have hstored : ∀ data, ((s.bread sb (p / defaultBlockSize + 2)).store sb
        (p / defaultBlockSize + 2) data).ring sb x = data (x % defaultBlockSize) := by
      intro data
      simp [ring, block, store, hblk]
    rw [hstored]
    rw [hblk] at hx
    unfold overlay
    by_cases hin : p % defaultBlockSize ≤ x % defaultBlockSize ∧
        x % defaultBlockSize - p % defaultBlockSize < piece.length
    · rw [dif_pos hin, dif_pos (by omega)]
      congr 1
      omega
    · rw [dif_neg hin, dif_neg (by omega)]
      simp [ring, hblk]
  · have hstored : ∀ data, ((s.bread sb (p / defaultBlockSize + 2)).store sb
        (p / defaultBlockSize + 2) data).ring sb x = s.ring sb x := by
      intro data
      simp [ring, block, store, bread, hblk]
    rw [hstored, overlay_outside]
    rcases Nat.lt_or_gt_of_ne hblk with h | h
    · have := Nat.mul_le_mul_left defaultBlockSize (Nat.succ_le_of_lt h)
      rw [Nat.mul_succ] at this
      omega
    · have := Nat.mul_le_mul_left defaultBlockSize (Nat.succ_le_of_lt h)
      rw [Nat.mul_succ] at this
      omega

/-! ## The whole loop

Both theorems are by induction on the bytes that are left, one block in each round.  The frame
rule comes first and asks nothing of the state; the functional result uses it for the fields that
the loop does not touch. -/

/-- **The frame rule of the loop.**  What a store into a data block keeps, the loop keeps,
    whether it completes or breaks off. -/
theorem copyLoop_preserves {P : LogFs → Prop} {breadOk : ℕ → Bool} {uncopied : ℕ → ℕ}
    {src : List UInt8} {len : ℕ} {origEnd : ℤ}
    (hstep : ∀ s sb sector data, P s → s.singletonSb = some sb →
      (s.fileSize < 2 ^ 63 → 2 ≤ sector) → P ((s.bread sb sector).store sb sector data)) :
    ∀ (fuel i copied : ℕ) (s : LogFs) (e : CopyEnd),
      copyLoop breadOk uncopied src len origEnd fuel i copied s = .ok e → P s → P e.fs
  | 0, _, _, _, _, h, _ => by simp [copyLoop] at h
  | fuel + 1, i, copied, s, e, h, hP => by
      unfold copyLoop at h
      by_cases hN : s.fileSize = 0
      · simp [hN] at h
      rw [if_neg hN] at h
      cases hsb : s.singletonSb with
      | none => simp [hsb] at h
      | some sb =>
          simp only [hsb] at h
          have hsec : s.fileSize < 2 ^ 63 →
              2 ≤ (nextChunk s.fileSize origEnd len copied).sector :=
            fun hlt => two_le_sector (Nat.pos_of_ne_zero hN) hlt
          split_ifs at h with hb hneg hleft hlen
          · cases h
            exact hP
          · cases h
            exact hstep _ _ _ _ hP hsb hsec
          · cases h
            exact hstep _ _ _ _ hP hsb hsec
          · exact copyLoop_preserves hstep fuel _ _ _ _ h (hstep _ _ _ _ hP hsb hsec)

/-- The loop moves no global of the file system. -/
theorem copyLoop_globals {breadOk : ℕ → Bool} {uncopied : ℕ → ℕ} {src : List UInt8} {len : ℕ}
    {origEnd : ℤ} {fuel i copied : ℕ} {s : LogFs} {e : CopyEnd}
    (h : copyLoop breadOk uncopied src len origEnd fuel i copied s = .ok e) :
    e.fs = { s with devs := e.fs.devs } :=
  copyLoop_preserves (P := fun s' => s' = { s with devs := s'.devs })
    (fun s' _ _ _ hs' _ _ => by rw [hs']; rfl) fuel i copied s e h rfl

/-- The same rule for an append by the kernel. -/
theorem internalLogfilefsWrite_preserves {P : LogFs → Prop} {breadOk : ℕ → Bool}
    {payload : List UInt8} {s s' : LogFs}
    (hstep : ∀ s sb sector data, P s → s.singletonSb = some sb →
      (s.fileSize < 2 ^ 63 → 2 ≤ sector) → P ((s.bread sb sector).store sb sector data))
    (hadvance : ∀ s copied, P s → P (s.advance copied))
    (h : internalLogfilefsWrite breadOk payload s = .ok s') (hP : P s) : P s' := by
  unfold internalLogfilefsWrite at h
  dsimp only at h
  split_ifs at h with hlen hm
  · cases h
    exact hP
  · cases h
    exact hP
  · cases hrun : copyLoop breadOk (fun _ => 0) payload (strlen payload) s.circularBufferEnd
        (strlen payload + 1) 0 0 s with
    | error e => simp [hrun, bind, Except.bind] at h
    | ok e =>
        have hPe := copyLoop_preserves hstep _ _ _ _ _ hrun hP
        simp only [hrun, bind, Except.bind] at h
        split_ifs at h with hc
        · cases h
          exact hadvance _ _ hPe
        · cases h
          exact hPe

section Piece

variable {sb : SuperBlock} {src base : List UInt8} {len N : ℕ} {breadOk : ℕ →
  Bool} {uncopied : ℕ → ℕ}

/-- An iteration whose block cannot be read ends the loop. -/
lemma copyLoop_unread {s : LogFs} {i : ℕ} (hfs : s.fileSize ≠ 0) (hsb : s.singletonSb = some sb)
    (hbread : breadOk i = false) (src : List UInt8) (len : ℕ) (origEnd : ℤ) (fuel copied : ℕ) :
    copyLoop breadOk uncopied src len origEnd (fuel + 1) i copied s = .ok ⟨copied, false, s⟩ := by
  unfold copyLoop
  rw [if_neg hfs]
  simp only [hsb, hbread, Bool.not_false, if_true]

/-- An iteration whose block can be read lays one piece of the payload, `m` bytes of which the
    last `left` are zeros, over the ring. -/
lemma copyLoop_piece (breadOk : ℕ → Bool) (uncopied : ℕ → ℕ) (hlen : len ≤ src.length)
    (hlen63 : len < 2 ^ 63) (hN0 : 0 < N)
    (hdvd : defaultBlockSize ∣ N) (hN : N < 2 ^ 63) (hbase : base.length + len < 2 ^ 64)
    {i copied m left : ℕ} (hbread : breadOk i = true)
    (hm : m = min (len - copied) (defaultBlockSize - (base.length + copied) % N % defaultBlockSize))
    (hleft : left = min (uncopied i) m) (hc : copied ≤ len) {s : LogFs} (hfs : s.fileSize = N)
    (hsb : s.singletonSb = some sb)
    (hring : HoldsTail N (s.ring sb) (base ++ src.take copied)) (fuel : ℕ) :
    ∃ s', s'.fileSize = N ∧ s'.singletonSb = some sb ∧
      HoldsTail N (s'.ring sb) (base ++ (src.take (copied + (m - left)) ++ List.replicate left 0)) ∧
      copyLoop breadOk uncopied src len base.length (fuel + 1) i copied s
        = if left ≠ 0 then .ok ⟨copied + (m - left), false, s'⟩
          else if copied + (m - left) = len then .ok ⟨copied + (m - left), true, s'⟩
          else copyLoop breadOk uncopied src len base.length fuel (i + 1)
              (copied + (m - left)) s' := by
  set L := base.length + copied with hL
  set p := L % N with hp
  have hpr : p % defaultBlockSize < defaultBlockSize := Nat.mod_lt _ (by decide)
  have hchunk : nextChunk N base.length len copied = ⟨p / defaultBlockSize + 2,
      (p % defaultBlockSize : ℕ), (m : ℕ)⟩ := by
    rw [hm]
    exact nextChunk_spec hN0 hN hlen63 hc (by push_cast [hL]; ring) (by omega)
  have hpiece : ((src.drop copied).take (m - left) ++ List.replicate left 0).length = m := by
    rw [List.length_append, List.length_take, List.length_drop, List.length_replicate]
    omega
  have hbaselen : (base ++ src.take copied).length = L := by
    rw [List.length_append, List.length_take]
    omega
  -- the piece ends inside its block, and the block inside the ring
  have hfit : p + m ≤ N := by
    obtain ⟨k, hk⟩ := hdvd
    have hdiv : p / defaultBlockSize < k := by
      refine Nat.div_lt_of_lt_mul ?_
      rw [← hk]
      exact Nat.mod_lt _ hN0
    have h1 := Nat.mul_le_mul_left defaultBlockSize (Nat.succ_le_of_lt hdiv)
    have h2 := Nat.div_add_mod p defaultBlockSize
    rw [← hk, Nat.mul_succ] at h1
    omega
  have htake :
      base ++ src.take copied ++ ((src.drop copied).take (m - left) ++ List.replicate left 0)
      = base ++ (src.take (copied + (m - left)) ++ List.replicate left 0) := by
    rw [List.append_assoc, ← List.append_assoc (src.take copied), ← List.take_add]
  have hnext := hring.append ((src.drop copied).take (m - left) ++ List.replicate left 0)
    (by rw [hbaselen, hpiece]; exact hfit)
  rw [hbaselen, htake, ← ring_store s sb p _ (by rw [hpiece]; omega)] at hnext
  refine ⟨(s.bread sb (p / defaultBlockSize + 2)).store sb (p / defaultBlockSize + 2)
    (overlay (s.block sb (p / defaultBlockSize + 2)) (p % defaultBlockSize)
      ((src.drop copied).take (m - left) ++ List.replicate left 0)), hfs, hsb, hnext, ?_⟩
  conv_lhs => unfold copyLoop
  rw [if_neg (by omega), hfs]
  simp only [hsb, hchunk, hbread, Bool.not_true, Bool.false_eq_true, if_false,
    Int.toNat_natCast, ← hleft]
  rw [if_neg (by omega)]

end Piece

/-- When every block can be read and every byte copied, the loop writes the rest of the payload:
    the stream whose tail the ring holds is extended by it. -/
theorem copyLoop_appends {sb : SuperBlock} {src base : List UInt8} {len N : ℕ}
    (hlen : len ≤ src.length) (hlen63 : len < 2 ^ 63) (hN0 : 0 < N)
    (hdvd : defaultBlockSize ∣ N) (hN : N < 2 ^ 63) (hbase : base.length + len < 2 ^ 64) :
    ∀ (fuel i copied : ℕ) (s : LogFs), len - copied < fuel → copied ≤ len →
      s.fileSize = N → s.singletonSb = some sb →
      HoldsTail N (s.ring sb) (base ++ src.take copied) →
      ∃ s', copyLoop (fun _ => true) (fun _ => 0) src len base.length fuel i copied s
          = .ok ⟨len, true, s'⟩ ∧ HoldsTail N (s'.ring sb) (base ++ src.take len)
  | 0, _, _, _, hf, _, _, _, _ => absurd hf (by omega)
  | fuel + 1, i, copied, s, hf, hc, hfs, hsb, hring => by
      obtain ⟨s', hfs', hsb', hring', hrun⟩ := copyLoop_piece (fun _ => true) (fun _ => 0) hlen
        hlen63 hN0 hdvd hN hbase rfl rfl (Nat.zero_min _).symm hc hfs hsb hring fuel
      have hpr : (base.length + copied) % N % defaultBlockSize < defaultBlockSize :=
        Nat.mod_lt _ (by decide)
      set m := min (len - copied) (defaultBlockSize - (base.length + copied) % N % defaultBlockSize)
        with hm
      rw [Nat.sub_zero, List.replicate_zero, List.append_nil] at hring'
      rw [if_neg (by simp), Nat.sub_zero] at hrun
      by_cases hdone : copied + m = len
      · rw [if_pos hdone] at hrun
        exact ⟨s', by rw [hrun, hdone], by rw [← hdone]; exact hring'⟩
      · rw [if_neg hdone] at hrun
        have hgrow : 0 < m := by omega
        obtain ⟨s'', hrun', hring''⟩ :=
          copyLoop_appends hlen hlen63 hN0 hdvd hN hbase fuel (i + 1) (copied + m) s'
          (by omega) (by omega) hfs' hsb' hring'
        exact ⟨s'', by rw [hrun, hrun'], hring''⟩

end KLRM
