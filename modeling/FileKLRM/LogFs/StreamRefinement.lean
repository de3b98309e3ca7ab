import FileKLRM.LogFs.CopyLoop

/-!
# The circular log is the tail of one byte stream

What the log is for, said without blocks or remainders: every append adds bytes to one stream,
the last `file_size` of which can be read at their absolute positions.  `StreamInv` ties a state to
its stream; the two writers extend the stream (`internalLogfilefsWrite_appends`,
`logfilefsWrite_appends`), a read returns a slice of it (`onefilefsRead_slice`), and
`circularLog_is_stream_tail` is the statement for every sequence of calls on a freshly formatted
image.
-/

namespace KLRM

open LogFs

/-- `MAX_RW_COUNT`: the longest transfer the VFS passes down. -/
def maxRwCount : ℕ := 0x7ffff000

/-- The geometry `logfilemakefs` gives an image, on the mounted device. -/
structure Mounted (s : LogFs) (sb : SuperBlock) (N : ℕ) : Prop where
  mounted : s.mounted ≠ 0
  singleton : s.singletonSb = some sb
  fileSize : s.fileSize = N
  size_pos : 0 < N
  size_dvd : defaultBlockSize ∣ N
  size_lt : N < 2 ^ 31

/-- The log of `s` is the tail of `stream`: the end pointer counts the bytes of the stream, the
    start pointer is at most `N` behind it, and the data blocks hold what lies between. -/
structure StreamInv (s : LogFs) (sb : SuperBlock) (N : ℕ) (stream : List UInt8) : Prop
    extends Mounted s sb N where
  stop : s.circularBufferEnd = stream.length
  start : s.circularBufferStart = max 0 ((stream.length : ℤ) - N)
  holds : HoldsTail N (s.ring sb) stream

/-! ## Appending

The bounds move by the three-way case that both writers share, and the ring has been written by the
block loop; together they make the stream longer by the payload. -/

/-- The three-way case on end, copied and `file_size` moves the start pointer to where it stays
    `N` behind the end. -/
lemma advanceBounds_stream {N L m : ℕ} (hL : L + m < 2 ^ 63) (hN : N < 2 ^ 31) :
    advanceBounds N (max 0 ((L : ℤ) - N), L) m
      = (max 0 (((L + m : ℕ) : ℤ) - N), ((L + m : ℕ) : ℤ)) := by
  have hsum : (L : ℤ) + m = ((L + m : ℕ) : ℤ) := by push_cast; ring
  have hU : toU64 L = L := toU64_natCast (by omega)
  have hU' : toU64 (((L + m : ℕ) : ℤ)) = L + m := toU64_natCast (by omega)
  simp only [advanceBounds, hsum, hU, hU', Prod.mk.injEq]
  refine ⟨?_, toS64_of_range (by omega) (by omega)⟩
  split_ifs with h₁ h₂
  · rw [toS64_of_range (by omega) (by omega)]
    omega
  · rw [toS64_of_range (by omega) (by omega)]
    omega
  · omega

/-- After the block loop has laid a payload over the ring, advancing the bounds re-establishes
    the invariant for the longer stream. -/
lemma StreamInv.advance {s s' : LogFs} {sb : SuperBlock} {N : ℕ} {stream payload : List UInt8}
    (h : StreamInv s sb N stream) (hglobals : s' = { s with devs := s'.devs })
    (hholds : HoldsTail N (s'.ring sb) (stream ++ payload))
    (hlen : stream.length + payload.length < 2 ^ 63) :
    StreamInv (s'.advance payload.length) sb N (stream ++ payload) := by
  have hb := advanceBounds_stream hlen h.size_lt
  rw [← h.start, ← h.stop, ← h.fileSize] at hb
  have hadv : s'.advance payload.length = { s' with
      circularBufferStart := max 0 (((stream.length + payload.length : ℕ) : ℤ) - s.fileSize)
      circularBufferEnd := ((stream.length + payload.length : ℕ) : ℤ) } := by
    rw [hglobals]
    simp only [LogFs.advance, bounds, hb]
  rw [hadv]
  refine ⟨⟨?_, ?_, ?_, h.size_pos, h.size_dvd, h.size_lt⟩, ?_, ?_, hholds⟩
  · rw [hglobals]
    exact h.mounted
  · rw [hglobals]
    exact h.singleton
  · rw [hglobals]
    exact h.fileSize
  · rw [List.length_append]
  · rw [List.length_append, h.fileSize]

/-- The block loop started at the end of the stream appends the payload. -/
lemma StreamInv.copyLoop {s : LogFs} {sb : SuperBlock} {N : ℕ} {stream : List UInt8}
    (h : StreamInv s sb N stream) (src : List UInt8) (len : ℕ) (hlen : len ≤ src.length)
    (htotal : stream.length + len < 2 ^ 63) :
    ∃ s', copyLoop (fun _ => true) (fun _ => 0) src len s.circularBufferEnd (len + 1) 0 0 s
        = .ok ⟨len, true, s'⟩ ∧ HoldsTail N (s'.ring sb) (stream ++ src.take len) := by
  have hN : N < 2 ^ 63 := lt_trans h.size_lt (by norm_num)
  rw [h.stop]
  exact copyLoop_appends hlen (by omega) h.size_pos h.size_dvd hN (by omega)
    (len + 1) 0 0 s (by omega) (by omega) h.fileSize h.singleton (by simpa using h.holds)

/-- **An append by the kernel** adds the payload to the stream, whatever its length. -/
theorem internalLogfilefsWrite_appends {s : LogFs} {sb : SuperBlock} {N : ℕ}
    {stream payload : List UInt8} (h : StreamInv s sb N stream) (hne : payload ≠ [])
    (hnul : ∀ b ∈ payload, b ≠ 0) (htotal : stream.length + payload.length < 2 ^ 63) :
    ∃ s', internalLogfilefsWrite (fun _ => true) (payload ++ [0]) s = .ok s' ∧
      StreamInv s' sb N (stream ++ payload) := by
  have hstrlen : strlen (payload ++ [0]) = payload.length := by
    rw [strlen, cString_append_zero hnul]
  obtain ⟨s', hrun, hholds⟩ := h.copyLoop (payload ++ [0]) payload.length (by simp) htotal
  rw [List.take_left] at hholds
  refine ⟨s'.advance payload.length, ?_, h.advance (copyLoop_globals hrun) hholds htotal⟩
  have hpos : payload.length ≠ 0 := by simpa using hne
  simp only [internalLogfilefsWrite, hstrlen, if_neg hpos, if_neg h.mounted, hrun]
  rfl

/-- **An append through the file** adds the whole buffer to the stream, reports its length and
    leaves `*off` at the end. -/
theorem logfilefsWrite_appends {s : LogFs} {sb : SuperBlock} {N : ℕ} {stream buf : List UInt8}
    (h : StreamInv s sb N stream) (htotal : stream.length + buf.length < 2 ^ 63) :
    ∃ r, logfilefsWrite (fun _ => true) (fun _ => 0) buf s = .ok r ∧ r.ret = buf.length ∧
      r.off = ((stream ++ buf).length : ℕ) ∧ StreamInv r.fs sb N (stream ++ buf) := by
  obtain ⟨s', hrun, hholds⟩ := h.copyLoop buf buf.length le_rfl htotal
  rw [List.take_length] at hholds
  have hinv := h.advance (copyLoop_globals hrun) hholds htotal
  refine ⟨_, by simp only [logfilefsWrite, hrun]; rfl, ?_, hinv.stop, hinv⟩
  exact toS64_of_range (x := buf.length) (by omega) (by omega)

/-! ## Reading

`readFrom` is the abstract read: a slice of the stream, as long as a single block of the ring
allows.  The wrapped positions of the code agree with it inside the window, and a reader that has
fallen behind is moved to the start of the window first. -/

/-- Where a read of `len` bytes at `*off` starts. -/
def readFrom (s : LogFs) (off : ℤ) : ℤ := max off s.circularBufferStart

/-- How many bytes that read returns: none at or past the end, otherwise what was asked for,
    cut at the end of the log and at the end of the block. -/
def readCount (s : LogFs) (len : ℕ) (off : ℤ) : ℕ :=
  if s.circularBufferEnd ≤ readFrom s off then 0
  else min len (min (s.circularBufferEnd - readFrom s off).toNat
    (defaultBlockSize - (readFrom s off).toNat % defaultBlockSize))

/-- A run of ring cells that stays in one block is a run of that block's bytes. -/
lemma cellsAt_ring (s : LogFs) (sb : SuperBlock) {p n : ℕ}
    (hfit : p % defaultBlockSize + n ≤ defaultBlockSize) :
    cellsAt (s.ring sb) p n
      = cellsAt (s.block sb (p / defaultBlockSize + 2)) (p % defaultBlockSize) n := by
  refine List.map_congr_left fun i hi => ?_
  rw [List.mem_range] at hi
  have hp := Nat.div_add_mod p defaultBlockSize
  have hsum : p + i = defaultBlockSize * (p / defaultBlockSize) + (p % defaultBlockSize + i) := by
    omega
  have hlt : p % defaultBlockSize + i < defaultBlockSize := by omega
  have hdiv : (p + i) / defaultBlockSize = p / defaultBlockSize := by
    rw [hsum, Nat.mul_add_div (by decide), Nat.div_eq_of_lt hlt, Nat.add_zero]
  have hmod : (p + i) % defaultBlockSize = p % defaultBlockSize + i := by
    rw [hsum, Nat.mul_add_mod, Nat.mod_eq_of_lt hlt]
  simp only [ring, hdiv, hmod]

/-- The block that holds a position of the ring ends inside the ring. -/
lemma pos_add_block_le {N p : ℕ} (hdvd : defaultBlockSize ∣ N) (hp : p < N) :
    p + (defaultBlockSize - p % defaultBlockSize) ≤ N := by
  obtain ⟨k, hk⟩ := hdvd
  have hdiv : p / defaultBlockSize < k := by
    refine Nat.div_lt_of_lt_mul ?_
    rw [← hk]
    exact hp
  have h1 := Nat.mul_le_mul_left defaultBlockSize (Nat.succ_le_of_lt hdiv)
  have h2 := Nat.div_add_mod p defaultBlockSize
  have h3 : p % defaultBlockSize < defaultBlockSize := Nat.mod_lt _ (by decide)
  rw [← hk, Nat.mul_succ] at h1
  omega

/-- The wrap test of the reader never cuts below the end of the block: it fires only when the
    request reaches the end of the ring. -/
lemma wrap_clip {N o n : ℕ} (hN : 0 < N) (hdvd : defaultBlockSize ∣ N) :
    min (if (o + n) % N < o % N then N - o % N else n)
        (defaultBlockSize - o % N % defaultBlockSize)
      = min n (defaultBlockSize - o % N % defaultBlockSize) := by
  split_ifs with h
  · have hp : o % N < N := Nat.mod_lt _ hN
    have hreach : N ≤ o % N + n := by
      by_contra hlt
      have : (o + n) % N = o % N + n := by
        conv_lhs => rw [← Nat.div_add_mod o N, Nat.add_assoc, Nat.mul_add_mod]
        exact Nat.mod_eq_of_lt (by omega)
      omega
    have hblock := pos_add_block_le hdvd hp
    omega
  · rfl

/-- The conversions between the bounds check and `sb_bread` are the identity for a position `o`
    inside a log of fewer than `2 ^ 63` bytes, and the three cuts come down to two. -/
lemma readSpan_spec {N o L len : ℕ} (hN0 : 0 < N) (hdvd : defaultBlockSize ∣ N)
    (hN : N < 2 ^ 31) (ho : o < L) (hL : L < 2 ^ 63) (hlen : len < 2 ^ 31) :
    readSpan N L o len =
      { blockToRead := o % N / defaultBlockSize + 2
        offset := (o % N % defaultBlockSize : ℕ)
        len := min len (min (L - o) (defaultBlockSize - o % N % defaultBlockSize)) } := by
  have hbs : defaultBlockSize = 4096 := rfl
  have hpN : o % N < N := Nat.mod_lt _ hN0
  have hpr : o % N % defaultBlockSize < defaultBlockSize := Nat.mod_lt _ (by decide)
  have hpos : toS64 ((toU64 (o : ℤ) % N : ℕ) : ℤ) = (o % N : ℕ) := by
    rw [toU64_natCast (by omega), toS64_of_range (by omega) (by omega)]
  have hmod : ((o % N : ℕ) : ℤ).tmod defaultBlockSize = (o % N % defaultBlockSize : ℕ) := by
    rw [Int.tmod_eq_emod_of_nonneg (by omega), Int.natCast_emod (o % N)]
  have hend : clipAtEnd L o len = min len (L - o) := by
    rw [clipAtEnd, toU64_natCast (by omega), ← Nat.cast_add, toU64_natCast (by omega),
      ← Nat.cast_sub ho.le, toU64_natCast (by omega)]
    split_ifs <;> omega
  set n := min len (L - o) with hn
  have hwrap : clipAtWrap N (o % N : ℕ) o n = if (o + n) % N < o % N then N - o % N else n := by
    rw [clipAtWrap, ← Nat.cast_add, toU64_natCast (by omega), toU64_natCast (by omega),
      ← Nat.cast_sub hpN.le, toU64_natCast (by omega)]
  have hcut := wrap_clip hN0 hdvd (o := o) (n := n)
  set w := if (o + n) % N < o % N then N - o % N else n with hw
  have hwlt : w < 2 ^ 32 := by
    rw [hw]
    split_ifs <;> omega
  have hblock : clipAtBlock (o % N % defaultBlockSize : ℕ) w
      = min w (defaultBlockSize - o % N % defaultBlockSize) := by
    rw [clipAtBlock, ← Nat.cast_add, toU64_natCast (by omega), ← Nat.cast_sub hpr.le,
      toU64_natCast (by omega)]
    split_ifs <;> omega
  have hsector : toU64 (toS32 (((o % N : ℕ) : ℤ).tdiv defaultBlockSize + 2))
      = o % N / defaultBlockSize + 2 := by
    have hle : o % N / defaultBlockSize ≤ o % N := Nat.div_le_self _ _
    have hle' : o % N / defaultBlockSize ≤ o % N / 2 :=
      Nat.div_le_div_left (by decide) (by decide)
    rw [Int.tdiv_eq_ediv_of_nonneg (by omega), ← Int.natCast_ediv]
    generalize o % N / defaultBlockSize = q at hle hle' ⊢
    rw [toS32_of_range (by omega) (by omega)]
    exact toU64_natCast (n := q + 2) (by omega)
  simp only [readSpan, hpos, hmod, hend, hwrap, hblock, hsector, hcut, ReadSpan.mk.injEq,
    true_and]
  rw [hn, min_assoc]

/-- **A read is a slice of the stream**: the bytes at the absolute positions from
    `max (*off, circular_buffer_start)` on, `*off` moved past them. -/
theorem onefilefsRead_slice {s : LogFs} {sb : SuperBlock} {N : ℕ} {stream : List UInt8}
    (h : StreamInv s sb N stream) (hlen63 : stream.length < 2 ^ 63) {len : ℕ} {off : ℤ}
    (hoff : 0 ≤ off) (hlen : len ≤ maxRwCount) :
    ∃ r, onefilefsRead sb true 0 len off s = .ok r ∧
      r.ret = readCount s len off ∧
      r.bytes = (stream.drop (readFrom s off).toNat).take (readCount s len off) ∧
      r.off = readFrom s off + readCount s len off ∧
      r.fs.ring sb = s.ring sb ∧ r.fs = { s with devs := r.fs.devs } := by
  have hfrom : (if off < s.circularBufferStart then s.circularBufferStart else off)
      = readFrom s off := by
    unfold readFrom
    split_ifs <;> omega
  by_cases hpast : s.circularBufferEnd ≤ readFrom s off
  · have hcount : readCount s len off = 0 := by rw [readCount, if_pos hpast]
    have hrun : onefilefsRead sb true 0 len off s = .ok ⟨0, [], readFrom s off, s⟩ := by
      simp only [onefilefsRead, hfrom, if_pos hpast]
    exact ⟨_, hrun, by simp [hcount], by simp [hcount], by simp [hcount], rfl, rfl⟩
  · have hN0 := h.size_pos
    -- the starting position as a natural number, inside the window
    obtain ⟨o, ho⟩ : ∃ o : ℕ, readFrom s off = o :=
      ⟨(readFrom s off).toNat, by rw [Int.toNat_of_nonneg]; unfold readFrom; omega⟩
    have hcount : readCount s len off
        = min len (min (stream.length - o) (defaultBlockSize - o % N % defaultBlockSize)) := by
      rw [readCount, if_neg hpast, ho, h.stop, Int.toNat_natCast, Nat.mod_mod_of_dvd o h.size_dvd,
        Int.toNat_sub]
    rw [ho, h.stop] at hpast
    have hoL : o < stream.length := by omega
    have hwin : stream.length ≤ o + N := by
      have h1 : readFrom s off = max off s.circularBufferStart := rfl
      rw [ho, h.start] at h1
      omega
    have hmax : len < 2 ^ 31 := lt_of_le_of_lt hlen (by norm_num [maxRwCount])
    have hspan := readSpan_spec hN0 h.size_dvd h.size_lt hoL hlen63 hmax
    have hpN : o % N < N := Nat.mod_lt _ hN0
    have hfit := pos_add_block_le h.size_dvd hpN
    have hpr : o % N % defaultBlockSize < defaultBlockSize := Nat.mod_lt _ (by decide)
    rw [← hcount] at hspan
    have hrun : onefilefsRead sb true 0 len off s = .ok
        { ret := readCount s len off
          bytes := cellsAt (s.block sb (o % N / defaultBlockSize + 2))
            (o % N % defaultBlockSize) (readCount s len off)
          off := o + readCount s len off
          fs := s.bread sb (o % N / defaultBlockSize + 2) } := by
      simp only [onefilefsRead, hfrom, ho, h.stop, if_neg hpast, h.fileSize, hspan,
        Bool.not_true, Bool.false_eq_true, if_false, Nat.zero_min, Nat.sub_zero,
        Int.toNat_natCast]
      rw [if_neg hN0.ne', if_neg (by omega)]
    refine ⟨_, hrun, rfl, ?_, by rw [ho], ?_, rfl⟩
    · rw [ho, Int.toNat_natCast, ← cellsAt_ring s sb (by omega)]
      exact h.holds.read hwin (by omega) (by omega)
    · funext x
      simp [LogFs.ring]

/-! ## Runs of calls

One step lemma for the three calls, the induction over a run, and the instance for a freshly
formatted image, where the stream is what has been appended since the mount. -/

/-- A call on the log: an append by the kernel, an append through the file, or a read. -/
inductive LogCall
  | internalWrite (payload : List UInt8)
  | write (buf : List UInt8)
  | read (len : ℕ) (off : ℤ)

namespace LogCall

/-- What the callers guarantee: the kernel's payload is a nonempty string, and the VFS admits
    the read. -/
def Valid : LogCall → Prop
  | internalWrite payload => payload ≠ [] ∧ ∀ b ∈ payload, b ≠ 0
  | write _ => True
  | read len off => 0 ≤ off ∧ off < 2 ^ 63 ∧ 0 < len ∧ len ≤ maxRwCount

/-- The bytes a call adds to the stream. -/
def appended : LogCall → List UInt8
  | internalWrite payload => payload
  | write buf => buf
  | read _ _ => []

/-- The state after a call whose blocks can all be read and whose user copies do not fail. -/
def run (sb : SuperBlock) : LogCall → LogFs → Except Stop LogFs
  | internalWrite payload, s => internalLogfilefsWrite (fun _ => true) (payload ++ [0]) s
  | write buf, s => (logfilefsWrite (fun _ => true) (fun _ => 0) buf s).map WriteResult.fs
  | read len off, s => (onefilefsRead sb true 0 len off s).map ReadResult.fs

end LogCall

/-- The state after a sequence of calls. -/
def runCalls (sb : SuperBlock) : List LogCall → LogFs → Except Stop LogFs
  | [], s => .ok s
  | c :: cs, s => c.run sb s >>= runCalls sb cs

/-- The concatenation of all payloads. -/
def appendedBytes (calls : List LogCall) : List UInt8 := calls.flatMap LogCall.appended

/-- One call extends the stream by what it appends. -/
lemma StreamInv.call {s : LogFs} {sb : SuperBlock} {N : ℕ} {stream : List UInt8}
    (h : StreamInv s sb N stream) {c : LogCall} (hc : c.Valid)
    (htotal : stream.length + c.appended.length < 2 ^ 63) :
    ∃ s', c.run sb s = .ok s' ∧ StreamInv s' sb N (stream ++ c.appended) := by
  cases c with
  | internalWrite payload => exact internalLogfilefsWrite_appends h hc.1 hc.2 htotal
  | write buf =>
      obtain ⟨r, hrun, -, -, hinv⟩ := logfilefsWrite_appends h htotal
      exact ⟨r.fs, congrArg (Except.map WriteResult.fs) hrun, hinv⟩
  | read len off =>
      obtain ⟨r, hrun, -, -, -, hring, hfs⟩ :=
        onefilefsRead_slice h (by omega) hc.1 (show len ≤ maxRwCount from hc.2.2.2)
      refine ⟨r.fs, congrArg (Except.map ReadResult.fs) hrun, ?_⟩
      rw [LogCall.appended, List.append_nil]
      have hholds := h.holds
      rw [← hring] at hholds
      rw [hfs] at hholds ⊢
      exact ⟨⟨h.mounted, h.singleton, h.fileSize, h.size_pos, h.size_dvd, h.size_lt⟩, h.stop,
        h.start, hholds⟩

/-- A run extends the stream by everything it appends. -/
theorem StreamInv.runCalls {sb : SuperBlock} {N : ℕ} :
    ∀ (calls : List LogCall) (s : LogFs) (stream : List UInt8), StreamInv s sb N stream →
      (∀ c ∈ calls, c.Valid) → stream.length + (appendedBytes calls).length < 2 ^ 63 →
      ∃ s', runCalls sb calls s = .ok s' ∧ StreamInv s' sb N (stream ++ appendedBytes calls)
  | [], s, stream, h, _, _ => ⟨s, rfl, by simpa [appendedBytes] using h⟩
  | c :: cs, s, stream, h, hvalid, htotal => by
      have hsplit : appendedBytes (c :: cs) = c.appended ++ appendedBytes cs := by
        simp [appendedBytes]
      rw [hsplit, List.length_append] at htotal
      obtain ⟨s₁, hrun, h₁⟩ := h.call (hvalid c (by simp)) (by omega)
      obtain ⟨s₂, hruns, h₂⟩ := StreamInv.runCalls cs s₁ _ h₁
        (fun d hd => hvalid d (by simp [hd])) (by rw [List.length_append]; omega)
      refine ⟨s₂, ?_, ?_⟩
      · simp only [KLRM.runCalls, hrun, bind, Except.bind, hruns]
      · rw [hsplit, ← List.append_assoc]
        exact h₂

/-- A freshly mounted, empty log holds the empty stream. -/
lemma Mounted.streamInv {s : LogFs} {sb : SuperBlock} {N : ℕ} (h : Mounted s sb N)
    (hstart : s.circularBufferStart = 0) (hstop : s.circularBufferEnd = 0) :
    StreamInv s sb N [] :=
  ⟨h, by simpa using hstop, by simp [hstart], HoldsTail.nil N _⟩

/-- **The circular log is the tail of one byte stream.**  After any sequence of appends and reads
    on an empty image of `N` data bytes, the end pointer is the number of bytes appended, the
    start pointer is `N` behind it or `0`, and the next read, whatever its length and offset,
    returns the bytes of the concatenated payloads at the absolute positions it covers. -/
theorem circularLog_is_stream_tail {s₀ : LogFs} {sb : SuperBlock} {N : ℕ} (h : Mounted s₀ sb N)
    (hstart : s₀.circularBufferStart = 0) (hstop : s₀.circularBufferEnd = 0)
    (calls : List LogCall) (hvalid : ∀ c ∈ calls, c.Valid)
    (htotal : (appendedBytes calls).length < 2 ^ 63) :
    ∃ s, runCalls sb calls s₀ = .ok s ∧
      s.circularBufferEnd = (appendedBytes calls).length ∧
      s.circularBufferStart = max 0 (s.circularBufferEnd - N) ∧
      ∀ len off, (LogCall.read len off).Valid →
        ∃ r, onefilefsRead sb true 0 len off s = .ok r ∧
          r.ret = readCount s len off ∧ r.off = readFrom s off + readCount s len off ∧
          r.bytes.length = readCount s len off ∧
          r.bytes = ((appendedBytes calls).drop (readFrom s off).toNat).take
            (readCount s len off) := by
  obtain ⟨s, hrun, hinv⟩ := StreamInv.runCalls calls s₀ [] (h.streamInv hstart hstop) hvalid
    (by simpa using htotal)
  rw [List.nil_append] at hinv
  refine ⟨s, hrun, hinv.stop, by rw [hinv.start, hinv.stop], fun len off hread => ?_⟩
  obtain ⟨r, hr, hret, hbytes, hoff, -, -⟩ :=
    onefilefsRead_slice hinv htotal hread.1 (show len ≤ maxRwCount from hread.2.2.2)
  refine ⟨r, hr, hret, hoff, ?_, hbytes⟩
  have hcount : readCount s len off ≤ (appendedBytes calls).length - (readFrom s off).toNat := by
    have hfrom : 0 ≤ readFrom s off := le_max_of_le_left hread.1
    rw [readCount, hinv.stop]
    split_ifs <;> omega
  rw [hbytes, List.length_take, List.length_drop]
  omega

/-- An empty image of one data block. -/
def emptyImage : LogFs where
  mounted := 1
  singletonSb := some ⟨0, 0⟩
  sbLock := false
  fileSize := 4096
  circularBufferStart := 0
  circularBufferEnd := 0
  devs := fun _ => ⟨fun _ _ => 0, fun _ => none⟩

lemma emptyImage_mounted : Mounted emptyImage ⟨0, 0⟩ 4096 :=
  ⟨by decide, rfl, rfl, by norm_num, dvd_rfl, by norm_num⟩

/-- Two appends, one by the kernel and one through the file, and a read in between. -/
theorem circularLog_two_appends :
    ∃ s, runCalls ⟨0, 0⟩ [.internalWrite [72, 105], .read 10 0, .write [0, 33]] emptyImage = .ok s ∧
      s.circularBufferEnd = 4 ∧
      s.circularBufferStart = max 0 (s.circularBufferEnd - (4096 : ℕ)) ∧
      ∀ len off, (LogCall.read len off).Valid →
        ∃ r, onefilefsRead ⟨0, 0⟩ true 0 len off s = .ok r ∧
          r.ret = readCount s len off ∧ r.off = readFrom s off + readCount s len off ∧
          r.bytes.length = readCount s len off ∧
          r.bytes = (([72, 105, 0, 33] : List UInt8).drop (readFrom s off).toNat).take
            (readCount s len off) :=
  circularLog_is_stream_tail emptyImage_mounted rfl rfl
    [.internalWrite [72, 105], .read 10 0, .write [0, 33]]
    (by simp [LogCall.Valid, maxRwCount]) (by simp [appendedBytes, LogCall.appended])

end KLRM
