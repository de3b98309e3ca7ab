import FileKLRM.Core.Cursor
import FileKLRM.Core.Transition
import FileKLRM.LogFs.PartialAppend

/-!
# Files that are open on the log

Any number of open files, each with its own `f_pos`, and calls in any order: the kernel's appends,
writes through a file, and reads through a file whose block may be unreadable and whose user copy
may stop short.  The VFS hands `f_pos` to the call as `*off` and stores it back unless the call
fails; the operations have no `llseek`.

A file goes forward over the stream of all appended bytes as a cursor does
(`FileKLRM.Core.Cursor`): its reads deliver the bytes at its position, those that were overwritten
before it came are gone, and its own writes set it to the end.
-/

namespace KLRM

/-! ## The open files

`OpenLog` is the log with the positions of the files, and with the stream of all bytes appended so
far as a ghost; `fates` is what a sequence of calls has done to each byte of the stream, seen from
one file. -/

/-- The file system and `f_pos` of the open files, with the bytes that the calls have added to
    the log, which no code reads. -/
structure OpenLog where
  fs : LogFs
  pos : ℕ → ℤ
  stream : List UInt8

/-- A call: an append by the kernel, a write through a file, a read through a file. -/
inductive FileCall
  | internalWrite (breadOk : ℕ → Bool) (payload : List UInt8)
  | write (file : ℕ) (breadOk : ℕ → Bool) (uncopied : ℕ → ℕ) (buf : List UInt8)
  | read (file len : ℕ) (breadOk : Bool) (uncopied : ℕ)

namespace OpenLog

/-- The state after an append of which `fs` is what it leaves: the log is longer by what the end
    has moved. -/
def grow (s : OpenLog) (payload : List UInt8) (fs : LogFs) : OpenLog :=
  { s with fs := fs
           stream :=
             s.stream ++ payload.take (fs.circularBufferEnd - s.fs.circularBufferEnd).toNat }

/-- `f_pos` after a call that returned `ret` and left `off`. -/
def seek (s : OpenLog) (file : ℕ) (ret off : ℤ) : OpenLog :=
  if ret < 0 then s else { s with pos := Function.update s.pos file off }

/-- The call: the bytes that it delivers, and the state after it. -/
def next (sb : SuperBlock) (s : OpenLog) : FileCall → Except Stop (List UInt8 × OpenLog)
  | .internalWrite breadOk payload =>
      (internalLogfilefsWrite breadOk (payload ++ [0]) s.fs).map fun fs => ([], s.grow payload fs)
  | .write file breadOk uncopied buf =>
      (logfilefsWrite breadOk uncopied buf s.fs).map fun r =>
        ([], (s.grow buf r.fs).seek file r.ret r.off)
  | .read file len breadOk uncopied =>
      (onefilefsRead sb breadOk uncopied len (s.pos file) s.fs).map fun r =>
        (r.bytes, { s with fs := r.fs }.seek file r.ret r.off)

end OpenLog

/-- A call as it is seen through the files: what it delivered, and where the file was before it
    and after. -/
structure FileMove where
  call : FileCall
  bytes : List UInt8
  before : ℤ
  after : ℤ

namespace FileCall

/-- The file of the call. -/
def file : FileCall → Option ℕ
  | internalWrite .. => none
  | write file .. | read file .. => some file

/-- The call as an append. -/
def append : FileCall → Append
  | internalWrite breadOk payload => ⟨true, payload, breadOk, fun _ => 0⟩
  | write _ breadOk uncopied buf => ⟨false, buf, breadOk, uncopied⟩
  | read .. => ⟨false, [], fun _ => true, fun _ => 0⟩

/-- The kernel's payload is a C string, the VFS admits the read, and the log stays below `2 ^ 63`
    bytes; an append that breaks off does no harm to what can be read. -/
structure Fits (N : ℕ) (s : OpenLog) (c : FileCall) : Prop where
  valid : c.append.Valid
  total : s.stream.length + c.append.payload.length < 2 ^ 63
  keeps :
    KeepsTail N (s.stream ++ c.append.reported s.stream.length) (c.append.spill s.stream.length)
  admitted : ∀ file len breadOk uncopied, c = .read file len breadOk uncopied → len ≤ maxRwCount

end FileCall

/-- The step relation of the open files. -/
def OpenLog.Step (sb : SuperBlock) (s : OpenLog) (m : FileMove) (s' : OpenLog) : Prop :=
  s.next sb m.call = .ok (m.bytes, s') ∧
    ∀ file, m.call.file = some file → m.before = s.pos file ∧ m.after = s'.pos file

namespace FileMove

/-- What became of the bytes that the file has passed in a move. -/
def fates (file : ℕ) (m : FileMove) : List (Fate UInt8) :=
  if m.call.file ≠ some file then []
  else
    match m.call with
    | .read .. =>
        List.replicate (m.after - m.before - m.bytes.length).toNat .gone ++ m.bytes.map .delivered
    | .internalWrite .. | .write .. => List.replicate (m.after - m.before).toNat .jumped

/-- The bytes that a move delivers through the file. -/
def received (file : ℕ) (m : FileMove) : List UInt8 :=
  if m.call.file = some file then m.bytes else []

end FileMove

/-- What became of the bytes that the file has passed. -/
def fates (file : ℕ) (moves : List FileMove) : List (Fate UInt8) :=
  moves.flatMap (FileMove.fates file)

/-- The bytes that were delivered through the file. -/
def received (file : ℕ) (moves : List FileMove) : List UInt8 :=
  moves.flatMap (FileMove.received file)

/-- The call is a read through the file that gets as far as its bytes and has fallen behind the
    window. -/
def Overrun (N file : ℕ) (s : OpenLog) (m : FileMove) : Prop :=
  ∃ len uncopied, m.call = .read file len true uncopied ∧ s.pos file + N < s.stream.length

/-- The file has not fallen behind when it is read, and is not written through. -/
def KeepsUp (N file : ℕ) (s : OpenLog) (m : FileMove) : Prop :=
  ¬ Overrun N file s m ∧ ∀ breadOk uncopied buf, m.call ≠ .write file breadOk uncopied buf

/-! ## A read

`onefilefs_read` through the user copy, which may leave bytes uncopied: the file then moves by
what was copied only. -/

lemma take_cellsAt (cells : ℕ → UInt8) (pos : ℕ) {n k : ℕ} (h : k ≤ n) :
    (cellsAt cells pos n).take k = cellsAt cells pos k := by
  rw [cellsAt, ← List.map_take, List.take_range, min_eq_left h, cellsAt]

/-- A user copy that stops short: a shorter read. -/
lemma onefilefsRead_uncopied {sb : SuperBlock} {len : ℕ} {off : ℤ} {s : LogFs} {r : ReadResult}
    (h : onefilefsRead sb true 0 len off s = .ok r) (uncopied : ℕ) :
    ∃ got ≤ r.bytes.length, (uncopied = 0 → got = r.bytes.length) ∧
      onefilefsRead sb true uncopied len off s
        = .ok ⟨got, r.bytes.take got, r.off - r.bytes.length + got, r.fs⟩ := by
  simp only [onefilefsRead, Bool.not_true, Bool.false_eq_true, if_false, Nat.zero_min,
    Nat.sub_zero] at h ⊢
  generalize (if off < s.circularBufferStart then s.circularBufferStart else off) = o at h ⊢
  by_cases hpast : s.circularBufferEnd ≤ o
  · rw [if_pos hpast] at h ⊢
    obtain rfl := Except.ok.inj h
    exact ⟨0, le_rfl, fun _ => rfl, by simp⟩
  · rw [if_neg hpast] at h ⊢
    by_cases hsize : s.fileSize = 0
    · rw [if_pos hsize] at h
      cases h
    rw [if_neg hsize] at h ⊢
    set span := readSpan s.fileSize s.circularBufferEnd o len with hspan
    by_cases hneg : span.offset < 0
    · rw [if_pos hneg] at h
      cases h
    rw [if_neg hneg] at h ⊢
    obtain rfl := Except.ok.inj h
    refine ⟨span.len - min uncopied span.len, ?_, ?_, ?_⟩
    · rw [length_cellsAt]
      exact Nat.sub_le _ _
    · rintro rfl
      rw [length_cellsAt, Nat.zero_min, Nat.sub_zero]
    · simp only [length_cellsAt, take_cellsAt _ _ (Nat.sub_le span.len (min uncopied span.len)),
        add_sub_cancel_right]

/-- What a read of the log does to the file system. -/
lemma StreamInv.of_read {s s' : LogFs} {sb : SuperBlock} {N : ℕ} {stream : List UInt8}
    (h : StreamInv s sb N stream)
    (hring : s'.ring sb = s.ring sb) (hfs : s' = { s with devs := s'.devs }) :
    StreamInv s' sb N stream := by
  refine (h.stay_iff hfs).mpr ?_
  rw [hring]
  exact h.holds

/-- **A read through a file at position `p`**: it fails, or it passes the bytes that are gone and
    delivers the next `m`. -/
theorem StreamInv.read {s : LogFs} {sb : SuperBlock} {N : ℕ} {stream : List UInt8}
    (h : StreamInv s sb N stream)
    (hlen63 : stream.length < 2 ^ 63) {p len : ℕ} (hp : p ≤ stream.length) (hlen : len ≤ maxRwCount)
    (breadOk : Bool) (uncopied : ℕ) :
    ∃ r, onefilefsRead sb breadOk uncopied len p s = .ok r ∧ StreamInv r.fs sb N stream ∧
      (breadOk = false ∧ r.ret < 0 ∧ r.bytes = [] ∨
        ∃ k m, k = stream.length - N - p ∧ p + k + m ≤ stream.length ∧ 0 ≤ r.ret ∧
          (breadOk = false → k = 0) ∧
          r.bytes = (stream.drop (p + k)).take m ∧ r.off = (p + k + m : ℕ) ∧
          (breadOk = true → uncopied = 0 → 0 < len → (m = 0 ↔ p = stream.length))) := by
  have hN0 := h.size_pos
  have hfrom : readFrom s p = (p + (stream.length - N - p) : ℕ) := by
    rw [readFrom, h.start]
    omega
  cases breadOk with
  | false =>
      have hoff : (if (p : ℤ) < s.circularBufferStart then s.circularBufferStart else (p : ℤ))
          = readFrom s p := by
        unfold readFrom
        split_ifs <;> omega
      simp only [onefilefsRead, hoff, hfrom, h.stop, h.fileSize, if_neg hN0.ne',
        Bool.not_false, if_true]
      split_ifs with hpast
      · refine ⟨_, rfl, h, Or.inr ⟨_, 0, rfl, by omega, le_rfl, fun _ => by omega, by simp,
          rfl, by simp⟩⟩
      · refine ⟨_, rfl, h, Or.inl ⟨trivial, (by decide : -eio < 0), rfl⟩⟩
  | true =>
      obtain ⟨r, hrun, -, hbytes, hoff, hring, hfs⟩ :=
        onefilefsRead_slice h hlen63 (Int.natCast_nonneg p) hlen
      obtain ⟨got, hgot, hall, hrun'⟩ := onefilefsRead_uncopied hrun uncopied
      rw [hfrom, Int.toNat_natCast] at hbytes
      set k := stream.length - N - p with hk
      have hcount : readCount s len p ≤ stream.length - (p + k) := by
        rw [readCount, hfrom, h.stop]
        split_ifs <;> omega
      have hlength : r.bytes.length = readCount s len p := by
        rw [hbytes, List.length_take, List.length_drop]
        omega
      refine ⟨_, hrun', h.of_read hring hfs,
        Or.inr ⟨k, got, rfl, by omega, Int.natCast_nonneg got, by simp, ?_⟩⟩
      refine ⟨?_, ?_, ?_⟩
      · rw [hbytes, List.take_take, min_eq_left (by omega)]
      · rw [hoff, hfrom, hlength]
        push_cast
        omega
      · intro _ huncopied hpos
        rw [hall huncopied, hlength, readCount, hfrom, h.stop, Int.toNat_natCast]
        have hbs : defaultBlockSize = 4096 := rfl
        have hmod := Nat.mod_lt (p + k) (show 0 < defaultBlockSize by decide)
        split_ifs <;> omega

/-! ## An append

An append through a file sets its position to the end of the log, whatever it was before; the
bytes in between are skipped and were never delivered. -/

lemma Append.take_reported (c : Append) (L : ℕ) :
    c.payload.take (c.reported L).length = c.reported L := by
  have hprefix : c.reported L <+: c.payload := by
    rw [Append.reported]
    split_ifs
    · exact List.nil_prefix
    · exact List.take_prefix _ _
  exact (List.prefix_iff_eq_take.mp hprefix).symm

lemma logfilefsWrite_off {breadOk : ℕ → Bool} {uncopied : ℕ → ℕ} {buf : List UInt8} {s : LogFs}
    {r : WriteResult}
    (h : logfilefsWrite breadOk uncopied buf s = .ok r) : r.off = r.fs.circularBufferEnd := by
  simp only [logfilefsWrite, bind, Except.bind] at h
  split at h
  · cases h
  · rw [← Except.ok.inj h]

/-! ## One call

`Inv` ties the state to the stream and every file to a cursor on it.  `Goes` is what one call has
done: which file moved, how far, and which bytes it delivered or found gone. -/

namespace OpenLog

variable {s : OpenLog} {sb : SuperBlock} {N : ℕ} {past : ℕ → List (Fate UInt8)}

/-- The open files on a log that is in order, and what became of the bytes that each has passed. -/
structure Inv (sb : SuperBlock) (N : ℕ) (s : OpenLog) (past : ℕ → List (Fate UInt8)) : Prop where
  log : StreamInv s.fs sb N s.stream
  lt : s.stream.length < 2 ^ 63
  pos : ∀ file, s.pos file = (past file).length
  follows : ∀ file, Follows N s.stream (past file)

/-- What one call does: the files go on from where they were, and a file finds bytes gone exactly
    when it has fallen behind the window. -/
structure Goes (sb : SuperBlock) (N : ℕ) (s : OpenLog) (past : ℕ → List (Fate UInt8)) (m : FileMove)
    (s' : OpenLog) : Prop where
  inv : Inv sb N s' fun file => past file ++ m.fates file
  stream : s'.stream = s.stream ++ m.call.append.reported s.stream.length
  received : ∀ file, deliveries (m.fates file) = m.received file
  gone : ∀ file, Fate.gone ∈ m.fates file ↔ Overrun N file s m
  jumped : ∀ file, Fate.jumped ∈ m.fates file → ∃ breadOk uncopied buf,
    m.call = .write file breadOk uncopied buf
  drained : ∀ file len, m.call = .read file len true 0 → 0 < len →
    (m.bytes = [] ↔ s.pos file = s.stream.length)

lemma grow_stream (h : StreamInv s.fs sb N s.stream) {c : Append} {fs : LogFs}
    (h' : StreamInv fs sb N (s.stream ++ c.reported s.stream.length)) :
    (s.grow c.payload fs).stream = s.stream ++ c.reported s.stream.length := by
  have hlength : (fs.circularBufferEnd - s.fs.circularBufferEnd).toNat
      = (c.reported s.stream.length).length := by
    rw [h'.stop, h.stop, List.length_append]
    omega
  rw [grow, hlength, c.take_reported]

lemma reported_length_le (c : Append) (L : ℕ) : (c.reported L).length ≤ c.payload.length := by
  rw [← c.take_reported]
  exact List.length_take_le' _ _

/-- An append makes the stream longer. -/
lemma Inv.grow (h : Inv sb N s past) {c : Append} {fs : LogFs}
    (htotal : s.stream.length + c.payload.length < 2 ^ 63)
    (hlog : StreamInv fs sb N (s.stream ++ c.reported s.stream.length)) :
    Inv sb N (s.grow c.payload fs) past := by
  have hstream := grow_stream h.log hlog
  have hle := reported_length_le c s.stream.length
  refine ⟨hstream ▸ hlog, ?_, h.pos, fun file => hstream ▸ (h.follows file).extend _⟩
  rw [hstream, List.length_append]
  omega

/-- A file goes on. -/
lemma Inv.advance (h : Inv sb N s past) {file : ℕ} {off : ℤ} {more : List (Fate UInt8)}
    (hoff : off = (past file ++ more).length) (hfollows : Follows N s.stream (past file ++ more)) :
    Inv sb N { s with pos := Function.update s.pos file off } fun f => past f ++
    if f = file then more else [] where
  log := h.log
  lt := h.lt
  pos f := by
    by_cases hf : f = file
    · subst hf
      rw [if_pos rfl, ← hoff]
      exact Function.update_self f off s.pos
    · rw [if_neg hf, List.append_nil, ← h.pos]
      exact Function.update_of_ne hf off s.pos
  follows f := by
    by_cases hf : f = file
    · subst hf
      rw [if_pos rfl]
      exact hfollows
    · rw [if_neg hf, List.append_nil]
      exact h.follows f

lemma Inv.pos_le (h : Inv sb N s past) (file : ℕ) : s.pos file ≤ s.stream.length := by
  rw [h.pos]
  exact_mod_cast (h.follows file).length_le

/-- An append by the kernel. -/
lemma Inv.internalWrite (h : Inv sb N s past) {breadOk : ℕ → Bool} {payload : List UInt8}
    (hfits : (FileCall.internalWrite breadOk payload).Fits N s) :
    ∃ s', s.next sb (.internalWrite breadOk payload) = .ok ([], s') ∧
      s'.stream = s.stream ++ (FileCall.internalWrite breadOk payload).append.reported
        s.stream.length ∧ Inv sb N s' past := by
  obtain ⟨ret, fs, hrun, -, hkeeps⟩ := h.log.append hfits.valid hfits.total
  simp only [FileCall.append, Append.run, if_true] at hrun
  cases hwrite : internalLogfilefsWrite breadOk (payload ++ [0]) s.fs with
  | error e =>
      rw [hwrite] at hrun
      cases hrun
  | ok fs' =>
      rw [hwrite] at hrun
      cases hrun
      have hlog := hkeeps.mpr hfits.keeps
      exact ⟨s.grow payload fs, by simp only [next, hwrite, Except.map], grow_stream h.log hlog,
        h.grow hfits.total hlog⟩

/-- A write through a file sets it to the end. -/
lemma Inv.write (h : Inv sb N s past) {file : ℕ} {breadOk : ℕ → Bool} {uncopied : ℕ → ℕ}
    {buf : List UInt8} (hfits : (FileCall.write file breadOk uncopied buf).Fits N s) :
    ∃ s', s.next sb (.write file breadOk uncopied buf) = .ok ([], s') ∧
      s'.stream = s.stream ++ (FileCall.write file breadOk uncopied buf).append.reported
        s.stream.length ∧ Inv sb N s' fun f =>
          past f ++
            if f = file then List.replicate (s'.pos file - s.pos file).toNat Fate.jumped
            else [] := by
  obtain ⟨ret, fs, hrun, hret, hkeeps⟩ := h.log.append hfits.valid hfits.total
  have hlog := hkeeps.mpr hfits.keeps
  simp only [FileCall.append, Append.run, Bool.false_eq_true, if_false] at hrun
  cases hwrite : logfilefsWrite breadOk uncopied buf s.fs with
  | error e =>
      rw [hwrite] at hrun
      cases hrun
  | ok r =>
      rw [hwrite] at hrun
      cases hrun
      have hnonneg : ¬ r.ret < 0 := by
        have hlength := hret r.ret rfl
        omega
      have hgrow : Inv sb N (s.grow buf r.fs) past := h.grow hfits.total hlog
      have hoff : r.off = (s.grow buf r.fs).stream.length :=
        (logfilefsWrite_off hwrite).trans hgrow.log.stop
      have hle := hgrow.pos_le file
      have hpos : (s.grow buf r.fs).pos file = s.pos file := rfl
      rw [hpos, h.pos] at hle
      refine ⟨(s.grow buf r.fs).seek file r.ret r.off, by simp only [next, hwrite, Except.map], ?_⟩
      rw [seek, if_neg hnonneg]
      refine ⟨grow_stream h.log hlog, ?_⟩
      have hcount : (Function.update (s.grow buf r.fs).pos file r.off file - s.pos file).toNat
          = (s.grow buf r.fs).stream.length - (past file).length := by
        rw [Function.update_self, hoff, h.pos]
        omega
      simp only [hcount]
      refine hgrow.advance ?_ ((hgrow.follows file).jump (by omega))
      rw [hoff, List.length_append, List.length_replicate]
      omega

/-- A read through a file. -/
lemma Inv.read (h : Inv sb N s past) (file : ℕ) {len : ℕ} (hlen : len ≤ maxRwCount) (breadOk : Bool)
    (uncopied : ℕ) :
    ∃ bytes s', ∃ k : ℕ, s.next sb (.read file len breadOk uncopied) = .ok (bytes, s') ∧
      s'.pos file = s.pos file + k + bytes.length ∧
      (k ≠ 0 ↔ breadOk = true ∧ s.pos file + N < s.stream.length) ∧
      (breadOk = true → uncopied = 0 → 0 < len → (bytes = [] ↔ s.pos file = s.stream.length)) ∧
      s'.stream = s.stream ∧
      Inv sb N s' fun f =>
        past f ++ if f = file then List.replicate k Fate.gone ++
          bytes.map Fate.delivered else [] := by
  have hpos := h.pos file
  have hfollows := h.follows file
  obtain ⟨r, hrun, hlog, hcases⟩ := h.log.read h.lt hfollows.length_le hlen breadOk uncopied
  rw [← hpos] at hrun
  have hread : Inv sb N { s with fs := r.fs } past := ⟨hlog, h.lt, h.pos, h.follows⟩
  rcases hcases with ⟨hok, hret, hbytes⟩ | ⟨k, m, hk, hm, hret, hok, hbytes, hoff, hdrained⟩
  · refine ⟨r.bytes, { s with fs := r.fs }, 0,
      ?_, by simp [hbytes], by simp [hok], by simp [hok], rfl, ?_⟩
    · simp only [next, hrun, Except.map, seek, if_pos hret]
    · simpa [hbytes] using hread
  · have hlength : r.bytes.length = m := by
      rw [hbytes, List.length_take, List.length_drop]
      omega
    refine ⟨r.bytes, { s with fs := r.fs, pos := Function.update s.pos file r.off }, k, ?_, ?_,
      ?_, ?_, rfl, ?_⟩
    · simp only [next, hrun, Except.map, seek, if_neg (not_lt.mpr hret)]
    · simp only [Function.update_self, hoff, hlength, hpos]
      push_cast
      ring
    · rw [hpos]
      cases breadOk with
      | false => simpa using hok rfl
      | true =>
          simp only [true_and]
          omega
    · intro htrue hzero hpos'
      rw [← List.length_eq_zero_iff, hlength, hdrained htrue hzero hpos', hpos]
      exact_mod_cast Iff.rfl
    · have hmiss := hfollows.miss (k := k) (by omega)
      have hdeliver :=
        hmiss.deliver (m := m) (by rw [List.length_append, List.length_replicate]; exact hm)
      rw [List.length_append, List.length_replicate, ← hbytes, List.append_assoc] at hdeliver
      refine hread.advance ?_ hdeliver
      rw [hoff, List.length_append, List.length_append, List.length_replicate, List.length_map,
        hlength, Nat.add_assoc]

/-- **The step lemma.**  A call that fits returns, and the files go on. -/
theorem Inv.step (h : Inv sb N s past) {c : FileCall} (hfits : c.Fits N s) :
    ∃ bytes s', s.next sb c = .ok (bytes, s') ∧ ∀ m : FileMove, m.call = c → m.bytes = bytes →
      (∀ file, c.file = some file → m.before = s.pos file ∧ m.after = s'.pos file) →
      Goes sb N s past m s' := by
  cases c with
  | internalWrite breadOk payload =>
      obtain ⟨s', hnext, hstream, hinv⟩ := h.internalWrite hfits
      refine ⟨[], s', hnext, fun m hcall hbytes _ => ?_⟩
      have hnone : ∀ file, m.fates file = [] :=
        fun file => by simp [FileMove.fates, hcall, FileCall.file]
      refine ⟨?_, by rw [hcall, hstream], fun file => ?_, fun file => ?_, fun file hj => ?_,
        fun file len hread => ?_⟩
      · simpa [hnone] using hinv
      · simp [hnone, FileMove.received, hcall, FileCall.file, deliveries]
      · simp [hnone, Overrun, hcall]
      · simp [hnone] at hj
      · simp [hcall] at hread
  | write file breadOk uncopied buf =>
      obtain ⟨s', hnext, hstream, hinv⟩ := h.write hfits
      refine ⟨[], s', hnext, fun m hcall hbytes hends => ?_⟩
      obtain ⟨hbefore, hafter⟩ := hends file rfl
      have hfates : ∀ f, m.fates f
          = if f = file then List.replicate (s'.pos file - s.pos file).toNat .jumped else [] := by
        intro f
        by_cases hf : f = file
        · subst hf
          simp [FileMove.fates, hcall, FileCall.file, hbefore, hafter]
        · simp [FileMove.fates, hcall, FileCall.file, hf, Ne.symm hf]
      refine ⟨?_, by rw [hcall, hstream], fun f => ?_, fun f => ?_, fun f hj => ?_,
        fun f len hread => ?_⟩
      · simpa only [hfates] using hinv
      · rw [hfates, FileMove.received, hbytes, ite_self]
        split_ifs
        · exact deliveries_replicate rfl _
        · rfl
      · simp only [hfates, Overrun, hcall]
        split_ifs <;> simp
      · rw [hfates] at hj
        split_ifs at hj with hf
        · subst hf
          exact ⟨breadOk, uncopied, buf, hcall⟩
        · simp at hj
      · simp [hcall] at hread
  | read file len breadOk uncopied =>
      obtain ⟨bytes, s', k, hnext, hpos, hgone, hdrained, hstream, hinv⟩ :=
        h.read file (hfits.admitted file len breadOk uncopied rfl) breadOk uncopied
      refine ⟨bytes, s', hnext, fun m hcall hbytes hends => ?_⟩
      obtain ⟨hbefore, hafter⟩ := hends file rfl
      have hcount : (m.after - m.before - m.bytes.length).toNat = k := by
        rw [hafter, hbefore, hbytes, hpos]
        omega
      have hfates : ∀ f, m.fates f = if f = file then List.replicate k .gone ++
          bytes.map .delivered else [] := by
        intro f
        by_cases hf : f = file
        · subst hf
          simp only [FileMove.fates, hcall, FileCall.file, hcount, ne_eq, not_true_eq_false,
            if_false, if_true]
          rw [hbytes]
        · simp [FileMove.fates, hcall, FileCall.file, hf, Ne.symm hf]
      have hnothing : m.call.append.reported s.stream.length = [] := by
        simp [hcall, FileCall.append, Append.reported]
      refine ⟨?_, by rw [hnothing, hstream, List.append_nil], fun f => ?_, fun f => ?_,
        fun f hj => ?_,
        fun f len' hread hlen' => ?_⟩
      · simpa only [hfates] using hinv
      · by_cases hf : f = file
        · subst hf
          rw [hfates, if_pos rfl, deliveries_append, deliveries_replicate rfl, deliveries_delivered,
            List.nil_append, FileMove.received, hcall, FileCall.file, if_pos rfl, hbytes]
        · rw [hfates, if_neg hf, FileMove.received, hcall, FileCall.file,
            if_neg (by simpa using Ne.symm hf)]
          rfl
      · by_cases hf : f = file
        · subst hf
          simp only [hfates, if_true, List.mem_append, List.mem_replicate, List.mem_map,
            Overrun, hcall]
          constructor
          · rintro (⟨hk, -⟩ | ⟨b, -, hb⟩)
            · obtain ⟨rfl, hlag⟩ := hgone.mp hk
              exact ⟨len, uncopied, rfl, hlag⟩
            · cases hb
          · rintro ⟨len', uncopied', heq, hlag⟩
            cases heq
            exact Or.inl ⟨hgone.mpr ⟨rfl, hlag⟩, trivial⟩
        · simp [hfates, hf, Overrun, hcall, Ne.symm hf]
      · rw [hfates] at hj
        split_ifs at hj <;> simp at hj
      · rw [hcall] at hread
        cases hread
        rw [hbytes]
        exact hdrained rfl rfl hlen'

/-! ## Runs

The accounts of a file over a whole run: each byte that it has passed has exactly one fate, and
what was delivered is a subsequence of the stream. -/

/-- A run of calls that fit. -/
def Calls (sb : SuperBlock) (N : ℕ) : OpenLog → List FileMove → OpenLog → Prop :=
  Run (When (fun s m => m.call.Fits N s) (Step sb))

/-- A step of a run is the one call. -/
lemma Inv.goes (h : Inv sb N s past) {m : FileMove} {s' : OpenLog}
    (hstep : When (fun s m => m.call.Fits N s) (Step sb) s m s') : Goes sb N s past m s' := by
  obtain ⟨hfits, hnext, hends⟩ := hstep
  obtain ⟨bytes, t, hnext', hgoes⟩ := h.step hfits
  rw [hnext] at hnext'
  obtain ⟨rfl, rfl⟩ := Prod.mk.inj (Except.ok.inj hnext')
  exact hgoes m rfl rfl hends

/-- **The run lemma.** -/
theorem Inv.run {moves : List FileMove} {t : OpenLog} (hrun : Calls sb N s moves t) :
    ∀ {past : ℕ → List (Fate UInt8)}, Inv sb N s past → Inv sb N t fun file => past file ++
    fates file moves := by
  induction hrun with
  | nil s =>
      intro past h
      simpa [fates] using h
  | cons head tail ih =>
      intro past h
      have hrest := ih (h.goes head).inv
      simpa only [fates, List.flatMap_cons, List.append_assoc] using hrest

/-- So is every step of it. -/
lemma Inv.each {moves : List FileMove} {t : OpenLog} (hrun : Calls sb N s moves t) :
    ∀ {past : ℕ → List (Fate UInt8)}, Inv sb N s past → ∀ m ∈ moves, ∃ u before u',
    Goes sb N u before m u' := by
  induction hrun with
  | nil s => exact fun _ m hm => absurd hm (by simp)
  | @cons s t u m moves head tail ih =>
      intro past h m' hm'
      have hgoes := h.goes head
      rcases List.mem_cons.mp hm' with rfl | hm'
      · exact ⟨s, past, t, hgoes⟩
      · exact ih hgoes.inv m' hm'

/-- What was delivered over a run. -/
lemma Inv.received (h : Inv sb N s past) {moves : List FileMove} {t : OpenLog}
    (hrun : Calls sb N s moves t)
    (file : ℕ) : deliveries (fates file moves) = KLRM.received file moves := by
  rw [deliveries, fates, List.filterMap_flatMap, KLRM.received]
  refine List.flatMap_congr fun m hm => ?_
  obtain ⟨u, before, u', hgoes⟩ := h.each hrun m hm
  exact hgoes.received file

/-- A file that keeps up gets all that it passes. -/
lemma Inv.keptUp {file : ℕ} {moves : List FileMove} {t : OpenLog}
    (hrun : Run (When (KeepsUp N file) (When (fun s m => m.call.Fits N s) (Step sb))) s moves t) :
    ∀ {past : ℕ → List (Fate UInt8)}, Inv sb N s past → ∀ fate ∈ fates file moves,
    fate.element ≠ none := by
  induction hrun with
  | nil s => exact fun _ fate hfate => absurd hfate (by simp [fates])
  | cons head tail ih =>
      intro past h fate hfate
      obtain ⟨⟨hinside, hreads⟩, hstep⟩ := head
      have hgoes := h.goes hstep
      rw [fates, List.flatMap_cons, List.mem_append] at hfate
      rcases hfate with hfate | hfate
      · cases fate with
        | delivered b => simp [Fate.element]
        | gone => exact absurd ((hgoes.gone file).mp hfate) hinside
        | jumped =>
            obtain ⟨breadOk, uncopied, buf, hwrite⟩ := hgoes.jumped file hfate
            exact absurd hwrite (hreads breadOk uncopied buf)
      · exact ih hgoes.inv fate hfate

/-- A read always fits. -/
lemma Inv.fits_read (h : Inv sb N s past) {len : ℕ} (hlen : len ≤ maxRwCount) (file : ℕ)
    (breadOk : Bool) (uncopied : ℕ) : (FileCall.read file len breadOk uncopied).Fits N s where
  valid hkernel := Bool.noConfusion hkernel
  total := h.lt
  keeps := .nil _ _
  admitted file' len' breadOk' uncopied' heq := by
    cases heq
    exact hlen

/-- So does an append by the kernel whose blocks can all be read. -/
lemma fits_internalWrite (payload : List UInt8) (hstring : ∀ b ∈ payload, b ≠ 0)
    (htotal : s.stream.length + payload.length < 2 ^ 63) :
    (FileCall.internalWrite (fun _ => true) payload).Fits N s where
  valid _ := hstring
  total := htotal
  keeps := by
    rw [Append.spill_whole (fun _ => rfl) (fun _ => rfl)]
    exact .nil _ _
  admitted := by simp

/-- A call that fits can be made. -/
lemma Inv.call (h : Inv sb N s past) {c : FileCall} (hfits : c.Fits N s) :
    ∃ m s', m.call = c ∧ When (fun s m => m.call.Fits N s) (Step sb) s m s' := by
  obtain ⟨bytes, s', hnext, -⟩ := h.step hfits
  refine ⟨⟨c, bytes, c.file.elim 0 s.pos, c.file.elim 0 s'.pos⟩, s', rfl, hfits, hnext,
    fun file hfile => ?_⟩
  simp only at hfile
  simp [hfile]

/-- No file has been used yet. -/
lemma Inv.fresh (hlog : StreamInv s.fs sb N s.stream) (hlt : s.stream.length < 2 ^ 63)
    (hpos : ∀ file, s.pos file = 0) : Inv sb N s fun _ => [] :=
  ⟨hlog, hlt, hpos, fun _ => .nil _ _⟩

end OpenLog

/-- A file accounts for every byte that it has passed: its position counts them, each was
    delivered or gone or jumped over, rightly so, and a move finds bytes gone exactly when the
    file has fallen behind the window. -/
structure FileAccounts (sb : SuperBlock) (N : ℕ) (s₀ : OpenLog) (moves : List FileMove)
    (s : OpenLog) (file : ℕ) : Prop where
  pos : s.pos file = (fates file moves).length
  follows : Follows N s.stream (fates file moves)
  received : deliveries (fates file moves) = received file moves
  gone : ∀ done m rest, moves = done ++ m :: rest →
    ∃ u, OpenLog.Calls sb N s₀ done u ∧ (Fate.gone ∈ m.fates file ↔ Overrun N file u m)

/-- **Every open file reads the log in order, each byte at most once, and misses only what was
    overwritten.**  From a log in order, with any number of files at its beginning, after any
    calls: the fates of the bytes that a file has passed are right, what was delivered through it
    are the delivered ones, and bytes are gone at a read exactly when more than the window was
    appended behind the file's position. -/
theorem openFiles_account {sb : SuperBlock} {N : ℕ} {s₀ s : OpenLog} {moves : List FileMove}
    (hlog : StreamInv s₀.fs sb N s₀.stream) (hlt : s₀.stream.length < 2 ^ 63)
    (hpos : ∀ file, s₀.pos file = 0) (hrun : OpenLog.Calls sb N s₀ moves s) (file : ℕ) :
    FileAccounts sb N s₀ moves s file := by
  have hstart := OpenLog.Inv.fresh hlog hlt hpos
  have hinv : OpenLog.Inv sb N s fun file => fates file moves := by simpa using hstart.run hrun
  refine ⟨hinv.pos file, hinv.follows file, hstart.received hrun file, ?_⟩
  · intro done m rest hsplit
    subst hsplit
    obtain ⟨u, hdone, htail⟩ := Run.append_iff.mp hrun
    cases htail with
    | cons head _ => exact ⟨u, hdone, ((hstart.run hdone).goes head).gone file⟩

/-! ## Two files

One file that keeps up and one that is overrun by an append of nearly a whole block, in the same
run. -/

/-- Two bytes are appended and read through file `0`, then 4095 more are appended, and file `1`
    and again file `0` are read. -/
def twoFileCalls : List FileCall :=
  [.internalWrite (fun _ => true) [72, 105], .read 0 10 true 0,
    .internalWrite (fun _ => true) (List.replicate 4095 88), .read 1 10 true 0, .read 0 10 true 0]

/-- The kernel's appends go through no file. -/
lemma FileCall.file_internalWrite_ne {breadOk : ℕ → Bool} {payload : List UInt8} (file : ℕ) :
    (FileCall.internalWrite breadOk payload).file ≠ some file := (Option.some_ne_none file).symm

lemma FileMove.fates_of_ne {file : ℕ} {m : FileMove} (h : m.call.file ≠ some file) : m.fates file
    = [] := if_pos h

lemma KeepsUp.of_ne {N file : ℕ} {s : OpenLog} {m : FileMove} (h : m.call.file ≠ some file) :
    KeepsUp N file s m := by
  constructor
  · rintro ⟨len, uncopied, hcall, -⟩
    exact h (by rw [hcall]; rfl)
  · intro breadOk uncopied buf hcall
    exact h (by rw [hcall]; rfl)

/-- On a log of 4096 bytes file `1` is overrun then, and file `0` is not. -/
lemma run_twoFiles : ∃ moves s, moves.map FileMove.call = twoFileCalls ∧
    Run (When (KeepsUp 4096 0) (When (fun s m => m.call.Fits 4096 s) (OpenLog.Step ⟨0, 0⟩)))
      ⟨emptyImage, fun _ => 0, []⟩ moves s ∧
    Fate.gone ∈ fates 1 moves := by
  have hlen : 10 ≤ maxRwCount := by norm_num [maxRwCount]
  have hstart := OpenLog.Inv.fresh (s := ⟨emptyImage, fun _ => 0, []⟩)
    (emptyImage_mounted.streamInv rfl rfl) (by simp) (fun _ => rfl)
  -- two bytes, of which file `0` reads at least one
  obtain ⟨m₁, s₁, hcall₁, hstep₁⟩ := hstart.call
    (OpenLog.fits_internalWrite [72, 105] (by simp) (by simp))
  have hgoes₁ := hstart.goes hstep₁
  have hfates₁ : ∀ file, m₁.fates file = [] := fun file =>
    FileMove.fates_of_ne (hcall₁ ▸ FileCall.file_internalWrite_ne file)
  have hstream₁ : s₁.stream.length = 2 := by
    rw [hgoes₁.stream, hcall₁]
    rfl
  obtain ⟨m₂, s₂, hcall₂, hstep₂⟩ := hgoes₁.inv.call (hgoes₁.inv.fits_read hlen 0 true 0)
  have hgoes₂ := hgoes₁.inv.goes hstep₂
  have hstream₂ : s₂.stream.length = 2 := by
    rw [hgoes₂.stream, hcall₂, List.length_append, hstream₁]
    rfl
  have hsome₂ : 0 < (m₂.fates 0).length := by
    refine List.length_pos_iff.mpr fun hnil => ?_
    have hreceived := hgoes₂.received 0
    rw [hnil, FileMove.received, hcall₂, FileCall.file, if_pos rfl] at hreceived
    have hend := (hgoes₂.drained 0 10 hcall₂ (by norm_num)).mp hreceived.symm
    rw [hgoes₁.inv.pos, hfates₁, hstream₁] at hend
    simp at hend
  have hfates₂ : m₂.fates 1 = [] := FileMove.fates_of_ne (by rw [hcall₂]; simp [FileCall.file])
  -- file `1` falls behind
  obtain ⟨m₃, s₃, hcall₃, hstep₃⟩ :=
    hgoes₂.inv.call (OpenLog.fits_internalWrite (List.replicate 4095 88)
      (fun b hb => by rw [List.eq_of_mem_replicate hb]; decide)
    (by rw [hstream₂, List.length_replicate]; norm_num))
  have hgoes₃ := hgoes₂.inv.goes hstep₃
  have hfates₃ : ∀ file, m₃.fates file = [] := fun file =>
    FileMove.fates_of_ne (hcall₃ ▸ FileCall.file_internalWrite_ne file)
  have hstream₃ : s₃.stream.length = 4097 := by
    rw [hgoes₃.stream, hcall₃, Append.reported_whole (fun _ => rfl) (fun _ => rfl),
      List.length_append, hstream₂]
    rw [FileCall.append, List.length_replicate]
  obtain ⟨m₄, s₄, hcall₄, hstep₄⟩ := hgoes₃.inv.call (hgoes₃.inv.fits_read hlen 1 true 0)
  have hgoes₄ := hgoes₃.inv.goes hstep₄
  have hgone : Fate.gone ∈ m₄.fates 1 := by
    refine (hgoes₄.gone 1).mpr ⟨10, 0, hcall₄, ?_⟩
    rw [hgoes₃.inv.pos, hfates₁, hfates₂, hfates₃, hstream₃]
    norm_num
  have hstream₄ : s₄.stream.length = 4097 := by
    rw [hgoes₄.stream, hcall₄, List.length_append, hstream₃]
    rfl
  obtain ⟨m₅, s₅, hcall₅, hstep₅⟩ := hgoes₄.inv.call (hgoes₄.inv.fits_read hlen 0 true 0)
  have hkeeps : ∀ {s : OpenLog} {m : FileMove}, m.call = .read 0 10 true 0 →
      s.stream.length ≤ s.pos 0 + 4096 → KeepsUp 4096 0 s m := by
    intro s m hcall hle
    refine ⟨?_, fun breadOk uncopied buf hwrite => ?_⟩
    · rintro ⟨len, uncopied, -, hlag⟩
      exact absurd hle (not_le.mpr (by exact_mod_cast hlag))
    · rw [hcall] at hwrite
      cases hwrite
  have hcalls : [m₁, m₂, m₃, m₄, m₅].map FileMove.call = twoFileCalls := by
    rw [List.map_cons, List.map_cons, List.map_cons, List.map_cons, List.map_cons, hcall₁, hcall₂,
      hcall₃, hcall₄, hcall₅]
    rfl
  refine ⟨[m₁, m₂, m₃, m₄, m₅], s₅, hcalls,
    .cons ⟨.of_ne (hcall₁ ▸ FileCall.file_internalWrite_ne 0), hstep₁⟩ <|
    .cons ⟨hkeeps hcall₂ ?_, hstep₂⟩ <|
    .cons ⟨.of_ne (hcall₃ ▸ FileCall.file_internalWrite_ne 0), hstep₃⟩ <|
    .cons ⟨.of_ne (by rw [hcall₄]; simp [FileCall.file]), hstep₄⟩ <|
    .cons ⟨hkeeps hcall₅ ?_, hstep₅⟩ <| .nil _, List.mem_flatMap.mpr ⟨m₄, by simp, hgone⟩⟩
  · rw [hgoes₁.inv.pos, hstream₁]
    omega
  · rw [hgoes₄.inv.pos, hstream₄]
    simp only [List.length_append]
    omega

/-- The two files account for every byte, though one of them has missed some. -/
theorem openFiles_account_overrun : ∃ moves s, moves.map FileMove.call = twoFileCalls ∧
    FileAccounts ⟨0, 0⟩ 4096 ⟨emptyImage, fun _ => 0, []⟩ moves s 0 ∧
    FileAccounts ⟨0, 0⟩ 4096 ⟨emptyImage, fun _ => 0, []⟩ moves s 1 ∧
    Fate.gone ∈ fates 1 moves := by
  obtain ⟨moves, s, hcalls, hrun, hgone⟩ := run_twoFiles
  have hlog : StreamInv emptyImage ⟨0, 0⟩ 4096 [] := emptyImage_mounted.streamInv rfl rfl
  have haccounts : ∀ file, FileAccounts ⟨0, 0⟩ 4096 ⟨emptyImage, fun _ => 0, []⟩ moves s file :=
    openFiles_account hlog (by simp) (fun _ => rfl) (hrun.mono fun _ _ _ h => h.2)
  exact ⟨moves, s, hcalls, haccounts 0, haccounts 1, hgone⟩

/-- **A reader that keeps up reads the whole log.**  If a file is only read, and whenever it is
    read at most the window has been appended behind its position, then what was delivered
    through it is the stream up to its position, and the next full read delivers nothing exactly
    when that was all of it. -/
theorem keptUp_receives_all {sb : SuperBlock} {N : ℕ} {s₀ s : OpenLog} {moves : List FileMove}
    {file : ℕ}
    (hlog : StreamInv s₀.fs sb N s₀.stream) (hlt : s₀.stream.length < 2 ^ 63)
    (hpos : ∀ file, s₀.pos file = 0)
    (hrun : Run (When (KeepsUp N file) (When (fun s m => m.call.Fits N s) (OpenLog.Step sb)))
      s₀ moves s) :
    received file moves = s.stream.take (s.pos file).toNat ∧
      ∀ len, 0 < len → len ≤ maxRwCount → ∃ bytes s',
        s.next sb (.read file len true 0) = .ok (bytes, s') ∧
        (bytes = [] ↔ received file moves = s.stream) := by
  have hstart := OpenLog.Inv.fresh hlog hlt hpos
  have hcalls : OpenLog.Calls sb N s₀ moves s := hrun.mono fun _ _ _ h => h.2
  have hinv : OpenLog.Inv sb N s fun file => fates file moves := by simpa using hstart.run hcalls
  have hreceived : received file moves = s.stream.take (s.pos file).toNat := by
    rw [← hstart.received hcalls file, (hinv.follows file).deliveries_eq (hstart.keptUp hrun),
      hinv.pos file, Int.toNat_natCast]
  refine ⟨hreceived, fun len hpos hlen => ?_⟩
  obtain ⟨bytes, s', hnext, hgoes⟩ := hinv.step (hinv.fits_read hlen file true 0)
  refine ⟨bytes, s', hnext, ?_⟩
  have hdrained := (hgoes ⟨.read file len true 0, bytes, s.pos file, s'.pos file⟩ rfl rfl (by
    intro f hf
    cases hf
    exact ⟨rfl, rfl⟩)).drained file len rfl hpos
  rw [hdrained, hreceived, List.take_eq_self_iff, hinv.pos file]
  have hle := (hinv.follows file).length_le
  omega

/-- File `0` has missed nothing, though file `1` has. -/
theorem keptUp_receives_overrun : ∃ (moves : List FileMove) (s : OpenLog),
    moves.map FileMove.call = twoFileCalls ∧ Fate.gone ∈ fates 1 moves ∧
      received 0 moves = s.stream.take (s.pos 0).toNat ∧
      ∀ len, 0 < len → len ≤ maxRwCount → ∃ bytes s',
        s.next ⟨0, 0⟩ (.read 0 len true 0) = .ok (bytes, s') ∧
        (bytes = [] ↔ received 0 moves = s.stream) := by
  obtain ⟨moves, s, hcalls, hrun, hgone⟩ := run_twoFiles
  have hlog : StreamInv emptyImage ⟨0, 0⟩ 4096 [] := emptyImage_mounted.streamInv rfl rfl
  exact ⟨moves, s, hcalls, hgone, keptUp_receives_all hlog (by simp) (fun _ => rfl) hrun⟩

end KLRM
