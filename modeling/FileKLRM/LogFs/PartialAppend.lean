import FileKLRM.LogFs.StreamRefinement

/-!
# Appends that break off

The writers store the data blocks before they move the bounds.  When a block cannot be read or a
user page cannot be copied, `logfilefs_write` moves the bounds by what it has copied and leaves
the zeros with which `copy_from_user` fills the rest of the piece; `internal_logfilefs_write`
leaves every piece it has stored and moves nothing.  What lies behind the end is then in cells
that are free, or still hold the oldest bytes of the log (`Append.spill`), and the log is unharmed
exactly when it does not differ from them.
-/

namespace KLRM

open LogFs

/-- How many bytes of a payload that starts at position `L` come before its piece number `k`: all
    pieces but the first begin with a block. -/
def blockCut (L k : ℕ) : ℕ := defaultBlockSize * k - L % defaultBlockSize

lemma blockCut_zero (L : ℕ) : blockCut L 0 = 0 := by simp [blockCut]

lemma le_blockCut (L k : ℕ) : k ≤ blockCut L k := by
  have : L % defaultBlockSize < defaultBlockSize := Nat.mod_lt _ (by decide)
  cases k with
  | zero => exact Nat.zero_le _
  | succ k =>
      simp only [blockCut, defaultBlockSize] at this ⊢
      omega

lemma blockCut_mono (L : ℕ) {j k : ℕ} (h : j ≤ k) : blockCut L j ≤ blockCut L k :=
  Nat.sub_le_sub_right (Nat.mul_le_mul_left _ h) _

/-- The loop's piece number `k` ends where the next one begins, or with the payload. -/
lemma piece_end {L N len k : ℕ} (hdvd : defaultBlockSize ∣ N) (hk : blockCut L k ≤ len) :
    min (len - blockCut L k) (defaultBlockSize - (L + blockCut L k) % N % defaultBlockSize)
      = min len (blockCut L (k + 1)) - blockCut L k := by
  have hlt : L % defaultBlockSize < defaultBlockSize := Nat.mod_lt _ (by decide)
  have hdiv := Nat.div_add_mod L defaultBlockSize
  rw [Nat.mod_mod_of_dvd _ hdvd]
  cases k with
  | zero =>
      rw [blockCut_zero, Nat.add_zero]
      simp only [blockCut, defaultBlockSize] at hlt ⊢
      omega
  | succ k =>
      have hsum : L + blockCut L (k + 1) = defaultBlockSize * (L / defaultBlockSize + (k + 1)) := by
        rw [Nat.mul_add]
        simp only [blockCut, defaultBlockSize] at hlt hdiv ⊢
        omega
      rw [hsum, Nat.mul_mod_right]
      simp only [blockCut, defaultBlockSize] at hlt hk ⊢
      omega

/-! ## Appends

`Append` is one call of either writer with what the kernel answers to it.  `Append.reported` is by
how much the bounds move, `Append.laid` what lies in the cells, and `Append.spill` the part of it
behind the end. -/

/-- An append by the kernel or through the file, with what the kernel decides: which blocks can
    be read, and how many bytes each user copy leaves. -/
structure Append where
  kernel : Bool
  payload : List UInt8
  breadOk : ℕ → Bool
  uncopied : ℕ → ℕ

namespace Append

/-- What the copy of piece `k` leaves; the kernel's writer copies with `memcpy`. -/
def left (c : Append) (k : ℕ) : ℕ := if c.kernel then 0 else c.uncopied k

/-- The append breaks off at piece `k`, if it gets there. -/
def breaks (c : Append) (L k : ℕ) : Bool :=
  blockCut L k < c.payload.length && (!c.breadOk k || c.left k ≠ 0)

/-- The piece at which an append that starts at position `L` breaks off. -/
def fault (c : Append) (L : ℕ) : Option ℕ := (List.range c.payload.length).find? (c.breaks L)

/-- The zeros in place of bytes that could not be copied. -/
def zeros (c : Append) (L : ℕ) : Option ℕ → ℕ
  | none => 0
  | some k =>
      if c.breadOk k then
        min (c.left k) (min c.payload.length (blockCut L (k + 1)) - blockCut L k)
      else 0

/-- The bytes of the payload that were copied. -/
def copied (c : Append) (L : ℕ) : Option ℕ → ℕ
  | none => c.payload.length
  | some k =>
      if c.breadOk k then min c.payload.length (blockCut L (k + 1)) - c.zeros L (some k)
        else blockCut L k

/-- What was stored. -/
def laid (c : Append) (L : ℕ) (fault : Option ℕ) : List UInt8 :=
  c.payload.take (c.copied L fault) ++ List.replicate (c.zeros L fault) 0

/-- The bytes by which the log should be longer: nothing when the kernel's writer breaks off,
    what was copied otherwise. -/
def reported (c : Append) (L : ℕ) : List UInt8 :=
  if c.kernel && (c.fault L).isSome then [] else c.payload.take (c.copied L (c.fault L))

/-- What was stored behind these. -/
def spill (c : Append) (L : ℕ) : List UInt8 := (c.laid L (c.fault L)).drop (c.reported L).length

/-- The kernel's payload is a C string. -/
def Valid (c : Append) : Prop := c.kernel = true → ∀ b ∈ c.payload, b ≠ 0

/-- The call: what it returns, if anything, and the state after it. -/
def run (c : Append) (s : LogFs) : Except Stop (Option ℤ × LogFs) :=
  if c.kernel then (internalLogfilefsWrite c.breadOk (c.payload ++ [0]) s).map fun s => (none, s)
  else (logfilefsWrite c.breadOk c.uncopied c.payload s).map fun r => (some r.ret, r.fs)

variable {c : Append} {L : ℕ}

lemma copied_le (c : Append) (L : ℕ)
    (hfault : ∀ k, c.fault L = some k → blockCut L k < c.payload.length) :
    c.copied L (c.fault L) ≤ c.payload.length := by
  cases h : c.fault L with
  | none => exact le_rfl
  | some k =>
      simp only [copied]
      split_ifs
      · omega
      · exact (hfault k h).le

lemma fault_lt {k : ℕ} (h : c.fault L = some k) : blockCut L k < c.payload.length := by
  have hbreaks := List.find?_some h
  simp only [breaks, Bool.and_eq_true, decide_eq_true_eq] at hbreaks
  exact hbreaks.1

lemma length_reported (c : Append) (L : ℕ) :
    (c.reported L).length = if c.kernel && (c.fault L).isSome then 0 else c.copied L
    (c.fault L) := by
  rw [reported]
  split_ifs
  · rfl
  · rw [List.length_take, min_eq_left (c.copied_le L fun k => fault_lt)]

/-- What was stored begins with what is reported. -/
lemma reported_append_spill (c : Append) (L : ℕ) :
    c.reported L ++ c.spill L = c.laid L (c.fault L) := by
  have htake : (c.laid L (c.fault L)).take (c.reported L).length = c.reported L := by
    rw [length_reported, reported, laid]
    split_ifs
    · rfl
    · rw [List.take_append_of_le_length, List.take_take, min_self]
      rw [List.length_take, min_eq_left (c.copied_le L fun k => fault_lt)]
  conv_lhs => rw [← htake]
  exact List.take_append_drop _ _

end Append

/-! ## The block loop

The loop up to the round in which it breaks off; the rounds before are those of a whole append. -/

section Loop

variable {sb : SuperBlock} {base : List UInt8} {N : ℕ}

/-- The loop from piece `i` on, up to the first piece at which it breaks off. -/
lemma copyLoop_laid (c : Append) (rest : List UInt8) (hN0 : 0 < N) (hdvd : defaultBlockSize ∣ N)
    (hN : N < 2 ^ 63)
    (htotal : base.length + c.payload.length < 2 ^ 63) : ∀ (n fuel i : ℕ) (s : LogFs),
    i + n = c.payload.length → n < fuel → blockCut base.length i < c.payload.length →
    s.fileSize = N → s.singletonSb = some sb →
    HoldsTail N (s.ring sb) (base ++ c.payload.take (blockCut base.length i)) →
    ∃ s', HoldsTail N (s'.ring sb)
        (base ++ c.laid base.length ((List.range' i n).find? (c.breaks base.length))) ∧
      copyLoop c.breadOk c.left (c.payload ++ rest) c.payload.length base.length fuel i
        (blockCut base.length i) s
        = .ok ⟨c.copied base.length ((List.range' i n).find? (c.breaks base.length)),
            ((List.range' i n).find? (c.breaks base.length)).isNone, s'⟩
  | 0, _, i, _, hi, _, hcut, _, _, _ => by
      have := le_blockCut base.length i
      omega
  | n + 1, 0, _, _, _, hfuel, _, _, _, _ => absurd hfuel (by omega)
  | n + 1, fuel + 1, i, s, hi, hfuel, hcut, hfs, hsb, hring => by
      rw [List.range'_succ, List.find?_cons]
      cases hbread : c.breadOk i with
      | false =>
          have hbreaks : c.breaks base.length i = true := by simp [Append.breaks, hcut, hbread]
          rw [hbreaks]
          refine ⟨s, ?_, ?_⟩
          · simpa [Append.laid, Append.copied, Append.zeros, hbread] using hring
          · rw [copyLoop_unread (by omega) hsb hbread]
            simp [Append.copied, hbread]
      | true =>
          have htake : ∀ x ≤ c.payload.length, (c.payload ++ rest).take x = c.payload.take x :=
            fun x hx =>
            List.take_append_of_le_length hx
          have hsrc : c.payload.length ≤ (c.payload ++ rest).length := by simp
          have hring' : HoldsTail N (s.ring sb)
              (base ++ (c.payload ++ rest).take (blockCut base.length i)) := by
            rwa [htake _ hcut.le]
          have hend := piece_end hdvd hcut.le
          obtain ⟨s', hfs', hsb', hnext, hrun⟩ :=
            copyLoop_piece c.breadOk c.left hsrc (by omega) hN0 hdvd hN
            (by omega) hbread hend.symm rfl hcut.le hfs hsb hring' fuel
          set m :=
            min c.payload.length (blockCut base.length (i + 1)) - blockCut base.length i with hm
          have hcutlt : blockCut base.length i < blockCut base.length (i + 1) := by
            have : base.length % defaultBlockSize < defaultBlockSize := Nat.mod_lt _ (by decide)
            simp only [blockCut, defaultBlockSize] at this ⊢
            omega
          rw [htake _ (by omega)] at hnext
          by_cases hleft : c.left i = 0
          · -- the whole piece is copied
            have hbreaks : c.breaks base.length i = false := by simp [Append.breaks, hbread, hleft]
            rw [hbreaks]
            rw [hleft, Nat.zero_min, List.replicate_zero, List.append_nil, Nat.sub_zero] at hnext
            rw [hleft, Nat.zero_min, if_neg (by simp), Nat.sub_zero] at hrun
            by_cases hdone : blockCut base.length i + m = c.payload.length
            · have hnone : (List.range' (i + 1) n).find? (c.breaks base.length) = none := by
                rw [List.find?_eq_none]
                intro k hk
                have hle := blockCut_mono base.length (List.mem_range'_1.mp hk).1
                simp only [Append.breaks, Bool.and_eq_true, decide_eq_true_eq, not_and]
                intro hlt
                omega
              rw [if_pos hdone] at hrun
              rw [hdone, List.take_length] at hnext
              refine ⟨s', ?_, by rw [hrun, hnone, hdone]; rfl⟩
              rw [hnone]
              simpa [Append.laid, Append.copied, Append.zeros] using hnext
            · have hnextcut : blockCut base.length i + m = blockCut base.length (i + 1) := by omega
              rw [if_neg hdone, hnextcut] at hrun
              rw [hnextcut] at hnext
              obtain ⟨s'', hring'', hrun''⟩ :=
                copyLoop_laid c rest hN0 hdvd hN htotal n fuel (i + 1) s' (by omega)
                (by omega) (by omega) hfs' hsb' hnext
              exact ⟨s'', hring'', hrun.trans hrun''⟩
          · have hbreaks : c.breaks base.length i = true := by simp [Append.breaks, hcut, hleft]
            rw [hbreaks]
            rw [if_pos (by omega)] at hrun
            have hcopied : c.copied base.length (some i)
                = blockCut base.length i + (m - min (c.left i) m) := by
              simp only [Append.copied, Append.zeros, hbread, if_true]
              omega
            refine ⟨s', ?_, by rw [hrun, hcopied]; rfl⟩
            rw [Append.laid, hcopied]
            simpa only [Append.zeros, hbread, if_true] using hnext

end Loop

/-! ## One append

An append keeps the log exactly when its spill does not differ from the oldest bytes that it lies
over.  The spill can be as long as the payload, for a kernel append that fails in its last block. -/

section Step

variable {s s' : LogFs} {sb : SuperBlock} {N : ℕ} {stream : List UInt8} {c : Append}

/-- The block loop of an append, from the end of the log. -/
lemma StreamInv.copyLoop_laid (h : StreamInv s sb N stream) (c : Append) (rest : List UInt8)
    (hne : c.payload ≠ []) (htotal : stream.length + c.payload.length < 2 ^ 63) :
    ∃ s', HoldsTail N (s'.ring sb) (stream ++ c.laid stream.length (c.fault stream.length)) ∧
      KLRM.copyLoop c.breadOk c.left (c.payload ++ rest) c.payload.length s.circularBufferEnd
        (c.payload.length + 1) 0 0 s
        = .ok
          ⟨c.copied stream.length (c.fault stream.length), (c.fault stream.length).isNone, s'⟩ := by
  have hN : N < 2 ^ 63 := lt_trans h.size_lt (by norm_num)
  have hpos : 0 < c.payload.length := List.length_pos_iff.mpr hne
  have hloop := KLRM.copyLoop_laid c rest h.size_pos h.size_dvd hN htotal c.payload.length
    (c.payload.length + 1) 0 s
    (Nat.zero_add _) (Nat.lt_succ_self _) (by rwa [blockCut_zero]) h.fileSize h.singleton
    (by simpa [blockCut_zero] using h.holds)
  rw [blockCut_zero, ← List.range_eq_range'] at hloop
  rw [h.stop]
  exact hloop

/-- Without anything to copy the loop changes nothing that can be read. -/
lemma StreamInv.copyLoop_empty (h : StreamInv s sb N stream) (breadOk : ℕ → Bool) (uncopied : ℕ → ℕ)
    (htotal : stream.length < 2 ^ 63) :
    ∃ complete s', HoldsTail N (s'.ring sb) stream ∧
      KLRM.copyLoop breadOk uncopied [] 0 s.circularBufferEnd 1 0 0 s = .ok ⟨0, complete, s'⟩ := by
  have hN : N < 2 ^ 63 := lt_trans h.size_lt (by norm_num)
  have hfs : s.fileSize ≠ 0 := by
    rw [h.fileSize]
    exact h.size_pos.ne'
  rw [h.stop]
  cases hbread : breadOk 0 with
  | false => exact ⟨false, s, h.holds, copyLoop_unread hfs h.singleton hbread [] 0 _ 0 0⟩
  | true =>
      obtain ⟨s', -, -, hring, hrun⟩ :=
        copyLoop_piece breadOk uncopied (le_refl ([] : List UInt8).length)
        (by norm_num) h.size_pos h.size_dvd hN (by simpa using htotal.trans (by norm_num)) hbread
        (m := 0) (by simp) (Nat.min_zero _).symm le_rfl h.fileSize h.singleton
        (by simpa using h.holds) 0
      exact ⟨true, s', by simpa using hring, by simpa using hrun⟩

/-- Once the bounds have moved by the bytes that are reported, the log is their stream exactly
    when the ring holds its tail. -/
lemma StreamInv.advance_iff (h : StreamInv s sb N stream)
    (hglobals : s' = { s with devs := s'.devs })
    {payload : List UInt8} (hlen : stream.length + payload.length < 2 ^ 63) :
    StreamInv (s'.advance payload.length) sb N (stream ++ payload) ↔
      HoldsTail N (s'.ring sb) (stream ++ payload) :=
  ⟨fun h' => h'.holds, fun hholds => h.advance hglobals hholds hlen⟩

/-- And when they have not moved at all. -/
lemma StreamInv.stay_iff (h : StreamInv s sb N stream)
    (hglobals : s' = { s with devs := s'.devs }) :
    StreamInv s' sb N stream ↔ HoldsTail N (s'.ring sb) stream := by
  refine ⟨fun h' => h'.holds, fun hholds => ?_⟩
  rw [hglobals] at hholds ⊢
  exact ⟨⟨h.mounted, h.singleton, h.fileSize, h.size_pos, h.size_dvd, h.size_lt⟩, h.stop,
    h.start, hholds⟩

/-- What an append does to the log. -/
def Append.Kept (c : Append) (s : LogFs) (sb : SuperBlock) (N : ℕ) (stream : List UInt8) : Prop :=
  ∃ ret s', c.run s = .ok (ret, s') ∧ (∀ r, ret = some r → r = (c.reported stream.length).length) ∧
    StreamInv s' sb N (stream ++ c.reported stream.length)

/-- **One append**: it returns, reports what it should, and the log is longer by that and
    unharmed otherwise exactly when what it has stored behind that falls on nothing that differs. -/
lemma StreamInv.append (h : StreamInv s sb N stream) (hc : c.Valid)
    (htotal : stream.length + c.payload.length < 2 ^ 63) :
    ∃ ret s', c.run s = .ok (ret, s') ∧
      (∀ r, ret = some r → r = (c.reported stream.length).length) ∧
      (StreamInv s' sb N (stream ++ c.reported stream.length) ↔
        KeepsTail N (stream ++ c.reported stream.length) (c.spill stream.length)) := by
  set L := stream.length with hL
  have hlaid : ∀ {ring : ℕ → UInt8}, HoldsTail N ring (stream ++ c.laid L (c.fault L)) →
      (HoldsTail N ring (stream ++ c.reported L) ↔
        KeepsTail N (stream ++ c.reported L) (c.spill L)) := by
    intro ring hring
    rw [← c.reported_append_spill, ← List.append_assoc] at hring
    exact hring.keeps_iff h.size_pos
  have hreported : L + (c.reported L).length < 2 ^ 63 := by
    have hle := c.copied_le L fun k => Append.fault_lt
    rw [c.length_reported]
    split_ifs <;> omega
  cases hkernel : c.kernel with
  | true =>
      have hstrlen : strlen (c.payload ++ [0]) = c.payload.length := by
        rw [strlen, cString_append_zero (hc hkernel)]
      by_cases hne : c.payload = []
      · -- an empty string is not written
        have hnone : c.fault L = none := by simp [Append.fault, hne]
        have hrep : c.reported L = [] := by simp [Append.reported, hne]
        have hspill : c.spill L = [] := by
          simp [Append.spill, Append.laid, hnone, Append.zeros, hne]
        refine ⟨none, s, ?_, by simp, ?_⟩
        · have hzero : strlen ([0] : List UInt8) = 0 := rfl
          simp [Append.run, hkernel, internalLogfilefsWrite, hzero, hne, Except.map]
        · rw [hrep, List.append_nil, hspill]
          exact iff_of_true h (KeepsTail.nil N stream)
      · obtain ⟨s', hring, hrun⟩ := h.copyLoop_laid c [0] hne htotal
        have hglobals := copyLoop_globals hrun
        have hleft : c.left = fun _ => 0 := by
          funext k
          simp [Append.left, hkernel]
        rw [hleft] at hrun
        have hpos : c.payload.length ≠ 0 := by simpa using hne
        have hwrite : c.run s =
            .ok (none, if (c.fault L).isNone then s'.advance (c.copied L (c.fault L)) else s') := by
          simp only [Append.run, hkernel, if_true, internalLogfilefsWrite, hstrlen, if_neg hpos,
            if_neg h.mounted, hrun, bind, Except.bind]
          split_ifs <;> rfl
        refine ⟨none, _, hwrite, by simp, ?_⟩
        rw [← hlaid hring]
        cases hfault : c.fault L with
        | none =>
            have hrep : c.reported L = c.payload := by simp [Append.reported, hfault, Append.copied]
            rw [hrep] at hreported ⊢
            simpa [Append.copied] using h.advance_iff hglobals hreported
        | some k =>
            have hrep : c.reported L = [] := by simp [Append.reported, hfault, hkernel]
            rw [hrep, List.append_nil]
            simpa using h.stay_iff hglobals
  | false =>
      have hleft : c.left = c.uncopied := by
        funext k
        simp [Append.left, hkernel]
      have hlen : (c.reported L).length = c.copied L (c.fault L) := by
        rw [c.length_reported, hkernel, Bool.false_and, if_neg (by simp)]
      -- the loop, whatever the payload
      obtain ⟨complete, s', hring, hrun⟩ : ∃ complete s',
          HoldsTail N (s'.ring sb) (stream ++ c.laid L (c.fault L)) ∧
          KLRM.copyLoop c.breadOk c.uncopied c.payload c.payload.length s.circularBufferEnd
            (c.payload.length + 1) 0 0 s
            = .ok ⟨(c.reported L).length, complete, s'⟩ := by
        by_cases hne : c.payload = []
        · obtain ⟨complete, s', hring, hrun⟩ := h.copyLoop_empty c.breadOk c.uncopied (by omega)
          have hnone : c.fault L = none := by simp [Append.fault, hne]
          refine ⟨complete, s', by simpa [Append.laid, hnone, Append.zeros, hne] using hring, ?_⟩
          rw [hlen, hnone]
          simpa [hne, Append.copied] using hrun
        · obtain ⟨s', hring, hrun⟩ := h.copyLoop_laid c [] hne htotal
          rw [List.append_nil, hleft, ← hL, ← hlen] at hrun
          exact ⟨_, s', hring, hrun⟩
      have hglobals := copyLoop_globals hrun
      refine ⟨some ((c.reported L).length : ℕ), s'.advance (c.reported L).length, ?_, by simp, ?_⟩
      · have hret : toS64 ((c.reported L).length : ℕ) = ((c.reported L).length : ℕ) :=
          toS64_of_range (by omega) (by omega)
        simp only [Append.run, hkernel, logfilefsWrite, hrun, bind, Except.bind, Except.map, hret]
        rfl
      · rw [← hlaid hring]
        exact h.advance_iff hglobals hreported

end Step

/-! ## Runs of appends

The log is unharmed after every prefix of the appends exactly when each append kept it.  Appends
that copy everything have no spill, so the condition asks something only of those that break off. -/

/-- The state after a sequence of appends. -/
def runAppends : List Append → LogFs → Except Stop LogFs
  | [], s => .ok s
  | c :: cs, s => c.run s >>= fun r => runAppends cs r.2

/-- The stream after a sequence of appends: each adds what it reports. -/
def streamAfter (stream : List UInt8) (appends : List Append) : List UInt8 :=
  appends.foldl (fun stream c => stream ++ c.reported stream.length) stream

/-- The bytes of all payloads. -/
def payloadBytes (appends : List Append) : ℕ := (appends.map fun c => c.payload.length).sum

/-- An append of a sequence is the first one, or one of the others after the first. -/
lemma forall_prefix_cons {P : List Append → Append → Prop} {d : Append} {ds : List Append} :
    (∀ done c, done ++ [c] <+: d :: ds → P done c) ↔
      P [] d ∧ ∀ done c, done ++ [c] <+: ds → P (d :: done) c := by
  constructor
  · intro h
    refine ⟨h [] d (by simp), fun done c hpre => h (d :: done) c ?_⟩
    rw [List.cons_append]
    exact List.cons_prefix_cons.mpr ⟨rfl, hpre⟩
  · rintro ⟨hfirst, hrest⟩ done c hpre
    cases done with
    | nil =>
        obtain rfl : c = d := by simpa using hpre
        exact hfirst
    | cons e done =>
        rw [List.cons_append, List.cons_prefix_cons] at hpre
        obtain ⟨rfl, hpre⟩ := hpre
        exact hrest done c hpre

/-- A run of appends, from any stream. -/
lemma StreamInv.appends_iff {sb : SuperBlock} {N : ℕ} (appends : List Append) {s : LogFs}
    {stream : List UInt8} (h : StreamInv s sb N stream) (hvalid : ∀ c ∈ appends, c.Valid)
    (htotal : stream.length + payloadBytes appends < 2 ^ 63) :
    (∀ (done : List Append) (c : Append), done ++ [c] <+: appends →
        ∃ t, runAppends done s = .ok t ∧ c.Kept t sb N (streamAfter stream done)) ↔
      ∀ (done : List Append) (c : Append), done ++ [c] <+: appends →
        KeepsTail N (streamAfter stream done ++ c.reported (streamAfter stream done).length)
          (c.spill (streamAfter stream done).length) := by
  induction appends generalizing s stream with
  | nil => simp
  | cons d ds ih =>
      have hsum : payloadBytes (d :: ds) = d.payload.length + payloadBytes ds := rfl
      rw [hsum] at htotal
      obtain ⟨ret, s', hrun, hret, hinv⟩ := h.append (hvalid d (by simp)) (by omega)
      have hlen : (d.reported stream.length).length ≤ d.payload.length := by
        have hle := d.copied_le stream.length fun k => Append.fault_lt
        rw [d.length_reported]
        split_ifs
        · exact Nat.zero_le _
        · exact hle
      have hafter : ∀ done, runAppends (d :: done) s = runAppends done s' := by
        intro done
        simp only [runAppends, hrun, bind, Except.bind]
      have hstream : ∀ done, streamAfter stream (d :: done)
          = streamAfter (stream ++ d.reported stream.length) done := fun done => rfl
      have hkept : d.Kept s sb N stream ↔
          StreamInv s' sb N (stream ++ d.reported stream.length) := by
        constructor
        · rintro ⟨ret', t, hrun', -, hinv'⟩
          rw [hrun] at hrun'
          obtain ⟨rfl, rfl⟩ := Prod.mk.inj (Except.ok.inj hrun')
          exact hinv'
        · intro hinv'
          exact ⟨ret, s', hrun, hret, hinv'⟩
      rw [forall_prefix_cons, forall_prefix_cons]
      simp only [hafter, hstream]
      constructor
      · rintro ⟨⟨t, ht, hfirst⟩, hrest⟩
        obtain rfl := Except.ok.inj ht
        have hinv' := hkept.mp hfirst
        refine ⟨hinv.mp hinv', (ih hinv' (fun c hc => hvalid c (by simp [hc])) ?_).mp hrest⟩
        rw [List.length_append]
        omega
      · rintro ⟨hfirst, hrest⟩
        have hinv' := hinv.mpr hfirst
        refine
          ⟨⟨s, rfl, hkept.mpr hinv'⟩, (ih hinv' (fun c hc => hvalid c (by simp [hc])) ?_).mpr hrest⟩
        rw [List.length_append]
        omega

/-- **When appends that break off do no harm.**  On an empty image, whatever blocks cannot be
    read and whatever user copies fail: every append of the sequence leaves in the window the
    earlier stream and behind it what the append reports, exactly when what each has stored
    beyond that falls on no byte that can still be read, but for equal ones. -/
theorem appends_keep_log_iff {s₀ : LogFs} {sb : SuperBlock} {N : ℕ} (h : Mounted s₀ sb N)
    (hstart : s₀.circularBufferStart = 0) (hstop : s₀.circularBufferEnd = 0) (appends : List Append)
    (hvalid : ∀ c ∈ appends, c.Valid) (htotal : payloadBytes appends < 2 ^ 63) :
    (∀ done c, done ++ [c] <+: appends →
        ∃ s, runAppends done s₀ = .ok s ∧ c.Kept s sb N (streamAfter [] done)) ↔
      ∀ done c, done ++ [c] <+: appends →
        KeepsTail N (streamAfter [] done ++ c.reported (streamAfter [] done).length)
          (c.spill (streamAfter [] done).length) :=
  (h.streamInv hstart hstop).appends_iff appends hvalid (by simpa using htotal)

/-- A kernel string whose block cannot be read. -/
def unreadString : Append := ⟨true, [72, 105], fun _ => false, fun _ => 0⟩

/-- A user buffer whose last byte cannot be copied. -/
def cutBuffer : Append := ⟨false, [33, 10], fun _ => true, fun _ => 1⟩

/-- The two on an empty image: the zero of the second lies in free space. -/
theorem appends_keep_log_room :
    ∃ s, runAppends [unreadString] emptyImage = .ok s ∧
      cutBuffer.Kept s ⟨0, 0⟩ 4096 (streamAfter [] [unreadString]) := by
  have hvalid : ∀ c ∈ [unreadString, cutBuffer], c.Valid := by
    simp [Append.Valid, unreadString, cutBuffer]
  have hkept := (appends_keep_log_iff emptyImage_mounted rfl rfl _ hvalid (by decide)).mpr (by
    rw [forall_prefix_cons, forall_prefix_cons]
    exact ⟨KeepsTail.of_room (by decide), KeepsTail.of_room (by decide), by simp⟩)
  exact hkept [unreadString] cutBuffer (List.prefix_refl _)

/-- An append whose blocks can all be read and whose copies all succeed does not break off. -/
lemma Append.fault_whole {c : Append} (hbread : ∀ k, c.breadOk k = true)
    (hleft : ∀ k, c.left k = 0) (L : ℕ) : c.fault L = none := by
  rw [fault, List.find?_eq_none]
  intro k _
  simp [breaks, hbread, hleft]

/-- It reports its payload. -/
lemma Append.reported_whole {c : Append} (hbread : ∀ k, c.breadOk k = true)
    (hleft : ∀ k, c.left k = 0) (L : ℕ) : c.reported L = c.payload := by
  simp [reported, fault_whole hbread hleft, copied]

/-- And stores nothing behind it. -/
lemma Append.spill_whole {c : Append} (hbread : ∀ k, c.breadOk k = true)
    (hleft : ∀ k, c.left k = 0) (L : ℕ) : c.spill L = [] := by
  simp [spill, reported_whole hbread hleft, laid, fault_whole hbread hleft, copied, zeros]

/-- 8191 bytes on an image of 4096: the next byte goes into the last cell, which holds the oldest
    byte that can still be read. -/
def fillUp : Append := ⟨false, List.replicate 8191 65, fun _ => true, fun _ => 0⟩

/-- With the log full, a kernel string whose second block cannot be read, and a user buffer whose
    first byte cannot be copied, each destroy the oldest readable byte. -/
theorem appends_harm_log :
    (¬ ∀ done c, done ++ [c] <+: [fillUp, ⟨true, [66, 66], fun k => k = 0, fun _ => 0⟩] →
        ∃ s, runAppends done emptyImage = .ok s ∧ c.Kept s ⟨0, 0⟩ 4096 (streamAfter [] done)) ∧
      ¬ ∀ done c, done ++ [c] <+: [fillUp, ⟨false, [66, 66], fun _ => true, fun _ => 1⟩] →
        ∃ s, runAppends done emptyImage = .ok s ∧ c.Kept s ⟨0, 0⟩ 4096 (streamAfter [] done) := by
  have hfill : streamAfter [] [fillUp] = List.replicate 8191 65 := by
    have hwhole : fillUp.reported 0 = List.replicate 8191 65 :=
      Append.reported_whole (fun _ => rfl) (fun _ => rfl) 0
    rw [← hwhole, streamAfter, List.foldl_cons, List.foldl_nil, List.nil_append, List.length_nil]
  have hstart := emptyImage_mounted.streamInv rfl rfl
  -- whatever is stored and not reported lies in the last cell first
  have hharm : ∀ (c : Append) (b : UInt8), c.Valid → c.payload.length = 2 →
      c.reported 8191 = [] → c.spill 8191 = [b] → b ≠ 65 →
      ¬ ∀ done d, done ++ [d] <+: [fillUp, c] →
        ∃ s, runAppends done emptyImage = .ok s ∧ d.Kept s ⟨0, 0⟩ 4096 (streamAfter [] done) := by
    intro c b hc hlen hreported hspill hb hkept
    have hvalid : ∀ d ∈ [fillUp, c], d.Valid := by
      rintro d (_ | ⟨_, _ | ⟨_, ⟨⟩⟩⟩)
      · exact fun hkernel => Bool.noConfusion hkernel
      · exact hc
    have htotal : payloadBytes [fillUp, c] = 8193 := by
      simp only [payloadBytes, List.map_cons, List.map_nil, List.sum_cons, List.sum_nil,
        hlen, fillUp, List.length_replicate, Nat.reduceAdd]
    have hcond :=
      (hstart.appends_iff [fillUp, c] hvalid (by rw [htotal]; norm_num)).mp hkept [fillUp] c
      (List.prefix_refl _)
    rw [hfill, List.length_replicate, hreported, List.append_nil, hspill] at hcond
    have hcell := hcond 4095 (by rw [List.length_replicate]; norm_num)
      (by rw [List.length_replicate]) 0 (by simp) (by simp) (by rw [List.length_replicate])
    rw [List.getElem_replicate] at hcell
    exact hb hcell
  exact ⟨hharm _ 66 (by simp [Append.Valid]) rfl rfl rfl (by decide),
    hharm _ 0 (by simp [Append.Valid]) rfl rfl rfl (by decide)⟩

end KLRM
