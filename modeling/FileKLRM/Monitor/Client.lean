import FileKLRM.Monitor.Ioctl

/-!
# The client's password: `user/client.c`

`klrmctl` reads the password byte by byte into the first field of a `klrm_input`.  The loop goes
on while the byte is no newline *or* the index is 127, so that the length is no bound, and a
newline at index 126 does not end it.

The field is therefore right exactly for the lines of at most 127 bytes other than 126
(`readPassword_faithful_iff`); where stdin ends before that, nothing is sent.
-/

namespace KLRM

/-- How the loop is left: at the end of stdin, with a password, or by a store behind the
    `klrm_input`. -/
inductive ReadEnd
  | eof
  | done
  | overrun
deriving DecidableEq, Repr

/-- What the loop leaves: its end, the bytes of the `klrm_input`, and the indices of the stores into
    `input->password`, in their order. -/
structure PasswordRead where
  finish : ReadEnd
  input : List UInt8
  stores : List ℕ

/-- One store before all others. -/
def PasswordRead.after (i : ℕ) (r : PasswordRead) : PasswordRead :=
  { r with stores := i :: r.stores }

/-- The loop of `main` and the terminator behind it: `room` bytes of the object are left from
    `idx` on, and `stdin i` is what call number `i` of `getc` returns, `none` being `EOF`. -/
def readLoop (stdin : ℕ → Option UInt8) : (room idx : ℕ) → (input : List UInt8) → PasswordRead
  | 0, idx, input =>
      match stdin idx with
      | none => ⟨.eof, input, []⟩
      | some _ => ⟨.overrun, input, [idx]⟩
  | room + 1, idx, input =>
      match stdin idx with
      | none => ⟨.eof, input, []⟩
      | some read =>
          let input := input.set idx read
          if read ≠ 10 ∨ idx + 1 = 127 then (readLoop stdin room (idx + 1) input).after idx
          else
            let last := if read = 10 then idx else idx + 1
            ⟨.done, input.set last 0, [idx, last]⟩

/-- From `malloc` and `memset` to the end of the loop. -/
def readPassword (stdin : ℕ → Option UInt8) : PasswordRead :=
  readLoop stdin klrmInputSize 0 (List.replicate klrmInputSize 0)

/-! ## Lines

What should end up in the field, said of stdin alone: its first line, padded with NUL bytes. -/

/-- The first `n` bytes of stdin are there and no newline is among them. -/
def NoNewline (stdin : ℕ → Option UInt8) (n : ℕ) : Prop := ∀ i < n, ∃ b, stdin i = some b ∧ b ≠ 10

/-- The first line has `n` bytes before its newline. -/
def FirstLine (stdin : ℕ → Option UInt8) (n : ℕ) : Prop := NoNewline stdin n ∧ stdin n = some 10

/-- Stdin ends after `n` bytes, before any newline. -/
def EndsAfter (stdin : ℕ → Option UInt8) (n : ℕ) : Prop := NoNewline stdin n ∧ stdin n = none

/-- The field holds the first line, cut to 127 bytes, and a NUL. -/
def HoldsLine (stdin : ℕ → Option UInt8) (input : List UInt8) : Prop :=
  ∃ n ≤ 127, NoNewline stdin n ∧ (stdin n = some 10 ∨ n = 127) ∧
    (∀ i < n, stdin i = some (input.getD i 0)) ∧ input.getD n 0 = 0

/-- What the loop should do. -/
structure ReadsFaithfully (stdin : ℕ → Option UInt8) : Prop where
  finish : (readPassword stdin).finish = .eof ∨
    (readPassword stdin).finish = .done ∧ HoldsLine stdin (readPassword stdin).input
  bounded : ∀ i ∈ (readPassword stdin).stores, i ≤ 127
  stops : ∀ n ≤ 127, FirstLine stdin n → ∀ i ∈ (readPassword stdin).stores, i ≤ n

/-! ## The loop over a line

`readPassword_skip` runs over the bytes in front of the newline at once.  The three ways out
follow: a newline that is seen, a newline at index 126, which is stored and read over, and the end
of stdin. -/

section Loop

variable {stdin : ℕ → Option UInt8} {n : ℕ}

lemma NoNewline.mono {m : ℕ} (h : NoNewline stdin n) (hm : m ≤ n) : NoNewline stdin m :=
  fun i hi => h i (by omega)

/-- The object with the first bytes of stdin in it. -/
def inputAfter (stdin : ℕ → Option UInt8) (n : ℕ) : List UInt8 :=
  (List.range n).map (fun i => (stdin i).getD 0) ++ List.replicate (klrmInputSize - n) 0

lemma length_inputAfter (hn : n ≤ klrmInputSize) : (inputAfter stdin n).length = klrmInputSize := by
  simp [inputAfter, hn]

/-- The next byte goes behind them. -/
lemma inputAfter_set (hn : n < klrmInputSize) :
    (inputAfter stdin n).set n ((stdin n).getD 0) = inputAfter stdin (n + 1) := by
  obtain ⟨k, hk⟩ : ∃ k, klrmInputSize - n = k + 1 := ⟨klrmInputSize - n - 1, by omega⟩
  rw [inputAfter, inputAfter, hk, show klrmInputSize - (n + 1) = k by omega, List.range_succ,
    List.map_append, List.replicate_succ, List.append_assoc]
  simp

lemma getD_inputAfter {i : ℕ} (hi : i < n) : (inputAfter stdin n).getD i 0 = (stdin i).getD 0 := by
  rw [inputAfter, List.getD_eq_getElem?_getD, List.getElem?_append_left (by simpa using hi)]
  simp [hi]

/-- While there is no newline the loop stores every byte at its own index. -/
lemma readPassword_skip (hline : NoNewline stdin n) (hn : n ≤ klrmInputSize) :
    (readPassword stdin).finish
      = (readLoop stdin (klrmInputSize - n) n (inputAfter stdin n)).finish ∧
      (readPassword stdin).input
        = (readLoop stdin (klrmInputSize - n) n (inputAfter stdin n)).input ∧
      (readPassword stdin).stores =
        List.range n ++ (readLoop stdin (klrmInputSize - n) n (inputAfter stdin n)).stores := by
  induction n with
  | zero => exact ⟨rfl, rfl, rfl⟩
  | succ n ih =>
      obtain ⟨b, hb, hnl⟩ := hline n (by omega)
      obtain ⟨hfinish, hinput, hstores⟩ := ih (hline.mono (by omega)) (by omega)
      obtain ⟨k, hk⟩ : ∃ k, klrmInputSize - n = k + 1 := ⟨klrmInputSize - n - 1, by omega⟩
      have hstep : readLoop stdin (klrmInputSize - n) n (inputAfter stdin n)
          = (readLoop stdin (klrmInputSize - (n + 1)) (n + 1)
            (inputAfter stdin (n + 1))).after n := by
        rw [← inputAfter_set (by omega), hk, show klrmInputSize - (n + 1) = k by omega,
          readLoop, hb]
        simp [hnl]
      rw [hstep] at hfinish hinput hstores
      refine ⟨hfinish, hinput, ?_⟩
      rw [hstores, List.range_succ, List.append_assoc]
      rfl

/-- A complete line of another length than 126 is read and cut off at its newline. -/
lemma readPassword_line (hline : FirstLine stdin n) (hn : n < klrmInputSize) (h126 : n ≠ 126) :
    (readPassword stdin).finish = .done ∧
    (readPassword stdin).input = (inputAfter stdin (n + 1)).set n 0 ∧
      (readPassword stdin).stores = List.range n ++ [n, n] := by
  obtain ⟨hfinish, hinput, hstores⟩ := readPassword_skip hline.1 hn.le
  obtain ⟨k, hk⟩ : ∃ k, klrmInputSize - n = k + 1 := ⟨klrmInputSize - n - 1, by omega⟩
  have hstep : readLoop stdin (klrmInputSize - n) n (inputAfter stdin n)
      = ⟨.done, (inputAfter stdin (n + 1)).set n 0, [n, n]⟩ := by
    rw [← inputAfter_set hn, hk, readLoop, hline.2]
    simp [h126]
  rw [hstep] at hfinish hinput hstores
  exact ⟨hfinish, hinput, hstores⟩

/-- Where stdin ends there is nothing more. -/
lemma readPassword_eof (hend : EndsAfter stdin n) (hn : n ≤ klrmInputSize) :
    (readPassword stdin).finish = .eof ∧ (readPassword stdin).stores = List.range n := by
  obtain ⟨hfinish, -, hstores⟩ := readPassword_skip hend.1 hn
  have hstep : readLoop stdin (klrmInputSize - n) n (inputAfter stdin n)
      = ⟨.eof, inputAfter stdin n, []⟩ := by
    cases hk : klrmInputSize - n <;> rw [readLoop, hend.2]
  rw [hstep] at hfinish hstores
  exact ⟨hfinish, by simpa using hstores⟩

/-- Every byte is stored that follows no newline. -/
lemma mem_stores_of_noNewline (hline : NoNewline stdin n) (hn : n ≤ klrmInputSize) {b : UInt8}
    (hb : stdin n = some b) : n ∈ (readPassword stdin).stores := by
  obtain ⟨-, -, hstores⟩ := readPassword_skip hline hn
  rw [hstores, List.mem_append]
  refine Or.inr ?_
  cases hk : klrmInputSize - n with
  | zero =>
      rw [readLoop, hb]
      exact List.mem_singleton_self n
  | succ k =>
      rw [readLoop, hb]
      dsimp only
      split
      · exact List.mem_cons_self
      · exact List.mem_cons_self

/-- Behind a line of 126 bytes the loop goes on. -/
lemma readPassword_line126 (hline : FirstLine stdin 126) :
    (readPassword stdin).finish = (readLoop stdin 4097 127 (inputAfter stdin 127)).finish ∧
      (readPassword stdin).stores =
      List.range 127 ++ (readLoop stdin 4097 127 (inputAfter stdin 127)).stores := by
  obtain ⟨hfinish, -, hstores⟩ := readPassword_skip hline.1 (by decide)
  have hstep : readLoop stdin (klrmInputSize - 126) 126 (inputAfter stdin 126)
      = (readLoop stdin 4097 127 (inputAfter stdin 127)).after 126 := by
    have hset : (inputAfter stdin 126).set 126 10 = inputAfter stdin 127 := by
      have hset := @inputAfter_set stdin 126 (by decide)
      rwa [hline.2, Option.getD_some] at hset
    rw [show klrmInputSize - 126 = 4097 + 1 by decide, readLoop, hline.2]
    simp [hset]
  rw [hstep] at hfinish hstores
  refine ⟨hfinish, ?_⟩
  rw [hstores, List.range_succ, List.append_assoc]
  rfl

/-- So the byte behind it is stored. -/
lemma mem_stores_line126 (hline : FirstLine stdin 126) {b : UInt8} (hb : stdin 127 = some b) :
    127 ∈ (readPassword stdin).stores := by
  rw [(readPassword_line126 hline).2, List.mem_append]
  refine Or.inr ?_
  rw [readLoop, hb]
  dsimp only
  split
  · exact List.mem_cons_self
  · exact List.mem_cons_self

/-- A stream has a newline or an end within its first `n` bytes, or has none of both. -/
lemma noNewline_or (stdin : ℕ → Option UInt8) (n : ℕ) :
    NoNewline stdin n ∨ ∃ k < n, FirstLine stdin k ∨ EndsAfter stdin k := by
  induction n with
  | zero => exact Or.inl fun i hi => absurd hi (Nat.not_lt_zero i)
  | succ n ih =>
      rcases ih with hline | ⟨k, hk, h⟩
      · cases hn : stdin n with
        | none => exact Or.inr ⟨n, n.lt_succ_self, Or.inr ⟨hline, hn⟩⟩
        | some b =>
            by_cases hb : b = 10
            · exact Or.inr ⟨n, n.lt_succ_self, Or.inl ⟨hline, by rw [hn, hb]⟩⟩
            · refine Or.inl fun i hi => ?_
              rcases Nat.lt_succ_iff_lt_or_eq.mp hi with hi | rfl
              · exact hline i hi
              · exact ⟨b, hn, hb⟩
      · exact Or.inr ⟨k, by omega, h⟩

lemma FirstLine.unique {m : ℕ} (h : FirstLine stdin n) (h' : NoNewline stdin m) : m ≤ n := by
  by_contra hlt
  obtain ⟨b, hb, hb10⟩ := h' n (by omega)
  exact hb10 (Option.some.inj (hb.symm.trans h.2))

/-- Stores at indices up to `n` are fine when no line is shorter. -/
lemma ReadsFaithfully.of_stores (hfinish : (readPassword stdin).finish = .eof ∨
      (readPassword stdin).finish = .done ∧ HoldsLine stdin (readPassword stdin).input) (hline :
        NoNewline stdin n)
    (hstores : ∀ i ∈ (readPassword stdin).stores, i ≤ n ∧ i ≤ 127) : ReadsFaithfully stdin where
  finish := hfinish
  bounded := fun i hi => (hstores i hi).2
  stops := fun _ _ hfirst i hi => (hstores i hi).1.trans (hfirst.unique hline)

end Loop

/-! ## When the field is right

The lines of 126 bytes and those of more than 127 are the two kinds that go wrong, for two
different reasons: the first is continued by the next line, the second runs on behind the field. -/

section Faithful

variable {stdin : ℕ → Option UInt8} {n : ℕ}

lemma faithful_of_eof (hend : EndsAfter stdin n) (hn : n ≤ 128) : ReadsFaithfully stdin := by
  obtain ⟨hfinish, hstores⟩ := readPassword_eof hend (by simp [klrmInputSize]; omega)
  have hlt : ∀ i ∈ (readPassword stdin).stores, i < n := by simp [hstores]
  exact .of_stores (Or.inl hfinish) hend.1 fun i hi => ⟨(hlt i hi).le, by have := hlt i hi; omega⟩

/-- The bytes of the line are in the field, and the NUL behind them. -/
lemma holdsLine (hfirst : FirstLine stdin n) (hn : n ≤ 127) :
    HoldsLine stdin ((inputAfter stdin (n + 1)).set n 0) := by
  have hsize : n + 1 ≤ klrmInputSize := by
    simp [klrmInputSize]
    omega
  refine ⟨n, hn, hfirst.1, Or.inl hfirst.2, fun i hi => ?_, ?_⟩
  · obtain ⟨b, hb, -⟩ := hfirst.1 i hi
    have hget := @getD_inputAfter stdin (n + 1) i (by omega)
    rw [List.getD_eq_getElem?_getD] at hget ⊢
    rw [List.getElem?_set_ne (by omega), hget, hb]
    rfl
  · rw [List.getD_eq_getElem?_getD, List.getElem?_set_self (by rw [length_inputAfter hsize]; omega)]
    rfl

lemma faithful_of_line (hfirst : FirstLine stdin n) (hn : n ≤ 127) (h126 : n ≠ 126) :
    ReadsFaithfully stdin := by
  obtain ⟨hfinish, hinput, hstores⟩ :=
    readPassword_line hfirst (by simp [klrmInputSize]; omega) h126
  refine .of_stores (Or.inr ⟨hfinish, hinput ▸ holdsLine hfirst hn⟩) hfirst.1 fun i hi => ?_
  rw [hstores] at hi
  have hle : i ≤ n := by
    rcases List.mem_append.mp hi with hi | hi
    · exact (List.mem_range.mp hi).le
    · simp at hi
      omega
  exact ⟨hle, by omega⟩

lemma faithful_of_line126 (hfirst : FirstLine stdin 126) (hend : stdin 127 = none) :
    ReadsFaithfully stdin := by
  obtain ⟨hfinish, hstores⟩ := readPassword_line126 hfirst
  rw [readLoop, hend] at hfinish hstores
  refine .of_stores (Or.inl hfinish) hfirst.1 fun i hi => ?_
  have hlt : i < 127 := by simpa [hstores] using hi
  omega

end Faithful

/-- **The password is read as it should be exactly when** stdin ends after at most 128 bytes
    without a newline, or its first line has at most 127 bytes, and not 126 with more behind
    them. -/
theorem readPassword_faithful_iff (stdin : ℕ → Option UInt8) :
    ReadsFaithfully stdin ↔ (∃ n ≤ 128, EndsAfter stdin n) ∨
      ∃ n ≤ 127, FirstLine stdin n ∧ (n = 126 → stdin 127 = none) := by
  constructor
  · intro h
    rcases noNewline_or stdin 129 with hline | ⟨k, hk, hfirst | hend⟩
    · -- byte 128 is stored behind the field
      obtain ⟨b, hb, -⟩ := hline 128 (by omega)
      have hle := h.bounded 128 (mem_stores_of_noNewline (hline.mono (by omega)) (by decide) hb)
      omega
    · refine Or.inr ⟨k,
        h.bounded k (mem_stores_of_noNewline hfirst.1 (by simp [klrmInputSize]; omega) hfirst.2),
        hfirst, ?_⟩
      rintro rfl
      by_contra hmore
      obtain ⟨b, hb⟩ := Option.ne_none_iff_exists'.mp hmore
      have hle := h.stops 126 (by omega) hfirst 127 (mem_stores_line126 hfirst hb)
      omega
    · exact Or.inl ⟨k, by omega, hend⟩
  · rintro (⟨n, hn, hend⟩ | ⟨n, hn, hfirst, h126⟩)
    · exact faithful_of_eof hend hn
    · by_cases hn126 : n = 126
      · subst hn126
        exact faithful_of_line126 hfirst (h126 rfl)
      · exact faithful_of_line hfirst hn hn126

/-- A line of 126 bytes and another line. -/
def twoLines (i : ℕ) : Option UInt8 :=
  if i = 126 ∨ i = 131 then some 10 else if i < 131 then some 97 else none

/-- A line of 200 bytes. -/
def longLine (i : ℕ) : Option UInt8 :=
  if i = 200 then some 10 else if i < 200 then some 97 else none

/-- Behind a line of 126 bytes the client reads on, and a line of 200 bytes is stored behind the
    field. -/
theorem readPassword_unfaithful : ¬ ReadsFaithfully twoLines ∧ ¬ ReadsFaithfully longLine := by
  constructor
  · intro h
    have hfirst : FirstLine twoLines 126 := ⟨fun i hi => ⟨97, by
      rw [twoLines, if_neg (by omega), if_pos (by omega)], by decide⟩, rfl⟩
    have hle := h.stops 126 (by omega) hfirst 127 (mem_stores_line126 hfirst rfl)
    omega
  · intro h
    have hline : NoNewline longLine 128 := fun i hi => ⟨97, by
      rw [longLine, if_neg (by omega), if_pos (by omega)], by decide⟩
    have hle := h.bounded 128 (mem_stores_of_noNewline hline (by decide) rfl)
    omega

end KLRM
