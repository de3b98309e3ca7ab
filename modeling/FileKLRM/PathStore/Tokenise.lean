import FileKLRM.Core.Machine

/-!
# Tokenising a path: `process_path`

`process_path` overwrites each `/` of a path by a NUL and stores the offset behind it in
`argIdxs`, an array at file scope that the search under the lock reads afterwards.  A path that
has too many components, or `.` or `..` among them, is rejected, with the buffer and `argIdxs`
already changed.

`processPath_pieces` is what it does to a path of components, with or without a slash in last
position, and `processPath_pathString` the case of a canonical path: component `k` is then the
string at `argIdxs[k]`.  The path `/` has no component and leaves `argIdxs` alone; what the search
then compares is the string at the stale `argIdxs[0]`, which is empty (`token_root`) because that
entry is never more than one (`processPath_zero`).
-/

namespace KLRM

/-- `ARGS_SIZE`. -/
def argsSize : ℕ := 512

/-- The memory at a path's pointer, and `argIdxs`. -/
structure Tokens where
  buf : List UInt8
  argIdxs : ℕ → ℕ

namespace Tokens

/-- The string at `path + argIdxs[k]`. -/
def token (t : Tokens) (k : ℕ) : List UInt8 := cString (t.buf.drop (t.argIdxs k))

/-- The loop of `process_path` over the rest of the path: the number of components, unless there
    are too many, and what it wrote. -/
def splitLoop (length : ℕ) : (rest i j : ℕ) → Tokens → Option ℕ × Tokens
  | 0, _, j, t => (some j, t)
  | rest + 1, i, j, t =>
      if t.buf.getD i 0 = 47 then
        let t := { t with buf := t.buf.set i 0 }
        if j = argsSize then (none, t)
        else if i ≠ length - 1 then
          splitLoop length rest (i + 1) (j + 1)
            { t with argIdxs := Function.update t.argIdxs j (i + 1) }
        else splitLoop length rest (i + 1) j t
      else splitLoop length rest (i + 1) j t

/-- `process_path`; `none` is `UINT_MAX`. -/
def processPath (t : Tokens) : Option ℕ × Tokens :=
  if t.buf.getD 0 0 ≠ 47 then (none, t)
  else
    match splitLoop (strlen t.buf) (strlen t.buf) 0 0 t with
    | (none, t') => (none, t')
    | (some j, t') =>
        if (List.range j).any fun k => t'.token k = [46] ∨ t'.token k = [46, 46] then (none, t')
        else (some j, t')

end Tokens

/-! ## Canonical paths

A path as the list of its names.  `splitLoop_pieces` is by induction on the names: the loop writes
one offset for each and a NUL in front of it. -/

/-- The name of a path component. -/
abbrev Name := List UInt8

/-- What a component of a resolved path can be. -/
structure IsName (c : Name) : Prop where
  ne_nil : c ≠ []
  no_slash : ∀ b ∈ c, b ≠ 47
  no_nul : ∀ b ∈ c, b ≠ 0
  ne_dot : c ≠ [46]
  ne_dots : c ≠ [46, 46]

/-- The components with `sep` before each. -/
def joined (sep : UInt8) (cs : List Name) : List UInt8 := cs.flatMap fun c => sep :: c

/-- The path `/c1/…/cn`, or `/`. -/
def pathString (cs : List Name) : List UInt8 := if cs = [] then [47] else joined 47 cs

@[simp] lemma joined_nil (sep : UInt8) : joined sep [] = [] := rfl

lemma joined_cons (sep : UInt8) (c : Name) (cs : List Name) :
    joined sep (c :: cs) = sep :: (c ++ joined sep cs) := rfl

lemma joined_append (sep : UInt8) (cs ds : List Name) :
    joined sep (cs ++ ds) = joined sep cs ++ joined sep ds :=
  List.flatMap_append

namespace Tokens

/-- The loop passes over bytes that are not `/`. -/
lemma splitLoop_skip (length rest j : ℕ) : ∀ (n i : ℕ) (t : Tokens),
    (∀ m < n, t.buf.getD (i + m) 0 ≠ 47) →
    splitLoop length (n + rest) i j t = splitLoop length rest (i + n) j t
  | 0, i, t, _ => by simp
  | n + 1, i, t, h => by
      rw [show n + 1 + rest = (n + rest) + 1 by omega, splitLoop,
        if_neg (by simpa using h 0 (by omega)),
        splitLoop_skip length rest j n (i + 1) t fun m hm => by
          rw [show i + 1 + m = i + (m + 1) by omega]
          exact h (m + 1) (by omega)]
      congr 1
      omega

/-- The offsets after the components `cs`, the first of which is number `j` and starts at `pos`. -/
def offsets (idx : ℕ → ℕ) (pos j : ℕ) (cs : List Name) : ℕ → ℕ := fun k =>
  if j ≤ k ∧ k < j + cs.length then pos + (joined 0 (cs.take (k - j))).length + 1 else idx k

lemma offsets_cons (idx : ℕ → ℕ) (pos j : ℕ) (c : Name) (cs : List Name) :
    offsets (Function.update idx j (pos + 1)) (pos + 1 + c.length) (j + 1) cs
      = offsets idx pos j (c :: cs) := by
  funext k
  simp only [offsets, List.length_cons]
  by_cases hk : k = j
  · subst hk
    rw [if_neg (by omega), if_pos (by omega)]
    simp
  · rw [Function.update_of_ne hk]
    by_cases hin : j + 1 ≤ k ∧ k < j + 1 + cs.length
    · rw [if_pos hin, if_pos (by omega)]
      obtain ⟨i, hi⟩ : ∃ i, k - j = i + 1 := ⟨k - j - 1, by omega⟩
      rw [hi, show k - (j + 1) = i by omega, List.take_succ_cons, joined_cons]
      simp only [List.length_cons, List.length_append]
      omega
    · rw [if_neg hin, if_neg (by omega)]

/-- How the components of a path end: with a slash, or with a component that is not empty. -/
def EndsWell (cs : List Name) (tail : List UInt8) : Prop := tail = [47] ∨ tail = [] ∧
    cs.getLast? ≠ some []

lemma EndsWell.of_cons {c : Name} {cs : List Name} {tail : List UInt8}
    (h : EndsWell (c :: cs) tail) : EndsWell cs tail := by
  rcases h with rfl | ⟨rfl, hlast⟩
  · exact Or.inl rfl
  · refine Or.inr ⟨rfl, ?_⟩
    cases cs with
    | nil => simp
    | cons d ds => simpa using hlast

/-- Behind a slash that begins a component there is more. -/
lemma EndsWell.rest_pos {c : Name} {cs : List Name} {tail : List UInt8}
    (h : EndsWell (c :: cs) tail) : 0 < c.length + (joined 47 cs).length + tail.length := by
  rcases h with rfl | ⟨rfl, hlast⟩
  · simp
  · cases cs with
    | nil =>
        have hc : c ≠ [] := by simpa using hlast
        have := List.length_pos_iff.mpr hc
        omega
    | cons d ds =>
        simp only [joined_cons, List.length_cons]
        omega

/-- **The loop over components**, up to the end of the path: it counts them as long as they and
    the slash behind them, if there is one, are no more than fit, and it stores no offset that
    does not fit. -/
lemma splitLoop_pieces (length : ℕ) (tail beyond : List UInt8) :
    ∀ (cs : List Name) (before : List UInt8) (j : ℕ)
    (idx : ℕ → ℕ), (∀ c ∈ cs, ∀ b ∈ c, b ≠ 47) → EndsWell cs tail → j ≤ argsSize →
    before.length + (joined 47 cs ++ tail).length = length →
    ∃ t, splitLoop length (joined 47 cs ++ tail).length before.length j
      ⟨before ++ (joined 47 cs ++ tail) ++ beyond, idx⟩
        = (if j + cs.length + tail.length ≤ argsSize then some (j + cs.length) else none, t) ∧
      (j + cs.length + tail.length ≤ argsSize →
        t = ⟨before ++ (joined 0 cs ++ List.replicate tail.length 0) ++ beyond,
        offsets idx before.length j cs⟩) ∧
      ∀ k, argsSize ≤ k → t.argIdxs k = idx k
  | [], before, j, idx, _, hend, hj, hlen => by
      have hoffsets : offsets idx before.length j [] = idx := by
        funext k
        rw [offsets, if_neg]
        simp only [List.length_nil]
        omega
      rcases hend with rfl | ⟨rfl, -⟩
      · -- the slash in last position
        have hset : (before ++ (joined 47 [] ++ [47]) ++ beyond).set before.length 0
            = before ++ [0] ++ beyond := by simp
        have hloop :
            splitLoop length 1 before.length j ⟨before ++ (joined 47 [] ++ [47]) ++ beyond, idx⟩
            = (if j = argsSize then none else some j, ⟨before ++ [0] ++ beyond, idx⟩) := by
          simp only [joined_nil, List.nil_append, List.length_singleton] at hlen
          rw [splitLoop, if_pos (by simp), hset]
          dsimp only
          split_ifs with hfull hlast
          · rfl
          · omega
          · rfl
        refine ⟨⟨before ++ [0] ++ beyond, idx⟩, hloop.trans ?_, fun _ => ?_, fun _ _ => rfl⟩
        · by_cases hfull : j = argsSize
          · simp [hfull]
          · rw [if_neg hfull, if_pos (by simp only [List.length_nil, List.length_singleton]; omega)]
            rfl
        · rw [hoffsets]
          rfl
      · refine ⟨⟨before ++ (joined 47 [] ++ []) ++ beyond, idx⟩, ?_, fun _ => ?_, fun _ _ => rfl⟩
        · rw [if_pos (by simpa using hj)]
          rfl
        · rw [hoffsets]
          rfl
  | c :: cs, before, j, idx, hslash, hend, hj, hlen => by
      have hpos := hend.rest_pos
      simp only [joined_cons, List.length_cons, List.length_append, List.cons_append,
        List.append_assoc] at hlen ⊢
      have hset : (before ++ 47 :: (c ++ (joined 47 cs ++ (tail ++ beyond)))).set before.length 0
          = (before ++ 0 :: c) ++ (joined 47 cs ++ tail) ++ beyond := by simp
      have hstep :
            splitLoop length (c.length + ((joined 47 cs).length + tail.length) + 1) before.length j
            ⟨before ++ 47 :: (c ++ (joined 47 cs ++ (tail ++ beyond))), idx⟩
          =
          if j = argsSize then (none, ⟨(before ++ 0 :: c) ++ (joined 47 cs ++ tail) ++ beyond, idx⟩)
            else splitLoop length (c.length + ((joined 47 cs).length + tail.length))
              (before.length + 1) (j + 1) ⟨(before ++ 0 :: c) ++ (joined 47 cs ++ tail) ++ beyond,
                Function.update idx j (before.length + 1)⟩ := by
        rw [splitLoop, if_pos (by simp), hset]
        dsimp only
        rw [if_pos (show before.length ≠ length - 1 by omega)]
      rw [hstep]
      by_cases hfull : j = argsSize
      · refine ⟨⟨(before ++ 0 :: c) ++ (joined 47 cs ++ tail) ++ beyond, idx⟩, ?_,
          fun hle => by omega, fun _ _ => rfl⟩
        rw [if_pos hfull, if_neg (by omega)]
      · -- over the bytes of the component
        have hskip : ∀ m < c.length, ((before ++ 0 :: c) ++ (joined 47 cs ++ tail) ++ beyond).getD
            (before.length + 1 + m) 0 ≠ 47 := by
          intro m hm
          have hget : ((before ++ 0 :: c) ++ (joined 47 cs ++ tail) ++ beyond).getD
              (before.length + 1 + m) 0 = (c)[m] := by
            rw [List.append_assoc, List.append_assoc, List.getD_eq_getElem?_getD,
              List.getElem?_append_right (by omega), show before.length + 1 + m - before.length
                = m + 1 by omega,
              List.cons_append, List.getElem?_cons_succ, List.getElem?_append_left hm,
              List.getElem?_eq_getElem hm, Option.getD_some]
          rw [hget]
          exact hslash c List.mem_cons_self _ (List.getElem_mem hm)
        rw [if_neg hfull, splitLoop_skip _ _ _ c.length (before.length + 1) _ hskip]
        obtain ⟨t, hloop, ht, hbeyond⟩ :=
          splitLoop_pieces length tail beyond cs (before ++ 0 :: c) (j + 1)
            (Function.update idx j (before.length + 1))
          (fun d hd => hslash d (List.mem_cons_of_mem _ hd)) hend.of_cons
          (by omega) (by simp only [List.length_append, List.length_cons]; omega)
        rw [show (before ++ 0 :: c).length = before.length + 1 + c.length by simp; omega,
          List.length_append] at hloop
        rw [show (before ++ 0 :: c).length = before.length + 1 + c.length by simp; omega,
          offsets_cons] at ht
        refine ⟨t, ?_, fun hle => ?_, fun k hk => ?_⟩
        · rw [hloop, show j + 1 + cs.length = j + (cs.length + 1) by omega]
        · rw [ht (by omega)]
          simp
        · rw [hbeyond k hk, Function.update_of_ne (by omega)]

/-- Component `k` of a tokenised path is the string at its offset. -/
lemma token_offsets (beyond : List UInt8) (idx : ℕ → ℕ) {cs : List Name}
    (hnul : ∀ c ∈ cs, ∀ b ∈ c, b ≠ 0) {k : ℕ} (hk : k < cs.length) :
    (⟨joined 0 cs ++ 0 :: beyond, offsets idx 0 0 cs⟩ : Tokens).token k = cs[k] := by
  have hoff : offsets idx 0 0 cs k = (joined 0 (cs.take k)).length + 1 := by
    rw [offsets, if_pos (by omega)]
    simp
  have hsplit : joined 0 cs = joined 0 (cs.take k) ++
      0 :: (cs[k] ++ joined 0 (cs.drop (k + 1))) := by
    have hcs : cs = cs.take k ++ cs[k] :: cs.drop (k + 1) := by
      rw [← List.drop_eq_getElem_cons hk, List.take_append_drop]
    calc joined 0 cs = joined 0 (cs.take k ++ cs[k] :: cs.drop (k + 1)) := by rw [← hcs]
      _ = joined 0 (cs.take k) ++ 0 :: (cs[k] ++ joined 0 (cs.drop (k + 1))) := by
          rw [joined_append, joined_cons]
  simp only [token, hoff]
  rw [hsplit, List.append_assoc, List.drop_append, List.drop_of_length_le (by omega),
    show (joined 0 (cs.take k)).length + 1 - (joined 0 (cs.take k)).length = 1 by omega,
    List.nil_append, List.cons_append, List.drop_succ_cons, List.drop_zero, List.append_assoc]
  have hname := hnul _ (List.getElem_mem hk)
  -- what follows a component is a NUL: that of the next one, or the terminator
  cases hrest : cs.drop (k + 1) with
  | nil => exact cString_append_zero hname beyond
  | cons d ds => exact cString_append_zero hname _

/-! ### The whole function

`process_path` rejects `.` and `..` after it has split the path, and the buffer and the offsets are
changed by then.  `processPath_pieces` is its result on any components without slashes and NULs. -/

/-- What a component may not be. -/
def IsDots (c : Name) : Prop := c = [46] ∨ c = [46, 46]

instance : DecidablePred IsDots := fun c => inferInstanceAs (Decidable (c = [46] ∨ c = [46, 46]))

lemma joined_no_nul {cs : List Name} (hnul : ∀ c ∈ cs, ∀ b ∈ c, b ≠ 0) :
    ∀ b ∈ joined 47 cs, b ≠ 0 := by
  intro b hb
  obtain ⟨c, hc, hbc⟩ := List.mem_flatMap.mp hb
  rcases List.mem_cons.mp hbc with rfl | hbc
  · decide
  · exact hnul c hc b hbc

/-- **The tokeniser on a path of components**, with or without a slash behind them. -/
theorem processPath_pieces {cs : List Name} {tail : List UInt8} (hslash : ∀ c ∈ cs, ∀ b ∈ c, b ≠ 47)
    (hnul : ∀ c ∈ cs, ∀ b ∈ c, b ≠ 0) (hend : EndsWell cs tail) (hpath : cs ≠ [] ∨ tail ≠ [])
    (beyond : List UInt8) (idx : ℕ → ℕ) :
    ∃ t, processPath ⟨joined 47 cs ++ tail ++ 0 :: beyond, idx⟩
        = (if cs.length + tail.length ≤ argsSize ∧ ∀ c ∈ cs,
          ¬ IsDots c then some cs.length else none, t) ∧
      (cs.length + tail.length ≤ argsSize →
        t = ⟨joined 0 cs ++ 0 :: (List.replicate tail.length 0 ++ beyond), offsets idx 0 0 cs⟩) ∧
      ∀ k, argsSize ≤ k → t.argIdxs k = idx k := by
  have hchars : ∀ b ∈ joined 47 cs ++ tail, b ≠ 0 := by
    intro b hb
    rcases List.mem_append.mp hb with hb | hb
    · exact joined_no_nul hnul b hb
    · rcases hend with rfl | ⟨rfl, -⟩
      · rw [List.mem_singleton.mp hb]
        decide
      · cases hb
  have hlen : strlen (joined 47 cs ++ tail ++ 0 :: beyond) = (joined 47 cs ++ tail).length := by
    rw [strlen, cString_append_zero hchars]
  have hhead : (joined 47 cs ++ tail ++ 0 :: beyond).getD 0 0 = 47 := by
    cases cs with
    | cons c cs => rfl
    | nil =>
        rcases hend with rfl | ⟨rfl, -⟩
        · rfl
        · simp at hpath
  obtain ⟨t, hloop, ht, hbeyond⟩ :=
    splitLoop_pieces (joined 47 cs ++ tail).length tail (0 :: beyond) cs [] 0 idx hslash
    hend (Nat.zero_le _) (by simp)
  simp only [List.nil_append, List.length_nil, Nat.zero_add] at hloop ht
  have hzeros : List.replicate tail.length (0 : UInt8) ++ 0 :: beyond
      = 0 :: (List.replicate tail.length 0 ++ beyond) := by
    rcases hend with rfl | ⟨rfl, -⟩
    · rfl
    · rfl
  rw [List.append_assoc, hzeros] at ht
  refine ⟨t, ?_, ht, hbeyond⟩
  rw [processPath]
  dsimp only
  rw [if_neg (not_not.mpr hhead), hlen, hloop]
  by_cases hsize : cs.length + tail.length ≤ argsSize
  · have htoken : ∀ k (hk : k < cs.length), t.token k = cs[k] := by
      intro k hk
      rw [ht hsize]
      exact token_offsets _ idx hnul hk
    have hdots : ((List.range cs.length).any fun k => t.token k = [46] ∨
        t.token k = [46, 46]) = true ↔ ¬ ∀ c ∈ cs, ¬ IsDots c := by
      simp only [List.any_eq_true, List.mem_range, decide_eq_true_eq, not_forall, not_not]
      constructor
      · rintro ⟨k, hk, hd⟩
        rw [htoken k hk] at hd
        exact ⟨cs[k], List.getElem_mem hk, hd⟩
      · rintro ⟨c, hc, hd⟩
        obtain ⟨k, hk, rfl⟩ := List.getElem_of_mem hc
        exact ⟨k, hk, by rw [htoken k hk]; exact hd⟩
    rw [if_pos hsize]
    dsimp only
    by_cases hall : ∀ c ∈ cs, ¬ IsDots c
    · rw [if_neg fun h => hdots.mp h hall, if_pos ⟨hsize, hall⟩]
    · rw [if_pos (hdots.mpr hall), if_neg fun h => hall h.2]
  · rw [if_neg hsize, if_neg (fun h => hsize h.1)]

/-- **A canonical path is tokenised into its components.** -/
theorem processPath_pathString {cs : List Name} (hnames : ∀ c ∈ cs, IsName c)
    (hsize : cs.length ≤ argsSize) (beyond : List UInt8) (idx : ℕ → ℕ) :
    ∃ t, processPath ⟨pathString cs ++ 0 :: beyond, idx⟩ = (some cs.length, t) ∧
      (∀ k (hk : k < cs.length), t.token k = cs[k]) ∧
      t.argIdxs = offsets idx 0 0 cs ∧ (cs = [] → t.buf = 0 :: 0 :: beyond) := by
  have hslash : ∀ c ∈ cs, ∀ b ∈ c, b ≠ 47 := fun c hc => (hnames c hc).no_slash
  have hnul : ∀ c ∈ cs, ∀ b ∈ c, b ≠ 0 := fun c hc => (hnames c hc).no_nul
  have hdots : ∀ c ∈ cs, ¬ IsDots c := by
    rintro c hc (hdot | hdots)
    · exact (hnames c hc).ne_dot hdot
    · exact (hnames c hc).ne_dots hdots
  -- the path `/` is a slash behind no component
  obtain ⟨tail, hpath, hend, hne, htail⟩ : ∃ tail, pathString cs = joined 47 cs ++ tail ∧
      EndsWell cs tail ∧ (cs ≠ [] ∨ tail ≠ []) ∧ cs.length + tail.length ≤ argsSize := by
    by_cases hcs : cs = []
    · subst hcs
      exact ⟨[47], rfl, Or.inl rfl, Or.inr (by simp), by decide⟩
    · have hlast : cs.getLast? ≠ some [] := fun h => (hnames [] (List.mem_of_getLast? h)).ne_nil rfl
      exact ⟨[], by rw [pathString, if_neg hcs, List.append_nil], Or.inr ⟨rfl, hlast⟩,
        Or.inl hcs, hsize⟩
  obtain ⟨t, hprocess, ht, -⟩ := processPath_pieces hslash hnul hend hne beyond idx
  rw [hpath, hprocess, if_pos ⟨htail, hdots⟩]
  refine ⟨t, rfl, fun k hk => ?_, ?_, ?_⟩
  · rw [ht htail]
    exact token_offsets _ idx hnul hk
  · rw [ht htail]
  · rintro rfl
    rw [ht htail]
    rcases hend with rfl | ⟨rfl, -⟩
    · rfl
    · simp at hne

/-! ### The stale first offset

The path `/` has no component, and the search compares the string at `argIdxs[0]` nevertheless,
which another call has left there.  It is the string behind the first slash of the buffer, or the
whole buffer; for `/` both are empty. -/

/-- Past its first component the loop does not touch the first offset. -/
lemma splitLoop_zero (length : ℕ) : ∀ (rest i j : ℕ) (t : Tokens), 0 < j →
    (splitLoop length rest i j t).2.argIdxs 0 = t.argIdxs 0
  | 0, _, _, _, _ => rfl
  | rest + 1, i, j, t, hj => by
      rw [splitLoop]
      split_ifs
      · rfl
      · rw [splitLoop_zero length rest _ _ _ (by omega)]
        exact Function.update_of_ne hj.ne _ _
      · exact splitLoop_zero length rest _ _ _ hj
      · exact splitLoop_zero length rest _ _ _ hj

/-- After `process_path` the first offset is what it was or one. -/
lemma processPath_zero (t : Tokens) (h : t.argIdxs 0 ≤ 1) : (processPath t).2.argIdxs 0 ≤ 1 := by
  have hloop : t.buf.getD 0 0 = 47 →
      (splitLoop (strlen t.buf) (strlen t.buf) 0 0 t).2.argIdxs 0 ≤ 1 := by
    intro hslash
    cases hlen : strlen t.buf with
    | zero => exact h
    | succ n =>
        rw [splitLoop, if_pos hslash]
        simp only [if_neg (show (0 : ℕ) ≠ argsSize by decide)]
        split_ifs with hlast
        · rw [splitLoop_zero _ _ _ _ _ Nat.one_pos]
          simp
        · -- a path of one byte
          have hn : n = 0 := by omega
          subst hn
          exact h
  unfold processPath
  split_ifs with hslash
  · exact h
  · have hle := hloop (by simpa using hslash)
    revert hle
    rcases splitLoop (strlen t.buf) (strlen t.buf) 0 0 t with ⟨_ | j, t'⟩
    · exact id
    · intro hle
      dsimp only
      split_ifs
      · exact hle
      · exact hle

/-- The path `/` has no component, and what stands at its stale first offset is empty. -/
lemma token_root {t : Tokens} {beyond : List UInt8} (hbuf : t.buf = 0 :: 0 :: beyond)
    (hidx : t.argIdxs 0 ≤ 1) : t.token 0 = [] := by
  rw [token, hbuf]
  interval_cases t.argIdxs 0
  · rfl
  · rfl

end Tokens

end KLRM
