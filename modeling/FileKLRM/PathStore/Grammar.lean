import FileKLRM.PathStore.Tokenise

/-!
# The grammar of paths

What `process_path` should accept, said of the path alone: its components are the pieces behind
its slashes, a slash in last position apart, and there may be at most `ARGS_SIZE` of them, none of
them `.` or `..`.

The capacity is tested before the position of the slash, so that a slash behind 512 components is
one too many: the tokeniser keeps to the grammar exactly for the paths that do not have 512 good
components (`processPath_grammar_iff`).
-/

namespace KLRM

namespace Tokens

/-- The components of a path: what stands behind its slashes, when one in last position is left
    away. -/
def pathComponents (path : List UInt8) : List Name :=
  ((if path.getLast? = some 47 then path.dropLast else path).splitOn 47).tail

/-- A path that the grammar accepts. -/
structure IsPath (path : List UInt8) : Prop where
  slash : path.head? = some 47
  no_dots : ∀ c ∈ pathComponents path, ¬ IsDots c
  size : (pathComponents path).length ≤ argsSize

/-- What `process_path` should do to a path, whatever is behind it in memory and was in `argIdxs`
    before. -/
structure KeepsGrammar (path beyond : List UInt8) (idx : ℕ → ℕ) : Prop where
  rejects_iff : (processPath ⟨path ++ 0 :: beyond, idx⟩).1 = none ↔
    path.head? ≠ some 47 ∨ (∃ c ∈ pathComponents path, IsDots c) ∨
    argsSize < (pathComponents path).length
  counts : ∀ j, (processPath ⟨path ++ 0 :: beyond, idx⟩).1 = some j →
    j = (pathComponents path).length
  tokens : (processPath ⟨path ++ 0 :: beyond, idx⟩).1 ≠ none →
    ∀ k (hk : k < (pathComponents path).length),
      (processPath ⟨path ++ 0 :: beyond, idx⟩).2.token k = (pathComponents path)[k]
  /-- A slash behind a path that does not end in one; the empty path and `/` are not the same
      path. -/
  trailing : path ≠ [] → path.getLast? ≠ some 47 →
    (processPath ⟨path ++ 47 :: 0 :: beyond, idx⟩).1 = (processPath ⟨path ++ 0 :: beyond, idx⟩).1 ∧
      ((processPath ⟨path ++ 0 :: beyond, idx⟩).1 ≠ none → ∀ k < (pathComponents path).length,
        (processPath ⟨path ++ 47 :: 0 :: beyond, idx⟩).2.token k
          = (processPath ⟨path ++ 0 :: beyond, idx⟩).2.token k)
  stores : ∀ k, argsSize ≤ k → (processPath ⟨path ++ 0 :: beyond, idx⟩).2.argIdxs k = idx k

/-! ## Components

Mathlib's `splitOn` is tied to `joined`, on which `FileKLRM.PathStore.Tokenise` says what the
tokeniser does; every path is a list of components behind slashes, with or without one in last
position. -/

/-- A text behind a slash, cut at the slashes. -/
lemma splitOn_joined : ∀ (cs : List Name) (c : Name), (∀ d ∈ c :: cs, ∀ b ∈ d, b ≠ 47) →
    (c ++ joined 47 cs).splitOn 47 = c :: cs
  | [], c, h => by
      rw [joined_nil, List.append_nil, List.splitOn, List.splitOnP_eq_singleton]
      intro b hb
      simpa using h c List.mem_cons_self b hb
  | d :: cs, c, h => by
      have hc : (c.splitOn 47) = [c] := by
        rw [List.splitOn, List.splitOnP_eq_singleton]
        intro b hb
        simpa using h c List.mem_cons_self b hb
      rw [joined_cons, List.splitOn, List.splitOnP_append_cons _ _ (by simp), ← List.splitOn,
        ← List.splitOn, hc, splitOn_joined cs d fun e he => h e (List.mem_cons_of_mem _ he)]
      rfl

lemma splitOn_components {cs : List Name} (hslash : ∀ c ∈ cs, ∀ b ∈ c, b ≠ 47) :
    (joined 47 cs).splitOn 47 = [] :: cs := by
  refine splitOn_joined cs [] ?_
  rintro c (_ | ⟨_, hc⟩)
  · simp
  · exact hslash c hc

/-- Every path that begins with a slash is made of components. -/
lemma exists_joined : ∀ (n : ℕ) (path : List UInt8), path.length ≤ n →
    (path = [] ∨ path.head? = some 47) →
    ∃ cs : List Name, path = joined 47 cs ∧ ∀ c ∈ cs, ∀ b ∈ c, b ≠ 47
  | _, [], _, _ => ⟨[], rfl, by simp⟩
  | 0, b :: path, hn, _ => by simp at hn
  | n + 1, b :: path, hn, hhead => by
      obtain rfl : b = 47 := by simpa using hhead
      have hrest : path.dropWhile (· ≠ 47) = [] ∨ (path.dropWhile (· ≠ 47)).head? = some 47 := by
        cases hdrop : path.dropWhile (· ≠ 47) with
        | nil => exact Or.inl rfl
        | cons c rest =>
            have hc := List.head?_dropWhile_not (fun b => decide (b ≠ 47)) path
            rw [hdrop] at hc
            exact Or.inr (by simpa using hc)
      have hlen : (path.dropWhile (· ≠ 47)).length ≤ n := by
        have := (List.dropWhile_sublist (· ≠ 47) (l := path)).length_le
        simp only [List.length_cons] at hn
        omega
      obtain ⟨cs, hcs, hslash⟩ := exists_joined n _ hlen hrest
      refine ⟨path.takeWhile (· ≠ 47) :: cs, ?_, ?_⟩
      · rw [joined_cons, ← hcs, List.takeWhile_append_dropWhile]
      · rintro c (_ | ⟨_, hc⟩) b hb
        · simpa using List.mem_takeWhile_imp hb
        · exact hslash c hc b hb

/-- The components of a path with a slash in last position. -/
lemma pathComponents_slash {cs : List Name} (hslash : ∀ c ∈ cs, ∀ b ∈ c, b ≠ 47) :
    pathComponents (joined 47 cs ++ [47]) = cs := by
  rw [pathComponents, if_pos (by simp), List.dropLast_concat, splitOn_components hslash]
  rfl

/-- And of one without. -/
lemma pathComponents_joined {cs : List Name} (hslash : ∀ c ∈ cs, ∀ b ∈ c, b ≠ 47)
    (hlast : (joined 47 cs).getLast? ≠ some 47) : pathComponents (joined 47 cs) = cs := by
  rw [pathComponents, if_neg hlast, splitOn_components hslash]
  rfl

lemma getLast?_joined {cs : List Name} (hlast : (joined 47 cs).getLast? ≠ some 47) :
    cs.getLast? ≠ some [] := by
  intro h
  obtain ⟨ds, rfl⟩ := List.getLast?_eq_some_iff.mp h
  simp [joined] at hlast

/-- **The two forms of a path that begins with a slash.** -/
lemma path_cases {path : List UInt8} (hhead : path.head? = some 47) :
    ∃ (cs : List Name) (tail : List UInt8), path = joined 47 cs ++ tail ∧ pathComponents path = cs ∧
      (∀ c ∈ cs, ∀ b ∈ c, b ≠ 47) ∧ EndsWell cs tail ∧ (cs ≠ [] ∨ tail ≠ []) ∧
      (tail = [47] ↔ path.getLast? = some 47) := by
  by_cases hlast : path.getLast? = some 47
  · obtain ⟨front, rfl⟩ := List.getLast?_eq_some_iff.mp hlast
    have hfront : front = [] ∨ front.head? = some 47 := by
      cases front with
      | nil => exact Or.inl rfl
      | cons b rest => exact Or.inr (by simpa using hhead)
    obtain ⟨cs, rfl, hslash⟩ := exists_joined _ front le_rfl hfront
    exact ⟨cs, [47], rfl, pathComponents_slash hslash, hslash, Or.inl rfl,
      Or.inr (by simp), by simp⟩
  · obtain ⟨cs, rfl, hslash⟩ := exists_joined _ path le_rfl (Or.inr hhead)
    have hcs : cs ≠ [] := by
      rintro rfl
      simp at hhead
    exact ⟨cs, [], (List.append_nil _).symm, pathComponents_joined hslash hlast, hslash,
      Or.inr ⟨rfl, getLast?_joined hlast⟩, Or.inl hcs, by simp [hlast]⟩

/-! ## The tokeniser against the grammar

`slots` is how many offsets a path takes, which the code bounds by `ARGS_SIZE`.  It is the number
of components but for a slash in last position, where it is one more. -/

section Accepts

variable {path : List UInt8} {beyond : List UInt8} {idx : ℕ → ℕ}

/-- What does not begin with a slash is rejected, and nothing is changed. -/
lemma processPath_of_head (hhead : path.head? ≠ some 47) {more : List UInt8}
    (hmore : path = [] → more.head? ≠ some 47) :
    processPath ⟨path ++ more, idx⟩ = (none, ⟨path ++ more, idx⟩) := by
  rw [processPath]
  refine if_pos fun h => ?_
  cases path with
  | cons b rest => exact hhead (congrArg some h)
  | nil =>
      cases more with
      | nil => simp at h
      | cons b rest => exact hmore rfl (congrArg some h)

/-- What a path takes up in `argIdxs`, the slash in last position counted. -/
def slots (path : List UInt8) : ℕ :=
  (pathComponents path).length + (if path.getLast? = some 47 then 1 else 0)

/-- What the tokeniser does to a path that begins with a slash. -/
lemma processPath_of_slash (hnul : ∀ b ∈ path, b ≠ 0) (hhead : path.head? = some 47)
    (beyond : List UInt8) (idx : ℕ → ℕ) :
    (processPath ⟨path ++ 0 :: beyond, idx⟩).1
        = (if slots path ≤ argsSize ∧ ∀ c ∈ pathComponents path,
          ¬ IsDots c then some (pathComponents path).length
          else none) ∧
      (slots path ≤ argsSize → ∀ k (hk : k < (pathComponents path).length),
        (processPath ⟨path ++ 0 :: beyond, idx⟩).2.token k = (pathComponents path)[k]) ∧
      ∀ k, argsSize ≤ k → (processPath ⟨path ++ 0 :: beyond, idx⟩).2.argIdxs k = idx k := by
  obtain ⟨cs, tail, rfl, hcs, hslash, hend, hne, htail⟩ := path_cases hhead
  have hchars : ∀ c ∈ cs, ∀ b ∈ c, b ≠ 0 := by
    intro c hc b hb
    exact hnul b (List.mem_append_left _ (List.mem_flatMap.mpr ⟨c, hc, List.mem_cons_of_mem _ hb⟩))
  have hslots : slots (joined 47 cs ++ tail) = cs.length + tail.length := by
    rw [slots, hcs, ← if_congr htail rfl rfl]
    rcases hend with rfl | ⟨rfl, -⟩
    · rfl
    · rfl
  obtain ⟨t, hprocess, ht, hbeyond⟩ := processPath_pieces hslash hchars hend hne beyond idx
  rw [hprocess, hcs, hslots]
  refine ⟨rfl, fun hsize => ?_, hbeyond⟩
  simp only [ht hsize]
  exact fun k hk => token_offsets _ idx hchars hk

end Accepts

/-- A path with `ARGS_SIZE` components that the grammar accepts. -/
structure IsFull (path : List UInt8) : Prop where
  slash : path.head? = some 47
  size : (pathComponents path).length = argsSize
  no_dots : ∀ c ∈ pathComponents path, ¬ IsDots c

lemma IsFull.isPath {path : List UInt8} (h : IsFull path) : IsPath path :=
  ⟨h.slash, h.no_dots, h.size.le⟩

section Grammar

variable {path : List UInt8}

/-- On another path a slash in last position does not matter. -/
lemma size_iff (hhead : path.head? = some 47) (hfull : ¬ IsFull path)
    (hdots : ∀ c ∈ pathComponents path, ¬ IsDots c) :
    (pathComponents path).length ≤ argsSize ↔ (pathComponents path).length + 1 ≤ argsSize := by
  have hne : (pathComponents path).length ≠ argsSize := fun heq => hfull ⟨hhead, heq, hdots⟩
  omega

lemma slots_iff (hhead : path.head? = some 47) (hfull : ¬ IsFull path)
    (hdots : ∀ c ∈ pathComponents path, ¬ IsDots c) :
    slots path ≤ argsSize ↔ (pathComponents path).length ≤ argsSize := by
  have hsize := size_iff hhead hfull hdots
  rw [slots]
  split_ifs
  · exact hsize.symm
  · rfl

/-- The slash behind a path that does not end in one. -/
lemma pathComponents_concat (hlast : path.getLast? ≠ some 47) :
    pathComponents (path ++ [47]) = pathComponents path := by
  rw [pathComponents, pathComponents, if_pos (by simp), if_neg hlast, List.dropLast_concat]

lemma slots_concat (hlast : path.getLast? ≠ some 47) :
    slots (path ++ [47]) = (pathComponents path).length + 1 := by
  rw [slots, pathComponents_concat hlast, if_pos (by simp)]

/-- The tokeniser on that path. -/
lemma processPath_concat (hnul : ∀ b ∈ path, b ≠ 0) (hhead : path.head? = some 47)
    (hlast : path.getLast? ≠ some 47) (beyond : List UInt8) (idx : ℕ → ℕ) :
    (processPath ⟨path ++ 47 :: 0 :: beyond, idx⟩).1
        = (if (pathComponents path).length + 1 ≤ argsSize ∧ ∀ c ∈ pathComponents path, ¬ IsDots c
            then some (pathComponents path).length else none) ∧
      ((pathComponents path).length + 1 ≤ argsSize → ∀ k (hk : k < (pathComponents path).length),
        (processPath ⟨path ++ 47 :: 0 :: beyond, idx⟩).2.token k = (pathComponents path)[k]) := by
  have hnul' : ∀ b ∈ path ++ [47], b ≠ 0 := by
    intro b hb
    rcases List.mem_append.mp hb with hb | hb
    · exact hnul b hb
    · rw [List.mem_singleton.mp hb]
      decide
  have hhead' : (path ++ [47]).head? = some 47 := by simp [hhead]
  obtain ⟨hret, htoken, -⟩ := processPath_of_slash hnul' hhead' beyond idx
  simp only [pathComponents_concat hlast, slots_concat hlast, ← List.append_cons] at hret htoken
  exact ⟨hret, htoken⟩

/-- With a slash behind it a full path is rejected, and without one it is accepted. -/
lemma IsFull.not_keepsGrammar (hfull : IsFull path) (hnul : ∀ b ∈ path, b ≠ 0) (beyond : List UInt8)
    (idx : ℕ → ℕ) : ¬ KeepsGrammar path beyond idx := by
  intro h
  obtain ⟨hret, -, -⟩ := processPath_of_slash hnul hfull.slash beyond idx
  by_cases hlast : path.getLast? = some 47
  · have hslots : ¬ slots path ≤ argsSize := by
      rw [slots, hfull.size, if_pos hlast]
      omega
    rw [if_neg fun hfit => hslots hfit.1] at hret
    rcases h.rejects_iff.mp hret with hhead | ⟨c, hc, hdots⟩ | hsize
    · exact hhead hfull.slash
    · exact hfull.no_dots c hc hdots
    · exact absurd hfull.size hsize.ne'
  · have hslots : slots path ≤ argsSize := by
      rw [slots, hfull.size, if_neg hlast, Nat.add_zero]
    have hfull' : ¬ (pathComponents path).length + 1 ≤ argsSize := by
      rw [hfull.size]
      omega
    have hret' := (processPath_concat hnul hfull.slash hlast beyond idx).1
    rw [if_pos ⟨hslots, hfull.no_dots⟩] at hret
    rw [if_neg fun hfit => hfull' hfit.1] at hret'
    have hne : path ≠ [] := by
      rintro rfl
      exact absurd hfull.slash (by simp)
    have hsame := (h.trailing hne hlast).1
    rw [hret, hret'] at hsame
    cases hsame

lemma keepsGrammar_of_head (hhead : path.head? ≠ some 47) (beyond : List UInt8) (idx : ℕ → ℕ) :
    KeepsGrammar path beyond idx := by
  have hprocess : processPath ⟨path ++ 0 :: beyond, idx⟩ = (none, ⟨path ++ 0 :: beyond, idx⟩) :=
    processPath_of_head hhead fun _ => by simp
  refine ⟨?_, ?_, ?_, fun hne _ => ?_, ?_⟩
  · simp [hprocess, hhead]
  · simp [hprocess]
  · simp [hprocess]
  · have hprocess' :
        processPath ⟨path ++ 47 :: 0 :: beyond, idx⟩ = (none, ⟨path ++ 47 :: 0 :: beyond, idx⟩) :=
      processPath_of_head hhead fun hnil => absurd hnil hne
    simp [hprocess, hprocess']
  · simp [hprocess]

/-- A component `.` or `..` is found wherever it is. -/
lemma keepsGrammar_of_dots (hnul : ∀ b ∈ path, b ≠ 0) (hhead : path.head? = some 47)
    (hdots : ¬ ∀ c ∈ pathComponents path, ¬ IsDots c) (beyond : List UInt8) (idx : ℕ → ℕ) :
    KeepsGrammar path beyond idx := by
  obtain ⟨hret, -, hbeyond⟩ := processPath_of_slash hnul hhead beyond idx
  rw [if_neg fun hfit => hdots hfit.2] at hret
  refine ⟨?_, by simp [hret], by simp [hret], fun _ hlast => ?_, hbeyond⟩
  · have hdots' : ∃ c ∈ pathComponents path, IsDots c := by simpa using hdots
    exact iff_of_true hret (Or.inr (Or.inl hdots'))
  · have hret' := (processPath_concat hnul hhead hlast beyond idx).1
    rw [if_neg fun hfit => hdots hfit.2] at hret'
    exact ⟨hret'.trans hret.symm, fun hne => absurd hret hne⟩

/-- Without one it is the number of components that counts, unless the path is full. -/
lemma keepsGrammar_of_size (hnul : ∀ b ∈ path, b ≠ 0) (hhead : path.head? = some 47)
    (hdots : ∀ c ∈ pathComponents path, ¬ IsDots c) (hfull : ¬ IsFull path) (beyond : List UInt8)
    (idx : ℕ → ℕ) : KeepsGrammar path beyond idx := by
  obtain ⟨hret, htoken, hbeyond⟩ := processPath_of_slash hnul hhead beyond idx
  have hno : ¬ ∃ c ∈ pathComponents path, IsDots c := by simpa using hdots
  simp only [slots_iff hhead hfull hdots] at hret htoken
  by_cases hsize : (pathComponents path).length ≤ argsSize
  · rw [if_pos ⟨hsize, hdots⟩] at hret
    refine ⟨?_, by simp [hret], fun _ => htoken hsize, fun _ hlast => ?_, hbeyond⟩
    · simp [hret, hhead, hno, hsize]
    · obtain ⟨hret', htoken'⟩ := processPath_concat hnul hhead hlast beyond idx
      have hsize' := (size_iff hhead hfull hdots).mp hsize
      rw [if_pos ⟨hsize', hdots⟩] at hret'
      exact ⟨hret'.trans hret.symm,
        fun _ k hk => (htoken' hsize' k hk).trans (htoken hsize k hk).symm⟩
  · rw [if_neg fun hfit => hsize hfit.1] at hret
    refine ⟨?_, by simp [hret], by simp [hret], fun _ hlast => ?_, hbeyond⟩
    · exact iff_of_true hret (Or.inr (Or.inr (by omega)))
    · have hret' := (processPath_concat hnul hhead hlast beyond idx).1
      rw [if_neg fun hfit => hsize (by omega)] at hret'
      exact ⟨hret'.trans hret.symm, fun hne => absurd hret hne⟩

/-- **`process_path` keeps to the grammar exactly on the paths that are not full.** -/
theorem processPath_grammar_iff (hnul : ∀ b ∈ path, b ≠ 0) (beyond : List UInt8) (idx : ℕ → ℕ) :
    KeepsGrammar path beyond idx ↔ ¬ IsFull path := by
  constructor
  · exact fun h hfull => hfull.not_keepsGrammar hnul beyond idx h
  · intro hfull
    by_cases hhead : path.head? = some 47
    · by_cases hdots : ∀ c ∈ pathComponents path, ¬ IsDots c
      · exact keepsGrammar_of_size hnul hhead hdots hfull beyond idx
      · exact keepsGrammar_of_dots hnul hhead hdots beyond idx
    · exact keepsGrammar_of_head hhead beyond idx

end Grammar

/-- The path `/a/`. -/
theorem processPath_grammar_short : KeepsGrammar [47, 97, 47] [] fun _ => 0 :=
  (processPath_grammar_iff (by simp) [] fun _ => 0).mpr fun hfull => absurd hfull.size (by decide)

/-- The path `/a/a/…/a/` with 512 components. -/
def fullPath : List UInt8 := joined 47 (List.replicate argsSize [97]) ++ [47]

lemma pathComponents_fullPath : pathComponents fullPath = List.replicate argsSize [97] := by
  refine pathComponents_slash fun c hc b hb => ?_
  rw [List.eq_of_mem_replicate hc, List.mem_singleton] at hb
  rw [hb]
  decide

lemma fullPath_no_nul : ∀ b ∈ fullPath, b ≠ 0 := by
  intro b hb
  rcases List.mem_append.mp hb with hb | hb
  · refine joined_no_nul (fun c hc b hb => ?_) b hb
    rw [List.eq_of_mem_replicate hc, List.mem_singleton] at hb
    rw [hb]
    decide
  · rw [List.mem_singleton.mp hb]
    decide

lemma isFull_fullPath : IsFull fullPath where
  slash := rfl
  size := by rw [pathComponents_fullPath, List.length_replicate]
  no_dots := by
    intro c hc
    rw [pathComponents_fullPath] at hc
    rw [List.eq_of_mem_replicate hc]
    decide

/-- The grammar accepts it, and the tokeniser does not. -/
theorem processPath_rejects_full :
    IsPath fullPath ∧ (processPath ⟨fullPath ++ [0], fun _ => 0⟩).1 = none ∧
    ¬ KeepsGrammar fullPath [] fun _ => 0 := by
  refine ⟨isFull_fullPath.isPath, ?_, isFull_fullPath.not_keepsGrammar fullPath_no_nul [] _⟩
  rw [(processPath_of_slash fullPath_no_nul isFull_fullPath.slash [] _).1, if_neg]
  rintro ⟨hslots, -⟩
  rw [slots, isFull_fullPath.size, if_pos (by simp [fullPath])] at hslots
  omega

end Tokens

end KLRM
