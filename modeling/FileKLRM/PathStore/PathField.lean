import FileKLRM.PathStore.AnyPath
import FileKLRM.PathStore.Grammar

/-!
# A path that fills its field

`pathName` is a field of 4096 bytes, and `process_path` takes the string that starts there.  The
string runs on behind the field when no byte of the field is NUL, and what the tokeniser makes of
it is then decided by the memory there, unless the field alone has it rejected (`Settles`): the
verdict on a string (`processPath_eq_none_iff`) depends on its first byte, on the number of its
slashes and on its components, and of the last two no byte behind the field can take anything
away.
-/

namespace KLRM

namespace Tokens

/-! ## The verdict on any buffer

Rejected or not is a matter of the first byte, the slashes and the components up to the first NUL,
whatever else is in the buffer. -/

/-- The loop over a string does not notice a NUL behind it. -/
lemma splitLoop_terminated (length : ℕ) : ∀ (rest i j : ℕ) (s : List UInt8) (idx : ℕ → ℕ),
    i + rest ≤ s.length → splitLoop length rest i j ⟨s ++ [0], idx⟩
        = ((splitLoop length rest i j ⟨s, idx⟩).1,
        ⟨(splitLoop length rest i j ⟨s, idx⟩).2.buf ++ [0],
        (splitLoop length rest i j ⟨s, idx⟩).2.argIdxs⟩)
  | 0, _, _, _, _, _ => rfl
  | rest + 1, i, j, s, idx, hle => by
      have hget : (s ++ [0]).getD i 0 = s.getD i 0 := by
        rw [List.getD_eq_getElem?_getD, List.getD_eq_getElem?_getD,
          List.getElem?_append_left (by omega)]
      have hset : (s ++ [0]).set i 0 = s.set i 0 ++ [0] := List.set_append_left _ _ (by omega)
      have hlen : i + 1 + rest ≤ (s.set i 0).length := by
        rw [List.length_set]
        omega
      rw [splitLoop, splitLoop]
      dsimp only
      rw [hget, hset]
      split_ifs with hslash hfull hlast
      · rfl
      · exact splitLoop_terminated length rest (i + 1) (j + 1) _ _ hlen
      · exact splitLoop_terminated length rest (i + 1) j _ _ hlen
      · exact splitLoop_terminated length rest (i + 1) j _ _ (by omega)

/-- Nor does the tokeniser. -/
lemma processPath_terminated {s : List UInt8} (hnul : ∀ b ∈ s, b ≠ 0) (idx : ℕ → ℕ) :
    (processPath ⟨s ++ [0], idx⟩).1 = (processPath ⟨s, idx⟩).1 := by
  have hstring : cString s = s := by simpa using cString_append hnul []
  have hlen : strlen (s ++ [0]) = s.length := by rw [strlen, cString_append_zero hnul]
  have hlen' : strlen s = s.length := by rw [strlen, hstring]
  have hhead : (s ++ [0]).getD 0 0 = s.getD 0 0 := by cases s <;> rfl
  unfold processPath
  dsimp only
  rw [hhead, hlen, hlen', splitLoop_terminated s.length s.length 0 0 s idx (by omega)]
  split_ifs with hslash
  · rfl
  · cases splitLoop s.length s.length 0 0 ⟨s, idx⟩ with
    | mk r t =>
        -- at the end of a buffer a token ends as it does at a NUL
        have htoken : ∀ k, (⟨t.buf ++ [0], t.argIdxs⟩ : Tokens).token k = t.token k := by
          intro k
          rw [token, token, List.drop_append]
          cases hn : t.argIdxs k - t.buf.length with
          | zero => exact cString_concat_zero _
          | succ n => simp
        cases r with
        | none => rfl
        | some j =>
            simp only [htoken]
            split_ifs <;> rfl

lemma count_joined : ∀ {cs : List Name}, (∀ c ∈ cs, ∀ b ∈ c, b ≠ 47) →
  (joined 47 cs).count 47 = cs.length
  | [], _ => rfl
  | c :: cs, h => by
      have hc : c.count 47 = 0 := List.count_eq_zero.mpr fun hmem => h c (by simp) 47 hmem rfl
      rw [joined_cons, List.count_cons_self, List.count_append, hc,
        count_joined fun d hd => h d (by simp [hd])]
      simp

/-- Every slash of a path takes up one of the offsets. -/
lemma slots_eq_count {path : List UInt8} (hhead : path.head? = some 47) :
    slots path = path.count 47 := by
  obtain ⟨cs, tail, rfl, hcs, hslash, hend, -, htail⟩ := path_cases hhead
  rw [slots, hcs, ← if_congr htail rfl rfl, List.count_append, count_joined hslash]
  rcases hend with rfl | ⟨rfl, -⟩
  · rfl
  · rfl

/-- **When `process_path` rejects**, whatever the buffer. -/
theorem processPath_eq_none_iff (buf : List UInt8) (idx : ℕ → ℕ) :
    (processPath ⟨buf, idx⟩).1 = none ↔
      (cString buf).head? ≠ some 47 ∨ argsSize < (cString buf).count 47 ∨
      ∃ c ∈ pathComponents (cString buf), IsDots c := by
  have hnul : ∀ b ∈ cString buf, b ≠ 0 := cString_ne_zero
  have hterminated : ∀ beyond, (processPath ⟨cString buf ++ 0 :: beyond, idx⟩).1 = none ↔
      (cString buf).head? ≠ some 47 ∨ argsSize < (cString buf).count 47 ∨
      ∃ c ∈ pathComponents (cString buf), IsDots c := by
    intro beyond
    by_cases hhead : (cString buf).head? = some 47
    · rw [(processPath_of_slash hnul hhead beyond idx).1, slots_eq_count hhead]
      simp only [hhead, ne_eq, not_true_eq_false, false_or, ite_eq_right_iff, reduceCtorEq,
        imp_false, not_and_or, not_le, not_forall, not_not, exists_prop]
    · rw [processPath_of_head hhead fun _ => by simp]
      exact iff_of_true rfl (Or.inl hhead)
  by_cases hend : 0 ∈ buf
  · obtain ⟨beyond, hbuf⟩ := exists_terminator hend
    conv_lhs => rw [hbuf]
    exact hterminated beyond
  · have hbuf : ∀ b ∈ buf, b ≠ 0 := fun b hb hzero => hend (hzero ▸ hb)
    have hstring : cString buf = buf := by simpa using cString_append hbuf []
    rw [← hterminated [], hstring, processPath_terminated hbuf]

/-- What stands behind the terminator decides neither the verdict nor the components. -/
lemma processPath_behind {path : List UInt8} (hnul : ∀ b ∈ path, b ≠ 0)
    (beyond beyond' : List UInt8) (idx idx' : ℕ → ℕ) :
    (processPath ⟨path ++ 0 :: beyond, idx⟩).1 = (processPath ⟨path ++ 0 :: beyond', idx'⟩).1 ∧
      ∀ j, (processPath ⟨path ++ 0 :: beyond, idx⟩).1 = some j →
        (processPath ⟨path ++ 0 :: beyond, idx⟩).2.components j
          = (processPath ⟨path ++ 0 :: beyond', idx'⟩).2.components j := by
  by_cases hhead : path.head? = some 47
  · obtain ⟨hret, htoken, -⟩ := processPath_of_slash hnul hhead beyond idx
    obtain ⟨hret', htoken', -⟩ := processPath_of_slash hnul hhead beyond' idx'
    refine ⟨hret.trans hret'.symm, fun j hj => ?_⟩
    rw [hret] at hj
    split_ifs at hj with haccepts
    obtain rfl := Option.some.inj hj
    refine List.map_congr_left fun k hk => ?_
    rw [htoken haccepts.1 k (List.mem_range.mp hk), htoken' haccepts.1 k (List.mem_range.mp hk)]
  · rw [processPath_of_head hhead fun _ => by simp, processPath_of_head hhead fun _ => by simp]
    exact ⟨rfl, fun j hj => by cases hj⟩

/-! ## Fields without a NUL

`closedComponents` are the components that end inside the field.  More bytes can change the last
component and add others, and nothing else; so a field settles the verdict when these alone are
too many or not allowed. -/

/-- The components between two slashes of a field; the last one may go on behind it. -/
def closedComponents (field : List UInt8) : List Name := (field.splitOn 47).tail.dropLast

/-- The field alone has `process_path` reject the string that starts in it. -/
def Settles (field : List UInt8) : Prop :=
  field.head? ≠ some 47 ∨ argsSize < field.count 47 ∨ ∃ c ∈ closedComponents field, IsDots c

lemma closedComponents_joined {ds : List Name} {l : Name}
    (hslash : ∀ c ∈ ds ++ [l], ∀ b ∈ c, b ≠ 47) :
    closedComponents (joined 47 (ds ++ [l])) = ds := by
  rw [closedComponents, splitOn_components hslash, List.tail_cons, List.dropLast_concat]

/-- A field that begins with a slash: its closed components, and what stands behind its last
    slash. -/
lemma exists_closed {field : List UInt8} (hhead : field.head? = some 47) :
    ∃ (ds : List Name) (l : Name), field = joined 47 (ds ++ [l]) ∧ closedComponents field = ds ∧
      ∀ c ∈ ds ++ [l], ∀ b ∈ c, b ≠ 47 := by
  obtain ⟨cs, rfl, hslash⟩ := exists_joined _ field le_rfl (Or.inr hhead)
  have hcs : cs ≠ [] := by
    rintro rfl
    simp at hhead
  rw [← List.dropLast_append_getLast hcs] at hslash ⊢
  exact ⟨_, _, rfl, closedComponents_joined hslash, hslash⟩

/-- Every piece of a path but the last one is a component. -/
lemma mem_pathComponents {ds : List Name} {l : Name} (hslash : ∀ c ∈ ds ++ [l], ∀ b ∈ c, b ≠ 47) :
    ∀ c ∈ ds, c ∈ pathComponents (joined 47 (ds ++ [l])) := by
  intro c hc
  by_cases hl : l = []
  · subst hl
    rw [joined_append, show joined 47 [[]] = [47] from rfl,
      pathComponents_slash fun d hd => hslash d (List.mem_append_left _ hd)]
    exact hc
  · have hlast : (joined 47 (ds ++ [l])).getLast? ≠ some 47 := by
      rw [joined_append, show joined 47 [l] = 47 :: l by simp [joined], List.getLast?_append,
        List.getLast?_cons, Option.some_or]
      intro h
      refine hslash l (by simp) 47 ?_ rfl
      rw [← Option.some.inj h, List.getLast?_eq_some_getLast hl]
      exact List.getLast_mem hl
    rw [pathComponents_joined hslash hlast]
    exact List.mem_append_left _ hc

/-- The closed components of a field are components of every path that starts with it. -/
lemma mem_pathComponents_of_closed {field : List UInt8} (hhead : field.head? = some 47)
    (more : List UInt8) : ∀ c ∈ closedComponents field, c ∈ pathComponents (field ++ more) := by
  obtain ⟨ds, l, rfl, hclosed, hslash⟩ := exists_closed hhead
  have hds : ∀ c ∈ ds, ∀ b ∈ c, b ≠ 47 := fun c hc => hslash c (List.mem_append_left _ hc)
  -- behind the last slash the path goes on with the memory behind the field
  have hrest : ((47 : UInt8) :: (l ++ more)).head? = some 47 := rfl
  obtain ⟨es, e, hes, -, hslash'⟩ := exists_closed hrest
  have hpath : joined 47 (ds ++ [l]) ++ more = joined 47 ((ds ++ es) ++ [e]) := by
    rw [List.append_assoc, joined_append, joined_append, ← hes]
    simp [joined]
  intro c hc
  rw [hclosed] at hc
  rw [hpath]
  refine mem_pathComponents (fun d hd => ?_) c (List.mem_append_left _ hc)
  rw [List.append_assoc] at hd
  exact (List.mem_append.mp hd).elim (hds d) (hslash' d)

section Field

variable {field : List UInt8}

/-- A field that settles the matter does so whatever is behind it. -/
lemma Settles.rejects (h : Settles field) (hne : field ≠ []) (hnul : ∀ b ∈ field, b ≠ 0)
    (beyond : List UInt8) (idx : ℕ → ℕ) : (processPath ⟨field ++ beyond, idx⟩).1 = none := by
  have hhead : (field ++ cString beyond).head? = field.head? := by
    cases field with
    | nil => exact absurd rfl hne
    | cons b rest => rfl
  rw [processPath_eq_none_iff, cString_append hnul, hhead, List.count_append]
  by_cases hslash : field.head? = some 47
  · rcases h with h | h | ⟨c, hc, hdots⟩
    · exact absurd hslash h
    · exact Or.inr (Or.inl (by omega))
    · exact Or.inr (Or.inr ⟨c, mem_pathComponents_of_closed hslash _ c hc, hdots⟩)
  · exact Or.inl hslash

/-- Any other field can be continued to a path that is rejected, -/
lemma exists_rejected (hnul : ∀ b ∈ field, b ≠ 0) (beyond : List UInt8) (idx : ℕ → ℕ) :
    (processPath ⟨field ++ (List.replicate (argsSize + 1) 47 ++ beyond), idx⟩).1 = none := by
  have hslashes : ∀ b ∈ List.replicate (argsSize + 1) (47 : UInt8), b ≠ 0 := by
    intro b hb
    rw [List.eq_of_mem_replicate hb]
    decide
  rw [processPath_eq_none_iff, cString_append hnul, cString_append hslashes, List.count_append,
    List.count_append, List.count_replicate_self]
  exact Or.inr (Or.inl (by omega))

/-- and to one that is accepted. -/
lemma exists_accepted (h : ¬ Settles field) (hnul : ∀ b ∈ field, b ≠ 0) (beyond : List UInt8)
    (idx : ℕ → ℕ) : (processPath ⟨field ++ 97 :: 0 :: beyond, idx⟩).1 ≠ none := by
  rw [Settles, not_or, not_or, not_not] at h
  obtain ⟨hhead, hcount, hdots⟩ := h
  obtain ⟨ds, l, rfl, hclosed, hslash⟩ := exists_closed hhead
  have hstring : cString (joined 47 (ds ++ [l]) ++ 97 :: 0 :: beyond)
      = joined 47 (ds ++ [l ++ [97]]) := by
    rw [cString_append hnul, cString_cons (by decide), cString_zero, joined_append, joined_append]
    simp [joined]
  have hslash' : ∀ c ∈ ds ++ [l ++ [97]], ∀ b ∈ c, b ≠ 47 := by
    intro c hc b hb
    rcases List.mem_append.mp hc with hc | hc
    · exact hslash c (List.mem_append_left _ hc) b hb
    · rw [List.mem_singleton.mp hc, List.mem_append, List.mem_singleton] at hb
      rcases hb with hb | rfl
      · exact hslash l (by simp) b hb
      · decide
  have hlast : (joined 47 (ds ++ [l ++ [97]])).getLast? ≠ some 47 := by
    rw [joined_append, show joined 47 [l ++ [97]] = 47 :: (l ++ [97]) by simp [joined],
      ← List.cons_append, ← List.append_assoc, List.getLast?_concat]
    decide
  rw [count_joined hslash] at hcount
  rw [hclosed] at hdots
  rw [ne_eq, processPath_eq_none_iff, hstring, pathComponents_joined hslash' hlast,
    count_joined hslash']
  rintro (hhead' | hcount' | ⟨c, hc, hdot⟩)
  · refine hhead' ?_
    cases ds <;> rfl
  · simp only [List.length_append, List.length_singleton] at hcount hcount'
    exact hcount hcount'
  · rcases List.mem_append.mp hc with hc | hc
    · exact hdots ⟨c, hc, hdot⟩
    · rw [List.mem_singleton.mp hc] at hdot
      -- the last component ends in `a`
      rcases hdot with hdot | hdot
      · simpa using congrArg List.getLast? hdot
      · simpa using congrArg List.getLast? hdot

end Field

end Tokens

end KLRM
