import FileKLRM.PathStore.LockBalance

/-!
# What `LOOP_ADD` creates

The loop comes to its end because the child that it has just linked is the one that the next scan
finds, and that rests on `dir_name` holding the whole component with its terminator.  So an
addition creates one node for each component that the trie did not hold, and ends on the last,
exactly when every component fits; a longer one leaves `dir_name`.
-/

namespace KLRM

/-- A node has been added for each component from `held` on, in the next fresh object and under
    the component's name, and the path now leads to `b`. -/
structure Trie.Extends (t : Trie) (cs : List Name) (held : ℕ) (fresh : List Addr) (b : Addr)
    (t' : Trie) : Prop where
  reached : t'.nodeAt cs = some b
  allocations : t'.allocations = (fresh.take (cs.length - held)).reverse ++ t.allocations
  named : ∀ k (hk : k < cs.length), held ≤ k → ∃ a e, fresh[k - held]? = some a ∧
    t'.nodeAt (cs.take (k + 1)) = some a ∧ t'.mem a = some e ∧ e.dirName = cs[k]

namespace Store

/-- `LOOP_ADD` as `path_store_add` comes to it, unless the tokeniser rejects the path. -/
def loopAdd (st : Store) (env : StoreEnv) (pathName : List UInt8) :
    Option (Except Stop (Trie.Created × Trie)) :=
  match st.tokenise (env.examinated pathName) with
  | (none, _, _) => none
  | (some j, buf, st) =>
      some (Trie.create ⟨buf, st.argIdxs⟩ j (argsSize + 1) st.trie.root 0 env.fresh st.trie)

/-- The loop ends on the node of the components, and has created those that the trie did not
    hold. -/
def Creates (st : Store) (env : StoreEnv) (pathName : List UInt8) (cs : List Name) : Prop :=
  ∃ held b t', Deepest {p | (st.trie.nodeAt p).isSome} cs held ∧
    st.loopAdd env pathName = some (.ok (.node b, t')) ∧ st.trie.Extends cs held env.fresh b t'

/-- The store between calls, with names that fit in `dir_name`. -/
def Fits (st : Store) : Prop := st.Sound ∧ st.trie.EveryName fun name => name.length < 1024

variable {st st' : Store} {env : StoreEnv} {pathName : List UInt8} {cs : List Name} {ret : ℤ}

lemma loopAdd_eq (h : st.Sound) (hcs : st.components env pathName = some cs) :
    ∃ tk : Tokens, tk.Spells cs ∧ cs.length ≤ argsSize ∧ st.loopAdd env pathName
      = some (Trie.create tk cs.length (argsSize + 1) st.trie.root 0 env.fresh st.trie) := by
  obtain ⟨idx, -, ⟨buf, hnone, -⟩ | ⟨buf, cs', hcs', hsize, hspells, htok⟩⟩ :=
    st.tokenise_run env pathName h
  · rw [hnone] at hcs
    cases hcs
  · obtain rfl := Option.some.inj (hcs'.symm.trans hcs)
    exact ⟨_, hspells, hsize, by rw [loopAdd, htok]⟩

/-- The components of a canonical path. -/
lemma components_pathString (st : Store) {beyond : List UInt8}
    (hexamines : env.examinated pathName = pathString cs ++ 0 :: beyond) (hok : IsCanonical cs) :
    st.components env pathName = some cs := by
  obtain ⟨t, hrun, htoken, -⟩ := Tokens.processPath_pathString hok.isName hok.size beyond st.argIdxs
  rw [components, hexamines, hrun]
  refine congrArg some (List.ext_getElem (by simp) fun k hk hk' => ?_)
  simp [Tokens.components, htoken k hk']

/-- Short components are created. -/
lemma creates_of_short (h : st.Sound) (hcs : st.components env pathName = some cs) (hnil : [] ∉ cs)
    (hfresh : FreshFor st.trie env.fresh cs.length) (hshort : ∀ c ∈ cs, c.length < 1024) :
    st.Creates env pathName cs := by
  obtain ⟨tk, hspells, hsize, hloop⟩ := loopAdd_eq h hcs
  obtain ⟨N, S, hinv⟩ := h.trie
  obtain ⟨D, t', N', b, hD, hrun, hinv', hb, hgrown⟩ :=
    hinv.create_root hspells hsize hnil hshort hfresh
  have hheld : {p | (st.trie.nodeAt p).isSome} = nodesOf N := Set.ext fun p => by
    simp [hinv.nodeAt_eq]
  refine ⟨D, b, t', by rw [hheld]; exact hD, by rw [hloop, hrun], by rw [hinv'.nodeAt_eq, hb],
    hgrown.allocations,
    fun k hk hle => ?_⟩
  have hnode := hgrown.new k hle hk
  have hlt : k - D < env.fresh.length := by
    have := hfresh.enough
    omega
  rw [List.getElem?_eq_getElem hlt] at hnode ⊢
  obtain ⟨e, he, hok⟩ := hinv'.entry hnode
  obtain ⟨-, -, -, hname, -⟩ := hok.up (cs.take k) cs[k] (take_concat_getElem hk).symm
  exact ⟨_, e, rfl, by rw [hinv'.nodeAt_eq, hnode], he, hname⟩

/-- And components that are there at the end are short. -/
lemma short_of_creates (h : st.Fits) (hcs : st.components env pathName = some cs)
    (hfresh : FreshFor st.trie env.fresh 0) (hcreates : st.Creates env pathName cs) :
    ∀ c ∈ cs, c.length < 1024 := by
  obtain ⟨held, b, t', -, hrun, hext⟩ := hcreates
  obtain ⟨tk, hspells, hsize, hloop⟩ := loopAdd_eq h.1 hcs
  rw [hloop] at hrun
  replace hrun := Option.some.inj hrun
  obtain ⟨N, S, hinv⟩ := h.1.trie
  obtain ⟨N', hinv', -, -⟩ := hinv.create_run hspells hsize hfresh hrun
  have hnames := h.2.create (fun _ _ hlt => hlt) hrun
  intro c hc
  obtain ⟨k, hk, rfl⟩ := List.getElem_of_mem hc
  have hthere : (N' (cs.take (k + 1))).isSome := by
    refine hinv'.isSome_above (List.take_prefix _ _) ?_
    rw [← hinv'.nodeAt_eq, hext.reached]
    rfl
  obtain ⟨a, ha⟩ := Option.isSome_iff_exists.mp hthere
  obtain ⟨e, he, hok⟩ := hinv'.entry ha
  obtain ⟨-, -, -, hname, -⟩ := hok.up (cs.take k) cs[k] (take_concat_getElem hk).symm
  rw [← hname]
  exact hnames a e he

end Store

/-! ## Every reachable trie

The names in the trie of a store that calls have led to are short enough to fit; so the loop comes
to its end for a path exactly when the components of that path do. -/

/-- A call that returns makes no name that does not fit. -/
lemma StoreCall.run_names {c : StoreCall} {st st' : Store} {ret : ℤ} {P : Name → Prop}
    (hP : ∀ name, name ≠ [] → name.length < 1024 → P name) (h : st.trie.EveryName P)
    (hrun : c.run st = .ok (ret, st')) : st'.trie.EveryName P := by
  cases hop : c.op with
  | add =>
      simp only [run, hop, Store.pathStoreAdd, Store.tokenise] at hrun
      cases hj : (Tokens.processPath ⟨c.env.examinated c.pathName, st.argIdxs⟩).1 with
      | none =>
          simp only [hj] at hrun
          obtain ⟨-, rfl⟩ := Prod.mk.inj (Except.ok.inj hrun)
          exact h
      | some j =>
          simp only [hj] at hrun
          refine (Store.addLocked_names hP ?_ (Store.locked_run hrun)).1
          exact h
  | rm =>
      simp only [run, hop, Store.pathStoreRm, Store.tokenise] at hrun
      cases hj : (Tokens.processPath ⟨c.env.examinated c.pathName, st.argIdxs⟩).1 with
      | none =>
          simp only [hj] at hrun
          obtain ⟨-, rfl⟩ := Prod.mk.inj (Except.ok.inj hrun)
          exact h
      | some j =>
          simp only [hj] at hrun
          refine (Store.rmLocked_names ?_ (Store.locked_run hrun)).1
          exact h
  | check =>
      simp only [run, hop] at hrun
      cases hcheck : st.pathStoreCheck c.env c.pathName with
      | error stop => simp [hcheck, Except.map] at hrun
      | ok r =>
          simp only [hcheck, Except.map, Except.ok.injEq, Prod.mk.injEq] at hrun
          obtain ⟨idx, -, hst⟩ := Store.pathStoreCheck_offsets hcheck
          rw [← hrun.2, hst]
          exact h

/-- One event; the lock may have been let go of, whatever the calls before have left. -/
def StoreEvent.Unlocked (st : Store) (ev : StoreEvent) (st' : Store) : Prop :=
  ∃ lock, ev.Step { st with storeLock := lock } st'

lemma Store.fits_setup (root : Addr) : (Store.setup root).Fits := by
  refine ⟨Store.sound_setup root, fun a e he => ?_⟩
  simp only [Store.setup, Function.update_apply] at he
  split_ifs at he
  rw [← Option.some.inj he]
  norm_num

lemma StoreEvent.Unlocked.fits {st st' : Store} {ev : StoreEvent} (h : st.Fits)
    (hstep : ev.Unlocked st st') : st'.Fits := by
  obtain ⟨lock, hstep⟩ := hstep
  have hsound : ({ st with storeLock := lock } : Store).Sound := ⟨h.1.trie, h.1.offset⟩
  refine ⟨(hstep.storeLock_iff hsound).1, ?_⟩
  cases ev with
  | refresh =>
      obtain ⟨-, rfl⟩ := hstep
      exact h.2
  | call c =>
      obtain ⟨-, ret, hrun⟩ := hstep
      have hnames : ({ st with storeLock := lock } : Store).trie.EveryName fun name =>
        name.length < 1024 := h.2
      exact StoreCall.run_names (fun _ _ hlt => hlt) hnames hrun

/-- **When `LOOP_ADD` creates what it should**: on every trie that calls lead to and every path
    with components none of which is empty, exactly when each has at most 1023 bytes. -/
theorem loopAdd_creates_iff {root : Addr} {events : List StoreEvent} {st : Store} {env : StoreEnv}
    {pathName : List UInt8} {cs : List Name}
    (hrun : Run StoreEvent.Unlocked (Store.setup root) events st)
    (hcs : st.components env pathName = some cs)
    (hnil : [] ∉ cs) (hfresh : FreshFor st.trie env.fresh cs.length) :
    st.Creates env pathName cs ↔ ∀ c ∈ cs, c.length ≤ 1023 := by
  have hfits : st.Fits := hrun.invariant (P := Store.Fits) (fun _ _ _ h hstep => hstep.fits h)
    (Store.fits_setup root)
  have hzero : FreshFor st.trie env.fresh 0 := ⟨Nat.zero_le _, hfresh.nodup, hfresh.free⟩
  simp only [← Nat.lt_succ_iff]
  exact ⟨Store.short_of_creates hfits hcs hzero, Store.creates_of_short hfits.1 hcs hnil hfresh⟩

/-- The creation of `/a` in the empty store. -/
theorem loopAdd_creates_iff_a :
    (Store.setup 0).Creates (unresolvedCall .add [47, 97, 0] [1]).env [47, 97, 0] [[97]] ↔
      ∀ c ∈ [[97]], (c : Name).length ≤ 1023 :=
  loopAdd_creates_iff (.nil (Store.setup 0)) rfl (by simp)
    ⟨le_rfl, List.nodup_singleton _, by simp [unresolvedCall, Store.setup]⟩

/-- A component of 1024 bytes. -/
def fullName : Name := List.replicate 1024 97

lemma length_fullName : fullName.length = 1024 := List.length_replicate

lemma fullName_canonical : IsCanonical [fullName] where
  isName := by
    intro c hc
    rw [List.mem_singleton.mp hc]
    have hmem : ∀ b ∈ fullName, b = 97 := fun b hb => List.eq_of_mem_replicate hb
    refine ⟨fun hnil => ?_, fun b hb => ?_, fun b hb => ?_, fun hdot => ?_, fun hdots => ?_⟩
    · exact absurd (congrArg List.length hnil) (by rw [length_fullName]; decide)
    · rw [hmem b hb]
      decide
    · rw [hmem b hb]
      decide
    · exact absurd (congrArg List.length hdot) (by rw [length_fullName]; decide)
    · exact absurd (congrArg List.length hdots) (by rw [length_fullName]; decide)
  size := by
    rw [List.length_singleton]
    decide

/-- The addition of a path of that component alone leaves `dir_name`. -/
theorem loopAdd_fullName :
    (Store.setup 0).components (unresolvedCall .add (pathString [fullName] ++ [0]) [1]).env
        (pathString [fullName] ++ [0]) = some [fullName] ∧
      (Store.setup 0).loopAdd (unresolvedCall .add (pathString [fullName] ++ [0]) [1]).env
        (pathString [fullName] ++ [0]) = some (.error .outOfBounds) ∧
      ¬ (Store.setup 0).Creates (unresolvedCall .add (pathString [fullName] ++ [0]) [1]).env
        (pathString [fullName] ++ [0]) [fullName] := by
  have hcs : (Store.setup 0).components (unresolvedCall .add (pathString [fullName] ++ [0]) [1]).env
      (pathString [fullName] ++ [0]) = some [fullName] :=
    Store.components_pathString _
      (show (unresolvedCall .add (pathString [fullName] ++ [0]) [1]).env.examinated
        (pathString [fullName] ++ [0])
        = pathString [fullName] ++ 0 :: [] from rfl) fullName_canonical
  obtain ⟨tk, hspells, -, hloop⟩ := Store.loopAdd_eq (Store.sound_setup 0) hcs
  have hstop : Trie.create tk 1 (argsSize + 1) 0 0 [1] (Store.setup 0).trie
      = .error .outOfBounds := by
    have hsearch : (Store.setup 0).trie.search tk 1 (argsSize + 1) 0 0 = .ok (0, 0) := rfl
    have hmem : (Store.setup 0).trie.mem 0 = some ⟨none, [47], [], 0⟩ := rfl
    rw [Trie.create, hsearch]
    simp only [hspells.token 0 (by simp), List.getElem_cons_zero, hmem]
    rw [if_neg (by decide), if_neg (List.ne_nil_of_length_pos (by rw [length_fullName]; decide)),
      if_pos length_fullName.ge]
  have hleaves :
      (Store.setup 0).loopAdd (unresolvedCall .add (pathString [fullName] ++ [0]) [1]).env
      (pathString [fullName] ++ [0]) = some (.error .outOfBounds) :=
      hloop.trans (congrArg some hstop)
  refine ⟨hcs, hleaves, ?_⟩
  rintro ⟨held, b, t', -, hrun, -⟩
  rw [hleaves] at hrun
  cases hrun

end KLRM
