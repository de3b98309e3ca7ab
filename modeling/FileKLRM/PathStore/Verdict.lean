import FileKLRM.PathStore.Refinement

/-!
# When the verdict is exact

A check should deny what is protected, what lies below a protected directory and what lies above a
protected path, and nothing else.  `path_store_check` decides by where its search stops and
answers `MATCH_ROOT`, the only answer that allows an access, exactly when the root of the trie has
no children.  So it denies every path once some path other than `/` is protected, and allows every
path while only `/` is.

* `Guarded` — what a check should deny, in terms of the protected paths.
* `verdict_exact_iff` — for the abstract verdict; `check_exact_iff` — for the code, in every
  reachable state.
-/

namespace KLRM

/-- `q`, a directory above it or a path below it is in `S`. -/
def Guarded (S : Set (List Name)) (q : List Name) : Prop := ∃ s ∈ S, s <+: q ∨ q <+: s

variable {S : Set (List Name)} {q : List Name}

lemma PathCheckResult.value_eq_zero {r : PathCheckResult} : r.value = 0 ↔ r = .matchRoot := by
  cases r <;> simp [value]

/-- Access is allowed exactly when nothing other than `/` is protected. -/
lemma verdict_eq_matchRoot : verdict S q = .matchRoot ↔ ∀ s ∈ S, s = [] := by
  rw [verdict]
  split_ifs with hS
  · exact iff_of_true rfl hS
  all_goals exact iff_of_false (by simp) hS

/-- The verdict is right in two cases: nothing is protected, or something other than `/` is and
    the path is guarded. -/
lemma verdict_exact_iff :
    ((verdict S q).value ≠ 0 ↔ Guarded S q) ↔ S = ∅ ∨ (∃ s ∈ S, s ≠ []) ∧ Guarded S q := by
  rw [ne_eq, PathCheckResult.value_eq_zero, verdict_eq_matchRoot]
  push Not
  constructor
  · intro h
    by_cases hS : ∃ s ∈ S, s ≠ []
    · exact Or.inr ⟨hS, h.mp hS⟩
    · refine Or.inl (Set.eq_empty_of_forall_notMem fun s hs => hS (h.mpr ⟨s, hs, ?_⟩))
      -- the only path that can be protected is `/`, which lies above every `q`
      have hnil : s = [] := by
        by_contra hne
        exact hS ⟨s, hs, hne⟩
      exact Or.inl (hnil ▸ List.nil_prefix)
  · rintro (rfl | ⟨hS, hg⟩)
    · simp [Guarded]
    · exact iff_of_true hS hg

/-- **When the monitor's verdict is exact.**  After every session, for every query path that the
    inode table does not answer: the check comes back unless `nonce` has been used up, and its
    answer denies exactly the guarded paths if and only if nothing is protected, or a path other
    than `/` is and the query is guarded. -/
theorem check_exact_iff {root : Addr} {calls : List StoreCall} {s : Session}
    (hrun : Run (When StoreCall.Assumed StoreCall.Step) (Session.start root) calls s)
    {c : StoreCall}
    (hc : c.Assumed s) (hop : c.op = .check) (hlook : s.store.lookupInode c.env = false) :
    (s.store.nonce < 2 ^ 64 - 1 → ∃ ret st, c.run s.store = .ok (ret, st)) ∧
      ∀ ret st, c.run s.store = .ok (ret, st) →
        ((ret ≠ 0 ↔ Guarded s.paths c.path) ↔
          s.paths = ∅ ∨ (∃ p ∈ s.paths, p ≠ []) ∧ Guarded s.paths c.path) := by
  have hinv := Session.storeInv hrun
  have hnot : ¬ c.Traverses s.paths := by simp [StoreCall.Traverses, hop]
  refine ⟨fun hnonce => ?_, fun ret st hret => ?_⟩
  · obtain ⟨ret, st, hret, -⟩ := StoreCall.run_eq hinv hc (hinv.lock.mpr hnonce)
    exact ⟨ret, st, hret⟩
  · have hfree : s.store.storeLock = false := by
      rw [Bool.eq_false_iff]
      intro hlocked
      have hfound := (StoreCall.run_locked hinv hc hlocked hret).2.1
      rw [hlook] at hfound
      cases hfound
    obtain ⟨ret', st', hret', -, hans⟩ := StoreCall.run_eq hinv hc hfree
    rw [hret'] at hret
    obtain ⟨rfl, rfl⟩ := Prod.mk.inj (Except.ok.inj hret)
    simp only [StoreCall.Answers, hop] at hans
    rw [hans.2 hlook]
    exact verdict_exact_iff

/-- A check of a path that the oracle does not resolve. -/
def unresolvedCheck (path : List Name) : StoreCall where
  op := .check
  env :=
    { decree := none
      graph := fileGraph
      slot := fun _ => .null
      slab := fun _ => ⟨true, some 0⟩
      fresh := []
      moduleGet := true
      fuel := 0 }
  pathName := pathString path ++ [0]
  path := path

lemma unresolvedCheck_assumed {path : List Name} (h : IsCanonical path) (s : Session) :
    (unresolvedCheck path).Assumed s where
  canonical := h
  examines := ⟨[], rfl⟩
  resolves := by simp [unresolvedCheck]
  allocates := by simp [unresolvedCheck]
  returns := by simp [unresolvedCheck]

/-- While `/` alone is protected the verdict on `/b` is not exact. -/
theorem check_exact_root :
    ∃ s ret st, Run (When StoreCall.Assumed StoreCall.Step) (Session.start 0)
        [fileCall .add [] ⟨0, 2⟩ [1]] s ∧
      (unresolvedCheck [[98]]).run s.store = .ok (ret, st) ∧
      ¬ (ret ≠ 0 ↔ Guarded s.paths [[98]]) := by
  obtain ⟨st, hrun⟩ := run_add_file [] ⟨by simp, by decide⟩ (by simp) (by decide) ⟨0, 2⟩
  have hrun' := Session.assumed_of_below hrun
  have hcheck := unresolvedCheck_assumed
    (isCanonical_singleton (b := 98) (by decide) (by decide) (by decide)) ⟨st, {[]}⟩
  obtain ⟨hinv, hfree⟩ := Session.storeInv_below hrun
  obtain ⟨hret, hexact⟩ := check_exact_iff hrun' hcheck rfl rfl
  obtain ⟨ret, st', hret⟩ := hret (hinv.lock.mp hfree)
  refine ⟨_, ret, st', hrun', hret, ?_⟩
  have := hexact ret st' hret
  simp only [show (unresolvedCheck [[98]]).path = [[98]] from rfl] at this
  rw [this]
  simp

/-- With `/a` protected the access to `/b` is denied, and with `/` protected it is allowed. -/
theorem check_inexact :
    (∃ s st, Run (When StoreCall.Assumed StoreCall.Step) (Session.start 0)
        [fileCall .add [[97]] ⟨0, 5⟩ [1]] s ∧ (unresolvedCheck [[98]]).Assumed s ∧
      (unresolvedCheck [[98]]).run s.store = .ok (PathCheckResult.subMatchDir.value, st) ∧
      ¬ Guarded s.paths [[98]]) ∧
    ∃ s st, Run (When StoreCall.Assumed StoreCall.Step) (Session.start 0)
        [fileCall .add [] ⟨0, 2⟩ [1]] s ∧ (unresolvedCheck [[98]]).Assumed s ∧
      (unresolvedCheck [[98]]).run s.store = .ok (PathCheckResult.matchRoot.value, st) ∧
      Guarded s.paths [[98]] := by
  have hb : IsCanonical [[98]] := isCanonical_singleton (by decide) (by decide) (by decide)
  constructor
  · obtain ⟨st, hrun⟩ := run_add_file [[97]]
      (isCanonical_singleton (by decide) (by decide) (by decide)) (by simp) le_rfl ⟨0, 5⟩
    obtain ⟨hinv, hfree⟩ := Session.storeInv_below hrun
    have hcheck := unresolvedCheck_assumed hb ⟨st, {[[97]]}⟩
    obtain ⟨ret, st', hret, -, hans⟩ := StoreCall.run_eq hinv hcheck hfree
    refine ⟨_, st', Session.assumed_of_below hrun, hcheck, ?_, by simp [Guarded]⟩
    rw [hret, hans.2 rfl]
    simp [verdict, unresolvedCheck]
  · obtain ⟨st, hrun⟩ := run_add_file [] ⟨by simp, by decide⟩ (by simp) (by decide) ⟨0, 2⟩
    obtain ⟨hinv, hfree⟩ := Session.storeInv_below hrun
    have hcheck := unresolvedCheck_assumed hb ⟨st, {[]}⟩
    obtain ⟨ret, st', hret, -, hans⟩ := StoreCall.run_eq hinv hcheck hfree
    refine ⟨_, st', Session.assumed_of_below hrun, hcheck, ?_, by simp [Guarded]⟩
    rw [hret, hans.2 rfl]
    simp [verdict]

end KLRM
