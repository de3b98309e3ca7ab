import FileKLRM.Core.Transition
import FileKLRM.PathStore.TrieOperations

/-!
# The path store refines the set of protected paths

A session is a store together with the paths that were added and not since removed.  Calls of the
three operations change the store as the code does and the set as their names say; `StoreInv`
relates the two, and each operation has one lemma that says what it answers and that the relation
is kept.

`verdict` is what a check of a path should answer, in terms of the set alone.
-/

namespace KLRM

/-! ## The abstract verdict

By where the path stands to the protected ones: above one of them, among them, below one, or none
of these. -/

open Classical in
/-- The answer for `q` when the paths in `S` are protected and the inode table says nothing. -/
noncomputable def verdict (S : Set (List Name)) (q : List Name) : PathCheckResult :=
  if ∀ s ∈ S, s = [] then .matchRoot
  else if ∃ s ∈ S, q <+: s ∧ s ≠ q then .fullMatchDir
  else if q ∈ S then .fullMatchLeaf
  else if ∃ s ∈ S, s <+: q ∧ ∀ s' ∈ S, s <+: s' → s' = s then .subMatchLeaf
  else .subMatchDir

/-- The verdict can be read off the node where the way of `q` ends. -/
lemma verdict_of_deepest {S : Set (List Name)} {q : List Name} {D : ℕ}
    (hD : Deepest (prefixClosure S) q D) {leaf root : Prop} [Decidable leaf] [Decidable root]
    (hleaf : leaf ↔ IsLeaf (prefixClosure S) (q.take D)) (hroot : root ↔ q.take D = []) :
    verdict S q =
      if root ∧ leaf then .matchRoot
      else if D = q.length then (if leaf then .fullMatchLeaf else .fullMatchDir)
      else if leaf then .subMatchLeaf else .subMatchDir := by
  classical
  rw [verdict]
  by_cases hS : ∀ s ∈ S, s = []
  · -- only the root can be a node
    have hnil : q.take D = [] := by
      rcases hD.mem with hnil | ⟨s, hs, hp⟩
      · exact hnil
      · exact List.prefix_nil.mp (hS s hs ▸ hp)
    rw [if_pos hS, if_pos ⟨hroot.mpr hnil, hleaf.mpr (hnil ▸ isLeaf_nil.mpr hS)⟩]
  · have hnot : ¬ (root ∧ leaf) := by
      rintro ⟨hr, hl⟩
      exact hS (isLeaf_nil.mp (hroot.mp hr ▸ hleaf.mp hl))
    rw [if_neg hS, if_neg hnot]
    by_cases hj : D = q.length
    · have hq := hD.eq_length_iff.mp hj
      subst hj
      rw [List.take_length, isLeaf_prefixClosure] at hleaf
      rw [if_pos rfl]
      by_cases hbelow : ∃ s ∈ S, q <+: s ∧ s ≠ q
      · rw [if_pos hbelow, if_neg]
        obtain ⟨s, hs, hp, hne⟩ := hbelow
        exact fun hl => hne (hleaf.mp hl s hs hp)
      · have hall : ∀ s ∈ S, q <+: s → s = q := by
          intro s hs hp
          by_contra hne
          exact hbelow ⟨s, hs, hp, hne⟩
        have hmem : q ∈ S := by
          refine mem_of_isLeaf hq ?_ (isLeaf_prefixClosure.mpr hall)
          rintro rfl
          exact hS fun s hs => hall s hs List.nil_prefix
        rw [if_pos (hleaf.mpr hall), if_neg hbelow, if_pos hmem]
    · have hlt : D < q.length := lt_of_le_of_ne hD.le hj
      have hq : q ∉ prefixClosure S := fun hq => hj (hD.eq_length_iff.mpr hq)
      rw [hD.isLeaf_iff hlt hS] at hleaf
      rw [if_neg hj, if_neg, if_neg]
      · exact if_congr hleaf.symm rfl rfl
      · exact fun hmem => hq (mem_prefixClosure_of_mem hmem)
      · rintro ⟨s, hs, hp, -⟩
        exact hq (Or.inr ⟨s, hs, hp⟩)

/-! ## Calls and sessions

`StoreCall` has the path, and for the operations on inodes what the oracle resolves it to.
`Assumed` is what a caller must see to: canonical paths with components that fit, objects for the
nodes, and room in `children_num`. -/

inductive StoreOp
  | add
  | rm
  | check
deriving DecidableEq, Repr

/-- A call with what the kernel answers to it; `path` is the canonical path that is looked for. -/
structure StoreCall where
  op : StoreOp
  env : StoreEnv
  pathName : List UInt8
  path : List Name

/-- The store, and the paths that were added and not since removed. -/
structure Session where
  store : Store
  paths : Set (List Name)

namespace StoreCall

/-- What a call returns, and the store after it. -/
def run (c : StoreCall) (st : Store) : Except Stop (ℤ × Store) :=
  match c.op with
  | .add => st.pathStoreAdd c.env c.pathName
  | .rm => st.pathStoreRm c.env c.pathName
  | .check => (st.pathStoreCheck c.env c.pathName).map fun r => (r.1.value, r.2)

/-- What a call means for the set. -/
def effect (c : StoreCall) (S : Set (List Name)) : Set (List Name) :=
  match c.op with
  | .add => insert c.path S
  | .rm => S \ {c.path}
  | .check => S

/-- The call gets to a traversal of the inodes. -/
def Traverses (c : StoreCall) (S : Set (List Name)) : Prop :=
  c.op = .add ∨ c.op = .rm ∧ c.path ∈ S

/-- The traversal from the inode `i` with the number `nonce`. -/
def traverse (c : StoreCall) (nonce : ℕ) (i : Inode) (stores : List StoreFs) :
    Except Stop (List StoreFs) :=
  match c.op with
  | .add => storeIterateAdd c.env.graph c.env.slot c.env.slab nonce c.env.fuel i stores
  | .rm => storeIterateRm c.env.graph c.env.slot nonce c.env.fuel i stores
  | .check => .ok stores

/-- What is assumed of a call: the string that is examined is the canonical path, additions and
    removals are of paths that the oracle resolves, allocations succeed, and a traversal returns. -/
structure Assumed (s : Session) (c : StoreCall) : Prop where
  canonical : IsCanonical c.path
  examines : ∃ beyond, c.env.examinated c.pathName = pathString c.path ++ 0 :: beyond
  resolves : c.op ≠ .check → c.env.decree.isSome ∧ ∀ name ∈ c.path, name.length ≤ 300
  allocates : c.op = .add → FreshFor s.store.trie c.env.fresh c.path.length
  returns : c.Traverses s.paths → ∀ d, c.env.decree = some d →
    ∃ stores, c.traverse (s.store.nonce + 1) d.inode s.store.fsStores = .ok stores

/-- Moreover `nonce` stays below `ULLONG_MAX`. -/
def AssumedBelow (s : Session) (c : StoreCall) : Prop :=
  c.Assumed s ∧ (c.Traverses s.paths → s.store.nonce + 1 < 2 ^ 64 - 1)

/-- One call of a session. -/
def Step (s : Session) (c : StoreCall) (s' : Session) : Prop :=
  (∃ ret, c.run s.store = .ok (ret, s'.store)) ∧ s'.paths = c.effect s.paths

end StoreCall

/-- The session after `setup_path_store`. -/
def Session.start (root : Addr) : Session := ⟨Store.setup root, ∅⟩

/-! ## The invariant

The trie is a trie of the protected paths, tight, and the lock is free; nothing is said of the
tables, which no operation on the trie reads. -/

/-- The trie is that of the set. -/
def Trie.IsTrieOf (t : Trie) (S : Set (List Name)) : Prop := ∃ N, TrieInv t N S ∧ Tight N S

lemma Trie.IsTrieOf.represents {t : Trie} {S : Set (List Name)} (h : t.IsTrieOf S) :
    t.Represents S := by
  obtain ⟨N, hinv, ht⟩ := h
  exact hinv.represents ht

/-- The store between two calls.  The lock is free until `nonce` is used up. -/
structure StoreInv (st : Store) (S : Set (List Name)) : Prop where
  trie : st.trie.IsTrieOf S
  offset : st.argIdxs 0 ≤ 1
  lock : st.storeLock = false ↔ st.nonce < 2 ^ 64 - 1

lemma isTrieOf_setup (root : Addr) : (Store.setup root).trie.IsTrieOf ∅ := by
  have hmem : (Store.setup root).trie.mem
      = Function.update (fun _ => none) root (some ⟨none, [47], [], 0⟩) := rfl
  have hpath : ∀ {p : List Name} {a : Addr}, (if p = [] then some root else none) = some a →
      p = [] ∧ a = root := by
    intro p a hp
    split_ifs at hp with hnil
    exact ⟨hnil, (Option.some.inj hp).symm⟩
  refine ⟨fun p => if p = [] then some root else none, ⟨if_pos rfl, ?_, ?_, ?_, by simp, ?_⟩, ?_⟩
  · intro p q a hp hq
    rw [(hpath hp).1, (hpath hq).1]
  · intro p a hp
    obtain ⟨rfl, rfl⟩ := hpath hp
    refine ⟨_, by rw [hmem, Function.update_self], ⟨by norm_num, Nat.zero_mod _, List.nodup_nil⟩,
      by simp, ?_, by simp⟩
    exact iff_of_false (by rw [StoreEntry.explicited_iff]; norm_num) (Set.notMem_empty _)
  · intro a e ha
    rw [hmem, Function.update_apply] at ha
    split_ifs at ha with har
    exact ⟨[], by simp [har]⟩
  · refine ⟨List.nodup_singleton root, fun a => ?_⟩
    rw [hmem, Function.update_apply, show (Store.setup root).trie.allocations = [root] from rfl,
      List.mem_singleton]
    split_ifs with har
    · simp [har]
    · simp [har]
  · intro p hp
    obtain ⟨a, ha⟩ := Option.isSome_iff_exists.mp hp
    exact Or.inl (hpath ha).1

lemma storeInv_setup (root : Addr) : StoreInv (Store.setup root) ∅ :=
  ⟨isTrieOf_setup root, Nat.zero_le _, iff_of_true rfl (by norm_num [Store.setup])⟩

/-! ## One lemma an operation

The sections under the lock on a store that meets the invariant: what they return, and the trie
that they leave. -/

namespace Store

variable {st : Store} {S : Set (List Name)} {cs : List Name} {env : StoreEnv} {buf : List UInt8}

/-- The tokeniser, on a canonical path. -/
lemma tokenise_eq (st : Store) (hoff : st.argIdxs 0 ≤ 1) (hcs : IsCanonical cs)
    (beyond : List UInt8) : ∃ buf idx, st.tokenise (pathString cs ++ 0 :: beyond)
        = (some cs.length, buf, { st with argIdxs := idx }) ∧
      Tokens.Spells ⟨buf, idx⟩ cs ∧ idx 0 ≤ 1 := by
  obtain ⟨⟨buf, idx⟩, hrun, htoken, hidx, hroot⟩ :=
    Tokens.processPath_pathString hcs.isName hcs.size beyond st.argIdxs
  have hzero := Tokens.processPath_zero ⟨pathString cs ++ 0 :: beyond, st.argIdxs⟩ hoff
  rw [hrun] at hzero
  refine ⟨buf, idx, by simp only [tokenise, hrun], ⟨htoken, fun hnil => ?_⟩, hzero⟩
  exact Tokens.token_root (hroot hnil) hzero

/-- The release of the lock, for a `nonce` that has just been counted up. -/
lemma unlock_eq (st : Store) (env : StoreEnv) (hfree : st.storeLock = false)
    (hle : st.nonce ≤ 2 ^ 64 - 1) : ∃ lock scheduled,
      st.unlock env = { st with storeLock := lock, refreshScheduled := scheduled } ∧
      (lock = false ↔ st.nonce < 2 ^ 64 - 1) := by
  rw [unlock]
  split_ifs with hmax
  · exact ⟨true, _, rfl, iff_of_false (by simp) (by omega)⟩
  · exact ⟨false, st.refreshScheduled, by rw [← hfree], iff_of_true rfl (by omega)⟩

/-- `path_store_add` under the lock. -/
lemma addLocked_eq (st : Store) (h : st.trie.IsTrieOf S) (htk : Tokens.Spells ⟨buf, st.argIdxs⟩ cs)
    (hcs : IsCanonical cs) (hshort : ∀ c ∈ cs, c.length ≤ 300) {d : PathDecree}
    (hd : env.decree = some d) (hfresh : FreshFor st.trie env.fresh cs.length)
    (hnonce : st.nonce < 2 ^ 64 - 1) {stores : List StoreFs}
    (hstores : storeIterateAdd env.graph env.slot env.slab (st.nonce + 1) env.fuel
      d.inode st.fsStores = .ok stores) :
    ∃ t, addLocked env buf cs.length st
        = .ok (0, { st with trie := t, nonce := st.nonce + 1, fsStores := stores }.unlock env) ∧
      t.IsTrieOf (insert cs S) := by
  obtain ⟨N, hinv, ht⟩ := h
  obtain ⟨D, t, N', b, -, hcreate, hinv', hb, hgrown⟩ :=
    hinv.create_root htk hcs.size hcs.nil_notMem
    (fun c hc => (hshort c hc).trans_lt (by norm_num)) hfresh
  obtain ⟨e, he, -⟩ := hinv'.entry hb
  refine ⟨t.write b e.setExplicited, ?_, N', hinv'.setExplicited hb he, fun q hq => ?_⟩
  · rw [addLocked, hcreate]
    simp only [he, hd, Nat.mod_eq_of_lt (show st.nonce + 1 < 2 ^ 64 by omega), hstores]
  · rw [mem_prefixClosure_insert]
    exact ((hgrown.nodes q).mp hq).imp (ht q) id

/-- Where the search of `path_store_rm` and `path_store_check` ends. -/
lemma search_eq (h : st.trie.IsTrieOf S) (htk : Tokens.Spells ⟨buf, st.argIdxs⟩ cs)
    (hcs : IsCanonical cs) :
    ∃ N D b e, TrieInv st.trie N S ∧ Tight N S ∧
      st.trie.search ⟨buf, st.argIdxs⟩ cs.length (argsSize + 1) st.trie.root 0 = .ok (b, D) ∧
      Deepest (prefixClosure S) cs D ∧ N (cs.take D) = some b ∧ st.trie.mem b = some e := by
  obtain ⟨N, hinv, ht⟩ := h
  obtain ⟨D, b, hsearch, hD, hb⟩ := hinv.search_root htk hcs.size
  obtain ⟨e, he, -⟩ := hinv.entry hb
  have hnodes : nodesOf N = prefixClosure S := Set.ext fun q => hinv.tight_iff ht
  exact ⟨N, D, b, e, hinv, ht, hsearch, hnodes ▸ hD, hb, he⟩

/-- `path_store_rm` under the lock, for a protected path. -/
lemma rmLocked_member (st : Store) (h : st.trie.IsTrieOf S)
    (htk : Tokens.Spells ⟨buf, st.argIdxs⟩ cs)
    (hcs : IsCanonical cs) (hmem : cs ∈ S) {d : PathDecree} (hd : env.decree = some d)
    (hnonce : st.nonce < 2 ^ 64 - 1) {stores : List StoreFs}
    (hstores : storeIterateRm env.graph env.slot (st.nonce + 1) env.fuel d.inode st.fsStores
        = .ok stores) :
    ∃ t, rmLocked env buf cs.length st
        = .ok (0, { st with trie := t, nonce := st.nonce + 1, fsStores := stores }.unlock env) ∧
      t.IsTrieOf (S \ {cs}) := by
  obtain ⟨N, D, b, e, hinv, ht, hsearch, hD, hb, he⟩ := search_eq h htk hcs
  obtain rfl : D = cs.length := hD.eq_length_iff.mpr (mem_prefixClosure_of_mem hmem)
  rw [List.take_length] at hb
  obtain ⟨t, N', ht', hinv', htight⟩ := hinv.deactivate_eq ht hb he hcs.size
  refine ⟨t, ?_, N', hinv', htight⟩
  have hflag : e.explicited = true := (hinv.entry_of_mem hb he).explicited.mpr hmem
  rw [rmLocked, hsearch]
  simp only [he, hflag, uncount, hd,
    Nat.mod_eq_of_lt (show st.nonce + 1 < 2 ^ 64 by omega), hstores]
  simp only [ne_eq, not_true_eq_false, if_false, Bool.not_true, Bool.false_eq_true,
    bind, Except.bind, ht']

/-- `path_store_rm` under the lock, for a path that is not protected. -/
lemma rmLocked_absent (env : StoreEnv) (st : Store) (h : st.trie.IsTrieOf S)
    (htk : Tokens.Spells ⟨buf, st.argIdxs⟩ cs)
    (hcs : IsCanonical cs) (hmem : cs ∉ S) : rmLocked env buf cs.length st = .ok (1, st) := by
  obtain ⟨N, D, b, e, hinv, ht, hsearch, hD, hb, he⟩ := search_eq h htk hcs
  rw [rmLocked, hsearch]
  dsimp only
  split_ifs with hj
  · rfl
  · obtain rfl : D = cs.length := not_not.mp hj
    rw [List.take_length] at hb
    have hflag : e.explicited = false := by
      rw [Bool.eq_false_iff, ne_eq, (hinv.entry_of_mem hb he).explicited]
      exact hmem
    simp [he, hflag]

/-- `path_store_check` under the lock. -/
lemma checkLocked_eq (st : Store) (h : st.trie.IsTrieOf S)
    (htk : Tokens.Spells ⟨buf, st.argIdxs⟩ cs)
    (hcs : IsCanonical cs) : checkLocked buf cs.length st = .ok (verdict S cs) := by
  obtain ⟨N, D, b, e, hinv, ht, hsearch, hD, hb, he⟩ := search_eq h htk hcs
  have hleaf : e.children = [] ↔ IsLeaf (prefixClosure S) (cs.take D) := by
    rw [hinv.children_eq_nil hb he, show nodesOf N = prefixClosure S from
      Set.ext fun q => hinv.tight_iff ht]
  have hroot : b = st.trie.root ↔ cs.take D = [] := by
    constructor
    · rintro rfl
      exact hinv.inj hb hinv.root
    · intro hnil
      rw [hnil, hinv.root] at hb
      exact (Option.some.inj hb).symm
  rw [checkLocked, hsearch]
  simp only [he, verdict_of_deepest hD hleaf hroot]
  split_ifs <;> rfl

end Store

/-! ## Calls

The sections put back into the three calls, then the step from session to session, and the
induction. -/

namespace StoreCall

variable {s s' : Session} {c : StoreCall}

/-- What the three operations return, and what an operation that changes nothing leaves alone. -/
def Answers (c : StoreCall) (s : Session) (ret : ℤ) (st : Store) : Prop :=
  match c.op with
  | .add => ret = 0
  | .rm => (c.path ∈ s.paths → ret = 0) ∧ (c.path ∉ s.paths → ret = 1 ∧ st.trie = s.store.trie)
  | .check => st.trie = s.store.trie ∧
      (s.store.lookupInode c.env = false → ret = (verdict s.paths c.path).value)

/-- An addition, or the removal of a protected path: the trie and the inode table each change by
    their own part of the call. -/
lemma run_traverses (h : StoreInv s.store s.paths) (ha : c.Assumed s) (ht : c.Traverses s.paths)
    (hfree : s.store.storeLock = false) :
    ∃ d stores st, c.env.decree = some d ∧
      c.traverse (s.store.nonce + 1) d.inode s.store.fsStores = .ok stores ∧
      c.run s.store = .ok (0, st) ∧ StoreInv st (c.effect s.paths) ∧
      st.nonce = s.store.nonce + 1 ∧ st.fsStores = stores := by
  have hnonce := h.lock.mp hfree
  obtain ⟨beyond, hex⟩ := ha.examines
  obtain ⟨buf, idx, htok, hspells, hidx⟩ := s.store.tokenise_eq h.offset ha.canonical beyond
  have hres : c.op ≠ .check := by
    intro hop
    simp [Traverses, hop] at ht
  obtain ⟨hdecree, hshort⟩ := ha.resolves hres
  obtain ⟨d, hd⟩ := Option.isSome_iff_exists.mp hdecree
  obtain ⟨stores, hst⟩ := ha.returns ht d hd
  -- the section under the lock
  obtain ⟨t, hrun, htrie⟩ : ∃ t, c.run s.store = .ok (0, Store.unlock
      { s.store with
        trie := t, argIdxs := idx, nonce := s.store.nonce + 1, fsStores := stores } c.env) ∧
      t.IsTrieOf (c.effect s.paths) := by
    rcases ht with hop | ⟨hop, hmem⟩
    · obtain ⟨t, hrun, htrie⟩ := Store.addLocked_eq { s.store with argIdxs := idx } h.trie
        hspells ha.canonical hshort hd (ha.allocates hop) hnonce
          (by simpa only [traverse, hop] using hst)
      refine ⟨t, ?_, by simpa only [effect, hop] using htrie⟩
      simp only [run, hop, Store.pathStoreAdd, hex, htok, Store.locked]
      rw [if_neg (Bool.eq_false_iff.mp hfree)]
      exact hrun
    · obtain ⟨t, hrun, htrie⟩ := Store.rmLocked_member { s.store with argIdxs := idx } h.trie
        hspells ha.canonical hmem hd hnonce (by simpa only [traverse, hop] using hst)
      refine ⟨t, ?_, by simpa only [effect, hop] using htrie⟩
      simp only [run, hop, Store.pathStoreRm, hex, htok, Store.locked]
      rw [if_neg (Bool.eq_false_iff.mp hfree)]
      exact hrun
  obtain ⟨lock, scheduled, hunlock, hlock⟩ := Store.unlock_eq
    { s.store with
      trie := t, argIdxs := idx, nonce := s.store.nonce + 1, fsStores := stores } c.env hfree hnonce
  rw [hunlock] at hrun
  exact ⟨d, stores, _, hd, hst, hrun, ⟨htrie, hidx, hlock⟩, rfl, rfl⟩

/-- The removal of a path that is not protected, or a check: only the offsets change. -/
lemma run_rest (h : StoreInv s.store s.paths) (ha : c.Assumed s) (ht : ¬ c.Traverses s.paths)
    (hfree : s.store.storeLock = false) :
    ∃ ret idx, c.run s.store = .ok (ret, { s.store with argIdxs := idx }) ∧ idx 0 ≤ 1 ∧
      c.effect s.paths = s.paths ∧ c.Answers s ret { s.store with argIdxs := idx } := by
  obtain ⟨beyond, hex⟩ := ha.examines
  obtain ⟨buf, idx, htok, hspells, hidx⟩ := s.store.tokenise_eq h.offset ha.canonical beyond
  cases hop : c.op with
  | add => exact absurd (Or.inl hop) ht
  | rm =>
      have hmem : c.path ∉ s.paths := fun hmem => ht (Or.inr ⟨hop, hmem⟩)
      have hrun := Store.rmLocked_absent c.env { s.store with argIdxs := idx } h.trie
        hspells ha.canonical hmem
      refine ⟨1, idx, ?_, hidx, by simp only [effect, hop, Set.sdiff_singleton_eq_self hmem], ?_⟩
      · simp only [run, hop, Store.pathStoreRm, hex, htok, Store.locked]
        rw [if_neg (Bool.eq_false_iff.mp hfree)]
        exact hrun
      · simp [Answers, hop, hmem]
  | check =>
      have heff : c.effect s.paths = s.paths := by simp only [effect, hop]
      cases hlook : s.store.lookupInode c.env with
      | true =>
          refine ⟨PathCheckResult.matchInode.value, s.store.argIdxs, ?_, h.offset, heff, ?_⟩
          · simp only [run, hop, Store.pathStoreCheck, hlook, if_true, Except.map]
          · simp [Answers, hop, hlook]
      | false =>
          have hrun := Store.checkLocked_eq { s.store with argIdxs := idx } h.trie hspells
            ha.canonical
          refine ⟨(verdict s.paths c.path).value, idx, ?_, hidx, heff, ?_⟩
          · simp only [run, hop, Store.pathStoreCheck, hlook, hex, htok, Store.locked,
              Bool.false_eq_true, if_false]
            rw [if_neg (Bool.eq_false_iff.mp hfree), hrun]
            rfl
          · simp [Answers, hop]

/-- Once the lock is never released only a check that the inode table answers comes back. -/
lemma run_locked (h : StoreInv s.store s.paths) (ha : c.Assumed s)
    (hlocked : s.store.storeLock = true)
    {ret : ℤ} {st : Store} (hrun : c.run s.store = .ok (ret, st)) :
    c.op = .check ∧ s.store.lookupInode c.env = true ∧ st = s.store := by
  obtain ⟨beyond, hex⟩ := ha.examines
  obtain ⟨buf, idx, htok, -, -⟩ := s.store.tokenise_eq h.offset ha.canonical beyond
  cases hop : c.op with
  | add => simp [run, hop, Store.pathStoreAdd, hex, htok, Store.locked, hlocked] at hrun
  | rm => simp [run, hop, Store.pathStoreRm, hex, htok, Store.locked, hlocked] at hrun
  | check =>
      cases hlook : s.store.lookupInode c.env with
      | true =>
          simp only [run, hop, Store.pathStoreCheck, hlook, if_true, Except.map, Except.ok.injEq,
            Prod.mk.injEq] at hrun
          exact ⟨rfl, rfl, hrun.2.symm⟩
      | false =>
          simp [run, hop, Store.pathStoreCheck, hlook, hex, htok, Store.locked, hlocked, Except.map]
            at hrun

/-- One call, while the lock is free: it returns, answers what it should and keeps the invariant. -/
lemma run_eq (h : StoreInv s.store s.paths) (ha : c.Assumed s) (hfree : s.store.storeLock = false) :
    ∃ ret st, c.run s.store = .ok (ret, st) ∧ StoreInv st (c.effect s.paths) ∧
    c.Answers s ret st := by
  by_cases ht : c.Traverses s.paths
  · obtain ⟨d, stores, st, -, -, hrun, hinv, -, -⟩ := run_traverses h ha ht hfree
    refine ⟨0, st, hrun, hinv, ?_⟩
    rcases ht with hop | ⟨hop, hmem⟩
    · simp [Answers, hop]
    · simp [Answers, hop, hmem]
  · obtain ⟨ret, idx, hrun, hidx, heff, hans⟩ := run_rest h ha ht hfree
    exact ⟨ret, _, hrun, ⟨by rw [heff]; exact h.trie, hidx, h.lock⟩, hans⟩

lemma Step.storeInv (ha : c.Assumed s) (hstep : Step s c s') (h : StoreInv s.store s.paths) :
    StoreInv s'.store s'.paths := by
  obtain ⟨⟨ret, hret⟩, hpaths⟩ := hstep
  rw [hpaths]
  cases hfree : s.store.storeLock with
  | false =>
      obtain ⟨ret', st, hrun, hinv, -⟩ := run_eq h ha hfree
      rw [hrun] at hret
      obtain ⟨-, rfl⟩ := Prod.mk.inj (Except.ok.inj hret)
      exact hinv
  | true =>
      obtain ⟨hop, -, hst⟩ := run_locked h ha hfree hret
      rw [hst, show c.effect s.paths = s.paths by simp only [effect, hop]]
      exact h

end StoreCall

/-- Every session keeps the invariant. -/
lemma Session.storeInv {root : Addr} {calls : List StoreCall} {s : Session}
    (hrun : Run (When StoreCall.Assumed StoreCall.Step) (Session.start root) calls s) :
    StoreInv s.store s.paths :=
  hrun.invariant (P := fun s => StoreInv s.store s.paths)
    (fun _ _ _ h hstep => hstep.2.storeInv hstep.1 h) (storeInv_setup root)

/-- While `nonce` stays below `ULLONG_MAX` the lock is released by every call. -/
lemma Session.storeInv_below {root : Addr} {calls : List StoreCall} {s : Session}
    (hrun : Run (When StoreCall.AssumedBelow StoreCall.Step) (Session.start root) calls s) :
    StoreInv s.store s.paths ∧ s.store.storeLock = false := by
  refine hrun.invariant (P := fun s => StoreInv s.store s.paths ∧ s.store.storeLock = false) ?_
    ⟨storeInv_setup root, rfl⟩
  rintro s c s' ⟨hinv, hfree⟩ ⟨⟨ha, hbelow⟩, hstep⟩
  refine ⟨hstep.storeInv ha hinv, ?_⟩
  obtain ⟨⟨ret, hret⟩, -⟩ := hstep
  by_cases ht : c.Traverses s.paths
  · obtain ⟨d, stores, st, -, -, hrun, hinv', hnonce, -⟩ := StoreCall.run_traverses hinv ha ht hfree
    rw [hrun] at hret
    obtain ⟨-, rfl⟩ := Prod.mk.inj (Except.ok.inj hret)
    rw [hinv'.lock, hnonce]
    exact hbelow ht
  · obtain ⟨ret', idx, hrun, -⟩ := StoreCall.run_rest hinv ha ht hfree
    rw [hrun] at hret
    obtain ⟨-, hst⟩ := Prod.mk.inj (Except.ok.inj hret)
    rw [← hst]
    exact hfree

lemma Session.assumed_of_below {s t : Session} {calls : List StoreCall}
    (hrun : Run (When StoreCall.AssumedBelow StoreCall.Step) s calls t) :
    Run (When StoreCall.Assumed StoreCall.Step) s calls t :=
  hrun.mono fun _ _ _ h => ⟨h.1.1, h.2⟩

/-- **The path store refines the set of protected paths.**  After every session its trie is the
    tree of the paths that were added and not since removed, and the next call returns, answers
    as the set says, and leaves the tree of the new set. -/
theorem pathStore_refines {root : Addr} {calls : List StoreCall} {s : Session}
    (hrun : Run (When StoreCall.AssumedBelow StoreCall.Step) (Session.start root) calls s) :
    s.store.trie.Represents s.paths ∧
      ∀ c : StoreCall, c.AssumedBelow s → ∃ ret st, c.run s.store = .ok (ret, st) ∧
        st.trie.Represents (c.effect s.paths) ∧ c.Answers s ret st := by
  obtain ⟨hinv, hfree⟩ := Session.storeInv_below hrun
  refine ⟨hinv.trie.represents, fun c hc => ?_⟩
  obtain ⟨ret, st, hret, hst, hans⟩ := StoreCall.run_eq hinv hc.1 hfree
  exact ⟨ret, st, hret, hst.trie.represents, hans⟩

/-! ## Calls on files

The smallest calls, used for instances here and in other modules. -/

/-- File systems without directories and symlinks. -/
def fileGraph : FsGraph where
  isSymlink := fun _ => false
  target := fun _ => none
  subdirs := fun _ => []
  symlink_subdirs := by simp

/-- A call on a file, at a path that the oracle resolves to itself; slab memory comes zeroed. -/
def fileCall (op : StoreOp) (path : List Name) (inode : Inode) (fresh : List Addr) : StoreCall where
  op := op
  env :=
    { decree := some ⟨pathString path ++ [0], inode⟩
      graph := fileGraph
      slot := fun _ => .null
      slab := fun _ => ⟨true, some 0⟩
      fresh := fresh
      moduleGet := true
      fuel := 2 }
  pathName := pathString path ++ [0]
  path := path

lemma isName_singleton {b : UInt8} (hslash : b ≠ 47) (hnul : b ≠ 0) (hdot : b ≠ 46) :
    IsName [b] where
  ne_nil := by simp
  no_slash := by simpa using hslash
  no_nul := by simpa using hnul
  ne_dot := by simpa using hdot
  ne_dots := by simp

lemma isCanonical_singleton {b : UInt8} (hslash : b ≠ 47) (hnul : b ≠ 0) (hdot : b ≠ 46) :
    IsCanonical [[b]] := by
  refine ⟨fun c hc => ?_, by norm_num [argsSize]⟩
  rw [List.mem_singleton.mp hc]
  exact isName_singleton hslash hnul hdot

/-- A session of one addition, of `/` or of a path with one component. -/
lemma run_add_file (path : List Name) (hcs : IsCanonical path)
    (hshort : ∀ name ∈ path, name.length ≤ 300) (hlen : path.length ≤ 1) (i : Inode) :
    ∃ st, Run (When StoreCall.AssumedBelow StoreCall.Step) (Session.start 0)
      [fileCall .add path i [1]]
      ⟨st, {path}⟩ := by
  have hadd : (fileCall .add path i [1]).Assumed (Session.start 0) := by
    refine ⟨hcs, ⟨[], rfl⟩, fun _ => ⟨rfl, hshort⟩, fun _ => ⟨hlen, by simp [fileCall], ?_⟩, ?_⟩
    · simp [fileCall, Session.start, Store.setup]
    · rintro - d ⟨⟩
      exact ⟨_, rfl⟩
  obtain ⟨ret, st, hret, -, -⟩ := StoreCall.run_eq (storeInv_setup 0) hadd rfl
  refine ⟨st, .cons ⟨⟨hadd, fun _ => ?_⟩, ⟨ret, hret⟩, ?_⟩ (.nil _)⟩
  · norm_num [Session.start, Store.setup]
  · simp [StoreCall.effect, fileCall, Session.start]

/-- The protection of `/a` in an empty store, and a removal that is then refused. -/
theorem pathStore_refines_add_a :
    ∃ s, Run (When StoreCall.AssumedBelow StoreCall.Step) (Session.start 0)
        [fileCall .add [[97]] ⟨0, 5⟩ [1]] s ∧
      s.store.trie.Represents s.paths ∧ (fileCall .rm [[98]] ⟨0, 6⟩ []).AssumedBelow s ∧
      ∃ ret st, (fileCall .rm [[98]] ⟨0, 6⟩ []).run s.store = .ok (ret, st) ∧
        st.trie.Represents ((fileCall .rm [[98]] ⟨0, 6⟩ []).effect s.paths) ∧
        (fileCall .rm [[98]] ⟨0, 6⟩ []).Answers s ret st := by
  obtain ⟨st, hrun⟩ := run_add_file [[97]]
    (isCanonical_singleton (by decide) (by decide) (by decide))
    (by simp) le_rfl ⟨0, 5⟩
  obtain ⟨hrep, hnext⟩ := pathStore_refines hrun
  have hnot : ¬ (fileCall .rm [[98]] ⟨0, 6⟩ []).Traverses {[[97]]} := by
    simp [StoreCall.Traverses, fileCall]
  have hrm : (fileCall .rm [[98]] ⟨0, 6⟩ []).AssumedBelow ⟨st, {[[97]]}⟩ :=
    ⟨⟨isCanonical_singleton (by decide) (by decide) (by decide), ⟨[], rfl⟩,
      fun _ => ⟨rfl, by simp [fileCall]⟩, by simp [fileCall], fun ht => absurd ht hnot⟩,
      fun ht => absurd ht hnot⟩
  exact ⟨_, hrun, hrep, hrm, hnext _ hrm⟩

end KLRM
