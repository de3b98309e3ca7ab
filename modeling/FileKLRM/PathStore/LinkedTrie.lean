import FileKLRM.Core.LinkRing
import FileKLRM.PathStore.LockBalance

/-!
# The path store in memory

`FileKLRM.PathStore.Trie` has the children of a node, and the list `allocations`, as lists.  In
the source both are lists of the kernel, with three list heads in every `store_entry`: `siblings`,
`children` and `allocations`.  Here are the search, the creation of nodes, the pruning and the
three calls of the store on those, and `cleanup_path_store`.

`Threads m t` says that the memory `m` has the lists of `t` as rings, with nothing else in use.  A
call that returns on `t` returns the same on `m` and keeps this.  That needs the shape of the trie
(`Trie.Shaped`): an object is among the children of its parent, and of no other node, and
`children_num` counts.
-/

namespace KLRM

open Function

/-! ## The code on the lists of the kernel

A pointer into a list is a `TrieLink`: the head `allocations`, or one of the three list heads that
an entry has.  The links of an object that was freed are gone, so that following a pointer to one
has no result, and neither has a walk that does not come to its head within `rounds` elements. -/

/-- The list heads of the path store: the static one and the three of a `store_entry`. -/
inductive TrieLink
  | head
  | siblings (a : Addr)
  | children (a : Addr)
  | allocations (a : Addr)
deriving DecidableEq

/-- `list_entry(tmp, store_entry, siblings)`. -/
def TrieLink.child : TrieLink → Option Addr
  | siblings a => some a
  | _ => none

/-- The fields of a `store_entry` that are no list heads. -/
structure LinkedEntry where
  parent : Option Addr
  dirName : Name
  childrenNum : ℕ

/-- The fields of an entry of `FileKLRM.PathStore.Trie`. -/
def StoreEntry.fields (e : StoreEntry) : LinkedEntry := ⟨e.parent, e.dirName, e.childrenNum⟩

/-- The memory of the path store: an entry that was freed is not there, and neither are its
    links. -/
structure LinkedTrie where
  root : Addr
  links : Links TrieLink
  entry : Addr → Option LinkedEntry

namespace LinkedTrie

variable (m : LinkedTrie)

/-- `children_num` of an entry becomes another. -/
def setNum (a : Addr) (num : ℕ → ℕ) : Option LinkedTrie :=
  (m.entry a).map fun e =>
    { m with entry := update m.entry a (some { e with childrenNum := num e.childrenNum }) }

/-- `PATH_SEARCH_LOOP`, the lists being walked for at most `rounds` elements. -/
def search (rounds : ℕ) (tokens : Tokens) (j : ℕ) : (fuel : ℕ) → (curr : Addr) → (deepness : ℕ) →
  Option (Addr × ℕ)
  | 0, _, _ => none
  | fuel + 1, curr, deepness =>
      ((m.links.next (.children curr)).bind (m.links.search
          (fun tmp => tmp.child.bind fun c => (m.entry c).map fun e =>
            e.dirName = tokens.token deepness)
          (.children curr) rounds)).bind fun hit =>
        match hit with
        | none => some (curr, deepness)
        | some tmp => tmp.child.bind fun child =>
            if deepness + 1 ≠ j then search rounds tokens j fuel child (deepness + 1) else some
              (child, deepness + 1)

/-- `kmem_cache_alloc` and `init_store_entry`: `siblings` and `allocations` are zero, `children`
    is empty. -/
def alloc (a : Addr) (e : LinkedEntry) : LinkedTrie where
  root := m.root
  links := fun c =>
    if c = .children a then some ⟨some c, some c⟩
    else if c = .siblings a ∨ c = .allocations a then some ⟨none, none⟩
    else m.links c
  entry := update m.entry a (some e)

/-- The statements that link a new child of `curr`. -/
def link (curr a : Addr) (name : Name) : Option LinkedTrie :=
  let m := m.alloc a ⟨some curr, name, 0⟩
  (m.links.listAdd (.siblings a) (.children curr)).bind fun links =>
    (links.listAdd (.allocations a) .head).bind fun links =>
      ({ m with links := links } : LinkedTrie).setNum curr fun num => (num + 1) % 2 ^ 64

/-- `LOOP_ADD`. -/
def create (rounds : ℕ) (tokens : Tokens) (j : ℕ) :
    (fuel : ℕ) → (curr : Addr) → (deepness : ℕ) → (fresh : List Addr) → LinkedTrie →
      Option (Trie.Created × LinkedTrie)
  | 0, _, _, _, _ => none
  | fuel + 1, curr, deepness, fresh, m =>
      (m.search rounds tokens j (argsSize + 1) curr deepness).bind fun (curr, deepness) =>
        if deepness = j then some (.node curr, m)
        else if tokens.token deepness = [] then some (.emptyName, m)
        else
          match fresh with
          | [] => none
          | a :: fresh =>
              if 1024 ≤ (tokens.token deepness).length then none
              else (m.link curr a (tokens.token deepness)).bind fun m =>
                create rounds tokens j fuel curr deepness fresh m

/-- The list heads inside the entry that has a list head. -/
def owned (a c : TrieLink) : Bool :=
  match a, c with
  | .siblings a, .siblings b | .siblings a, .children b | .siblings a, .allocations b => a = b
  | .children a, .siblings b | .children a, .children b | .children a, .allocations b => a = b
  | .allocations a, .siblings b | .allocations a, .children b | .allocations a, .allocations b =>
      a = b
  | _, _ => false

/-- `children_num--` of the parent, `list_del` twice, and the entry is freed. -/
def unlink (parent curr : Addr) : Option LinkedTrie :=
  (m.setNum parent fun num => (num + 2 ^ 64 - 1) % 2 ^ 64).bind fun m =>
    (m.links.listDel (.siblings curr)).bind fun links =>
      (links.listDel (.allocations curr)).map fun links =>
        { m with links := links.free (owned (.siblings curr)), entry := update m.entry curr none }

/-- The loop at the end of `path_store_rm`. -/
def prune : (fuel : ℕ) → (curr : Addr) → LinkedTrie → Option LinkedTrie
  | 0, _, _ => none
  | fuel + 1, curr, m =>
      (m.entry curr).bind fun e =>
        if curr = m.root ∨ e.childrenNum % explicitedPathMask ≠ 0 ∨
          explicitedPathMask ≤ e.childrenNum % 2 ^ 64 then some m
        else e.parent.bind fun parent => (m.unlink parent curr).bind fun m => prune fuel parent m

end LinkedTrie

/-! ## The calls

The sections under `store_lock` exit by exit, as in `FileKLRM.PathStore.Store`.  The tokeniser, the
oracle and the traversals do not touch these lists, and are the same functions as there. -/

/-- The globals of the store, the trie being in memory. -/
structure LinkedStore where
  trie : LinkedTrie
  argIdxs : ℕ → ℕ
  storeLock : Bool
  nonce : ℕ
  fsStores : List StoreFs
  refreshScheduled : Bool

namespace LinkedStore

variable (rounds : ℕ) (env : StoreEnv) (buf : List UInt8) (j : ℕ) (st : LinkedStore)

/-- `setup_path_store`, with the object that the root gets; the list `allocations` was empty. -/
def setup (root : Addr) : Option LinkedStore :=
  let m : LinkedTrie :=
    { root := root
      links := fun c => if c = .head then some ⟨some .head, some .head⟩ else none
      entry := fun _ => none }
  let m := m.alloc root ⟨none, [47], 0⟩
  (m.links.listAdd (.allocations root) .head).map fun links =>
    { trie := { m with links := links }
      argIdxs := fun _ => 0
      storeLock := false
      nonce := 0
      fsStores := []
      refreshScheduled := false }

/-- The release of `store_lock` after a traversal. -/
def unlock : LinkedStore :=
  if st.nonce = 2 ^ 64 - 1 then
    { st with storeLock := true, refreshScheduled := st.refreshScheduled || env.moduleGet }
  else st

/-- `path_store_add` from `write_lock` on. -/
def addLocked : Option (ℤ × LinkedStore) :=
  (LinkedTrie.create rounds ⟨buf, st.argIdxs⟩ j (argsSize + 1) st.trie.root 0 env.fresh
      st.trie).bind
    fun (created, trie) =>
      match created with
      | .emptyName => some (1, { st with trie := trie, storeLock := true })
      | .node curr =>
          (trie.setNum curr fun num => num % explicitedPathMask + explicitedPathMask).bind
            fun trie =>
            match env.decree with
            | none => some (0, { st with trie := trie, storeLock := true })
            | some decree =>
                let nonce := (st.nonce + 1) % 2 ^ 64
                match storeIterateAdd env.graph env.slot env.slab nonce env.fuel decree.inode
                    st.fsStores with
                | .error _ => none
                | .ok stores => some (0,
                    unlock env { st with trie := trie, nonce := nonce, fsStores := stores })

/-- The traversal of `path_store_rm`, for a path that was resolved. -/
def uncount : Option LinkedStore :=
  match env.decree with
  | none => some st
  | some decree =>
      let nonce := (st.nonce + 1) % 2 ^ 64
      match storeIterateRm env.graph env.slot nonce env.fuel decree.inode st.fsStores with
      | .error _ => none
      | .ok stores => some { st with nonce := nonce, fsStores := stores }

/-- What `path_store_rm` does to the trie at a protected node whose `children_num` is `num`. -/
def deactivate (m : LinkedTrie) (curr : Addr) (num : ℕ) : Option LinkedTrie :=
  (m.setNum curr fun num => num % explicitedPathMask).bind fun m =>
    if num % explicitedPathMask ≠ 0 then some m else m.prune (argsSize + 2) curr

/-- `path_store_rm` from `write_lock` on. -/
def rmLocked : Option (ℤ × LinkedStore) :=
  (st.trie.search rounds ⟨buf, st.argIdxs⟩ j (argsSize + 1) st.trie.root 0).bind
    fun (curr, deepness) =>
    if deepness ≠ j then some (1, st)
    else (st.trie.entry curr).bind fun e =>
      if ¬ explicitedPathMask ≤ e.childrenNum % 2 ^ 64 then some (1, st)
      else (uncount env st).bind fun st =>
        (deactivate st.trie curr e.childrenNum).map fun trie =>
          (0, unlock env { st with trie := trie })

/-- `path_store_check` from `read_lock` on. -/
def checkLocked : Option PathCheckResult :=
  (st.trie.search rounds ⟨buf, st.argIdxs⟩ j (argsSize + 1) st.trie.root 0).bind
    fun (curr, deepness) =>
    (st.trie.links.next (.children curr)).map fun next =>
      let leaf := next = .children curr
      if curr = st.trie.root ∧ leaf then .matchRoot
      else if deepness = j then (if leaf then .fullMatchLeaf else .fullMatchDir)
      else (if leaf then .subMatchLeaf else .subMatchDir)

/-- A call: the lookup of a check, `process_path`, and the section under `store_lock`. -/
def run (c : StoreCall) : Option (ℤ × LinkedStore) :=
  if c.op = .check ∧ (c.env.decree.any fun decree => checkInode decree.inode st.fsStores ≠ 0) then
    some (PathCheckResult.matchInode.value, st)
  else
    let r := Tokens.processPath ⟨c.env.examinated c.pathName, st.argIdxs⟩
    let st := { st with argIdxs := r.2.argIdxs }
    match r.1 with
    | none => some (1, st)
    | some j =>
        if st.storeLock then none
        else
          match c.op with
          | .add => addLocked rounds c.env r.2.buf j st
          | .rm => rmLocked rounds c.env r.2.buf j st
          | .check => (checkLocked rounds r.2.buf j st).map fun ret => (ret.value, st)

/-- `refresh_nonces`. -/
def refreshNonces : LinkedStore :=
  { st with nonce := 0, fsStores := refreshStamps st.fsStores, refreshScheduled := false }

/-- `cleanup_path_store` without its call of `cleanup_inode_store`: it waits for `store_lock`. -/
def cleanup : Option (Links TrieLink × List TrieLink) :=
  if st.storeLock then none else st.trie.links.drain LinkedTrie.owned .head rounds

end LinkedStore

/-! ## The shape of the trie

What the rings need of the heap and cannot say themselves.  It is kept by the four writes of the
path store, and holds for the root alone. -/

/-- The parent pointers and the lists of children say the same, and `children_num` counts. -/
structure Trie.Shaped (t : Trie) : Prop where
  counts : ∀ a e, t.mem a = some e → e.Counts
  child : ∀ a e c, t.mem a = some e → (c ∈ e.children ↔ ∃ f, t.mem c = some f ∧ f.parent = some a)
  parent : ∀ c f a, t.mem c = some f → f.parent = some a → (t.mem a).isSome
  listed : t.allocations.Nodup ∧ ∀ a, a ∈ t.allocations ↔ (t.mem a).isSome

namespace Trie.Shaped

variable {t : Trie} {a b c : Addr} {e f : StoreEntry}

lemma setup (root : Addr) : (Store.setup root).trie.Shaped := by
  have hmem : ∀ a e, (Store.setup root).trie.mem a = some e → a = root ∧
      e = ⟨none, [47], [], 0⟩ := by
    intro a e he
    by_cases ha : a = root
    · subst ha
      simp only [Store.setup, update_self, Option.some.injEq] at he
      exact ⟨rfl, he.symm⟩
    · simp [Store.setup, ha] at he
  refine ⟨?_, ?_, ?_, ?_⟩
  · intro a e he
    obtain ⟨rfl, rfl⟩ := hmem a e he
    exact ⟨by norm_num, Nat.zero_mod _, List.nodup_nil⟩
  · intro a e c he
    obtain ⟨rfl, rfl⟩ := hmem a e he
    refine iff_of_false (by simp) ?_
    rintro ⟨f, hf, hparent⟩
    obtain ⟨rfl, rfl⟩ := hmem c f hf
    cases hparent
  · intro c f a hf hparent
    obtain ⟨rfl, rfl⟩ := hmem c f hf
    cases hparent
  · refine ⟨by simp [Store.setup], fun a => ?_⟩
    by_cases ha : a = root <;> simp [Store.setup, ha]

/-- Only the word of an entry changes. -/
lemma write (h : t.Shaped) (he : t.mem a = some e) {e' : StoreEntry} (hcounts : e'.Counts)
    (hchildren : e'.children = e.children) (hparent : e'.parent = e.parent) :
    (t.write a e').Shaped := by
  have hmem : ∀ b f, (t.write a e').mem b = some f →
      ∃ f', t.mem b = some f' ∧ f.children = f'.children ∧ f.parent = f'.parent ∧ f.Counts := by
    intro b f hf
    by_cases hb : b = a
    · subst hb
      simp only [Trie.write, update_self, Option.some.injEq] at hf
      subst hf
      exact ⟨e, he, hchildren, hparent, hcounts⟩
    · simp only [Trie.write, update_of_ne hb] at hf
      exact ⟨f, hf, rfl, rfl, h.counts b f hf⟩
  have hback : ∀ b f', t.mem b = some f' → ∃ f, (t.write a e').mem b = some f ∧
      f.parent = f'.parent := by
    intro b f' hf'
    by_cases hb : b = a
    · subst hb
      rw [he] at hf'
      obtain rfl := Option.some.inj hf'
      exact ⟨e', by simp [Trie.write], hparent⟩
    · exact ⟨f', by simp [Trie.write, hb, hf'], rfl⟩
  refine ⟨fun b f hf => (hmem b f hf).choose_spec.2.2.2, ?_, ?_, h.listed.1, fun b => ?_⟩
  · intro b f c hf
    obtain ⟨f', hf', hch, -, -⟩ := hmem b f hf
    rw [hch, h.child b f' c hf']
    constructor
    · rintro ⟨g, hg, hpar⟩
      obtain ⟨g', hg', hpar'⟩ := hback c g hg
      exact ⟨g', hg', hpar'.trans hpar⟩
    · rintro ⟨g, hg, hpar⟩
      obtain ⟨g', hg', -, hpar', -⟩ := hmem c g hg
      exact ⟨g', hg', hpar'.symm.trans hpar⟩
  · intro c f b hf hpar
    obtain ⟨f', hf', -, hpar', -⟩ := hmem c f hf
    obtain ⟨g, hg⟩ := Option.isSome_iff_exists.mp (h.parent c f' b hf' (hpar'.symm.trans hpar))
    obtain ⟨g', hg', -⟩ := hback b g hg
    exact Option.isSome_iff_exists.mpr ⟨g', hg'⟩
  · rw [show (t.write a e').allocations = t.allocations from rfl, h.listed.2]
    by_cases hb : b = a
    · subst hb
      simp [Trie.write, he]
    · simp [Trie.write, hb]

/-- A fresh object becomes a child. -/
lemma link (h : t.Shaped) (he : t.mem a = some e) (hb : t.mem b = none) (name : Name) :
    (t.link a b e name).Shaped := by
  have hab : b ≠ a := by
    rintro rfl
    rw [he] at hb
    cases hb
  have hchild : ∀ f, f.parent = some b → ∀ c, t.mem c ≠ some f := by
    intro f hf c hc
    have := h.parent c f b hc hf
    rw [hb] at this
    cases this
  have hnot : b ∉ e.children := by
    intro hin
    obtain ⟨f, hf, -⟩ := (h.child a e b he).mp hin
    rw [hb] at hf
    cases hf
  have hmem : (t.link a b e name).mem = update (update t.mem b (some ⟨some a, name, [], 0⟩)) a
    (some (e.addChild b)) := rfl
  refine ⟨?_, ?_, ?_, ?_, ?_⟩
  · intro c f hf
    rw [hmem] at hf
    by_cases hca : c = a
    · subst hca
      rw [update_self] at hf
      exact Option.some.inj hf ▸ ((h.counts _ e he).addChild hnot).1
    · rw [update_of_ne hca] at hf
      by_cases hcb : c = b
      · subst hcb
        rw [update_self] at hf
        exact Option.some.inj hf ▸ ⟨by norm_num, Nat.zero_mod _, List.nodup_nil⟩
      · rw [update_of_ne hcb] at hf
        exact h.counts c f hf
  · intro c f d hf
    -- which entries have `c` as their parent
    have hpar : (∃ g, (t.link a b e name).mem d = some g ∧ g.parent = some c) ↔
        (d = b ∧ c = a) ∨ (d ≠ b ∧ ∃ g, t.mem d = some g ∧ g.parent = some c) := by
      rw [hmem]
      by_cases hda : d = a
      · subst hda
        simp [StoreEntry.addChild, he, hab.symm]
      · by_cases hdb : d = b
        · subst hdb
          simp [hda, eq_comm]
        · simp [hda, hdb]
    rw [hpar]
    rw [hmem] at hf
    by_cases hca : c = a
    · subst hca
      rw [update_self] at hf
      obtain rfl := Option.some.inj hf
      simp only [StoreEntry.addChild, List.mem_cons, h.child _ e d he]
      constructor
      · rintro (rfl | ⟨g, hg, hgc⟩)
        · exact Or.inl ⟨rfl, trivial⟩
        · refine Or.inr ⟨?_, g, hg, hgc⟩
          rintro rfl
          rw [hb] at hg
          cases hg
      · rintro (⟨rfl, -⟩ | ⟨-, hg⟩)
        · exact Or.inl rfl
        · exact Or.inr hg
    · rw [update_of_ne hca] at hf
      by_cases hcb : c = b
      · subst hcb
        rw [update_self] at hf
        obtain rfl := Option.some.inj hf
        refine iff_of_false (by simp) ?_
        rintro (⟨-, rfl⟩ | ⟨-, g, hg, hgc⟩)
        · exact hab rfl
        · exact hchild g hgc d hg
      · rw [update_of_ne hcb] at hf
        rw [h.child c f d hf]
        constructor
        · rintro ⟨g, hg, hgc⟩
          refine Or.inr ⟨?_, g, hg, hgc⟩
          rintro rfl
          rw [hb] at hg
          cases hg
        · rintro (⟨-, rfl⟩ | ⟨-, hg⟩)
          · exact absurd rfl hca
          · exact hg
  · have hsome : ∀ c, (t.mem c).isSome → ((t.link a b e name).mem c).isSome := by
      intro c hc
      rw [hmem]
      by_cases hca : c = a
      · simp [hca]
      · by_cases hcb : c = b
        · simp [hcb, hab]
        · simpa [hca, hcb] using hc
    intro c f d hf hfd
    rw [hmem] at hf
    by_cases hca : c = a
    · subst hca
      rw [update_self] at hf
      obtain rfl := Option.some.inj hf
      exact hsome d (h.parent _ e d he hfd)
    · rw [update_of_ne hca] at hf
      by_cases hcb : c = b
      · subst hcb
        rw [update_self] at hf
        obtain rfl := Option.some.inj hf
        exact hsome d (by rw [← Option.some.inj hfd, he]; rfl)
      · rw [update_of_ne hcb] at hf
        exact hsome d (h.parent c f d hf hfd)
  · refine List.nodup_cons.mpr ⟨fun hin => ?_, h.listed.1⟩
    have := (h.listed.2 b).mp hin
    rw [hb] at this
    cases this
  · intro c
    rw [hmem, show (t.link a b e name).allocations = b :: t.allocations from rfl,
      List.mem_cons, h.listed.2]
    by_cases hca : c = a
    · simp [hca, he]
    · by_cases hcb : c = b
      · simp [hcb, hab]
      · simp [hca, hcb]

/-- A node without children leaves the trie. -/
lemma unlink (h : t.Shaped) (he : t.mem a = some e) (hnil : e.children = [])
    (hparent : e.parent = some b) (hf : t.mem b = some f) : (t.unlink b a f).Shaped := by
  have hin : a ∈ f.children := (h.child b f a hf).mpr ⟨e, he, hparent⟩
  have hbelow : ∀ c k, t.mem c = some k → k.parent ≠ some a := by
    intro c k hk hka
    have := (h.child a e c he).mpr ⟨k, hk, hka⟩
    rw [hnil] at this
    cases this
  have hba : b ≠ a := by
    rintro rfl
    exact hbelow b e he hparent
  have hmem : (t.unlink b a f).mem = update (update t.mem b (some (f.dropChild a))) a none := rfl
  -- a parent pointer that is left was there before, and is not that of `a`
  have hpar : ∀ c d, (∃ k, (t.unlink b a f).mem d = some k ∧ k.parent = some c) ↔
      d ≠ a ∧ ∃ k, t.mem d = some k ∧ k.parent = some c := by
    intro c d
    rw [hmem]
    by_cases hda : d = a
    · simp [hda]
    · rw [update_of_ne hda]
      by_cases hdb : d = b
      · subst hdb
        have hsame : (f.dropChild a).parent = f.parent := rfl
        rw [update_self, hf]
        simp only [Option.some.injEq, exists_eq_left', hsame, ne_eq, hda,
          not_false_eq_true, true_and]
      · rw [update_of_ne hdb]
        simp only [ne_eq, hda, not_false_eq_true, true_and]
  refine ⟨?_, ?_, ?_, ?_, ?_⟩
  · intro c k hk
    rw [hmem] at hk
    by_cases hca : c = a
    · simp [hca] at hk
    · rw [update_of_ne hca] at hk
      by_cases hcb : c = b
      · subst hcb
        rw [update_self] at hk
        exact Option.some.inj hk ▸ ((h.counts _ f hf).dropChild hin).1
      · rw [update_of_ne hcb] at hk
        exact h.counts c k hk
  · intro c k d hk
    rw [hpar c d]
    rw [hmem] at hk
    by_cases hca : c = a
    · simp [hca] at hk
    · rw [update_of_ne hca] at hk
      by_cases hcb : c = b
      · subst hcb
        rw [update_self] at hk
        obtain rfl := Option.some.inj hk
        rw [show (f.dropChild a).children = f.children.erase a from rfl,
          (h.counts _ f hf).nodup.mem_erase_iff, h.child _ f d hf]
      · rw [update_of_ne hcb] at hk
        rw [h.child c k d hk]
        refine ⟨fun hd => ⟨?_, hd⟩, fun hd => hd.2⟩
        rintro rfl
        obtain ⟨g, hg, hgc⟩ := hd
        rw [he] at hg
        obtain rfl := Option.some.inj hg
        exact hcb (Option.some.inj (hgc.symm.trans hparent))
  · intro c k d hk hkd
    obtain ⟨-, g, hg, hgd⟩ := (hpar d c).mp ⟨k, hk, hkd⟩
    have hda : d ≠ a := by
      rintro rfl
      exact hbelow c g hg hgd
    rw [hmem, update_of_ne hda]
    by_cases hdb : d = b
    · simp [hdb]
    · rw [update_of_ne hdb]
      exact h.parent c g d hg hgd
  · exact h.listed.1.erase a
  · intro c
    rw [show (t.unlink b a f).allocations = t.allocations.erase a from rfl,
      h.listed.1.mem_erase_iff, h.listed.2, hmem]
    by_cases hca : c = a
    · simp [hca]
    · by_cases hcb : c = b
      · simp [hcb, hba, hf]
      · simp [hca, hcb]

end Trie.Shaped

/-! ## The rings of the trie

An entry is on two rings: among the children of its parent, and in `allocations`.  Linking and
unlinking a node are two list operations each, and `Threads` is kept through both. -/

/-- The entry that a list head is in. -/
def TrieLink.entry : TrieLink → Option Addr
  | head => none
  | siblings a | children a | allocations a => some a

lemma LinkedTrie.owned_iff {a b : TrieLink} {x : Addr} (ha : a.entry = some x) :
    LinkedTrie.owned a b = true ↔ b.entry = some x := by
  cases a <;> cases b <;> simp_all [LinkedTrie.owned, TrieLink.entry, eq_comm]

/-- The memory has the lists of the trie as rings, and no other entry. -/
structure Threads (m : LinkedTrie) (t : Trie) : Prop where
  root : m.root = t.root
  entry : ∀ a, m.entry a = (t.mem a).map StoreEntry.fields
  allocations : Links.Ring m.links .head (t.allocations.map .allocations)
  children : ∀ a e, t.mem a = some e → Links.Ring m.links (.children a) (e.children.map .siblings)
  live : ∀ c a, c.entry = some a → (m.links.Alive c ↔ (t.mem a).isSome)

namespace Threads

variable {m : LinkedTrie} {t : Trie} {a b : Addr} {e f : StoreEntry} {rounds : ℕ}

/-- The list heads of an entry that is not in use are on no ring. -/
lemma not_entry (h : Threads m t) (hb : t.mem b = none) {c₀ : TrieLink} {xs : List TrieLink}
    (hring : Links.Ring m.links c₀ xs) {c : TrieLink} (hc : c ∈ c₀ :: xs) : c.entry ≠ some b := by
  intro hcb
  have := (h.live c b hcb).mp (hring.alive hc)
  rw [hb] at this
  cases this

/-- No list head on the ring of one node is on that of another. -/
lemma apart (hs : t.Shaped) (he : t.mem a = some e) (hf : t.mem b = some f) (hab : a ≠ b)
    {c : TrieLink}
    (hc : c ∈ TrieLink.children a :: e.children.map .siblings) :
    c ∉ TrieLink.children b :: f.children.map .siblings := by
  rcases List.mem_cons.mp hc with rfl | hc
  · simpa using hab
  · obtain ⟨x, hx, rfl⟩ := List.mem_map.mp hc
    simp only [List.mem_cons, List.mem_map, TrieLink.siblings.injEq, exists_eq_right,
      reduceCtorEq, false_or]
    intro hx'
    obtain ⟨k, hk, hka⟩ := (hs.child a e x he).mp hx
    obtain ⟨k', hk', hkb⟩ := (hs.child b f x hf).mp hx'
    rw [hk] at hk'
    obtain rfl := Option.some.inj hk'
    exact hab (Option.some.inj (hka.symm.trans hkb))

/-- Another word for an entry. -/
lemma setNum (h : Threads m t) (he : t.mem a = some e) {e' : StoreEntry}
    (hchildren : e'.children = e.children)
    (hparent : e'.parent = e.parent) (hname : e'.dirName = e.dirName) {num : ℕ → ℕ}
    (hnum : num e.childrenNum = e'.childrenNum) :
    ∃ m', m.setNum a num = some m' ∧ Threads m' (t.write a e') := by
  have hentry : m.entry a = some e.fields := by rw [h.entry, he, Option.map_some]
  have hmem : (t.write a e').mem = update t.mem a (some e') := rfl
  refine
    ⟨{ m with entry := update m.entry a (some { e.fields with childrenNum := num e.childrenNum }) },
    ?_, h.root, ?_, h.allocations, ?_, ?_⟩
  · rw [LinkedTrie.setNum, hentry, Option.map_some]
    rfl
  · intro b
    rw [hmem]
    by_cases hb : b = a
    · subst hb
      simp only [update_self, Option.map_some, StoreEntry.fields, hnum, hparent, hname]
    · simp only [update_of_ne hb]
      exact h.entry b
  · intro b g hg
    rw [hmem] at hg
    by_cases hb : b = a
    · subst hb
      rw [update_self] at hg
      rw [← Option.some.inj hg, hchildren]
      exact h.children b e he
    · rw [update_of_ne hb] at hg
      exact h.children b g hg
  · intro c b hc
    rw [h.live c b hc, hmem]
    by_cases hb : b = a
    · simp [hb, he]
    · simp [hb]

/-! ### Linking and unlinking

`Threads.link` and `Threads.unlink` are the two writes to the rings.  A new entry goes on the ring
of its parent and on `allocations`, and its own `children` become a ring without elements; an entry
without children goes off both, and the object is freed.  Every other ring is as it was
(`Links.Ring.frame`), because no list head is on two of them (`Threads.apart`). -/

lemma erase_split {l : List Addr} (ha : a ∈ l) (hl : l.Nodup) :
    ∃ pre post, l = pre ++ a :: post ∧ l.erase a = pre ++ post := by
  obtain ⟨pre, post, rfl⟩ := List.append_of_mem ha
  have hnot : a ∉ pre := fun hin =>
    (List.nodup_cons.mp (List.perm_middle.nodup_iff.mp hl)).1 (List.mem_append_left post hin)
  refine ⟨pre, post, rfl, ?_⟩
  rw [List.erase_append_right _ hnot, List.erase_cons_head]

/-- **A fresh object becomes a child.** -/
theorem link (h : Threads m t) (hs : t.Shaped) (he : t.mem a = some e) (hb : t.mem b = none)
    (name : Name) : ∃ m', m.link a b name = some m' ∧ Threads m' (t.link a b e name) := by
  have hab : a ≠ b := by
    rintro rfl
    rw [he] at hb
    cases hb
  let m₁ := m.alloc b ⟨some a, name, 0⟩
  have hsame : ∀ c, c.entry ≠ some b → m₁.links c = m.links c := by
    intro c hc
    have h1 : c ≠ .children b := fun e => hc (by rw [e]; rfl)
    have h2 : c ≠ .siblings b := fun e => hc (by rw [e]; rfl)
    have h3 : c ≠ .allocations b := fun e => hc (by rw [e]; rfl)
    simp [m₁, LinkedTrie.alloc, h1, h2, h3]
  have hkeep : ∀ {c₀ xs}, Links.Ring m.links c₀ xs → Links.Ring m₁.links c₀ xs := fun hring =>
    hring.frame fun c hc => hsame c (h.not_entry hb hring hc)
  -- the new entry goes on the ring of its parent, and then on the ring of all entries
  obtain ⟨links₂, hadd₂, hring₂, hout₂⟩ := (hkeep (h.children a e he)).listAdd (a := .siblings b)
    (fun hin => h.not_entry hb (h.children a e he) hin rfl)
    (by simp [m₁, Links.Alive, LinkedTrie.alloc])
  have halloc₂ : Links.Ring links₂ .head (t.allocations.map .allocations) := by
    refine (hkeep h.allocations).frame fun c hc => hout₂.same c ?_
    rcases List.mem_cons.mp hc with rfl | hc
    · simp
    · obtain ⟨x, -, rfl⟩ := List.mem_map.mp hc
      simp
  obtain ⟨links₃, hadd₃, hring₃, hout₃⟩ := halloc₂.listAdd (a := .allocations b)
    (fun hin => h.not_entry hb h.allocations hin rfl)
    ((hout₂.alive _).mpr (by simp [m₁, Links.Alive, LinkedTrie.alloc]))
  have hlast : ∀ x (xs : List Addr), ∀ c ∈ TrieLink.children x :: xs.map .siblings,
      links₃ c = links₂ c := by
    intro x xs c hc
    refine hout₃.same c ?_
    rcases List.mem_cons.mp hc with rfl | hc
    · simp
    · obtain ⟨y, -, rfl⟩ := List.mem_map.mp hc
      simp
  have hentry : m₁.entry a = some e.fields := by
    simp only [m₁, LinkedTrie.alloc, update_of_ne hab]
    rw [h.entry, he, Option.map_some]
  have hmem : (t.link a b e name).mem = update (update t.mem b (some ⟨some a, name, [], 0⟩)) a
    (some (e.addChild b)) := rfl
  refine ⟨{ m₁ with
      links := links₃
      entry := update m₁.entry a
        (some { e.fields with childrenNum := (e.childrenNum + 1) % 2 ^ 64 }) }, ?_, h.root, ?_,
    hring₃, ?_, ?_⟩
  · have hadd₂ : (m.alloc b ⟨some a, name, 0⟩).links.listAdd (.siblings b) (.children a)
      = some links₂ := hadd₂
    simp only [LinkedTrie.link, hadd₂, Option.bind_some, hadd₃]
    have hentry : (m.alloc b ⟨some a, name, 0⟩).entry a = some e.fields := hentry
    simp only [LinkedTrie.setNum, hentry, Option.map_some]
    rfl
  · intro x
    rw [hmem]
    by_cases hxa : x = a
    · subst hxa
      simp only [update_self, Option.map_some]
      rfl
    · by_cases hxb : x = b
      · subst hxb
        simp only [m₁, LinkedTrie.alloc, update_of_ne hxa, update_self, Option.map_some]
        rfl
      · simp only [m₁, LinkedTrie.alloc, update_of_ne hxa, update_of_ne hxb]
        exact h.entry x
  · intro x g hg
    rw [hmem] at hg
    by_cases hxa : x = a
    · subst hxa
      rw [update_self] at hg
      rw [← Option.some.inj hg]
      exact hring₂.frame (hlast x (b :: e.children))
    · rw [update_of_ne hxa] at hg
      by_cases hxb : x = b
      · subst hxb
        rw [update_self] at hg
        rw [← Option.some.inj hg]
        have hinit : links₃ (.children x) = some ⟨some (.children x), some (.children x)⟩ := by
          rw [hlast x [] _ (by simp), hout₂.same _ (by simpa using Ne.symm hab)]
          simp [m₁, LinkedTrie.alloc]
        exact Links.Ring.init hinit
      · rw [update_of_ne hxb] at hg
        have hring := hkeep (h.children x g hg)
        refine (hring.frame fun c hc => hout₂.same c ?_).frame (hlast x g.children)
        rw [List.mem_cons, not_or]
        refine ⟨?_, apart hs hg he hxa hc⟩
        rintro rfl
        exact h.not_entry hb (h.children x g hg) hc rfl
  · intro c x hcx
    rw [hout₃.alive, hout₂.alive, hmem]
    by_cases hxb : x = b
    · subst hxb
      refine iff_of_true ?_ (by simp [hab.symm])
      cases c <;> simp_all [m₁, Links.Alive, LinkedTrie.alloc, TrieLink.entry]
    · rw [Links.alive_congr (hsame c (by rw [hcx]; simpa using hxb)), h.live c x hcx]
      by_cases hxa : x = a
      · simp [hxa, he]
      · simp [hxa, hxb]

/-- **A node without children leaves the rings and is freed.** -/
theorem unlink (h : Threads m t) (hs : t.Shaped) (he : t.mem a = some e) (hnil : e.children = [])
    (hparent : e.parent = some b) (hf : t.mem b = some f) :
    ∃ m', m.unlink b a = some m' ∧ Threads m' (t.unlink b a f) := by
  have hin : a ∈ f.children := (hs.child b f a hf).mpr ⟨e, he, hparent⟩
  have hba : b ≠ a := by
    rintro rfl
    have := (hs.child b e b he).mpr ⟨e, he, hparent⟩
    rw [hnil] at this
    cases this
  have hentry : m.entry b = some f.fields := by rw [h.entry, hf, Option.map_some]
  obtain ⟨l, r, hsplit, herase⟩ := erase_split hin (hs.counts b f hf).nodup
  obtain ⟨l', r', hsplit', herase'⟩ :=
    erase_split ((hs.listed.2 a).mpr (by rw [he]; rfl)) hs.listed.1
  have hring := h.children b f hf
  rw [hsplit, List.map_append, List.map_cons] at hring
  obtain ⟨links₁, hdel₁, hring₁, hout₁⟩ := hring.listDel
  have hout₁' : ∀ c, c ∉ TrieLink.children b :: f.children.map .siblings →
      links₁ c = m.links c := by
    intro c hc
    refine hout₁.same c ?_
    rwa [hsplit, List.map_append, List.map_cons] at hc
  have halloc : Links.Ring links₁ .head (t.allocations.map .allocations) := by
    refine h.allocations.frame fun c hc => hout₁' c ?_
    rcases List.mem_cons.mp hc with rfl | hc
    · simp
    · obtain ⟨x, -, rfl⟩ := List.mem_map.mp hc
      simp
  rw [hsplit', List.map_append, List.map_cons] at halloc
  obtain ⟨links₂, hdel₂, hring₂, hout₂⟩ := halloc.listDel
  have howned : ∀ c, LinkedTrie.owned (.siblings a) c = true ↔ c.entry = some a :=
    fun c => LinkedTrie.owned_iff rfl
  have hlast : ∀ c, c.entry ≠ some a → (∀ x, c ≠ .allocations x) → c ≠ .head →
      links₂.free (LinkedTrie.owned (.siblings a)) c = links₁ c := by
    intro c hc hnot hhead
    rw [Links.free_of_not (Bool.eq_false_iff.mpr fun ho => hc ((howned c).mp ho)), hout₂.same c]
    rw [← List.map_cons, ← List.map_append, ← hsplit']
    simp only [List.mem_cons, List.mem_map, not_or, not_exists, not_and]
    exact ⟨hhead, fun x _ e => hnot x e.symm⟩
  have hmem : (t.unlink b a f).mem = update (update t.mem b (some (f.dropChild a))) a none := rfl
  refine ⟨{ root := m.root, links := links₂.free (LinkedTrie.owned (.siblings a)),
            entry := update (update m.entry b (some { f.fields with
              childrenNum := (f.childrenNum + 2 ^ 64 - 1) % 2 ^ 64 })) a none },
    ?_, h.root, ?_, ?_, ?_, ?_⟩
  · simp only [LinkedTrie.unlink, LinkedTrie.setNum, hentry, Option.map_some, Option.bind_some,
      hdel₁, hdel₂]
    rfl
  · intro x
    rw [hmem]
    by_cases hxa : x = a
    · subst hxa
      simp only [update_self, Option.map_none]
    · simp only [update_of_ne hxa]
      by_cases hxb : x = b
      · subst hxb
        simp only [update_self, Option.map_some]
        rfl
      · simp only [update_of_ne hxb]
        exact h.entry x
  · rw [show (t.unlink b a f).allocations = t.allocations.erase a from rfl, herase',
      List.map_append]
    have hnot : a ∉ l' ++ r' := by
      rw [← herase']
      exact hs.listed.1.not_mem_erase
    refine hring₂.frame fun c hc => Links.free_of_not (Bool.eq_false_iff.mpr fun ho => ?_)
    have hca := (howned c).mp ho
    rcases List.mem_cons.mp hc with rfl | hc
    · simp [TrieLink.entry] at hca
    · rw [← List.map_append] at hc
      obtain ⟨x, hx, rfl⟩ := List.mem_map.mp hc
      obtain rfl : x = a := by simpa [TrieLink.entry] using hca
      exact hnot hx
  · intro x g hg
    rw [hmem] at hg
    by_cases hxa : x = a
    · simp [hxa] at hg
    · rw [update_of_ne hxa] at hg
      by_cases hxb : x = b
      · subst hxb
        rw [update_self] at hg
        rw [← Option.some.inj hg, show (f.dropChild a).children = f.children.erase a from rfl,
          herase, List.map_append]
        have hnot : a ∉ l ++ r := by
          rw [← herase]
          exact (hs.counts x f hf).nodup.not_mem_erase
        refine hring₁.frame fun c hc => hlast c ?_ ?_ ?_
        · rcases List.mem_cons.mp hc with rfl | hc
          · simpa [TrieLink.entry] using hba
          · rw [← List.map_append] at hc
            obtain ⟨y, hy, rfl⟩ := List.mem_map.mp hc
            simp only [TrieLink.entry, ne_eq, Option.some.injEq]
            rintro rfl
            exact hnot hy
        all_goals
          rcases List.mem_cons.mp hc with rfl | hc
          · simp
          · rw [← List.map_append] at hc
            obtain ⟨y, -, rfl⟩ := List.mem_map.mp hc
            simp
      · rw [update_of_ne hxb] at hg
        have hring := (h.children x g hg).frame fun c hc => hout₁' c (apart hs hg hf hxb hc)
        refine hring.frame fun c hc => hlast c ?_ ?_ ?_
        · rcases List.mem_cons.mp hc with rfl | hc
          · simpa [TrieLink.entry] using hxa
          · obtain ⟨y, hy, rfl⟩ := List.mem_map.mp hc
            simp only [TrieLink.entry, ne_eq, Option.some.injEq]
            rintro rfl
            obtain ⟨k, hk, hkx⟩ := (hs.child x g _ hg).mp hy
            rw [he] at hk
            obtain rfl := Option.some.inj hk
            exact hxb (Option.some.inj (hkx.symm.trans hparent))
        all_goals
          rcases List.mem_cons.mp hc with rfl | hc
          · simp
          · obtain ⟨y, -, rfl⟩ := List.mem_map.mp hc
            simp
  · intro c x hcx
    rw [hmem]
    by_cases hxa : x = a
    · subst hxa
      refine iff_of_false ?_ (by simp)
      simp [Links.Alive, (howned c).mpr hcx]
    · have hnot : LinkedTrie.owned (.siblings a) c = false := Bool.eq_false_iff.mpr fun ho => by
        rw [(howned c).mp ho] at hcx
        exact hxa (Option.some.inj hcx).symm
      rw [Links.alive_congr (Links.free_of_not hnot), hout₂.alive, hout₁.alive, h.live c x hcx,
        update_of_ne hxa]
      by_cases hxb : x = b
      · simp [hxb, hf]
      · rw [update_of_ne hxb]

end Threads

end KLRM
