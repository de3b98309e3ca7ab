import FileKLRM.PathStore.LinkedTrie
import FileKLRM.PathStore.TableCleanup

/-!
# The path store in memory refines the path store

The search, the creation and the pruning of `FileKLRM.PathStore.LinkedTrie` on a memory that
threads a trie return when those of `FileKLRM.PathStore.Trie` do (`Agree`), and leave a memory
that threads what those leave.  So do the three calls, and a session on the trie is one on the
memory, reply for reply.  `cleanup_path_store`, which walks `allocations`, then frees every entry
once.

* `Agree` — the two calls return related results, or both stop.
* `LinkedStore.Holds.run` — one call; `Run.holds` — a session.
* `linkedStore_refines` — the result, for every session and every next call.
* `cleanupPathStore_returns_iff` — when the module can be unloaded, and what is freed then;
  `LinkedStore.cleanupPathStore_frees_both` — the same with the inode store, which is emptied
  under the lock.
-/

namespace KLRM

open Function

/-- The call in memory and the call on the trie return, and what they return is related; or
    neither returns. -/
inductive Agree {ρ τ : Type*} (R : ρ → τ → Prop) : Option ρ → Except Stop τ → Prop
  | returns {x : ρ} {y : τ} (h : R x y) : Agree R (some x) (.ok y)
  | stops (stop : Stop) : Agree R none (.error stop)

/-! ## The loops

`PATH_SEARCH_LOOP`, the creation of nodes and the pruning, each by its own recursion.  On the trie a
search is by the list of children, in memory by the ring; that the two find the same child is
`Threads.findChild`, and a loop in memory has enough rounds because a node has no more children than
there are entries. -/

/-- The child that is found is one of the list. -/
lemma Trie.findChild_mem {t : Trie} {name : Name} {c : Addr} :
  ∀ {l : List Addr}, t.findChild name l = .ok (some c) → c ∈ l
  | [], h => by cases h
  | a :: l, h => by
      rw [Trie.findChild] at h
      split at h
      · cases h
      · split_ifs at h with hname
        · obtain rfl := Option.some.inj (Except.ok.inj h)
          exact List.mem_cons_self
        · exact List.mem_cons_of_mem a (findChild_mem h)

namespace Trie.Shaped

variable {t : Trie} {a : Addr} {e : StoreEntry}

/-- The children of a node are entries. -/
lemma mem_isSome (hs : t.Shaped) (he : t.mem a = some e) {c : Addr} (hc : c ∈ e.children) :
    (t.mem c).isSome := by
  obtain ⟨f, hf, -⟩ := (hs.child a e c he).mp hc
  rw [hf]
  rfl

/-- A node has no more children than there are entries. -/
lemma children_length_le (hs : t.Shaped) (he : t.mem a = some e) :
    e.children.length ≤ t.allocations.length :=
  (hs.counts a e he).nodup.length_le_of_subset fun c hc => (hs.listed.2 c).mpr (hs.mem_isSome he hc)

/-- The node at which a search ends is an entry. -/
lemma search_isSome (hs : t.Shaped) {tokens : Tokens} {j : ℕ} :
    ∀ (fuel : ℕ) (curr : Addr) (deepness : ℕ) (r : Addr × ℕ),
    t.search tokens j fuel curr deepness = .ok r → (t.mem r.1).isSome
  | 0, _, _, _, hrun => by cases hrun
  | fuel + 1, curr, deepness, r, hrun => by
      rw [Trie.search] at hrun
      cases he : t.mem curr with
      | none => simp [he] at hrun
      | some e =>
          simp only [he] at hrun
          cases hfind : t.findChild (tokens.token deepness) e.children with
          | error stop => simp [hfind] at hrun
          | ok hit =>
              rw [hfind] at hrun
              cases hit with
              | none =>
                  obtain rfl := Except.ok.inj hrun
                  simp [he]
              | some child =>
                  dsimp only at hrun
                  split_ifs at hrun with hj
                  · exact search_isSome hs fuel child (deepness + 1) r hrun
                  · obtain rfl := Except.ok.inj hrun
                    exact hs.mem_isSome he (Trie.findChild_mem hfind)

end Trie.Shaped

/-- `findChild` on entries that are there is the first with the name. -/
lemma Trie.findChild_eq_find? (t : Trie) (name : Name) :
    ∀ l : List Addr, (∀ c ∈ l, (t.mem c).isSome) →
    t.findChild name l = .ok (l.find? fun c => (t.mem c).any fun f => f.dirName = name)
  | [], _ => rfl
  | c :: l, hl => by
      obtain ⟨f, hf⟩ := Option.isSome_iff_exists.mp (hl c (by simp))
      rw [Trie.findChild, hf]
      by_cases hname : f.dirName = name
      · simp [hname, hf]
      · simp [hname, hf, findChild_eq_find? t name l fun d hd => hl d (by simp [hd])]

namespace Threads

variable {m : LinkedTrie} {t t' : Trie} {a b curr : Addr} {e f : StoreEntry} {rounds j : ℕ}
  {tokens : Tokens}

/-- One list of children is searched. -/
lemma findChild (h : Threads m t) (hs : t.Shaped) (he : t.mem a = some e)
    (hrounds : t.allocations.length < rounds)
    (name : Name) : ∃ hit, t.findChild name e.children = .ok hit ∧
      (m.links.next (.children a)).bind (m.links.search
        (fun tmp => tmp.child.bind fun c => (m.entry c).map fun f => f.dirName = name)
        (.children a) rounds) = some (hit.map .siblings) := by
  refine ⟨_, t.findChild_eq_find? name e.children fun c hc => hs.mem_isSome he hc, ?_⟩
  have hread : ∀ tmp ∈ e.children.map TrieLink.siblings,
      (tmp.child.bind fun c => (m.entry c).map fun f => decide (f.dirName = name)) =
        some (tmp.child.any fun c => (t.mem c).any fun f => f.dirName = name) := by
    intro tmp htmp
    obtain ⟨c, hc, rfl⟩ := List.mem_map.mp htmp
    obtain ⟨f, hf⟩ := Option.isSome_iff_exists.mp (hs.mem_isSome he hc)
    simp only [TrieLink.child, Option.bind_some, h.entry, hf, Option.map_some, Option.any_some]
    exact congrArg some (decide_eq_decide.mpr Iff.rfl)
  have hlen : (e.children.map TrieLink.siblings).length < rounds := by
    simpa using lt_of_le_of_lt (hs.children_length_le he) hrounds
  rw [(h.children a e he).search hread hlen, List.find?_map]
  rfl

/-- An entry that is not there has no list of children. -/
lemma next_none (h : Threads m t) (ha : t.mem a = none) : m.links.next (.children a) = none := by
  have hdead : ¬ m.links.Alive (.children a) := by
    rw [h.live _ a rfl, ha]
    simp
  cases hnext : m.links.next (.children a) with
  | none => rfl
  | some b => exact absurd (Links.alive_of_next hnext) hdead

/-- **The search.** -/
theorem search (h : Threads m t) (hs : t.Shaped) (hrounds : t.allocations.length < rounds) :
    ∀ (fuel : ℕ) (curr : Addr) (deepness : ℕ),
      Agree Eq (m.search rounds tokens j fuel curr deepness) (t.search tokens j fuel curr deepness)
  | 0, _, _ => .stops _
  | fuel + 1, curr, deepness => by
      rw [Trie.search, LinkedTrie.search]
      cases he : t.mem curr with
      | none =>
          rw [h.next_none he]
          exact .stops _
      | some e =>
          obtain ⟨hit, hfind, hring⟩ := h.findChild hs he hrounds (tokens.token deepness)
          simp only [hfind]
          rw [hring]
          cases hit with
          | none => exact .returns rfl
          | some child =>
              simp only [Option.map_some, Option.bind_some, TrieLink.child]
              split_ifs with hj
              · exact search h hs hrounds fuel child (deepness + 1)
              · exact .returns rfl

/-- **`LOOP_ADD`.** -/
theorem create :
    ∀ (fuel : ℕ) (curr : Addr) (deepness : ℕ) (fresh : List Addr) (m : LinkedTrie) (t : Trie),
    Threads m t → t.Shaped → FreshFor t fresh 0 → t.allocations.length + fresh.length < rounds →
      Agree (fun x y => x.1 = y.1 ∧ Threads x.2 y.2 ∧ y.2.Shaped)
        (LinkedTrie.create rounds tokens j fuel curr deepness fresh m)
        (Trie.create tokens j fuel curr deepness fresh t)
  | 0, _, _, _, _, _, _, _, _, _ => .stops _
  | fuel + 1, curr, deepness, fresh, m, t, h, hs, hfresh, hrounds => by
      rw [Trie.create, LinkedTrie.create]
      have hsearch : Agree Eq (m.search rounds tokens j (argsSize + 1) curr deepness) _ :=
        h.search hs (by omega) (argsSize + 1) curr deepness
      have hthere : ∀ r, t.search tokens j (argsSize + 1) curr deepness = .ok r →
          (t.mem r.1).isSome :=
        hs.search_isSome (argsSize + 1) curr deepness
      generalize m.search rounds tokens j (argsSize + 1) curr deepness = x at hsearch ⊢
      generalize t.search tokens j (argsSize + 1) curr deepness = y at hsearch hthere ⊢
      cases hsearch with
      | stops stop => exact .stops stop
      | @returns hit _ heq =>
          subst heq
          obtain ⟨curr', deepness'⟩ := hit
          obtain ⟨e, he⟩ := Option.isSome_iff_exists.mp (hthere _ rfl)
          rw [Option.bind_some]
          dsimp only at he ⊢
          by_cases hj : deepness' = j
          · rw [if_pos hj, if_pos hj]
            exact .returns ⟨rfl, h, hs⟩
          · rw [if_neg hj, if_neg hj]
            by_cases hname : tokens.token deepness' = []
            · rw [if_pos hname, if_pos hname]
              exact .returns ⟨rfl, h, hs⟩
            · rw [if_neg hname, if_neg hname]
              cases fresh with
              | nil => exact .stops _
              | cons c fresh =>
                  have hc : t.mem c = none := hfresh.free c (by simp)
                  simp only [he]
                  split_ifs with hlen
                  · exact .stops _
                  · obtain ⟨m', hlink, hthreads⟩ := h.link hs he hc (tokens.token deepness')
                    rw [hlink, Option.bind_some]
                    refine create fuel curr' deepness' fresh m' _ hthreads (hs.link he hc _)
                      (hfresh.link he _) ?_
                    simp only [Trie.link, Trie.write, List.length_cons] at hrounds ⊢
                    omega

/-- **The pruning.** -/
theorem prune : ∀ (fuel : ℕ) (curr : Addr) (m : LinkedTrie) (t : Trie), Threads m t → t.Shaped →
    Agree (fun m t => Threads m t ∧ t.Shaped) (m.prune fuel curr) (t.prune fuel curr)
  | 0, _, _, _, _, _ => .stops _
  | fuel + 1, curr, m, t, h, hs => by
      rw [Trie.prune, LinkedTrie.prune, h.entry]
      cases he : t.mem curr with
      | none => exact .stops _
      | some e =>
          have hstop : (curr = m.root ∨ e.fields.childrenNum % explicitedPathMask ≠ 0 ∨
              explicitedPathMask ≤ e.fields.childrenNum % 2 ^ 64) ↔
              (curr = t.root ∨ e.count ≠ 0 ∨ e.explicited) := by
            rw [h.root, StoreEntry.explicited_iff]
            rfl
          rw [Option.map_some, Option.bind_some, if_congr hstop rfl rfl]
          dsimp only
          split_ifs with hhere
          · exact .returns ⟨h, hs⟩
          · have hnil : e.children = [] := by
              rw [← List.length_eq_zero_iff, ← (hs.counts curr e he).count]
              by_contra hcount
              exact hhere (Or.inr (Or.inl hcount))
            rw [show e.fields.parent = e.parent from rfl]
            cases hparent : e.parent with
            | none => exact .stops _
            | some parent =>
                obtain ⟨p, hp⟩ := Option.isSome_iff_exists.mp (hs.parent curr e parent he hparent)
                obtain ⟨m', hunlink, hthreads⟩ := h.unlink hs he hnil hparent hp
                rw [Option.bind_some, hunlink, Option.bind_some]
                simp only [hp]
                exact prune fuel parent m' _ hthreads (hs.unlink he hnil hparent hp)

/-- **The removal at a protected node.** -/
theorem deactivate (h : Threads m t) (hs : t.Shaped) (he : t.mem curr = some e) :
    Agree (fun m t => Threads m t ∧ t.Shaped) (LinkedStore.deactivate m curr e.childrenNum)
      (Store.deactivate t curr e) := by
  obtain ⟨m₁, hset, hthreads⟩ : ∃ m₁,
      m.setNum curr (fun num => num % explicitedPathMask) = some m₁ ∧
      Threads m₁ (t.write curr e.clearExplicited) :=
    h.setNum he (rfl : e.clearExplicited.children = e.children) rfl rfl rfl
  have hshaped := hs.write he (hs.counts curr e he).clearExplicited rfl rfl
  rw [LinkedStore.deactivate, hset, Option.bind_some, Store.deactivate,
    show e.childrenNum % explicitedPathMask = e.count from rfl]
  split_ifs with hcount
  · exact .returns ⟨hthreads, hshaped⟩
  · exact prune _ _ _ _ hthreads hshaped

end Threads

/-! ## The calls

One `Agree` for each function, by its own recursion or by its branches.  The lists of the heap are
read off the rings, and each write to the heap is the write to the rings that
`FileKLRM.PathStore.LinkedTrie` has a lemma for.  The rounds of the loops are bounded by the
number of objects. -/

/-- The store, with its trie in memory. -/
def Store.linked (st : Store) (m : LinkedTrie) : LinkedStore where
  trie := m
  argIdxs := st.argIdxs
  storeLock := st.storeLock
  nonce := st.nonce
  fsStores := st.fsStores
  refreshScheduled := st.refreshScheduled

/-- The memory holds the store. -/
def LinkedStore.Holds (s : LinkedStore) (st : Store) : Prop :=
  ∃ m, s = st.linked m ∧ Threads m st.trie ∧ st.trie.Shaped

namespace LinkedStore.Holds

variable {s : LinkedStore} {st : Store} {env : StoreEnv} {buf : List UInt8} {j rounds : ℕ}

lemma unlock (h : s.Holds st) (env : StoreEnv) : (s.unlock env).Holds (st.unlock env) := by
  obtain ⟨m, rfl, hthreads, hshaped⟩ := h
  rw [LinkedStore.unlock, Store.unlock, show (st.linked m).nonce = st.nonce from rfl]
  split_ifs
  · exact ⟨m, rfl, hthreads, hshaped⟩
  · exact ⟨m, rfl, hthreads, hshaped⟩

/-- **`path_store_add` under the lock.** -/
theorem addLocked (h : s.Holds st) (hfresh : FreshFor st.trie env.fresh 0)
    (hrounds : st.trie.allocations.length + env.fresh.length < rounds) :
    Agree (fun x y => x.1 = y.1 ∧ x.2.Holds y.2) (s.addLocked rounds env buf j)
      (st.addLocked env buf j) := by
  obtain ⟨m, rfl, hthreads, hshaped⟩ := h
  have hcreate : Agree _ (LinkedTrie.create rounds ⟨buf, st.argIdxs⟩ j (argsSize + 1) st.trie.root
      0 env.fresh m) _ :=
    Threads.create (argsSize + 1) st.trie.root 0 env.fresh m st.trie hthreads hshaped hfresh hrounds
  rw [LinkedStore.addLocked, Store.addLocked, show (st.linked m).trie = m from rfl, hthreads.root,
    show (st.linked m).argIdxs = st.argIdxs from rfl]
  generalize LinkedTrie.create rounds ⟨buf, st.argIdxs⟩ j (argsSize + 1) st.trie.root 0 env.fresh
    m = x at hcreate ⊢
  generalize Trie.create ⟨buf, st.argIdxs⟩ j (argsSize + 1) st.trie.root 0 env.fresh st.trie
      = y at hcreate ⊢
  cases hcreate with
  | stops stop => exact .stops stop
  | @returns x y hxy =>
      obtain ⟨created, m'⟩ := x
      obtain ⟨created', t⟩ := y
      obtain ⟨rfl, hthreads', hshaped'⟩ := hxy
      rw [Option.bind_some]
      cases created with
      | emptyName => exact .returns ⟨rfl, m', rfl, hthreads', hshaped'⟩
      | node curr =>
          dsimp only at hthreads' hshaped' ⊢
          cases he : t.mem curr with
          | none =>
              have hnone : m'.setNum curr
                  (fun num => num % explicitedPathMask + explicitedPathMask) = none := by
                rw [LinkedTrie.setNum, hthreads'.entry, he]
                rfl
              rw [hnone]
              exact .stops _
          | some e =>
              obtain ⟨m₁, hset, hthreads₁⟩ : ∃ m₁,
                  m'.setNum curr (fun num => num % explicitedPathMask + explicitedPathMask)
                  = some m₁ ∧ Threads m₁ (t.write curr e.setExplicited) :=
                hthreads'.setNum he (rfl : e.setExplicited.children = e.children) rfl rfl rfl
              have hshaped₁ := hshaped'.write he (hshaped'.counts curr e he).setExplicited rfl rfl
              rw [hset, Option.bind_some]
              cases hdecree : env.decree with
              | none => exact .returns ⟨rfl, m₁, rfl, hthreads₁, hshaped₁⟩
              | some decree =>
                  rw [show (st.linked m).nonce = st.nonce from rfl,
                    show (st.linked m).fsStores = st.fsStores from rfl]
                  dsimp only
                  cases storeIterateAdd env.graph env.slot env.slab ((st.nonce + 1) % 2 ^ 64)
                      env.fuel decree.inode st.fsStores with
                  | error stop => exact .stops stop
                  | ok stores =>
                      refine .returns ⟨rfl, unlock ?_ env⟩
                      exact ⟨m₁, rfl, hthreads₁, hshaped₁⟩

/-- The traversal of a removal. -/
lemma uncount (h : s.Holds st) :
    Agree (fun s' st' => s'.Holds st' ∧ st'.trie = st.trie) (s.uncount env) (st.uncount env) := by
  obtain ⟨m, rfl, hthreads, hshaped⟩ := h
  rw [LinkedStore.uncount, Store.uncount]
  cases env.decree with
  | none => exact .returns ⟨⟨m, rfl, hthreads, hshaped⟩, rfl⟩
  | some decree =>
      rw [show (st.linked m).nonce = st.nonce from rfl,
        show (st.linked m).fsStores = st.fsStores from rfl]
      dsimp only
      cases storeIterateRm env.graph env.slot ((st.nonce + 1) % 2 ^ 64) env.fuel decree.inode
          st.fsStores with
      | error stop => exact .stops stop
      | ok stores => exact .returns ⟨⟨m, rfl, hthreads, hshaped⟩, rfl⟩

/-- **`path_store_rm` under the lock.** -/
theorem rmLocked (h : s.Holds st) (hrounds : st.trie.allocations.length < rounds) :
    Agree (fun x y => x.1 = y.1 ∧ x.2.Holds y.2) (s.rmLocked rounds env buf j)
      (st.rmLocked env buf j) := by
  have hst := h
  obtain ⟨m, rfl, hthreads, hshaped⟩ := h
  have hsearch : Agree Eq (m.search rounds ⟨buf, st.argIdxs⟩ j (argsSize + 1) st.trie.root 0) _ :=
    hthreads.search hshaped hrounds (argsSize + 1) st.trie.root 0
  rw [LinkedStore.rmLocked, Store.rmLocked, show (st.linked m).trie = m from rfl, hthreads.root,
    show (st.linked m).argIdxs = st.argIdxs from rfl]
  generalize m.search rounds ⟨buf, st.argIdxs⟩ j (argsSize + 1) st.trie.root 0 = x at hsearch ⊢
  generalize st.trie.search ⟨buf, st.argIdxs⟩ j (argsSize + 1) st.trie.root 0 = y at hsearch ⊢
  cases hsearch with
  | stops stop => exact .stops stop
  | @returns hit _ heq =>
      subst heq
      obtain ⟨curr, deepness⟩ := hit
      rw [Option.bind_some]
      dsimp only
      by_cases hdeep : deepness ≠ j
      · rw [if_pos hdeep, if_pos hdeep]
        exact .returns ⟨rfl, hst⟩
      · rw [if_neg hdeep, if_neg hdeep, hthreads.entry]
        cases he : st.trie.mem curr with
        | none => exact .stops _
        | some e =>
            have hflag : (¬ explicitedPathMask ≤ e.fields.childrenNum % 2 ^ 64) ↔
                (!e.explicited) = true := by
              rw [Bool.not_eq_true', ← Bool.not_eq_true, StoreEntry.explicited_iff]
              rfl
            rw [Option.map_some, Option.bind_some, if_congr hflag rfl rfl]
            dsimp only
            split_ifs
            · exact .returns ⟨rfl, hst⟩
            · have hcount : Agree _ ((st.linked m).uncount env) _ := hst.uncount
              generalize (st.linked m).uncount env = x at hcount ⊢
              generalize st.uncount env = y at hcount ⊢
              cases hcount with
              | stops stop => exact .stops stop
              | @returns s₁ st₁ hst₁ =>
                  obtain ⟨⟨m₁, rfl, hthreads₁, hshaped₁⟩, htrie⟩ := hst₁
                  have hdeactivate := hthreads₁.deactivate hshaped₁ (htrie ▸ he)
                  rw [Option.bind_some, show (st₁.linked m₁).trie = m₁ from rfl,
                    show e.fields.childrenNum = e.childrenNum from rfl]
                  simp only [bind, Except.bind]
                  generalize LinkedStore.deactivate m₁ curr e.childrenNum = x at hdeactivate ⊢
                  generalize Store.deactivate st₁.trie curr e = y at hdeactivate ⊢
                  cases hdeactivate with
                  | stops stop => exact .stops stop
                  | @returns m₂ t ht =>
                      refine .returns ⟨rfl, unlock ?_ env⟩
                      exact ⟨m₂, rfl, ht.1, ht.2⟩

/-- **`path_store_check` under the lock.** -/
theorem checkLocked (h : s.Holds st) (hrounds : st.trie.allocations.length < rounds) :
    Agree Eq (s.checkLocked rounds buf j) (st.checkLocked buf j) := by
  obtain ⟨m, rfl, hthreads, hshaped⟩ := h
  have hsearch : Agree Eq (m.search rounds ⟨buf, st.argIdxs⟩ j (argsSize + 1) st.trie.root 0) _ :=
    hthreads.search hshaped hrounds (argsSize + 1) st.trie.root 0
  rw [LinkedStore.checkLocked, Store.checkLocked, show (st.linked m).trie = m from rfl,
    hthreads.root,
    show (st.linked m).argIdxs = st.argIdxs from rfl]
  generalize m.search rounds ⟨buf, st.argIdxs⟩ j (argsSize + 1) st.trie.root 0 = x at hsearch ⊢
  generalize st.trie.search ⟨buf, st.argIdxs⟩ j (argsSize + 1) st.trie.root 0 = y at hsearch ⊢
  cases hsearch with
  | stops stop => exact .stops stop
  | @returns hit _ heq =>
      subst heq
      obtain ⟨curr, deepness⟩ := hit
      rw [Option.bind_some]
      dsimp only
      cases he : st.trie.mem curr with
      | none =>
          rw [hthreads.next_none he]
          exact .stops _
      | some e =>
          have hleaf : Links.first (.children curr) (e.children.map TrieLink.siblings)
              = .children curr ↔ e.children = [] := by
            cases e.children <;> simp
          rw [(hthreads.children curr e he).linked_first.1, Option.map_some]
          simp only [hleaf]
          split_ifs <;> exact .returns rfl

/-- **One call**, for every large enough bound on the lists. -/
theorem run (h : s.Holds st) (c : StoreCall) (hfresh : FreshFor st.trie c.env.fresh 0)
    (hrounds : st.trie.allocations.length + c.env.fresh.length < rounds) :
    Agree (fun x y => x.1 = y.1 ∧ x.2.Holds y.2) (s.run rounds c) (c.run st) := by
  obtain ⟨m, rfl, hthreads, hshaped⟩ := h
  -- the offsets of the tokens are all that changes before the section
  have hargs : ∀ idx : ℕ →
      ℕ, LinkedStore.Holds { st.linked m with argIdxs := idx } { st with argIdxs := idx } :=
    fun idx => ⟨m, rfl, hthreads, hshaped⟩
  have hlock : (st.linked m).storeLock = st.storeLock := rfl
  rw [LinkedStore.run, StoreCall.run, show (st.linked m).argIdxs = st.argIdxs from rfl,
    show (st.linked m).fsStores = st.fsStores from rfl]
  cases hop : c.op with
  | add =>
      simp only [reduceCtorEq, false_and, if_false, Store.pathStoreAdd, Store.tokenise]
      obtain ⟨j, tk⟩ := Tokens.processPath ⟨c.env.examinated c.pathName, st.argIdxs⟩
      cases j with
      | none => exact .returns ⟨rfl, hargs _⟩
      | some j =>
          simp only [Store.locked, hlock]
          split_ifs
          · exact .stops _
          · exact (hargs tk.argIdxs).addLocked hfresh hrounds
  | rm =>
      simp only [reduceCtorEq, false_and, if_false, Store.pathStoreRm, Store.tokenise]
      obtain ⟨j, tk⟩ := Tokens.processPath ⟨c.env.examinated c.pathName, st.argIdxs⟩
      cases j with
      | none => exact .returns ⟨rfl, hargs _⟩
      | some j =>
          simp only [Store.locked, hlock]
          split_ifs
          · exact .stops _
          · exact (hargs tk.argIdxs).rmLocked (lt_of_le_of_lt (Nat.le_add_right _ _) hrounds)
  | check =>
      have hlookup : (c.env.decree.any fun decree => checkInode decree.inode st.fsStores ≠ 0)
          = st.lookupInode c.env := by
        rw [Store.lookupInode]
        cases c.env.decree <;> rfl
      simp only [true_and, hlookup, Store.pathStoreCheck, Store.tokenise]
      by_cases hhit : st.lookupInode c.env
      · rw [if_pos hhit, if_pos hhit]
        exact .returns ⟨rfl, m, rfl, hthreads, hshaped⟩
      · rw [if_neg hhit, if_neg hhit]
        obtain ⟨j, tk⟩ := Tokens.processPath ⟨c.env.examinated c.pathName, st.argIdxs⟩
        cases j with
        | none => exact .returns ⟨rfl, hargs _⟩
        | some j =>
            simp only [Store.locked, hlock]
            split_ifs
            · exact .stops _
            · have hcheck : Agree Eq (LinkedStore.checkLocked rounds tk.buf j
                  { st.linked m with argIdxs := tk.argIdxs }) _ :=
                (hargs tk.argIdxs).checkLocked (lt_of_le_of_lt (Nat.le_add_right _ _) hrounds)
              show Agree _ ((LinkedStore.checkLocked rounds tk.buf j
                { st.linked m with argIdxs := tk.argIdxs }).map _) _
              generalize LinkedStore.checkLocked rounds tk.buf j
                { st.linked m with argIdxs := tk.argIdxs } = x at hcheck ⊢
              generalize Store.checkLocked tk.buf j { st with argIdxs := tk.argIdxs }
                  = y at hcheck ⊢
              cases hcheck with
              | stops stop => exact .stops stop
              | returns heq => exact .returns ⟨congrArg PathCheckResult.value heq, hargs _⟩

/-- `setup_path_store`. -/
theorem setup (root : Addr) : ∃ s, LinkedStore.setup root = some s ∧
    s.Holds (Store.setup root) := by
  let m : LinkedTrie :=
    ({ root := root
       links := fun c => if c = .head then some ⟨some .head, some .head⟩ else none
       entry := fun _ => none } : LinkedTrie).alloc root ⟨none, [47], 0⟩
  have hhead : Links.Ring m.links .head [] := Links.Ring.init (by simp [m, LinkedTrie.alloc])
  obtain ⟨links, hadd, hring, hout⟩ := hhead.listAdd (a := .allocations root) (by simp)
    (by simp [m, Links.Alive, LinkedTrie.alloc])
  have hmem : (Store.setup root).trie.mem
      = update (fun _ => none) root (some ⟨none, [47], [], 0⟩) := rfl
  refine ⟨(Store.setup root).linked { m with links := links }, ?_, { m with links := links }, rfl,
    ⟨rfl, fun a => ?_, hring, fun a e he => ?_, fun c a hc => ?_⟩, Trie.Shaped.setup root⟩
  · have hadd : m.links.listAdd (.allocations root) .head = some links := hadd
    rw [LinkedStore.setup]
    exact congrArg (Option.map _) hadd
  · rw [hmem]
    by_cases ha : a = root
    · subst ha
      simp only [m, LinkedTrie.alloc, update_self, Option.map_some]
      rfl
    · simp [m, LinkedTrie.alloc, ha]
  · rw [hmem] at he
    by_cases ha : a = root
    · subst ha
      rw [update_self] at he
      rw [← Option.some.inj he]
      have hsame : links (.children a) = m.links (.children a) := hout.same _ (by simp)
      exact Links.Ring.init (hsame.trans (by simp [m, LinkedTrie.alloc]))
    · simp [ha] at he
  · rw [hout.alive, hmem]
    by_cases ha : a = root
    · subst ha
      refine iff_of_true ?_ (by simp)
      cases c <;> simp_all [m, Links.Alive, LinkedTrie.alloc, TrieLink.entry]
    · refine iff_of_false ?_ (by simp [ha])
      cases c <;> simp_all [m, Links.Alive, LinkedTrie.alloc, TrieLink.entry]

/-- **`cleanup_path_store` frees the entries in the order of `allocations`**, and the static list
    head is left; but it waits when the lock is held. -/
theorem cleanup (h : s.Holds st) (hrounds : st.trie.allocations.length < rounds) :
    s.cleanup rounds = if st.storeLock then none else
      some (fun c => if c = .head then some ⟨some .head, some .head⟩ else none,
          st.trie.allocations.map .allocations) := by
  obtain ⟨m, rfl, hthreads, hshaped⟩ := h
  have howns : Links.Ring.Owns LinkedTrie.owned .head (st.trie.allocations.map .allocations) := by
    intro a ha
    obtain ⟨x, hx, rfl⟩ := List.mem_map.mp ha
    refine ⟨(LinkedTrie.owned_iff rfl).mpr rfl, fun c hc hne => Bool.eq_false_iff.mpr fun ho => ?_⟩
    have hcx : c.entry = some x := (LinkedTrie.owned_iff rfl).mp ho
    rcases List.mem_cons.mp hc with rfl | hc
    · cases hcx
    · obtain ⟨y, -, rfl⟩ := List.mem_map.mp hc
      exact hne (congrArg TrieLink.allocations (Option.some.inj hcx))
  obtain ⟨links, hdrain, hgone⟩ := hthreads.allocations.drain howns (by simpa using hrounds)
  rw [LinkedStore.cleanup, show (st.linked m).storeLock = st.storeLock from rfl,
    show (st.linked m).trie = m from rfl, hdrain]
  congr 3
  funext c
  cases hc : c.entry with
  | none =>
      obtain rfl : c = .head := by cases c <;> simp_all [TrieLink.entry]
      exact hgone.ring.eq_of_nil
  | some x =>
      have hdead : ¬ links.Alive c := by
        rw [hgone.alive, hthreads.live c x hc]
        rintro ⟨hx, hnot⟩
        have := hnot (.allocations x) (List.mem_map_of_mem ((hshaped.listed.2 x).mpr hx))
        rw [(LinkedTrie.owned_iff rfl).mpr hc] at this
        cases this
      have hne : c ≠ .head := by
        rintro rfl
        cases hc
      simpa [Links.Alive, hne] using hdead

end LinkedStore.Holds

/-! ## Sessions

The call lemma along a run, with the shape of the trie carried along.  An object is given out
again only after it has been freed, which is the condition on what a call may create. -/

/-- An event and what it returns, on the trie. -/
def StoreEvent.Served (st : Store) (ev : StoreEvent × ℤ) (st' : Store) : Prop :=
  match ev.1 with
  | .call c => FreshFor st.trie c.env.fresh 0 ∧ c.run st = .ok (ev.2, st')
  | .refresh => st.refreshScheduled = true ∧ st' = st.refreshNonces

/-- An event and what it returns, in memory. -/
def StoreEvent.ServedInMemory (rounds : ℕ) (s : LinkedStore) (ev : StoreEvent × ℤ)
    (s' : LinkedStore) : Prop :=
  match ev.1 with
  | .call c => s.run rounds c = some (ev.2, s')
  | .refresh => s.refreshScheduled = true ∧ s' = s.refreshNonces

/-- All entries, and those that a call may create, are distinct objects. -/
lemma Trie.Shaped.objects_le {t : Trie} (hs : t.Shaped) {fresh : List Addr}
    (hfresh : FreshFor t fresh 0) : t.allocations.length + fresh.length ≤ 2 ^ 53 := by
  have hnodup : (t.allocations ++ fresh).Nodup := by
    refine List.nodup_append.mpr ⟨hs.listed.1, hfresh.nodup, ?_⟩
    rintro a ha _ hb rfl
    have hmem := (hs.listed.2 a).mp ha
    rw [hfresh.free a hb] at hmem
    cases hmem
  have hcard := hnodup.length_le_card
  rwa [List.length_append, Fintype.card_fin] at hcard

variable {root : Addr} {rounds : ℕ} {events : List (StoreEvent × ℤ)} {s : LinkedStore} {st : Store}

/-- **The events of a session, one after the other.** -/
theorem Run.holds (hrounds : 2 ^ 53 < rounds) {st₀ : Store}
    (hrun : Run StoreEvent.Served st₀ events st) {s₀ : LinkedStore} (h : s₀.Holds st₀) :
    ∃ s, Run (StoreEvent.ServedInMemory rounds) s₀ events s ∧ s.Holds st := by
  induction hrun generalizing s₀ with
  | nil st => exact ⟨s₀, .nil s₀, h⟩
  | @cons st₀ st₁ st ev events head tail ih =>
      obtain ⟨s₁, hstep, h₁⟩ : ∃ s₁, StoreEvent.ServedInMemory rounds s₀ ev s₁ ∧ s₁.Holds st₁ := by
        obtain ⟨ev, ret⟩ := ev
        cases ev with
        | refresh =>
            obtain ⟨m, rfl, hthreads, hshaped⟩ := h
            obtain ⟨hscheduled, rfl⟩ := head
            exact ⟨_, ⟨hscheduled, rfl⟩, m, rfl, hthreads, hshaped⟩
        | call c =>
            obtain ⟨hfresh, hcall⟩ := head
            have hshaped : st₀.trie.Shaped := h.choose_spec.2.2
            have hagree := h.run c hfresh (lt_of_le_of_lt (hshaped.objects_le hfresh) hrounds)
            rw [hcall] at hagree
            generalize hx : s₀.run rounds c = x at hagree
            cases hagree with
            | @returns x _ hret =>
                obtain ⟨rfl, hholds⟩ : x.1 = ret ∧ x.2.Holds st₁ := hret
                exact ⟨x.2, hx, hholds⟩
      obtain ⟨s, hrest, hend⟩ := ih h₁
      exact ⟨s, .cons hstep hrest, hend⟩

/-- **The path store in memory is the path store.**  In any session from `setup_path_store` on,
    the calls on the linked lists return what those on the trie return, the memory threads the
    trie that results, and every further call returns on both or on neither, with the same reply.
    No list has more elements than there are slab objects. -/
theorem linkedStore_refines (hrounds : 2 ^ 53 < rounds)
    (hrun : Run StoreEvent.Served (Store.setup root) events st) :
    ∃ s₀ s, LinkedStore.setup root = some s₀ ∧
      Run (StoreEvent.ServedInMemory rounds) s₀ events s ∧ s.Holds st ∧
      ∀ c : StoreCall, FreshFor st.trie c.env.fresh 0 →
        Agree (fun x y => x.1 = y.1 ∧ x.2.Holds y.2) (s.run rounds c) (c.run st) := by
  obtain ⟨s₀, hsetup, h₀⟩ := LinkedStore.Holds.setup root
  obtain ⟨s, hmem, h⟩ := hrun.holds hrounds h₀
  have hshaped : st.trie.Shaped := h.choose_spec.2.2
  exact ⟨s₀, s, hsetup, hmem, h,
    fun c hc => h.run c hc (lt_of_le_of_lt (hshaped.objects_le hc) hrounds)⟩

/-- The session of one addition of `/a`, which the oracle does not resolve. -/
lemma StoreEvent.served_add : ∃ st,
    Run StoreEvent.Served (Store.setup 0)
      [(.call (unresolvedCall .add [47, 97, 0] [1]), 0)] st := by
  have hfresh : FreshFor (Store.setup 0).trie [1] 0 :=
    ⟨Nat.zero_le _, List.nodup_singleton _, by simp [Store.setup]⟩
  exact ⟨_, .cons ⟨hfresh, rfl⟩ (.nil _)⟩

theorem linkedStore_refines_add : ∃ st,
    Run StoreEvent.Served (Store.setup 0) [(.call (unresolvedCall .add [47, 97, 0] [1]), 0)] st ∧
      ∃ s₀ s, LinkedStore.setup 0 = some s₀ ∧
        Run (StoreEvent.ServedInMemory (2 ^ 53 + 1)) s₀
          [(.call (unresolvedCall .add [47, 97, 0] [1]), 0)] s ∧ s.Holds st ∧
        ∀ c : StoreCall, FreshFor st.trie c.env.fresh 0 →
          Agree (fun x y => x.1 = y.1 ∧ x.2.Holds y.2) (s.run (2 ^ 53 + 1) c) (c.run st) := by
  obtain ⟨st, hrun⟩ := StoreEvent.served_add
  exact ⟨st, hrun, linkedStore_refines (Nat.lt_succ_self _) hrun⟩

/-! ## Unloading

`cleanup_path_store` takes `store_lock` like any call, and so waits for ever where a call has kept
it.  Otherwise it frees the entries from `allocations`, which every entry is on, after the tables
and nodes of the inode store. -/

/-- An event that is served is a step of the store. -/
lemma StoreEvent.Served.step {st st' : Store} {ev : StoreEvent × ℤ}
    (h : StoreEvent.Served st ev st') : StoreEvent.Step st ev.1 st' := by
  obtain ⟨ev, ret⟩ := ev
  cases ev with
  | call c => exact ⟨h.1, ret, h.2⟩
  | refresh => exact h

/-- The lock is free at the end of a session exactly when every event took an exit that releases
    it. -/
lemma Run.storeLock_iff (hrun : Run StoreEvent.Served (Store.setup root) events st) :
    st.storeLock = false ↔
    Run (When (fun st ev => ev.1.Releases st) StoreEvent.Served) (Store.setup root) events st :=
  hrun.kept_iff (I := Store.Sound) (P := fun st => st.storeLock = false)
    (fun _ _ _ h hstep => hstep.step.storeLock_iff h) (Store.sound_setup root) rfl

/-- The list of the entries that `cleanup_path_store` frees has each of them once. -/
lemma LinkedStore.Holds.freed (h : s.Holds st) :
    (st.trie.allocations.map TrieLink.allocations).Nodup ∧
    ∀ a, a ∈ st.trie.allocations.map TrieLink.allocations ↔ ∃ x, a = .allocations x ∧
    (s.trie.entry x).isSome := by
  obtain ⟨m, rfl, hthreads, hshaped⟩ := h
  refine ⟨hshaped.listed.1.map fun _ _ => TrieLink.allocations.inj, fun a => ?_⟩
  simp only [List.mem_map, hshaped.listed.2, show (st.linked m).trie = m from rfl, hthreads.entry,
    Option.isSome_map, eq_comm, and_comm]

/-- **`cleanup_path_store` returns exactly when every call of the session released
    `store_lock`**; the module cannot be unloaded otherwise.  It then has freed every entry once,
    and no list head but the static one is left. -/
theorem cleanupPathStore_returns_iff (hrounds : 2 ^ 53 < rounds)
    (hrun : Run StoreEvent.Served (Store.setup root) events st) :
    ∃ s₀ s, LinkedStore.setup root = some s₀ ∧ Run (StoreEvent.ServedInMemory rounds) s₀ events s ∧
      ((s.cleanup rounds).isSome ↔
        Run (When (fun st ev => ev.1.Releases st) StoreEvent.Served) (Store.setup root) events st) ∧
      ∀ links freed, s.cleanup rounds = some (links, freed) →
        (∀ c, links c = if c = .head then some ⟨some .head, some .head⟩ else none) ∧ freed.Nodup ∧
          ∀ a, a ∈ freed ↔ ∃ x, a = .allocations x ∧ (s.trie.entry x).isSome := by
  obtain ⟨s₀, hsetup, h₀⟩ := LinkedStore.Holds.setup root
  obtain ⟨s, hmem, h⟩ := hrun.holds hrounds h₀
  have hshaped : st.trie.Shaped := h.choose_spec.2.2
  have hclean := h.cleanup (lt_of_le_of_lt hshaped.listed.1.length_le_card (by simpa using hrounds))
  refine ⟨s₀, s, hsetup, hmem, ?_, fun links freed hfreed => ?_⟩
  · rw [← hrun.storeLock_iff, hclean]
    cases st.storeLock with
    | true => exact iff_of_false Bool.false_ne_true fun hheld => Bool.false_ne_true hheld.symm
    | false => exact iff_of_true rfl rfl
  · rw [hclean] at hfreed
    split_ifs at hfreed
    obtain ⟨rfl, rfl⟩ := Prod.mk.inj (Option.some.inj hfreed)
    exact ⟨fun _ => rfl, h.freed⟩

/-- The session of one addition of the file `/a`, which releases the lock. -/
lemma StoreEvent.served_add_file : ∃ st,
    Run StoreEvent.Served (Store.setup 0) [(.call (fileCall .add [[97]] ⟨0, 5⟩ [1]), 0)] st ∧
    st.storeLock = false := by
  have hfresh : FreshFor (Store.setup 0).trie [1] 0 :=
    ⟨Nat.zero_le _, List.nodup_singleton _, by simp [Store.setup]⟩
  exact ⟨_, .cons ⟨hfresh, rfl⟩ (.nil _), rfl⟩

/-- After the addition of the file it returns, and has freed the two entries. -/
theorem cleanupPathStore_returns_iff_add : ∃ st s₀ s,
    Run StoreEvent.Served (Store.setup 0) [(.call (fileCall .add [[97]] ⟨0, 5⟩ [1]), 0)] st ∧
      LinkedStore.setup 0 = some s₀ ∧
      Run (StoreEvent.ServedInMemory (2 ^ 53 + 1)) s₀
        [(.call (fileCall .add [[97]] ⟨0, 5⟩ [1]), 0)] s ∧
      ((s.cleanup (2 ^ 53 + 1)).isSome ↔
        Run (When (fun st ev => ev.1.Releases st) StoreEvent.Served) (Store.setup 0)
          [(.call (fileCall .add [[97]] ⟨0, 5⟩ [1]), 0)] st) ∧
      ∃ links freed, s.cleanup (2 ^ 53 + 1) = some (links, freed) ∧
        (∀ c, links c = if c = .head then some ⟨some .head, some .head⟩ else none) ∧ freed.Nodup ∧
          ∀ a, a ∈ freed ↔ ∃ x, a = .allocations x ∧ (s.trie.entry x).isSome := by
  obtain ⟨st, hrun, hlock⟩ := StoreEvent.served_add_file
  obtain ⟨s₀, s, hsetup, hmem, hiff, hfreed⟩ :=
    cleanupPathStore_returns_iff (Nat.lt_succ_self _) hrun
  obtain ⟨⟨links, freed⟩, hclean⟩ :=
    Option.isSome_iff_exists.mp (hiff.mpr (hrun.storeLock_iff.mp hlock))
  exact ⟨st, s₀, s, hrun, hsetup, hmem, hiff, links, freed, hclean, hfreed links freed hclean⟩

/-- `cleanup_path_store` on the memory of both stores: behind the lock the inode store is emptied
    first. -/
def LinkedStore.cleanupPathStore (s : LinkedStore) (m : LinkedTable) (fuel : ℕ) :
    Option (LinkedTable.Cleanup × Links TrieLink × List TrieLink) :=
  if s.storeLock then none
  else (m.cleanupInodeStore fuel).bind fun inodes => (s.cleanup fuel).map fun entries =>
    (inodes, entries)

/-- **The module leaves nothing of the two stores behind**, when the lock is free: whatever calls
    the inode store has served, each object of the three caches that was in use has been freed
    once. -/
theorem LinkedStore.cleanupPathStore_frees_both {calls : List (TableCall × ℤ)} {m : LinkedTable}
    (hrun : Run StoreEvent.Served (Store.setup root) events st) (hlock : st.storeLock = false)
    (hcalls : Run TableCall.Served LinkedTable.start calls m) :
    ∃ s₀ s, LinkedStore.setup root = some s₀ ∧
    Run (StoreEvent.ServedInMemory (2 ^ 53 + 1)) s₀ events s ∧
      ∃ inodes links freed, Returns (s.cleanupPathStore m) (some (inodes, links, freed)) ∧
        inodes.FreesAll m.links ∧
        (∀ c, links c = if c = .head then some ⟨some .head, some .head⟩ else none) ∧ freed.Nodup ∧
        ∀ a, a ∈ freed ↔ ∃ x, a = .allocations x ∧ (s.trie.entry x).isSome := by
  obtain ⟨s₀, hsetup, h₀⟩ := LinkedStore.Holds.setup root
  obtain ⟨s, hmem, h⟩ := hrun.holds (Nat.lt_succ_self _) h₀
  obtain ⟨L, hlaid, -⟩ := hcalls.laid LinkedTable.start_laid
  obtain ⟨inodes, ⟨least, hreturns⟩, hfrees⟩ := hlaid.cleanup_freesAll
  refine ⟨s₀, s, hsetup, hmem, inodes, _,
    _, ⟨max least (st.trie.allocations.length + 1), fun fuel hfuel => ?_⟩, hfrees,
    fun _ => rfl, h.freed⟩
  obtain ⟨hleast, hlength⟩ := max_le_iff.mp hfuel
  have hheld : s.storeLock = false := by
    obtain ⟨m, rfl, -⟩ := h
    exact hlock
  have hclean := h.cleanup (Nat.lt_of_succ_le hlength)
  rw [hlock, if_neg Bool.false_ne_true] at hclean
  rw [cleanupPathStore, hheld, if_neg Bool.false_ne_true, hreturns fuel hleast,
    Option.bind_some, hclean]
  rfl

end KLRM
