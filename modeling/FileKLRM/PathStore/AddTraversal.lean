import FileKLRM.Core.Worklist
import FileKLRM.PathStore.InodeMap
import FileKLRM.PathStore.Traversal

/-!
# What `store_iterate_add` does

The traversal has no set of visited inodes; it goes by the stamps.  An inode that had a node is
put on the list at its first meeting, which sets the stamp to `nonce`.  One that had none gets a
node with stamp zero at its first meeting and `nonce` only at the second, so it is put on the list
twice if it is met twice, and counted twice.

A symlink that `kern_path` cannot resolve has nothing behind it, and the traversal goes on with
what was in `resolved.dentry` before.  `FsGraph.Settled` says that this leads nowhere: every
symlink that is reached resolves, or the variable held `NULL` or a dentry without an inode
whenever it was read.

`addTraversal_spec` says what the whole traversal does then: the meetings form a work-list search,
and the table after it is a function of the table before and of how often each inode was met.
-/

namespace KLRM

/-- How many meetings put an inode on the list. -/
def meetCap (stores : List StoreFs) (i : Inode) : ℕ := if entries stores i = none then 2 else 1

lemma meetCap_pos (stores : List StoreFs) (i : Inode) : 0 < meetCap stores i := by
  unfold meetCap
  split_ifs <;> norm_num

lemma meetCap_le (stores : List StoreFs) (i : Inode) : meetCap stores i ≤ 2 := by
  unfold meetCap
  split_ifs <;> norm_num

lemma count_lt (c n : ℕ) : Nat.count (fun k => k < c) n = min n c := by
  induction n with
  | zero => simp
  | succ n ih =>
      rw [Nat.count_succ, ih]
      split_ifs <;> omega

/-- The old `refCount` of the object that a call of `insert_inode_ht` gets. -/
def oldCount (slab : ℕ → SlabAnswer) (k : ℕ) : ℕ := (slab k).refCount.getD 0

/-- The node of an inode after the meetings in `trace`. -/
def counted (slab : ℕ → SlabAnswer) (nonce : ℕ) (stores : List StoreFs) (trace : List Inode)
    (i : Inode) : Option InodeHt :=
  match trace.count i, entries stores i with
  | 0, e => e
  | _ + 1, some node => some { node with refCount := (node.refCount + 1) % 2 ^ 64, stamp := nonce }
  | 1, none => some ⟨i.ino, (oldCount slab (trace.idxOf i) + 1) % 2 ^ 64, 0⟩
  | _ + 2, none => some ⟨i.ino, (oldCount slab (trace.idxOf i) + 2) % 2 ^ 64, nonce⟩

/-! ## What is unset

`Settled` is what the later results ask for, and `Settled.nextWith_eq` what they use of it: the
traversal goes on to `FsGraph.next`, which does not mention the variable. -/

namespace FsGraph

/-- `kern_path` finds something behind every symlink that is reached. -/
def Resolves (g : FsGraph) (start : Inode) : Prop :=
  ∀ i, Reach g.next start i → g.isSymlink i = true → (g.target i).isSome

/-- Nothing unset is followed. -/
def Settled (g : FsGraph) (slot : ℕ → DentrySlot) (start : Inode) : Prop :=
  g.Resolves start ∨ ∀ k, (slot k).Harmless

variable {g : FsGraph} {slot : ℕ → DentrySlot} {start i : Inode}

lemma Settled.nextWith_eq (h : g.Settled slot start) (hi : Reach g.next start i) (k : ℕ) :
    g.nextWith (slot k) i = g.next i := by
  refine FsGraph.nextWith_eq (h.imp (fun hres => hres i hi) fun hslot j hj => ?_)
  rcases hslot k with hk | hk <;> simp [hk] at hj

lemma Settled.not_wild (h : g.Settled slot start) (hi : Reach g.next start i) (k : ℕ) :
    ¬ g.Wild (slot k) i := by
  rintro ⟨hlink, hwild⟩
  cases htarget : g.target i with
  | some j => simp [resolve, htarget] at hwild
  | none =>
      rcases h with hres | hslot
      · simpa [htarget] using hres i hi hlink
      · simp only [resolve, htarget, Option.elim_none] at hwild
        rcases hslot k with hk | hk <;> simp [hk] at hwild

end FsGraph

/-! ## The table

`counted` is the node of an inode as a function of the meetings so far, by the number of times
that the inode is among them.  `insert_counted` says that one more insertion is one more meeting
there. -/

/-- What a traversal relies on: objects are there for every insertion, and no node carries its
    number yet. -/
structure AddReady (slab : ℕ → SlabAnswer) (nonce : ℕ) (stores : List StoreFs) : Prop where
  allocates : ∀ k, (slab k).fsOk = true ∧ (slab k).refCount.isSome
  nonce_pos : 1 ≤ nonce
  stamps : ∀ i node, entries stores i = some node → node.stamp < nonce

section

variable {g : FsGraph} {slot : ℕ → DentrySlot} {slab : ℕ → SlabAnswer} {nonce : ℕ}
  {stores stores' : List StoreFs} {trace : List Inode} {i j start : Inode}

lemma counted_of_ne (hji : j ≠ i) :
    counted slab nonce stores (trace ++ [i]) j = counted slab nonce stores trace j := by
  have hcount : (trace ++ [i]).count j = trace.count j := by
    rw [Worklist.count_concat, if_neg hji, Nat.add_zero]
  unfold counted
  rw [hcount]
  cases hn : trace.count j with
  | zero => rfl
  | succ n =>
      have hmem : j ∈ trace := List.count_pos_iff.mp (by omega)
      rw [List.idxOf_append_of_mem hmem]

/-- One insertion of the traversal, seen on the table. -/
lemma insert_counted (trace : List Inode) (hr : AddReady slab nonce stores) (hino : i.ino < 2 ^ 32)
    (h : entries stores' = counted slab nonce stores trace) :
    ∃ stores'', insertInodeHt (slab trace.length) nonce i stores'
        = (if trace.count i < meetCap stores i then 1 else -1, stores'') ∧
      Keeps stores' stores'' ∧ entries stores'' = counted slab nonce stores (trace ++ [i]) := by
  obtain ⟨hfs, hold⟩ := hr.allocates trace.length
  obtain ⟨old, hold⟩ := Option.isSome_iff_exists.mp hold
  have hi : entries stores' i = counted slab nonce stores trace i := by rw [h]
  have hcount : (trace ++ [i]).count i = trace.count i + 1 := by
    rw [Worklist.count_concat, if_pos rfl]
  have hupdate : ∀ e, counted slab nonce stores (trace ++ [i]) i = e →
      Function.update (entries stores') i e = counted slab nonce stores (trace ++ [i]) := by
    intro e he
    funext j
    rw [Function.update_apply]
    split_ifs with hji
    · rw [hji, he]
    · rw [h, counted_of_ne hji]
  have hsame : counted slab nonce stores (trace ++ [i]) i = counted slab nonce stores trace i →
      entries stores' = counted slab nonce stores (trace ++ [i]) := by
    intro he
    rw [← hupdate _ rfl, he, ← hi, Function.update_eq_self]
  cases hentry : entries stores i with
  | some node =>
      have hcap : meetCap stores i = 1 := by simp [meetCap, hentry]
      cases hn : trace.count i with
      | zero =>
          -- the first meeting with an inode that has a node
          have hnode : entries stores' i = some node := by rw [hi, counted, hn]; exact hentry
          obtain ⟨stores'', hrun, hkeeps, hentries⟩ :=
            insertInodeHt_count hnode (hr.stamps i node hentry) (slab trace.length)
          refine ⟨stores'', by rw [hrun, hcap]; rfl, hkeeps, hentries.trans (hupdate _ ?_)⟩
          rw [counted, hcount, hn, hentry]
      | succ n =>
          have hnode := hi
          rw [counted, hn, hentry] at hnode
          refine ⟨stores', ?_, Keeps.refl _, hsame ?_⟩
          · rw [insertInodeHt_seen hnode (by simp), hcap, if_neg (by omega)]
          · rw [counted, counted, hcount, hn, hentry]
  | none =>
      have hcap : meetCap stores i = 2 := by simp [meetCap, hentry]
      match hn : trace.count i with
      | 0 =>
          -- a new node, with stamp zero
          have hnode : entries stores' i = none := by rw [hi, counted, hn]; exact hentry
          obtain ⟨stores'', hrun, hkeeps, hentries⟩ := insertInodeHt_new nonce hnode hino hfs hold
          refine ⟨stores'', by rw [hrun, hcap]; rfl, hkeeps, hentries.trans (hupdate _ ?_)⟩
          have hmem : i ∉ trace := List.count_eq_zero.mp hn
          rw [counted, hcount, hn, hentry]
          simp [List.idxOf_append_of_notMem hmem, oldCount, hold]
      | 1 =>
          -- the second meeting counts again
          have hmem : i ∈ trace := List.count_pos_iff.mp (by omega)
          have hnode := hi
          rw [counted, hn, hentry] at hnode
          obtain ⟨stores'', hrun, hkeeps, hentries⟩ :=
            insertInodeHt_count hnode (show 0 < nonce from hr.nonce_pos) (slab trace.length)
          refine ⟨stores'', by rw [hrun, hcap]; rfl, hkeeps, hentries.trans (hupdate _ ?_)⟩
          rw [counted, hcount, hn, hentry, List.idxOf_append_of_mem hmem]
          simp [Nat.add_assoc]
      | n + 2 =>
          have hmem : i ∈ trace := List.count_pos_iff.mp (by omega)
          have hnode := hi
          rw [counted, hn, hentry] at hnode
          refine ⟨stores', ?_, Keeps.refl _, hsame ?_⟩
          · rw [insertInodeHt_seen hnode (by simp), hcap, if_neg (by omega)]
          · rw [counted, counted, hcount, hn, hentry, List.idxOf_append_of_mem hmem]

/-! ## The loop

The traversal is a search with a work list (`FileKLRM.Core.Worklist`) in which an inode is pushed
at its first meeting, or at its first two.  The list is bounded by twice the number of inodes that
can be reached, and this is the fuel that is always enough. -/

/-- The search that the traversal is, on the table it starts with. -/
abbrev AddSearch (g : FsGraph) (stores : List StoreFs) (start : Inode)
    (trace popped opened done : List Inode) : Prop :=
  Worklist g.next start (fun i k => k < meetCap stores i) trace popped opened done

/-- The table and the calls, after the meetings in `trace`. -/
structure AddTable (slab : ℕ → SlabAnswer) (nonce : ℕ) (stores : List StoreFs) (trace : List Inode)
    (w : AddWalk) : Prop where
  calls : w.calls = trace
  keeps : Keeps stores w.stores
  entries : entries w.stores = counted slab nonce stores trace

/-- One neighbour of the inode in hand. -/
lemma meet_step (hr : AddReady slab nonce stores) {w : AddWalk} {d y : Inode}
    {popped done : List Inode} (hs : AddSearch g stores start trace popped (d :: w.stack) done)
    (ht : AddTable slab nonce stores trace w) (hy : y ∈ g.next d) (hino : y.ino < 2 ^ 32) :
    AddSearch g stores start (trace ++ [y]) popped (d :: (w.meet slab nonce y).stack)
      (done ++ [y]) ∧
      AddTable slab nonce stores (trace ++ [y]) (w.meet slab nonce y) := by
  obtain rfl := ht.calls
  obtain ⟨stores'', hrun, hkeeps, hentries⟩ := insert_counted w.calls hr hino ht.entries
  have hstack : (w.meet slab nonce y).stack
      = if w.calls.count y < meetCap stores y then y :: w.stack else w.stack := by
    simp only [AddWalk.meet, hrun]
    split_ifs <;> simp_all
  refine ⟨?_, rfl,
    ⟨fun h => ?_, fun h => ?_⟩, by simpa only [AddWalk.meet, hrun] using hentries⟩
  · rw [hstack]
    split_ifs with hpush
    · exact hs.push_step hy hpush
    · exact hs.pass_step hy hpush
  · simpa only [AddWalk.meet, hrun] using hkeeps.tableOk (ht.keeps.tableOk h)
  · simpa only [AddWalk.meet, hrun] using hkeeps.devices (ht.keeps.devices h)

/-- All neighbours of the inode in hand. -/
lemma meet_all (hr : AddReady slab nonce stores) {d : Inode} (hd : Reach g.next start d)
    (hino : ∀ i, Reach g.next start i → i.ino < 2 ^ 32) {popped : List Inode} :
    ∀ (ys done : List Inode) (trace : List Inode) (w : AddWalk), g.next d = done ++ ys →
    AddSearch g stores start trace popped (d :: w.stack) done → AddTable slab nonce stores trace w →
    ∃ trace', AddSearch g stores start trace' popped
        (d :: (ys.foldl (AddWalk.meet slab nonce) w).stack) (g.next d) ∧
      AddTable slab nonce stores trace' (ys.foldl (AddWalk.meet slab nonce) w)
  | [], done, trace, w, hnext, hs, ht => by
      rw [List.append_nil] at hnext
      exact ⟨trace, by rw [hnext]; exact hs, ht⟩
  | y :: ys, done, trace, w, hnext, hs, ht => by
      have hy : y ∈ g.next d := by simp [hnext]
      obtain ⟨hs', ht'⟩ := meet_step hr hs ht hy (hino y (hd.tail hy))
      exact meet_all hr hd hino ys (done ++ [y]) (trace ++ [y]) _ (by simp [hnext]) hs' ht'

/-- One round, with an inode in hand from which nothing unset is followed. -/
lemma follow_step (hr : AddReady slab nonce stores) (hset : g.Settled slot start)
    (hino : ∀ i, Reach g.next start i → i.ino < 2 ^ 32) {w : AddWalk} {d : Inode}
    {rest trace popped : List Inode}
    (hstack : w.stack = d :: rest) (hs : AddSearch g stores start trace popped w.stack [])
    (ht : AddTable slab nonce stores trace w) :
    ∃ w' trace', { w with stack := rest }.follow g slot slab nonce d = .ok w' ∧
      AddSearch g stores start trace' (popped ++ [d]) w'.stack [] ∧
      AddTable slab nonce stores trace' w' := by
  rw [hstack] at hs
  have hd : Reach g.next start d := hs.opened_reach (by simp)
  obtain ⟨trace', hs', ht'⟩ := meet_all hr hd hino (g.next d) [] trace
    { w with stack := rest, links := w.links + if g.isSymlink d then 1 else 0 } rfl hs
    ⟨ht.calls, ht.keeps, ht.entries⟩
  refine ⟨_, trace', ?_, hs'.close_step, ht'⟩
  rw [AddWalk.follow_eq, if_neg (hset.not_wild hd w.links), hset.nextWith_eq hd]

/-- What holds when the list is empty. -/
def AddDone (g : FsGraph) (slab : ℕ → SlabAnswer) (nonce : ℕ) (start : Inode)
    (stores : List StoreFs) (calls : List Inode) (after : List StoreFs) : Prop :=
  ∃ popped, AddSearch g stores start calls popped [] [] ∧ Keeps stores after ∧
    entries after = counted slab nonce stores calls

/-- The loop, with rounds enough for every push that can be made. -/
lemma replayAdd_done (hr : AddReady slab nonce stores) (hset : g.Settled slot start)
    (hino : ∀ i, Reach g.next start i → i.ino < 2 ^ 32) {R : Finset Inode} (hR : ∀ i,
      Reach g.next start i → i ∈ R) :
    ∀ (fuel : ℕ) (w : AddWalk) (trace popped : List Inode),
    AddSearch g stores start trace popped w.stack [] → AddTable slab nonce stores trace w →
    R.card * 2 < fuel + popped.length →
    ∃ w', replayAdd g slot slab nonce fuel w = .ok w' ∧
    AddDone g slab nonce start stores w'.calls w'.stores
  | 0, w, trace, popped, hs, _, hfuel => by
      have := hs.length_le hR fun x n => (count_lt _ n).le.trans
        ((min_le_right _ _).trans (meetCap_le stores x))
      omega
  | fuel + 1, w, trace, popped, hs, ht, hfuel => by
      rw [replayAdd]
      cases hstack : w.stack with
      | nil =>
          rw [hstack] at hs
          exact ⟨w, rfl, popped, by rw [ht.calls]; exact hs,
            ht.keeps, by rw [ht.calls]; exact ht.entries⟩
      | cons d rest =>
          obtain ⟨w', trace', hrun, hs', ht'⟩ := follow_step hr hset hino hstack hs ht
          dsimp only
          rw [hrun]
          exact replayAdd_done hr hset hino hR fuel w' trace' (popped ++ [d]) hs' ht'
            (by rw [List.length_append, List.length_singleton]; omega)

/-- More rounds do not change what the loop returns. -/
lemma replayAdd_mono : ∀ {fuel fuel' : ℕ} {w after : AddWalk},
    replayAdd g slot slab nonce fuel w = .ok after → fuel ≤ fuel' →
    replayAdd g slot slab nonce fuel' w = .ok after
  | 0, _, _, _, h, _ => by cases h
  | fuel + 1, 0, _, _, _, hle => by omega
  | fuel + 1, fuel' + 1, w, after, h, hle => by
      rw [replayAdd] at h ⊢
      cases hstack : w.stack with
      | nil =>
          rw [hstack] at h
          exact h
      | cons d rest =>
          rw [hstack] at h
          dsimp only at h ⊢
          cases hfollow : { w with stack := rest }.follow g slot slab nonce d with
          | error stop =>
              rw [hfollow] at h
              cases h
          | ok w' =>
              rw [hfollow] at h
              exact replayAdd_mono h (by omega)

/-- What every insertion keeps of the tables, the traversal keeps. -/
lemma storeIterateAdd_keeps {P : List StoreFs → Prop} {fuel : ℕ} {after : List StoreFs}
    (hinsert : ∀ answer i stores, P stores → P (insertInodeHt answer nonce i stores).2)
    (h : P stores)
    (hrun : storeIterateAdd g slot slab nonce fuel start stores = .ok after) : P after := by
  have hmeet : ∀ (w : AddWalk) (i : Inode), P w.stores → P (w.meet slab nonce i).stores :=
    fun w i => hinsert (slab w.calls.length) i w.stores
  have hfold : ∀ (ys : List Inode) (w : AddWalk), P w.stores →
      P (ys.foldl (AddWalk.meet slab nonce) w).stores := by
    intro ys
    induction ys with
    | nil => exact fun w hw => hw
    | cons y ys ih => exact fun w hw => ih _ (hmeet w y hw)
  have hround : ∀ {w w' : AddWalk} {d : Inode}, P w.stores → w.follow g slot slab nonce d = .ok w' →
      P w'.stores := by
    intro w w' d hw hfollow
    rw [AddWalk.follow_eq] at hfollow
    by_cases hwild : g.Wild (slot w.links) d
    · rw [if_pos hwild] at hfollow
      cases hfollow
    · rw [if_neg hwild] at hfollow
      exact Except.ok.inj hfollow ▸ hfold _ _ hw
  have hloop : ∀ (fuel : ℕ) (w w' : AddWalk), P w.stores →
      replayAdd g slot slab nonce fuel w = .ok w' → P w'.stores := by
    intro fuel
    induction fuel with
    | zero =>
        intro w w' _ h
        cases h
    | succ fuel ih =>
        intro w w' hw h
        rw [replayAdd] at h
        cases hstack : w.stack with
        | nil =>
            rw [hstack] at h
            exact Except.ok.inj h ▸ hw
        | cons d rest =>
            rw [hstack] at h
            dsimp only at h
            cases hfollow : { w with stack := rest }.follow g slot slab nonce d with
            | error stop =>
                rw [hfollow] at h
                cases h
            | ok w₁ =>
                rw [hfollow] at h
                exact ih w₁ w' (hround (show P { w with stack := rest }.stores from hw) hfollow) h
  cases hreplay :
      replayAdd g slot slab nonce fuel ((AddWalk.start stores).meet slab nonce start) with
  | error stop => simp [storeIterateAdd, storeIterateAddCalls, hreplay, Except.map] at hrun
  | ok w =>
      simp only [storeIterateAdd, storeIterateAddCalls, hreplay, Except.map,
        Except.ok.injEq] at hrun
      exact hrun ▸ hloop fuel _ w (hmeet _ _ h) hreplay

/-- The two forms of the traversal. -/
lemma storeIterateAdd_calls {fuel : ℕ} {after : List StoreFs}
    (hrun : storeIterateAdd g slot slab nonce fuel start stores = .ok after) :
    ∃ calls, storeIterateAddCalls g slot slab nonce fuel start stores = .ok (calls, after) := by
  rw [storeIterateAdd] at hrun
  cases hcalls : storeIterateAddCalls g slot slab nonce fuel start stores with
  | error stop => simp [hcalls, Except.map] at hrun
  | ok r =>
      rw [hcalls] at hrun
      exact ⟨r.1, by rw [← Except.ok.inj hrun]⟩

/-- More rounds do not change what the traversal returns. -/
lemma storeIterateAddCalls_mono {fuel fuel' : ℕ} {r : List Inode × List StoreFs}
    (h : storeIterateAddCalls g slot slab nonce fuel start stores = .ok r) (hle : fuel ≤ fuel') :
    storeIterateAddCalls g slot slab nonce fuel' start stores = .ok r := by
  unfold storeIterateAddCalls at h ⊢
  cases hreplay :
      replayAdd g slot slab nonce fuel ((AddWalk.start stores).meet slab nonce start) with
  | error stop => simp [hreplay, Except.map] at h
  | ok w =>
      rw [hreplay] at h
      rw [replayAdd_mono hreplay hle]
      exact h

/-- **What `store_iterate_add` does.**  From a table in which no node carries the number of the
    traversal, with inode numbers of 32 bits and finitely many inodes to reach, and with nothing
    unset that is followed: given rounds enough it returns, and whenever it returns its calls are
    the meetings of a work-list search, and the table is what they make of the one before. -/
theorem addTraversal_spec (hr : AddReady slab nonce stores) (hset : g.Settled slot start)
    (hino : ∀ i, Reach g.next start i → i.ino < 2 ^ 32) (hfin : {i | Reach g.next start i}.Finite) :
    (∃ rounds, ∀ fuel, rounds ≤ fuel →
      ∃ after, storeIterateAdd g slot slab nonce fuel start stores = .ok after) ∧
    ∀ fuel calls after, storeIterateAddCalls g slot slab nonce fuel start stores
      = .ok (calls, after) →
      AddDone g slab nonce start stores calls after := by
  have hR : ∀ i, Reach g.next start i → i ∈ hfin.toFinset := fun i hi => hfin.mem_toFinset.mpr hi
  obtain ⟨stores₁, hrun, hkeeps, hentries⟩ := insert_counted [] hr
    (hino start (Reach.refl _ _)) (show entries stores = counted slab nonce stores [] from rfl)
  have hmeet : (AddWalk.start stores).meet slab nonce start = ⟨[start], stores₁, [start], 0⟩ := by
    rw [List.count_nil, if_pos (meetCap_pos stores start), List.length_nil] at hrun
    simp [AddWalk.meet, AddWalk.start, hrun]
  have hdone : ∀ fuel, hfin.toFinset.card * 2 < fuel → ∃ w : AddWalk,
      storeIterateAddCalls g slot slab nonce fuel start stores = .ok (w.calls, w.stores) ∧
        AddDone g slab nonce start stores w.calls w.stores := by
    intro fuel hfuel
    obtain ⟨w, hreplay, hdone⟩ :=
      replayAdd_done hr hset hino hR fuel ⟨[start], stores₁, [start], 0⟩ [start] []
        (Worklist.init g.next (meetCap_pos stores start)) ⟨rfl, hkeeps, hentries⟩
      (by simpa using hfuel)
    exact ⟨w, by rw [storeIterateAddCalls, hmeet, hreplay]; rfl, hdone⟩
  constructor
  · refine ⟨hfin.toFinset.card * 2 + 1, fun fuel hfuel => ?_⟩
    obtain ⟨w, hrun', -⟩ := hdone fuel (by omega)
    exact ⟨w.stores, by rw [storeIterateAdd, hrun']; rfl⟩
  · intro fuel calls after hrun'
    obtain ⟨w, hmax, hd⟩ := hdone (max fuel (hfin.toFinset.card * 2 + 1)) (by omega)
    rw [storeIterateAddCalls_mono hrun' (le_max_left _ _)] at hmax
    obtain ⟨rfl, rfl⟩ := Prod.mk.inj (Except.ok.inj hmax)
    exact hd

end

end KLRM
