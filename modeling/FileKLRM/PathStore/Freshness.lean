import FileKLRM.PathStore.Agreement
import FileKLRM.PathStore.LockBalance

/-!
# The stamps stay behind `nonce`

A traversal takes an inode for seen when its stamp is not below `nonce`, so each has to start with
every stamp below.  What an addition or a removal hands to its traversal is said first
(`StoreCall.entry`); between calls no stamp is above `nonce`, which is all that the next increment
needs, as long as `refresh_nonces` comes before the increment that would wrap.
-/

namespace KLRM

/-! ## The entry of a traversal

The entry is computed from the state before the call, with the code that leads up to the traversal
and nothing of what comes after.  `StoreCall.Enters` then says that it is the right one: what the
call has done to `nonce` and to the tables is what the traversal does from there. -/

/-- What a traversal finds: `nonce`, the inode of the dentry it starts from, and the tables. -/
structure Entry where
  nonce : ℕ
  start : Inode
  stores : List StoreFs

namespace Store

/-- `nonce++` and the call of the traversal, for a path that was resolved. -/
def entry (env : StoreEnv) (st : Store) : Option Entry :=
  env.decree.map fun decree => ⟨(st.nonce + 1) % 2 ^ 64, decree.inode, st.fsStores⟩

/-- The entry of `store_iterate_add`, if a `path_store_add` that gets the lock comes to it. -/
def addEntry (env : StoreEnv) (pathName : List UInt8) (st : Store) : Option Entry :=
  match st.tokenise (env.examinated pathName) with
  | (none, _, _) => none
  | (some j, buf, st) =>
      match Trie.create ⟨buf, st.argIdxs⟩ j (argsSize + 1) st.trie.root 0 env.fresh st.trie with
      | .ok (.node _, _) => st.entry env
      | _ => none

/-- The entry of `store_iterate_rm`, if a `path_store_rm` that gets the lock comes to it. -/
def rmEntry (env : StoreEnv) (pathName : List UInt8) (st : Store) : Option Entry :=
  match st.tokenise (env.examinated pathName) with
  | (none, _, _) => none
  | (some j, buf, st) =>
      match st.trie.search ⟨buf, st.argIdxs⟩ j (argsSize + 1) st.trie.root 0 with
      | .error _ => none
      | .ok (curr, deepness) =>
          if deepness = j ∧
            ((st.trie.mem curr).elim false StoreEntry.explicited) then st.entry env else none

end Store

namespace StoreCall

/-- The entry of the traversal of a call. -/
def entry (c : StoreCall) (st : Store) : Option Entry :=
  match c.op with
  | .add => st.addEntry c.env c.pathName
  | .rm => st.rmEntry c.env c.pathName
  | .check => none

end StoreCall

namespace Store

variable {st st' : Store} {env : StoreEnv} {pathName : List UInt8} {ret : ℤ}

/-- Whatever the path was, the entry has the inode that was resolved, the next number and the
    tables as they are. -/
lemma entry_eq {e : Entry} (he : st.entry env = some e) :
    ∃ decree : PathDecree, e = ⟨(st.nonce + 1) % 2 ^ 64, decree.inode, st.fsStores⟩ := by
  obtain ⟨decree, -, rfl⟩ := Option.map_eq_some_iff.mp he
  exact ⟨decree, rfl⟩

lemma addEntry_eq {e : Entry} (he : st.addEntry env pathName = some e) :
    ∃ decree : PathDecree, e = ⟨(st.nonce + 1) % 2 ^ 64, decree.inode, st.fsStores⟩ := by
  rw [addEntry] at he
  split at he
  · cases he
  · rename_i htok
    obtain ⟨-, -, rfl⟩ := Prod.mk.inj htok |>.imp id Prod.mk.inj
    split at he
    · exact entry_eq he
    · cases he

lemma rmEntry_eq {e : Entry} (he : st.rmEntry env pathName = some e) :
    ∃ decree : PathDecree, e = ⟨(st.nonce + 1) % 2 ^ 64, decree.inode, st.fsStores⟩ := by
  rw [rmEntry] at he
  split at he
  · cases he
  · rename_i htok
    obtain ⟨-, -, rfl⟩ := Prod.mk.inj htok |>.imp id Prod.mk.inj
    split at he
    · cases he
    · split_ifs at he
      exact entry_eq he

/-- An addition that returns has changed `nonce` and the tables by its traversal only. -/
lemma pathStoreAdd_entry (hrun : st.pathStoreAdd env pathName = .ok (ret, st')) :
    (st.addEntry env pathName = none ∧ st'.nonce = st.nonce ∧ st'.fsStores = st.fsStores) ∨
      ∃ e, st.addEntry env pathName = some e ∧ st'.nonce = e.nonce ∧
        storeIterateAdd env.graph env.slot env.slab e.nonce env.fuel e.start e.stores
          = .ok st'.fsStores := by
  simp only [pathStoreAdd, tokenise] at hrun
  simp only [addEntry, tokenise]
  cases htok : Tokens.processPath ⟨env.examinated pathName, st.argIdxs⟩ with
  | mk j tk =>
      rw [htok] at hrun
      cases j with
      | none =>
          simp only [Except.ok.injEq, Prod.mk.injEq] at hrun
          obtain ⟨-, rfl⟩ := hrun
          exact Or.inl ⟨rfl, rfl, rfl⟩
      | some j =>
          dsimp only
          cases addLocked_cases (locked_run hrun) with
          | emptyName hcreate =>
              dsimp only at hcreate
              rw [hcreate]
              exact Or.inl ⟨rfl, rfl, rfl⟩
          | unresolved hcreate _ hdecree =>
              dsimp only at hcreate
              rw [hcreate]
              exact Or.inl ⟨by rw [entry, hdecree]; rfl, rfl, rfl⟩
          | resolved hcreate _ hdecree htraverse =>
              dsimp only at hcreate
              rw [hcreate, unlock_nonce, unlock_fsStores]
              exact Or.inr ⟨_, by rw [entry, hdecree]; rfl, rfl, htraverse⟩

/-- And so has a removal. -/
lemma pathStoreRm_entry (hrun : st.pathStoreRm env pathName = .ok (ret, st')) :
    (st.rmEntry env pathName = none ∧ st'.nonce = st.nonce ∧ st'.fsStores = st.fsStores) ∨
      ∃ e, st.rmEntry env pathName = some e ∧ st'.nonce = e.nonce ∧
        storeIterateRm env.graph env.slot e.nonce env.fuel e.start e.stores = .ok st'.fsStores := by
  simp only [pathStoreRm, tokenise] at hrun
  simp only [rmEntry, tokenise]
  cases htok : Tokens.processPath ⟨env.examinated pathName, st.argIdxs⟩ with
  | mk j tk =>
      rw [htok] at hrun
      cases j with
      | none =>
          simp only [Except.ok.injEq, Prod.mk.injEq] at hrun
          obtain ⟨-, rfl⟩ := hrun
          exact Or.inl ⟨rfl, rfl, rfl⟩
      | some j =>
          dsimp only
          cases rmLocked_cases (locked_run hrun) with
          | absent hsearch hdeep =>
              dsimp only at hsearch
              rw [hsearch]
              exact Or.inl ⟨if_neg fun h => hdeep h.1, rfl, rfl⟩
          | inexplicit hsearch he hflag =>
              dsimp only at hsearch he
              rw [hsearch]
              exact Or.inl ⟨if_neg (by simp [he, hflag]), rfl, rfl⟩
          | removed hsearch he hflag hcount _ =>
              dsimp only at hsearch he
              rw [hsearch, unlock_nonce, unlock_fsStores]
              dsimp only
              rw [if_pos (by simp [he, hflag])]
              rcases uncount_cases hcount with ⟨hdecree, rfl⟩ | ⟨decree, stores, hdecree,
                htraverse, rfl⟩
              · exact Or.inl ⟨by rw [entry, hdecree]; rfl, rfl, rfl⟩
              · exact Or.inr ⟨_, by rw [entry, hdecree]; rfl, rfl, htraverse⟩

end Store

lemma StoreCall.entry_eq {c : StoreCall} {st : Store} {e : Entry} (he : c.entry st = some e) :
    ∃ decree : PathDecree, e = ⟨(st.nonce + 1) % 2 ^ 64, decree.inode, st.fsStores⟩ := by
  rw [entry] at he
  split at he
  · exact Store.addEntry_eq he
  · exact Store.rmEntry_eq he
  · cases he

/-- The entry of a call is that of its traversal: without one `nonce` and the tables are as
    before, and otherwise they are as the traversal from the entry leaves them. -/
def StoreCall.Enters (c : StoreCall) (st st' : Store) : Prop :=
  (c.entry st = none ∧ st'.nonce = st.nonce ∧ st'.fsStores = st.fsStores) ∨
    ∃ e, c.entry st = some e ∧ st'.nonce = e.nonce ∧ c.traverse e.nonce e.start e.stores
      = .ok st'.fsStores

/-- A call that returns has changed `nonce` and the tables by its traversal only. -/
lemma StoreCall.run_entry {c : StoreCall} {st st' : Store} {ret : ℤ}
    (hrun : c.run st = .ok (ret, st')) : c.Enters st st' := by
  cases hop : c.op with
  | add =>
      simp only [run, hop] at hrun
      simpa only [Enters, entry, traverse, hop] using Store.pathStoreAdd_entry hrun
  | rm =>
      simp only [run, hop] at hrun
      simpa only [Enters, entry, traverse, hop] using Store.pathStoreRm_entry hrun
  | check =>
      simp only [run, hop] at hrun
      refine Or.inl ⟨by rw [entry, hop], ?_⟩
      cases hcheck : st.pathStoreCheck c.env c.pathName with
      | error stop => simp [hcheck, Except.map] at hrun
      | ok r =>
          simp only [hcheck, Except.map, Except.ok.injEq, Prod.mk.injEq] at hrun
          obtain ⟨idx, -, hst⟩ := Store.pathStoreCheck_offsets hcheck
          rw [← hrun.2, hst]
          exact ⟨rfl, rfl⟩

/-- The entry does not depend on the lock. -/
lemma StoreCall.entry_lock (c : StoreCall) (st : Store) (lock : Bool) :
    c.entry { st with storeLock := lock } = c.entry st := by
  unfold entry
  cases c.op with
  | add =>
      simp only [Store.addEntry, Store.tokenise]
      cases Tokens.processPath ⟨c.env.examinated c.pathName, st.argIdxs⟩ with
      | mk j tk => cases j <;> rfl
  | rm =>
      simp only [Store.rmEntry, Store.tokenise]
      cases Tokens.processPath ⟨c.env.examinated c.pathName, st.argIdxs⟩ with
      | mk j tk => cases j <;> rfl
  | check => rfl

/-- The same whatever the lock was. -/
lemma StoreCall.run_enters {c : StoreCall} {st st' : Store} {lock : Bool} {ret : ℤ}
    (hrun : c.run { st with storeLock := lock } = .ok (ret, st')) : c.Enters st st' := by
  have henters := run_entry hrun
  rwa [Enters, entry_lock] at henters

/-! ## What a traversal does to the stamps

It writes no stamp but its own number and zero, so that the stamps stay at or below `nonce`. -/

section

variable {g : FsGraph} {slab : ℕ → SlabAnswer} {answer : SlabAnswer} {nonce fuel : ℕ}
  {i start : Inode} {stores stores' after : List StoreFs} {ret : ℤ}

/-- No stamp in the tables is above `nonce`. -/
def StampsUpTo (nonce : ℕ) (stores : List StoreFs) : Prop :=
  EveryNode (fun _ _ node => node.stamp ≤ nonce) stores

lemma StampsUpTo.succ (h : StampsUpTo nonce stores) : StampsBelow (nonce + 1) stores :=
  fun store hstore b node hnode => Nat.lt_succ_of_le (h store hstore b node hnode)

lemma StampsBelow.upTo (h : StampsBelow nonce stores) : StampsUpTo nonce stores :=
  fun store hstore b node hnode => (h store hstore b node hnode).le

lemma StampsUpTo.insert (h : StampsUpTo nonce stores) :
    StampsUpTo nonce (insertInodeHt answer nonce i stores).2 := by
  refine insertInodeHt_every h (fun _ node _ _ m hm => ?_) fun _ => Nat.zero_le _
  rw [countUp, List.mem_singleton] at hm
  rw [hm]

lemma StampsUpTo.rm (h : StampsUpTo nonce stores)
    (hrun : rmInodeHt nonce i stores = .ok (ret, stores')) : StampsUpTo nonce stores' := by
  refine (rmInodeHt_run hrun).2.every h fun _ node _ _ m hm => ?_
  rw [oneLess] at hm
  split_ifs at hm
  · cases hm
  · rw [List.mem_singleton.mp hm]

/-- Before a traversal has counted anything, no insertion finds its inode seen. -/
lemma StampsBelow.insert_ne (h : StampsBelow nonce stores) :
    (insertInodeHt answer nonce i stores).1 ≠ -1 := by
  intro hseen
  obtain ⟨store, hstore, -, node, hnode, -, hle⟩ := insertInodeHt_stamp hseen
  exact absurd (h store hstore _ node hnode) (not_lt.mpr hle)

/-- Nor does a removal. -/
lemma StampsBelow.rm_ne (h : StampsBelow nonce stores)
    (hrun : rmInodeHt nonce i stores = .ok (ret, stores')) : ret ≠ -1 := by
  rintro rfl
  obtain ⟨store, hstore, -, node, hnode, -, hle⟩ := (rmInodeHt_run hrun).2.stamp_of_seen
  exact absurd (h store hstore _ node hnode) (not_lt.mpr hle)

end

/-- No traversal writes a stamp above its number. -/
lemma StoreCall.traverse_stamps {c : StoreCall} {nonce : ℕ} {i : Inode}
    {stores after : List StoreFs}
    (h : StampsUpTo nonce stores) (hrun : c.traverse nonce i stores = .ok after) :
    StampsUpTo nonce after := by
  cases hop : c.op with
  | add =>
      simp only [traverse, hop] at hrun
      exact storeIterateAdd_keeps (fun _ _ _ hall => hall.insert) h hrun
  | rm =>
      simp only [traverse, hop] at hrun
      exact storeIterateRm_keeps (fun hall hrm => hall.rm hrm) h hrun
  | check =>
      simp only [traverse, hop, Except.ok.injEq] at hrun
      exact hrun ▸ h

/-- `refresh_nonces` leaves no stamp above zero. -/
lemma refreshStamps_stamps (stores : List StoreFs) : StampsUpTo 0 (refreshStamps stores) := by
  intro store hstore b node hnode
  obtain ⟨before, -, rfl⟩ := List.mem_map.mp hstore
  obtain ⟨m, -, rfl⟩ := List.mem_map.mp hnode
  exact le_rfl

/-! ## Runs

`Store.Stamped` is kept by every call and by the refresh.  The lock is given back or not as the
call pleases; a caller that gets it later finds the same stamps. -/

/-- A call is made while `nonce` is not used up, and returns; it may find `store_lock` released,
    whatever the calls before it have left.  `refresh_nonces` comes in between when `nonce` is
    used up. -/
def StoreEvent.Turn (st : Store) (ev : StoreEvent) (st' : Store) : Prop :=
  match ev with
  | call c => st.nonce ≠ ullongMax ∧ ∃ lock ret, c.run { st with storeLock := lock }
      = .ok (ret, st')
  | refresh => st.nonce = ullongMax ∧ st' = st.refreshNonces

/-- The stamps between calls, and the range of `nonce`. -/
structure Store.Stamped (st : Store) : Prop where
  upTo : StampsUpTo st.nonce st.fsStores
  range : st.nonce ≤ ullongMax

/-- What is asked of the entry of a traversal from a store with `nonce`: the increment has not
    wrapped, the stamps are below, and the inode of the start is not taken for seen. -/
structure Entry.Fresh (nonce : ℕ) (e : Entry) : Prop where
  noWrap : e.nonce = nonce + 1 ∧ e.nonce ≤ ullongMax
  below : StampsBelow e.nonce e.stores
  inserted : ∀ answer, (insertInodeHt answer e.nonce e.start e.stores).1 ≠ -1
  removed : ∀ ret stores, rmInodeHt e.nonce e.start e.stores = .ok (ret, stores) → ret ≠ -1

namespace Store.Stamped

variable {st st' : Store} {ev : StoreEvent}

/-- The next call enters its traversal with every stamp below `nonce`. -/
lemma entry (h : st.Stamped) (hmax : st.nonce ≠ ullongMax) {c : StoreCall} {e : Entry}
    (he : c.entry st = some e) : e.Fresh st.nonce := by
  obtain ⟨decree, rfl⟩ : ∃ decree : PathDecree,
      e = ⟨(st.nonce + 1) % 2 ^ 64, decree.inode, st.fsStores⟩ :=
    StoreCall.entry_eq he
  have hlt : st.nonce < ullongMax := lt_of_le_of_ne h.range hmax
  have hwrap : (st.nonce + 1) % 2 ^ 64 = st.nonce + 1 :=
    Nat.mod_eq_of_lt (by rw [ullongMax] at hlt; omega)
  have hbelow : StampsBelow ((st.nonce + 1) % 2 ^ 64) st.fsStores := by
    rw [hwrap]
    exact h.upTo.succ
  exact ⟨⟨hwrap, hwrap.trans_le hlt⟩, hbelow, fun _ => hbelow.insert_ne,
    fun _ _ hrun => hbelow.rm_ne hrun⟩

/-- One call, or the refresh. -/
lemma step (h : st.Stamped) (hstep : ev.Turn st st') : st'.Stamped := by
  cases ev with
  | refresh =>
      obtain ⟨-, rfl⟩ := hstep
      exact ⟨refreshStamps_stamps st.fsStores, Nat.zero_le _⟩
  | call c =>
      obtain ⟨hmax, lock, ret, hrun⟩ := hstep
      have hst : ({ st with storeLock := lock } : Store).Stamped := ⟨h.upTo, h.range⟩
      rcases StoreCall.run_entry hrun with ⟨-, hnonce, hstores⟩ | ⟨e, he, hnonce, htrav⟩
      · exact ⟨by rw [hnonce, hstores]; exact h.upTo, hnonce.trans_le h.range⟩
      · have hfresh := hst.entry hmax he
        refine ⟨?_, hnonce.trans_le hfresh.noWrap.2⟩
        rw [hnonce]
        exact c.traverse_stamps hfresh.below.upTo htrav

end Store.Stamped

/-- **The stamps are fresh.**  After every run of calls, with any paths, in which
    `refresh_nonces` comes before the next call when `nonce` is used up: no stamp is above
    `nonce`; and the traversal of whatever call is made next finds every stamp strictly below a
    `nonce` that has not wrapped, so that it does not take its start for seen. -/
theorem stamps_fresh {root : Addr} {events : List StoreEvent} {st : Store}
    (hrun : Run StoreEvent.Turn (Store.setup root) events st) :
    StampsUpTo st.nonce st.fsStores ∧ st.nonce ≤ ullongMax ∧
      (st.nonce ≠ ullongMax → ∀ c : StoreCall, ∀ e, c.entry st = some e → e.Fresh st.nonce) ∧
      ∀ c : StoreCall, ∀ lock ret st', c.run { st with storeLock := lock } = .ok (ret, st') →
        c.Enters st st' := by
  have hst : st.Stamped := hrun.invariant (P := Store.Stamped) (fun _ _ _ h hstep => h.step hstep)
    ⟨by simp [StampsUpTo, EveryNode, Store.setup], Nat.zero_le _⟩
  exact ⟨hst.upTo, hst.range, fun hmax _ _ he => hst.entry hmax he,
    fun _ _ _ _ hnext => StoreCall.run_enters hnext⟩

/-- The stamps after the addition of `/a`, and at the entry of what follows. -/
theorem stamps_fresh_file :
    ∃ st, Run StoreEvent.Turn (Store.setup 0) [.call (fileCall .add [[97]] ⟨0, 5⟩ [1])] st ∧
      StampsUpTo st.nonce st.fsStores ∧ st.nonce ≤ ullongMax ∧
      (st.nonce ≠ ullongMax → ∀ c : StoreCall, ∀ e, c.entry st = some e → e.Fresh st.nonce) ∧
      ∀ c : StoreCall, ∀ lock ret st', c.run { st with storeLock := lock } = .ok (ret, st') →
        c.Enters st st' := by
  obtain ⟨st, hadd⟩ : ∃ st, (fileCall .add [[97]] ⟨0, 5⟩ [1]).run (Store.setup 0)
      = .ok (0, st) := ⟨_, rfl⟩
  have hrun : Run StoreEvent.Turn (Store.setup 0) [.call (fileCall .add [[97]] ⟨0, 5⟩ [1])] st :=
    .cons ⟨by decide, false, 0, hadd⟩ (.nil _)
  exact ⟨st, hrun, stamps_fresh hrun⟩

/-- The removal that follows comes to its traversal, as the second one. -/
example : ∃ st ret, (fileCall .add [[97]] ⟨0, 5⟩ [1]).run (Store.setup 0) = .ok (ret, st) ∧
    ∃ e, (fileCall .rm [[97]] ⟨0, 5⟩ []).entry st = some e ∧ e.nonce = 2 := ⟨_, _, rfl, _, rfl, rfl⟩

end KLRM
