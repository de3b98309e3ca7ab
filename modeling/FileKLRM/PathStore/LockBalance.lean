import FileKLRM.PathStore.AnyPath

/-!
# The exits of the store operations

Which exits of `path_store_add` and `path_store_rm` leave `store_lock` held, and which rejections
of `path_store_add` leave something behind.  Both are read off the ways in which a call returns
(`AddRun`, `RmRun`), for calls with any path, and carried to every sequence of calls and of the
deferred `refresh_nonces`.
-/

namespace KLRM

/-! ## Nothing else waits

The only loop of the store that can wait is the one for `store_lock`: every other way of not
returning is a fault of its own.  So a call that spins has found the lock held. -/

section NoSpin

variable {t : Trie} {tk : Tokens} {j fuel d nonce : ℕ} {curr : Addr} {name : Name} {l : List Addr}
  {fresh : List Addr} {g : FsGraph} {slot : ℕ → DentrySlot} {slab : ℕ → SlabAnswer}
  {stores : List StoreFs} {i : Inode} {stop : Stop}

lemma Trie.findChild_stop (h : t.findChild name l = .error stop) : stop ≠ .spinForever := by
  induction l with
  | nil => cases h
  | cons a l ih =>
      rw [Trie.findChild] at h
      split at h
      · cases h
        simp
      · split_ifs at h
        exact ih h

lemma Trie.search_stop (h : t.search tk j fuel curr d = .error stop) : stop ≠ .spinForever := by
  fun_induction Trie.search with grind [Trie.findChild_stop]

lemma Trie.create_stop (h : Trie.create tk j fuel curr d fresh t = .error stop) :
    stop ≠ .spinForever := by
  fun_induction Trie.create with grind [Trie.search_stop]

lemma Trie.prune_stop (h : Trie.prune fuel curr t = .error stop) : stop ≠ .spinForever := by
  fun_induction Trie.prune with grind

lemma rmInodeHt_stop (h : rmInodeHt nonce i stores = .error stop) : stop ≠ .spinForever := by
  fun_induction rmInodeHt with grind

lemma AddWalk.follow_stop {w : AddWalk} (h : w.follow g slot slab nonce i = .error stop) :
    stop ≠ .spinForever := by
  rw [AddWalk.follow_eq] at h
  split_ifs at h
  cases h
  simp

lemma replayAdd_stop {w : AddWalk} : replayAdd g slot slab nonce fuel w = .error stop →
    stop ≠ .spinForever := by
  fun_induction replayAdd with grind [AddWalk.follow_stop]

lemma storeIterateAdd_stop (h : storeIterateAdd g slot slab nonce fuel i stores = .error stop) :
    stop ≠ .spinForever := by
  rw [storeIterateAdd, storeIterateAddCalls] at h
  cases hrun : replayAdd g slot slab nonce fuel ((AddWalk.start stores).meet slab nonce i) with
  | ok w => simp [hrun, Except.map] at h
  | error e =>
      obtain rfl : e = stop := by simpa [hrun, Except.map] using h
      exact replayAdd_stop hrun

lemma foldlM_meetRm_stop : ∀ {ys : List Inode} {w : List Inode × List StoreFs},
    ys.foldlM (meetRm g nonce) w = .error stop → stop ≠ .spinForever
  | [], _, h => by cases h
  | y :: ys, w, h => by
      rw [List.foldlM_cons] at h
      cases hrm : rmInodeHt nonce y w.2 with
      | error e =>
          have hmeet : meetRm g nonce w y = .error e := by simp [meetRm, hrm, bind, Except.bind]
          rw [hmeet] at h
          cases h
          exact rmInodeHt_stop hrm
      | ok r =>
          cases hmeet : meetRm g nonce w y with
          | error e => simp [meetRm, hrm, bind, Except.bind] at hmeet
          | ok w' =>
              rw [hmeet] at h
              exact foldlM_meetRm_stop h

lemma replayRm_stop {stack : List Inode} {links : ℕ}
    (h : replayRm g slot nonce fuel links stack stores = .error stop) : stop ≠ .spinForever := by
  induction fuel generalizing links stack stores with
  | zero =>
      cases h
      simp
  | succ fuel ih =>
      cases stack with
      | nil => cases h
      | cons dir rest =>
          rw [replayRm] at h
          split_ifs at h
          · cases hresolve : g.resolve (slot links) dir with
            | null | negative =>
                rw [hresolve] at h
                exact ih h
            | positive _ | wild =>
                rw [hresolve] at h
                cases h
                simp
          · simp only [bind, Except.bind] at h
            split at h
            · rename_i hfold
              cases h
              exact foldlM_meetRm_stop hfold
            · exact ih h

lemma storeIterateRm_stop (h : storeIterateRm g slot nonce fuel i stores = .error stop) :
    stop ≠ .spinForever := by
  simp only [storeIterateRm, bind, Except.bind] at h
  split at h
  · rename_i hrm
    cases h
    exact rmInodeHt_stop hrm
  · split_ifs at h
    exact replayRm_stop h

end NoSpin

namespace Store

variable {st : Store} {env : StoreEnv} {pathName buf : List UInt8} {j : ℕ} {stop : Stop}

lemma addLocked_stop (h : addLocked env buf j st = .error stop) : stop ≠ .spinForever := by
  rw [addLocked] at h
  split at h
  · rename_i hcreate
    cases h
    exact Trie.create_stop hcreate
  · cases h
  · split at h
    · cases h
      simp
    · split at h
      · cases h
      · dsimp only at h
        split at h
        · rename_i htrav
          cases h
          exact storeIterateAdd_stop htrav
        · cases h

lemma rmLocked_stop (h : rmLocked env buf j st = .error stop) : stop ≠ .spinForever := by
  rw [rmLocked] at h
  split at h
  · rename_i hsearch
    cases h
    exact Trie.search_stop hsearch
  · split_ifs at h
    split at h
    · cases h
      simp
    · split_ifs at h
      simp only [bind, Except.bind] at h
      split at h
      · rename_i hcount
        cases h
        rw [uncount] at hcount
        split at hcount
        · cases hcount
        · dsimp only at hcount
          split at hcount
          · rename_i htrav
            cases hcount
            exact storeIterateRm_stop htrav
          · cases hcount
      · split at h
        · rename_i hdeact
          cases h
          rw [deactivate] at hdeact
          split_ifs at hdeact
          exact Trie.prune_stop hdeact
        · cases h

lemma checkLocked_stop (h : checkLocked buf j st = .error stop) : stop ≠ .spinForever := by
  rw [checkLocked] at h
  split at h
  · rename_i hsearch
    cases h
    exact Trie.search_stop hsearch
  · split at h
    · cases h
      simp
    · dsimp only at h
      split_ifs at h

lemma map_stop {ρ ρ' : Type*} {f : ρ → ρ'} {x : Except Stop ρ} (h : x.map f = .error stop) :
    x = .error stop := by
  cases x with
  | error e => exact congrArg Except.error (Except.error.inj h)
  | ok r => cases h

lemma locked_stop {ρ : Type*} {body : Except Stop ρ} (hfree : st.storeLock = false)
    (h : st.locked body = .error stop) : body = .error stop := by
  rw [locked, hfree] at h
  exact h

end Store

/-- A call waits only for a lock that an earlier call has kept. -/
lemma StoreCall.run_stop {st : Store} (c : StoreCall) (hfree : st.storeLock = false) :
    c.run st ≠ .error .spinForever := by
  intro h
  rw [StoreCall.run] at h
  cases hop : c.op with
  | add =>
      rw [hop] at h
      simp only [Store.pathStoreAdd, Store.tokenise] at h
      split at h
      · cases h
      · rename_i htok
        obtain ⟨-, -, rfl⟩ := by simpa only [Prod.mk.injEq] using htok
        exact Store.addLocked_stop (Store.locked_stop hfree h) rfl
  | rm =>
      rw [hop] at h
      simp only [Store.pathStoreRm, Store.tokenise] at h
      split at h
      · cases h
      · rename_i htok
        obtain ⟨-, -, rfl⟩ := by simpa only [Prod.mk.injEq] using htok
        exact Store.rmLocked_stop (Store.locked_stop hfree h) rfl
  | check =>
      rw [hop] at h
      simp only [Store.pathStoreCheck, Store.tokenise] at h
      replace h := Store.map_stop h
      split_ifs at h
      split at h
      · cases h
      · rename_i htok
        obtain ⟨-, -, rfl⟩ := by simpa only [Prod.mk.injEq] using htok
        exact Store.checkLocked_stop (Store.locked_stop hfree (Store.map_stop h)) rfl

/-- A check of `/` waits while the lock is kept. -/
lemma run_check_root {st : Store} (hlock : st.storeLock = true) (fresh : List Addr) :
    StoreCall.run
        ⟨.check, ⟨none, fileGraph, fun _ => .null, fun _ => ⟨true, some 0⟩, fresh, true, 0⟩,
        [47, 0], []⟩ st
      = .error .spinForever := by
  obtain ⟨t, htok⟩ : ∃ t, Tokens.processPath ⟨[47, 0], st.argIdxs⟩ = (some 0, t) := by
    have hnames : ∀ c ∈ ([] : List Name), IsName c := by simp
    obtain ⟨t, htok, -⟩ := Tokens.processPath_pathString hnames (Nat.zero_le _) [] st.argIdxs
    exact ⟨t, htok⟩
  simp [StoreCall.run, Store.pathStoreCheck, Store.lookupInode, Store.tokenise,
    StoreEnv.examinated, htok, Store.locked, hlock, Except.map]

/-! ## Sequences of calls

`Releases` says of a call, before it is made, whether it will take an exit that gives the lock
back.  Since a held lock lets no further call return, the lock is free after a run exactly when
every call of it released. -/

/-- A call, or the work that a call has scheduled. -/
inductive StoreEvent
  | call (c : StoreCall)
  | refresh

namespace StoreEvent

/-- A call that returns, the slab having handed out objects that are not in use; or
    `refresh_nonces`, once it is scheduled. -/
def Step (st : Store) (ev : StoreEvent) (st' : Store) : Prop :=
  match ev with
  | call c => FreshFor st.trie c.env.fresh 0 ∧ ∃ ret, c.run st = .ok (ret, st')
  | refresh => st.refreshScheduled = true ∧ st' = st.refreshNonces

/-- The call takes an exit that releases the lock: an addition that the tokeniser rejects, or of
    a resolved path without empty components that leaves `nonce` below `ULLONG_MAX`; a removal
    that is refused or does the same; a check. -/
def Releases (st : Store) : StoreEvent → Prop
  | call c =>
      match c.op with
      | .add => ∀ cs, st.components c.env c.pathName = some cs →
          [] ∉ cs ∧ c.env.decree.isSome ∧ st.nonceAfter c.env ≠ 2 ^ 64 - 1
      | .rm => ∀ cs, st.components c.env c.pathName = some cs → st.trie.ExplicitAt cs →
          st.nonceAfter c.env ≠ 2 ^ 64 - 1
      | .check => True
  | refresh => True

end StoreEvent

namespace Store

variable {st st' : Store} {env : StoreEnv} {pathName : List UInt8} {ret : ℤ}

lemma unlock_storeLock (st : Store) (env : StoreEnv) :
    (st.unlock env).storeLock = false ↔ st.storeLock = false ∧ st.nonce ≠ 2 ^ 64 - 1 := by
  rw [unlock]
  split_ifs with hmax
  · simp [hmax]
  · exact ⟨fun hfree => ⟨hfree, hmax⟩, fun h => h.1⟩

lemma AddRun.storeLock_iff (h : AddRun st env pathName ret st') :
    st'.storeLock = false ↔ st.storeLock = false ∧ ∀ cs, st.components env pathName = some cs →
      [] ∉ cs ∧ env.decree.isSome ∧ st.nonceAfter env ≠ 2 ^ 64 - 1 := by
  cases h with
  | rejected idx hrejects => simp [hrejects]
  | emptyName idx cs t hcs hnil _ => simp [hcs, hnil]
  | unresolved idx cs t hcs _ hdecree => simp [hcs, hdecree]
  | resolved idx cs t stores hcs hnil hdecree =>
      rw [unlock_storeLock]
      simp [hcs, hnil, hdecree]

lemma RmRun.storeLock_iff (h : RmRun st env pathName ret st') :
    st'.storeLock = false ↔ st.storeLock = false ∧ ∀ cs, st.components env pathName = some cs →
      st.trie.ExplicitAt cs → st.nonceAfter env ≠ 2 ^ 64 - 1 := by
  cases h with
  | refused idx habsent =>
      refine ⟨fun hfree => ⟨hfree, fun cs hcs hflag => absurd hflag (habsent cs hcs)⟩, fun h => h.1⟩
  | removed idx cs t stores hcs hflag =>
      rw [unlock_storeLock]
      simp [hcs, hflag]

end Store

namespace StoreEvent

/-- One event: the lock is free after it exactly when it was and the event releases it. -/
lemma Step.storeLock_iff {st st' : Store} {ev : StoreEvent} (h : st.Sound)
    (hstep : Step st ev st') :
    st'.Sound ∧ (st'.storeLock = false ↔ st.storeLock = false ∧ ev.Releases st) := by
  cases ev with
  | refresh =>
      obtain ⟨-, rfl⟩ := hstep
      exact ⟨⟨h.trie, h.offset⟩, by simp [Store.refreshNonces, Releases]⟩
  | call c =>
      obtain ⟨hfresh, ret, hrun⟩ := hstep
      cases hop : c.op with
      | add =>
          simp only [StoreCall.run, hop] at hrun
          obtain ⟨hadd, hsound⟩ := Store.pathStoreAdd_run h hfresh hrun
          exact ⟨hsound, by simpa only [Releases, hop] using hadd.storeLock_iff⟩
      | rm =>
          simp only [StoreCall.run, hop] at hrun
          obtain ⟨hrm, hsound⟩ := Store.pathStoreRm_run h hrun
          exact ⟨hsound, by simpa only [Releases, hop] using hrm.storeLock_iff⟩
      | check =>
          simp only [StoreCall.run, hop] at hrun
          cases hcheck : st.pathStoreCheck c.env c.pathName with
          | error e => simp [hcheck, Except.map] at hrun
          | ok r =>
              obtain ⟨res, st₁⟩ := r
              simp only [hcheck, Except.map, Except.ok.injEq, Prod.mk.injEq] at hrun
              obtain ⟨idx, hidx, hst⟩ := Store.pathStoreCheck_run h hcheck
              rw [← hrun.2, hst]
              exact ⟨⟨h.trie, hidx⟩, by simp [Releases, hop]⟩

end StoreEvent

/-- **The lock is released by every call exactly when every call of the sequence takes an exit
    that releases it**; and then, and only then, no call waits for it. -/
theorem storeLock_free_iff {root : Addr} {events : List StoreEvent} {st : Store}
    (hrun : Run StoreEvent.Step (Store.setup root) events st) :
    (st.storeLock = false ↔
      Run (When StoreEvent.Releases StoreEvent.Step) (Store.setup root) events st) ∧
      ((∀ c : StoreCall, c.run st ≠ .error .spinForever) ↔ st.storeLock = false) := by
  refine ⟨hrun.kept_iff (I := Store.Sound) (P := fun st => st.storeLock = false)
    (fun _ _ _ h hstep => hstep.storeLock_iff h) (Store.sound_setup root) rfl, fun hwait => ?_,
    fun hfree c => c.run_stop hfree⟩
  by_contra hlock
  exact hwait _ (run_check_root (Bool.eq_true_of_not_eq_false hlock) [])

/-- `/a` is added and removed, resolved both times: each call takes the lock and gives it back. -/
theorem storeLock_free_iff_add_rm :
    ∃ st, Run StoreEvent.Step (Store.setup 0)
        [.call (fileCall .add [[97]] ⟨0, 5⟩ [1]), .call (fileCall .rm [[97]] ⟨0, 5⟩ [])] st ∧
      st.storeLock = false ∧
      (st.storeLock = false ↔ Run (When StoreEvent.Releases StoreEvent.Step) (Store.setup 0)
        [.call (fileCall .add [[97]] ⟨0, 5⟩ [1]), .call (fileCall .rm [[97]] ⟨0, 5⟩ [])] st) ∧
      ((∀ c : StoreCall, c.run st ≠ .error .spinForever) ↔ st.storeLock = false) := by
  obtain ⟨st₁, st₂, hadd, hrm, hfree⟩ : ∃ st₁ st₂,
      (fileCall .add [[97]] ⟨0, 5⟩ [1]).run (Store.setup 0) = .ok (0, st₁) ∧
      (fileCall .rm [[97]] ⟨0, 5⟩ []).run st₁ = .ok (0, st₂) ∧ st₂.storeLock = false :=
    ⟨_, _, rfl, rfl, rfl⟩
  have hfresh : FreshFor (Store.setup 0).trie [1] 0 :=
    ⟨Nat.zero_le _, List.nodup_singleton _, by simp [Store.setup]⟩
  have hnone : FreshFor st₁.trie [] 0 := ⟨Nat.zero_le _, List.nodup_nil, by simp⟩
  have hrun : Run StoreEvent.Step (Store.setup 0)
      [.call (fileCall .add [[97]] ⟨0, 5⟩ [1]), .call (fileCall .rm [[97]] ⟨0, 5⟩ [])] st₂ :=
    .cons ⟨hfresh, 0, hadd⟩ (.cons ⟨hnone, 0, hrm⟩ (.nil _))
  exact ⟨st₂, hrun, hfree, storeLock_free_iff hrun⟩

/-- A call with a path that the oracle does not resolve. -/
def unresolvedCall (op : StoreOp) (pathName : List UInt8) (fresh : List Addr) : StoreCall where
  op := op
  env :=
    { decree := none
      graph := fileGraph
      slot := fun _ => .null
      slab := fun _ => ⟨true, some 0⟩
      fresh := fresh
      moduleGet := true
      fuel := 2 }
  pathName := pathName
  path := []

/-- The addition of `/a`, which the oracle does not resolve, keeps the lock; a check then waits
    for it. -/
theorem storeLock_kept :
    ∃ st, Run StoreEvent.Step (Store.setup 0) [.call (unresolvedCall .add [47, 97, 0] [1])] st ∧
      st.storeLock = true ∧ (unresolvedCall .check [47, 0] []).run st = .error .spinForever := by
  obtain ⟨st, hadd, hlock⟩ : ∃ st, (unresolvedCall .add [47, 97, 0] [1]).run (Store.setup 0)
      = .ok (0, st) ∧ st.storeLock = true := ⟨_, rfl, rfl⟩
  have hfresh : FreshFor (Store.setup 0).trie [1] 0 :=
    ⟨Nat.zero_le _, List.nodup_singleton _, by simp [Store.setup]⟩
  exact ⟨st, .cons ⟨hfresh, 0, hadd⟩ (.nil _), hlock, run_check_root hlock []⟩

/-! ## Additions that are rejected

A rejection by the tokeniser leaves the trie alone; a rejection for an empty component comes after
the nodes before it have been created, and leaves the lock held as well. -/

/-- **A rejected addition changes nothing exactly when the components before the first empty one
    lead to a node**, if the tokeniser accepts the path at all. -/
theorem rejectedAdd_unchanged_iff {root : Addr} {events : List StoreEvent} {st st' : Store}
    {env : StoreEnv} {pathName : List UInt8} {ret : ℤ}
    (hrun : Run StoreEvent.Step (Store.setup root) events st)
    (hfresh : FreshFor st.trie env.fresh 0)
    (hadd : st.pathStoreAdd env pathName = .ok (ret, st')) (hret : ret ≠ 0) :
    (st'.trie = st.trie ∧ st'.fsStores = st.fsStores ∧ st'.nonce = st.nonce) ↔
      ∀ cs, st.components env pathName = some cs → (st.trie.nodeAt (creatable cs)).isSome := by
  have hsound : st.Sound := hrun.invariant (P := Store.Sound)
    (fun _ _ _ h hstep => (hstep.storeLock_iff h).1) (Store.sound_setup root)
  cases (Store.pathStoreAdd_run hsound hfresh hadd).1 with
  | rejected idx hrejects => simp [hrejects]
  | emptyName idx cs t hcs _ hsame => simp [hcs, hsame]
  | unresolved idx cs t _ _ _ => exact absurd rfl hret
  | resolved idx cs t stores _ _ _ => exact absurd rfl hret

/-- The rejection of `//`, which changes nothing. -/
theorem rejectedAdd_unchanged_iff_slashes :
    ∃ st', (Store.setup 0).pathStoreAdd (unresolvedCall .add [47, 47, 0] []).env [47, 47, 0]
      = .ok (1, st') ∧
      ((st'.trie = (Store.setup 0).trie ∧ st'.fsStores = (Store.setup 0).fsStores ∧
          st'.nonce = (Store.setup 0).nonce) ↔
        ∀ cs,
          (Store.setup 0).components (unresolvedCall .add [47, 47, 0] []).env [47, 47, 0]
            = some cs →
          ((Store.setup 0).trie.nodeAt (creatable cs)).isSome) := by
  refine ⟨_, rfl, rejectedAdd_unchanged_iff (.nil _) ⟨Nat.zero_le _, List.nodup_nil,
    ?_⟩ rfl one_ne_zero⟩
  simp [unresolvedCall]

/-- The addition of `/a//b` to the empty store is rejected, and has created a node for `/a`. -/
theorem rejectedAdd_creates :
    ∃ st', (unresolvedCall .add [47, 97, 47, 47, 98, 0] [1, 2]).run (Store.setup 0) = .ok (1, st') ∧
      st'.trie.allocations = [1, 0] ∧ (Store.setup 0).trie.allocations = [0] ∧
      (st'.trie.nodeAt [[97]]).isSome ∧ ¬ ((Store.setup 0).trie.nodeAt [[97]]).isSome :=
  ⟨_, rfl, rfl, rfl, rfl, by decide⟩

end KLRM
