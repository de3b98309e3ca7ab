import FileKLRM.Core.Ledger
import FileKLRM.PathStore.Refinement

/-!
# References: what a request takes and gives back

`pathname_oracle`, the two traversals and the three operations once more, for the references to
dentries and mounts that they take, the shared inode locks and the nodes of the work list.  A
dentry is now told apart from its inode, and the calls of the kernel that can fail are answered
one by one.

The oracle gives back all that it has taken itself and none of what `kern_path` has: the dentry
and the mount of a resolved path stay pinned, and `clean_oracle_decree` frees the decree that
holds them.  A traversal likewise keeps the references of its `path_get`, and those of each
symlink that it resolves; its locks and the dentries on its list it gives back
(`storeIterateAddRefs_accounts`, `storeIterateRmRefs_accounts`).  So a request that returns has
balanced its references exactly when there was nothing to resolve (`references_balance_iff`).
-/

namespace KLRM

open RefEvent

/-! ## The kernel

The resources are counted, not looked into: an event takes or gives back one reference.  The
answers of the kernel are fixed beforehand, by the dentry and the number of the list node where
they may differ from call to call. -/

/-- A dentry and a mount, by number. -/
abbrev Dentry := ℕ
@[inherit_doc Dentry] abbrev Mount := ℕ

/-- What is counted; an inode lock is held shared. -/
inductive Resource
  | dentry (d : Dentry)
  | mount (m : Mount)
  | inodeLock (i : Inode)
deriving DecidableEq

abbrev Events := List (RefEvent Resource)

/-- The answers to one resolution of a symlink: whether `kmalloc` has a buffer and
    `dentry_path_raw` a path, what `kern_path` finds, and what was in `resolved.dentry` before. -/
structure LinkAnswer where
  bufOk : Bool
  pathOk : Bool
  kern : Option (Dentry × Mount)
  stale : Option Dentry

/-- What one call sees of the kernel. -/
structure RefEnv where
  inode : Dentry → Option Inode
  isSymlink : Dentry → Bool
  subdirs : Dentry → List Dentry
  /-- By the symlink and the number of its list node. -/
  link : Dentry → ℕ → LinkAnswer
  /-- For the oracle: `kzalloc`, `kern_path` and `d_path`. -/
  kzallocOk : Bool
  kern : Option (Dentry × Mount)
  dPath : Option (List UInt8)
  /-- For the traversals: the `kmalloc` of the list nodes, the slab caches, and the rounds. -/
  nodeOk : ℕ → Bool
  slab : ℕ → SlabAnswer
  fuel : ℕ
  fresh : List Addr

/-- `path_get`. -/
def pathGet (d : Dentry) (m : Mount) : Events := [.get (.mount m), .get (.dentry d)]

/-- `path_put`. -/
def pathPut (d : Dentry) (m : Mount) : Events := [.put (.dentry d), .put (.mount m)]

/-! ## The oracle

Translated exit by exit.  `kern_path` takes a reference to the mount and one to the dentry that
`path_get` takes once more; only the latter are given back. -/

/-- `path_decree`. -/
structure RefDecree where
  path : List UInt8
  inode : Inode
  dentry : Dentry
  mount : Mount

/-- `pathname_oracle`. -/
def pathnameOracle (env : RefEnv) : Option RefDecree × Events :=
  if !env.kzallocOk then (none, [])
  else
    match env.kern with
    | none => (none, [])
    | some (d, m) =>
        -- `kern_path`, `path_get` and `dget`
        let events := pathGet d m ++ pathGet d m ++ [.get (.dentry d)]
        match env.inode d with
        | none => (none, events ++ [.put (.dentry d)] ++ pathPut d m)
        | some i =>
            let events :=
              events ++ [.get (.inodeLock i), .put (.inodeLock i), .put (.dentry d)] ++ pathPut d m
            match env.dPath with
            | none => (none, events ++ [.put (.dentry d)] ++ pathPut d m)
            | some path => (some ⟨path, i, d, m⟩, events)

/-! ## The traversals

Statement by statement where references are concerned.  The list nodes are numbered by their
allocation, so that a use after the `kfree` shows in the events. -/

/-- The state of a traversal: the work list, each node with the dentry that it points to; the
    tables; how many insertions and list nodes it has asked for; and what it has done. -/
structure RefWalk where
  stack : List (ℕ × Dentry)
  stores : List StoreFs
  calls : ℕ
  nodes : ℕ
  events : Events

namespace RefWalk

def emit (w : RefWalk) (events : Events) : RefWalk := { w with events := w.events ++ events }

/-- The node that a list operation at the head of the list writes to besides its own. -/
def touched (stack : List (ℕ × Dentry)) : Events := (stack.head?.map fun node => .use node.1).toList

/-- `stkntry->ptr = dentry ; list_add(...)`. -/
def push (w : RefWalk) (n : ℕ) (d : Dentry) : RefWalk :=
  { w.emit (.use n :: touched w.stack) with stack := (n, d) :: w.stack }

/-- `list_del(stack.next) ; kfree(entry_stack)`, for the node that was the first one. -/
def pop (w : RefWalk) (n : ℕ) (rest : List (ℕ × Dentry)) : RefWalk :=
  { w.emit (.use n :: touched rest ++ [.free n]) with stack := rest }

end RefWalk

/-- `kmalloc` of a list node: its number, if there is one. -/
def allocNode (env : RefEnv) (w : RefWalk) : Option ℕ × RefWalk :=
  if env.nodeOk w.nodes then (some w.nodes, { w.emit [.alloc w.nodes] with nodes := w.nodes + 1 })
  else (none, { w with nodes := w.nodes + 1 })

/-- `kfree` of a list node; of `NULL` it does nothing. -/
def freeNode (node : Option ℕ) : Events := (node.map RefEvent.free).toList

/-- A child in `store_iterate_add`. -/
def addChild (env : RefEnv) (nonce : ℕ) (w : RefWalk) (curr : Dentry) : Except Stop RefWalk :=
  let w := w.emit [.get (.dentry curr)]
  match env.inode curr with
  | none => .ok (w.emit [.put (.dentry curr)])
  | some i =>
      let r := insertInodeHt (env.slab w.calls) nonce i w.stores
      let w := { w.emit [.get (.inodeLock i)] with stores := r.2, calls := w.calls + 1 }
      if r.1 ≠ -1 then
        match allocNode env w with
        | (none, _) => .error .nullPointer
        | (some n, w) => .ok (w.push n curr)
      else .ok (w.emit [.put (.inodeLock i), .put (.dentry curr)])

/-- A child in `store_iterate_rm`. -/
def rmChild (env : RefEnv) (nonce : ℕ) (w : RefWalk) (curr : Dentry) : Except Stop RefWalk :=
  let w := w.emit [.get (.dentry curr)]
  match env.inode curr with
  | none => .ok (w.emit [.put (.dentry curr)])
  | some i =>
      match rmInodeHt nonce i w.stores with
      | .error stop => .error stop
      | .ok (ret, stores) =>
          let w := { w.emit [.get (.inodeLock i)] with stores := stores }
          if env.subdirs curr ≠ [] ∧ ret ≠ -1 then
            match allocNode env w with
            | (none, _) => .error .nullPointer
            | (some n, w) => .ok (w.push n curr)
          else .ok (w.emit [.put (.inodeLock i), .put (.dentry curr)])

/-- `kern_path` on the path of a symlink: what `resolved.dentry` is then, and the references
    taken. -/
def kernPath (a : LinkAnswer) : Option Dentry × Events :=
  match a.kern with
  | some (d, m) => (some d, pathGet d m)
  | none => (a.stale, [])

/-- A symlink in `store_iterate_add`. -/
def addLink (env : RefEnv) (nonce : ℕ) (w : RefWalk) (dir : Dentry) : Except Stop RefWalk :=
  let a := env.link dir w.nodes
  let (node, w) := allocNode env w
  -- `NULL` is not an error pointer, so `dentry_path_raw` writes through it
  if !a.bufOk then .error .nullPointer
  else if !a.pathOk then .ok (w.emit (freeNode node))
  else
    let (resolved, taken) := kernPath a
    let w := w.emit taken
    match resolved with
    | none => .ok (w.emit (freeNode node))
    | some d =>
        let w := w.emit [.get (.dentry d)]
        match env.inode d with
        -- the list node is not freed
        | none => .ok (w.emit [.put (.dentry d)])
        | some i =>
            let r := insertInodeHt (env.slab w.calls) nonce i w.stores
            let w := { w.emit [.get (.inodeLock i)] with stores := r.2, calls := w.calls + 1 }
            if r.1 ≠ -1 then
              match node with
              | none => .error .nullPointer
              | some n => .ok (w.push n d)
            else .ok (w.emit (freeNode node ++ [.put (.inodeLock i), .put (.dentry d)]))

/-- A symlink in `store_iterate_rm`, which frees the node also when it is on the list; what a
    freed node holds is taken to be still there. -/
def rmLink (env : RefEnv) (w : RefWalk) (dir : Dentry) : Except Stop RefWalk :=
  let a := env.link dir w.nodes
  let (node, w) := allocNode env w
  if !a.bufOk then .error .nullPointer
  else if !a.pathOk then .ok (w.emit (freeNode node))
  else
    let (resolved, taken) := kernPath a
    let w := w.emit taken
    match resolved with
    | none => .ok (w.emit (freeNode node))
    | some d =>
        let w := w.emit [.get (.dentry d)]
        match env.inode d with
        | none => .ok (w.emit (.put (.dentry d) :: freeNode node))
        | some i =>
            match node with
            | none => .error .nullPointer
            | some n => .ok ((w.emit [.get (.inodeLock i)]).push n d |>.emit [.free n])

/-- From `REPLAY` on, `visit` being what is done for `dir` itself. -/
def replayRefs (env : RefEnv) (visit : RefWalk → Dentry → Except Stop RefWalk) :
    (fuel : ℕ) → (dir : Dentry) → RefWalk → Except Stop RefWalk
  | 0, _, _ => .error .outOfFuel
  | fuel + 1, dir, w =>
      match visit w dir with
      | .error stop => .error stop
      | .ok w =>
          match env.inode dir with
          | none => .error .nullPointer
          | some i =>
              let w := w.emit [.put (.inodeLock i), .put (.dentry dir)]
              match w.stack with
              | [] => .ok w
              | (n, d) :: rest => replayRefs env visit fuel d (w.pop n rest)

/-- What `store_iterate_add` does for the dentry in hand. -/
def addVisit (env : RefEnv) (nonce : ℕ) (w : RefWalk) (dir : Dentry) : Except Stop RefWalk :=
  if env.isSymlink dir then addLink env nonce w dir else (env.subdirs dir).foldlM
    (addChild env nonce) w

/-- What `store_iterate_rm` does for it. -/
def rmVisit (env : RefEnv) (nonce : ℕ) (w : RefWalk) (dir : Dentry) : Except Stop RefWalk :=
  if env.isSymlink dir then rmLink env w dir else (env.subdirs dir).foldlM (rmChild env nonce) w

/-- `store_iterate_add`: what it does, and the tables. -/
def storeIterateAddRefs (env : RefEnv) (nonce : ℕ) (dir : Dentry) (m : Mount)
    (stores : List StoreFs) : Except Stop (Events × List StoreFs) :=
  let taken := pathGet dir m ++ [.get (.dentry dir)]
  match env.inode dir with
  | none => .ok (taken ++ [.put (.dentry dir)] ++ pathPut dir m, stores)
  | some i =>
      let r := insertInodeHt (env.slab 0) nonce i stores
      let taken := taken ++ [.get (.inodeLock i)]
      if r.1 = -1 then .ok (taken ++ [.put (.inodeLock i), .put (.dentry dir)] ++
        pathPut dir m, r.2)
      else (replayRefs env (addVisit env nonce) env.fuel dir ⟨[], r.2, 1, 0, taken⟩).map fun w =>
        (w.events, w.stores)

/-- `store_iterate_rm`. -/
def storeIterateRmRefs (env : RefEnv) (nonce : ℕ) (dir : Dentry) (m : Mount)
    (stores : List StoreFs) : Except Stop (Events × List StoreFs) :=
  let taken := pathGet dir m ++ [.get (.dentry dir)]
  match env.inode dir with
  | none => .ok (taken ++ [.put (.dentry dir)] ++ pathPut dir m, stores)
  | some i =>
      match rmInodeHt nonce i stores with
      | .error stop => .error stop
      | .ok (ret, stores) =>
          let taken := taken ++ [.get (.inodeLock i)]
          if ret = -1 then .ok (taken ++ [.put (.inodeLock i), .put (.dentry dir)] ++
            pathPut dir m, stores)
          else
            (replayRefs env (rmVisit env nonce) env.fuel dir ⟨[], stores, 0, 0, taken⟩).map fun w =>
              (w.events, w.stores)

/-! ## The operations

The path store as in `FileKLRM.PathStore.Store`, with the events of the oracle and of the
traversal. -/

/-- `examinated`: the resolved path, or the one that was passed. -/
def examinatedRefs (resolved : Option RefDecree) (pathName : List UInt8) : List UInt8 :=
  resolved.elim pathName RefDecree.path

namespace Store

/-- `path_store_add`; `clean_oracle_decree` gives back no reference. -/
def pathStoreAddRefs (env : RefEnv) (pathName : List UInt8) (st : Store) : Except Stop Events :=
  let (resolved, events) := pathnameOracle env
  match st.tokenise (examinatedRefs resolved pathName) with
  | (none, _, _) => .ok events
  | (some j, buf, st) =>
      st.locked
        (match Trie.create ⟨buf, st.argIdxs⟩ j (argsSize + 1) st.trie.root 0 env.fresh st.trie with
        | .error stop => .error stop
        | .ok (.emptyName, _) => .ok events
        | .ok (.node curr, trie) =>
            match trie.mem curr with
            | none => .error .useAfterFree
            | some _ =>
                match resolved with
                | none => .ok events
                | some decree =>
                    (storeIterateAddRefs env ((st.nonce + 1) % 2 ^ 64) decree.dentry decree.mount
                        st.fsStores).map
                      fun r => events ++ r.1)

/-- `path_store_rm`. -/
def pathStoreRmRefs (env : RefEnv) (pathName : List UInt8) (st : Store) : Except Stop Events :=
  let (resolved, events) := pathnameOracle env
  match st.tokenise (examinatedRefs resolved pathName) with
  | (none, _, _) => .ok events
  | (some j, buf, st) =>
      st.locked
        (match st.trie.search ⟨buf, st.argIdxs⟩ j (argsSize + 1) st.trie.root 0 with
        | .error stop => .error stop
        | .ok (curr, deepness) =>
            if deepness ≠ j then .ok events
            else
              match st.trie.mem curr with
              | none => .error .useAfterFree
              | some e =>
                  if !e.explicited then .ok events
                  else do
                    let more ← match resolved with
                      | none => .ok []
                      | some decree =>
                          (storeIterateRmRefs env ((st.nonce + 1) % 2 ^ 64)
                              decree.dentry decree.mount
                            st.fsStores).map Prod.fst
                    let _ ← deactivate st.trie curr e
                    .ok (events ++ more))

/-- `path_store_check`. -/
def pathStoreCheckRefs (env : RefEnv) (pathName : List UInt8) (st : Store) : Except Stop Events :=
  let (resolved, events) := pathnameOracle env
  if resolved.any fun decree => checkInode decree.inode st.fsStores ≠ 0 then .ok events
  else
    match st.tokenise (examinatedRefs resolved pathName) with
    | (none, _, _) => .ok events
    | (some j, buf, st) => (st.locked (checkLocked buf j st)).map fun _ => events

/-- One of the three. -/
def references (op : StoreOp) (env : RefEnv) (pathName : List UInt8) (st : Store) :
    Except Stop Events :=
  match op with
  | .add => st.pathStoreAddRefs env pathName
  | .rm => st.pathStoreRmRefs env pathName
  | .check => st.pathStoreCheckRefs env pathName

end Store

/-! ## The accounts of a traversal

What a traversal holds while it runs is what is on its list and the dentry in hand.  `Accounts`
says so for the locks exactly and for the dentries from below, since the references of `kern_path`
are never given back. -/

/-- The dentries in `held` are those that a traversal has in hand or on its list: it has the lock
    of each and of no other, a reference to each, and has given back no mount that it has not
    taken. -/
structure Accounts (inode : Dentry → Option Inode) (held : List Dentry) (events : Events) :
    Prop where
  lock : ∀ i, gets events (.inodeLock i)
      = puts events (.inodeLock i) + (held.filterMap inode).count i
  dentry : ∀ d, puts events (.dentry d) + held.count d ≤ gets events (.dentry d)
  mount : ∀ m, puts events (.mount m) ≤ gets events (.mount m)

namespace Accounts

variable {inode : Dentry → Option Inode} {held : List Dentry} {events : Events} {d : Dentry}
  {m : Mount} {i : Inode} {n : ℕ}

/-- A traversal that has not begun. -/
lemma nil (inode : Dentry → Option Inode) : Accounts inode [] [] := ⟨by simp, by simp, by simp⟩

/-- Events that have nothing to do with references. -/
def Silent (more : Events) : Prop := ∀ r, gets more r = 0 ∧ puts more r = 0

lemma silent (h : Accounts inode held events) {more : Events} (hmore : Silent more) :
    Accounts inode held (events ++ more) where
  lock := by simpa [hmore _] using h.lock
  dentry := by simpa [hmore _] using h.dentry
  mount := by simpa [hmore _] using h.mount

lemma silent_touched (stack : List (ℕ × Dentry)) : Silent (RefWalk.touched stack) := by
  intro r
  cases stack <;> simp [RefWalk.touched]

lemma silent_freeNode (node : Option ℕ) : Silent (freeNode node) := by
  intro r
  cases node <;> simp [freeNode]

/-- Accounts after more events. -/
lemma append {held' : List Dentry} {more : Events} (h : Accounts inode held events)
    (hlock : ∀ i, gets more (.inodeLock i) + (held.filterMap inode).count i
      = puts more (.inodeLock i) + (held'.filterMap inode).count i)
    (hdentry : ∀ d, puts more (.dentry d) + held'.count d ≤ gets more (.dentry d) + held.count d)
    (hmount : ∀ m, puts more (.mount m) ≤ gets more (.mount m)) : Accounts inode held'
    (events ++ more) where
  lock := by
    intro i
    have := h.lock i
    have := hlock i
    rw [gets_append, puts_append]
    omega
  dentry := by
    intro d
    have := h.dentry d
    have := hdentry d
    rw [gets_append, puts_append]
    omega
  mount := by
    intro m
    have := h.mount m
    have := hmount m
    rw [gets_append, puts_append]
    omega

/-- The order in which the dentries are held does not matter. -/
lemma perm {held' : List Dentry} (h : Accounts inode held events) (hperm : held.Perm held') :
    Accounts inode held' events where
  lock := by
    intro i
    rw [h.lock, (hperm.filterMap inode).count_eq]
  dentry := by
    intro d
    rw [← hperm.count_eq]
    exact h.dentry d
  mount := h.mount

/-- `kern_path` or `path_get`, whose references are kept. -/
lemma pathGet (h : Accounts inode held events) (d : Dentry) (m : Mount) :
    Accounts inode held (events ++ pathGet d m) :=
  h.append (by simp [KLRM.pathGet]) (by simp [KLRM.pathGet]) (by simp [KLRM.pathGet])

/-- A dentry is taken and given back. -/
lemma pass (h : Accounts inode held events) (d : Dentry) :
    Accounts inode held (events ++ [.get (.dentry d)] ++ [.put (.dentry d)]) := by
  rw [List.append_assoc]
  exact h.append (by simp) (by simp) (by simp)

/-- A dentry and its inode's lock are taken. -/
lemma hold (h : Accounts inode held events) (hi : inode d = some i) :
    Accounts inode (d :: held) (events ++ [.get (.dentry d)] ++ [.get (.inodeLock i)]) := by
  rw [List.append_assoc]
  refine h.append (fun j => ?_) (fun d' => ?_) (by simp)
  · simp [hi, List.count_cons]
    omega
  · simp [List.count_cons]
    omega

/-- And given back. -/
lemma release (h : Accounts inode (d :: held) events) (hi : inode d = some i) :
    Accounts inode held (events ++ [.put (.inodeLock i), .put (.dentry d)]) := by
  refine h.append (fun j => ?_) (fun d' => ?_) (by simp)
  · simp [hi, List.count_cons]
    omega
  · simp [List.count_cons]
    omega

end Accounts

/-- The accounts of a walk that also holds the dentries in `others`. -/
def RefWalk.Accounts (env : RefEnv) (others : List Dentry) (w : RefWalk) : Prop :=
  KLRM.Accounts env.inode (w.stack.map Prod.snd ++ others) w.events

/-! ### Along a traversal

One lemma for each branch of the two loop bodies: what it takes it puts on the list or gives back,
but for the references of `kern_path`.  `replayRefs_accounts` is the loop. -/

section Traversals

variable {env : RefEnv} {nonce : ℕ} {w w' : RefWalk} {others : List Dentry} {d : Dentry}
  {i : Inode} {n : ℕ}

lemma RefWalk.Accounts.emit (h : w.Accounts env others) {more : Events}
    (hmore : Accounts.Silent more) :
    (w.emit more).Accounts env others := KLRM.Accounts.silent h hmore

/-- The node for a dentry that has just been taken. -/
lemma RefWalk.Accounts.push (h : w.Accounts env (d :: others)) (n : ℕ) :
    (w.push n d).Accounts env others := by
  have hmore : Accounts.Silent (.use n :: touched w.stack) := by
    intro r
    simpa using Accounts.silent_touched w.stack r
  refine (KLRM.Accounts.silent h hmore).perm ?_
  simp [RefWalk.push]

lemma allocNode_accounts (h : w.Accounts env others) {node : Option ℕ}
    (halloc : allocNode env w = (node, w')) : w'.Accounts env others := by
  unfold allocNode at halloc
  split_ifs at halloc
  · obtain ⟨-, rfl⟩ := Prod.mk.inj halloc
    exact h.emit fun r => by simp
  · obtain ⟨-, rfl⟩ := Prod.mk.inj halloc
    exact h

/-- A dentry is taken with its lock, as a child or as the target of a symlink. -/
lemma RefWalk.Accounts.hold (h : w.Accounts env others) (hi : env.inode d = some i)
    (stores : List StoreFs) (calls : ℕ) :
    RefWalk.Accounts env (d :: others)
      { (w.emit [.get (.dentry d)]).emit [.get (.inodeLock i)] with
        stores := stores, calls := calls } :=
  (KLRM.Accounts.hold h hi).perm List.perm_middle.symm

/-- And given back. -/
lemma RefWalk.Accounts.release (h : w.Accounts env (d :: others)) (hi : env.inode d = some i) :
    (w.emit [.put (.inodeLock i), .put (.dentry d)]).Accounts env others :=
  KLRM.Accounts.release (KLRM.Accounts.perm h List.perm_middle) hi

/-- A child that `store_iterate_add` meets. -/
lemma addChild_accounts (h : w.Accounts env others) (hrun : addChild env nonce w d = .ok w') :
    w'.Accounts env others := by
  rw [addChild] at hrun
  cases hi : env.inode d with
  | none =>
      simp only [hi, Except.ok.injEq] at hrun
      rw [← hrun]
      exact KLRM.Accounts.pass h d
  | some i =>
      simp only [hi] at hrun
      split_ifs at hrun with hseen
      · split at hrun
        · cases hrun
        · rename_i n w₁ halloc
          obtain rfl := Except.ok.inj hrun
          exact (allocNode_accounts (h.hold hi _ _) halloc).push n
      · obtain rfl := Except.ok.inj hrun
        exact (h.hold hi _ _).release hi

/-- A child that `store_iterate_rm` meets. -/
lemma rmChild_accounts (h : w.Accounts env others) (hrun : rmChild env nonce w d = .ok w') :
    w'.Accounts env others := by
  rw [rmChild] at hrun
  cases hi : env.inode d with
  | none =>
      simp only [hi, Except.ok.injEq] at hrun
      rw [← hrun]
      exact KLRM.Accounts.pass h d
  | some i =>
      simp only [hi] at hrun
      split at hrun
      · cases hrun
      · split_ifs at hrun with hpush
        · split at hrun
          · cases hrun
          · rename_i n w₁ halloc
            obtain rfl := Except.ok.inj hrun
            exact (allocNode_accounts (h.hold hi _ _) halloc).push n
        · obtain rfl := Except.ok.inj hrun
          exact (h.hold hi _ _).release hi

lemma kernPath_accounts (h : w.Accounts env others) (a : LinkAnswer) :
    (w.emit (kernPath a).2).Accounts env others := by
  unfold kernPath
  split
  · exact KLRM.Accounts.pathGet h _ _
  · exact h.emit fun r => by simp

/-- A symlink that `store_iterate_add` visits. -/
lemma addLink_accounts (h : w.Accounts env others) (hrun : addLink env nonce w d = .ok w') :
    w'.Accounts env others := by
  rw [addLink] at hrun
  cases halloc : allocNode env w with
  | mk node w₁ =>
      have h₁ := allocNode_accounts h halloc
      simp only [halloc] at hrun
      split_ifs at hrun
      · obtain rfl := Except.ok.inj hrun
        exact h₁.emit (Accounts.silent_freeNode node)
      · have h₂ := kernPath_accounts h₁ (env.link d w.nodes)
        cases hkern : kernPath (env.link d w.nodes) with
        | mk resolved taken =>
            rw [hkern] at h₂
            simp only [hkern] at hrun
            cases resolved with
            | none =>
                obtain rfl := Except.ok.inj hrun
                exact h₂.emit (Accounts.silent_freeNode node)
            | some target =>
                cases hi : env.inode target with
                | none =>
                    simp only [hi, Except.ok.injEq] at hrun
                    rw [← hrun]
                    exact KLRM.Accounts.pass h₂ target
                | some i =>
                    simp only [hi] at hrun
                    split_ifs at hrun with hpush
                    · split at hrun
                      · cases hrun
                      · obtain rfl := Except.ok.inj hrun
                        exact (h₂.hold hi _ _).push _
                    · obtain rfl := Except.ok.inj hrun
                      have hfree :=
                        (h₂.hold hi (insertInodeHt (env.slab w₁.calls) nonce i w₁.stores).2
                        (w₁.calls + 1)).emit (Accounts.silent_freeNode node)
                      have hdone := hfree.release hi
                      simp only [RefWalk.emit, List.append_assoc] at hdone ⊢
                      exact hdone

/-- A symlink that `store_iterate_rm` visits. -/
lemma rmLink_accounts (h : w.Accounts env others) (hrun : rmLink env w d = .ok w') :
    w'.Accounts env others := by
  rw [rmLink] at hrun
  cases halloc : allocNode env w with
  | mk node w₁ =>
      have h₁ := allocNode_accounts h halloc
      simp only [halloc] at hrun
      split_ifs at hrun
      · obtain rfl := Except.ok.inj hrun
        exact h₁.emit (Accounts.silent_freeNode node)
      · have h₂ := kernPath_accounts h₁ (env.link d w.nodes)
        cases hkern : kernPath (env.link d w.nodes) with
        | mk resolved taken =>
            rw [hkern] at h₂
            simp only [hkern] at hrun
            cases resolved with
            | none =>
                obtain rfl := Except.ok.inj hrun
                exact h₂.emit (Accounts.silent_freeNode node)
            | some target =>
                cases hi : env.inode target with
                | none =>
                    simp only [hi, Except.ok.injEq] at hrun
                    rw [← hrun]
                    have hpass : RefWalk.Accounts env others
                        (((w₁.emit taken).emit [.get (.dentry target)]).emit
                          [.put (.dentry target)]) :=
                      KLRM.Accounts.pass h₂ target
                    have hfree := hpass.emit (Accounts.silent_freeNode node)
                    simp only [RefWalk.emit, List.append_assoc, List.cons_append,
                      List.nil_append] at hfree ⊢
                    exact hfree
                | some i =>
                    simp only [hi] at hrun
                    split at hrun
                    · cases hrun
                    · obtain rfl := Except.ok.inj hrun
                      exact ((h₂.hold hi w₁.stores w₁.calls).push _).emit fun r => by simp

lemma addVisit_accounts (h : w.Accounts env others) (hrun : addVisit env nonce w d = .ok w') :
    w'.Accounts env others := by
  rw [addVisit] at hrun
  split_ifs at hrun
  · exact addLink_accounts h hrun
  · exact foldlM_keeps addChild_accounts _ h hrun

lemma rmVisit_accounts (h : w.Accounts env others) (hrun : rmVisit env nonce w d = .ok w') :
    w'.Accounts env others := by
  rw [rmVisit] at hrun
  split_ifs at hrun
  · exact rmLink_accounts h hrun
  · exact foldlM_keeps rmChild_accounts _ h hrun

/-- **The loop**: when it returns, nothing is held. -/
lemma replayRefs_accounts {visit : RefWalk → Dentry → Except Stop RefWalk}
    (hvisit : ∀ {w w' : RefWalk} {d : Dentry} {others : List Dentry}, w.Accounts env others →
      visit w d = .ok w' → w'.Accounts env others) :
    ∀ {fuel : ℕ} {dir : Dentry} {w w' : RefWalk}, w.Accounts env [dir] →
      replayRefs env visit fuel dir w = .ok w' → Accounts env.inode [] w'.events
  | 0, _, _, _, _, hrun => by cases hrun
  | fuel + 1, dir, w, w', h, hrun => by
      rw [replayRefs] at hrun
      cases hv : visit w dir with
      | error stop =>
          rw [hv] at hrun
          cases hrun
      | ok w₁ =>
          have h₁ := hvisit h hv
          simp only [hv] at hrun
          cases hi : env.inode dir with
          | none =>
              rw [hi] at hrun
              cases hrun
          | some i =>
              have h₂ := h₁.release hi
              simp only [hi] at hrun
              split at hrun
              · rename_i hstack
                obtain rfl := Except.ok.inj hrun
                rw [RefWalk.Accounts, hstack] at h₂
                exact h₂
              · rename_i n d rest hstack
                refine replayRefs_accounts hvisit ?_ hrun
                have hpop : Accounts.Silent (.use n :: RefWalk.touched rest ++ [.free n]) := by
                  intro r
                  simpa using Accounts.silent_touched rest r
                rw [RefWalk.Accounts, hstack] at h₂
                exact (KLRM.Accounts.silent h₂ hpop).perm
                  (by simpa [RefWalk.pop] using (List.perm_append_singleton d _).symm)

/-- What a traversal has taken before its loop. -/
lemma accounts_start (hi : env.inode d = some i) (m : Mount) (stores : List StoreFs) (calls : ℕ) :
    RefWalk.Accounts env [d]
      ⟨[], stores, calls, 0, pathGet d m ++ [.get (.dentry d)] ++ [.get (.inodeLock i)]⟩ := by
  exact ((Accounts.nil env.inode).pathGet d m).hold hi

/-- The exit for a dentry without an inode. -/
lemma accounts_negative (env : RefEnv) (d : Dentry) (m : Mount) :
    Accounts env.inode [] (pathGet d m ++ [.get (.dentry d)] ++ [.put (.dentry d)] ++
      pathPut d m) := by
  refine ⟨by simp [pathGet, pathPut], fun d' => ?_, by simp [pathGet, pathPut]⟩
  simp [pathGet, pathPut]

/-- The exit for an inode that the traversal has seen. -/
lemma accounts_seen (env : RefEnv) (d : Dentry) (m : Mount) (i : Inode) :
    Accounts env.inode [] (pathGet d m ++ [.get (.dentry d)] ++ [.get (.inodeLock i)] ++
      [.put (.inodeLock i), .put (.dentry d)] ++ pathPut d m) := by
  refine ⟨by simp [pathGet, pathPut], fun d' => ?_, by simp [pathGet, pathPut]⟩
  simp [pathGet, pathPut]

/-- **The accounts of `store_iterate_add`**: when it returns it has given back every lock, and no
    reference that it had not taken. -/
theorem storeIterateAddRefs_accounts {stores : List StoreFs} {m : Mount} {r : Events × List StoreFs}
    (hrun : storeIterateAddRefs env nonce d m stores = .ok r) : Accounts env.inode [] r.1 := by
  rw [storeIterateAddRefs] at hrun
  cases hi : env.inode d with
  | none =>
      simp only [hi, Except.ok.injEq] at hrun
      rw [← hrun]
      exact accounts_negative env d m
  | some i =>
      simp only [hi] at hrun
      split_ifs at hrun
      · obtain rfl := Except.ok.inj hrun
        exact accounts_seen env d m i
      · cases hloop : replayRefs env (addVisit env nonce) env.fuel d
            ⟨[], (insertInodeHt (env.slab 0) nonce i stores).2, 1, 0,
              pathGet d m ++ [.get (.dentry d)] ++ [.get (.inodeLock i)]⟩ with
        | error stop =>
            rw [hloop] at hrun
            cases hrun
        | ok w =>
            rw [hloop] at hrun
            obtain rfl := Except.ok.inj hrun
            exact replayRefs_accounts addVisit_accounts (accounts_start hi m _ _) hloop

/-- **The accounts of `store_iterate_rm`** are the same. -/
theorem storeIterateRmRefs_accounts {stores : List StoreFs} {m : Mount} {r : Events × List StoreFs}
    (hrun : storeIterateRmRefs env nonce d m stores = .ok r) : Accounts env.inode [] r.1 := by
  rw [storeIterateRmRefs] at hrun
  cases hi : env.inode d with
  | none =>
      simp only [hi, Except.ok.injEq] at hrun
      rw [← hrun]
      exact accounts_negative env d m
  | some i =>
      simp only [hi] at hrun
      split at hrun
      · cases hrun
      · rename_i ret stores' hrm
        split_ifs at hrun
        · obtain rfl := Except.ok.inj hrun
          exact accounts_seen env d m i
        · cases hloop : replayRefs env (rmVisit env nonce) env.fuel d
              ⟨[], stores', 0, 0, pathGet d m ++ [.get (.dentry d)] ++ [.get (.inodeLock i)]⟩ with
          | error stop =>
              rw [hloop] at hrun
              cases hrun
          | ok w =>
              rw [hloop] at hrun
              obtain rfl := Except.ok.inj hrun
              exact replayRefs_accounts rmVisit_accounts (accounts_start hi m _ _) hloop

end Traversals

/-! ## A whole request

The surplus of the oracle is never made up for by the traversal, and where the oracle gets nothing
there is no traversal; this is the equivalence. -/

/-- The oracle gets no dentry: `kzalloc` fails, or `kern_path` does not find one. -/
def NothingResolved (env : RefEnv) : Prop := env.kzallocOk = false ∨ env.kern = none

section Requests

variable {env : RefEnv} {pathName : List UInt8} {st : Store} {events : Events}

lemma pathnameOracle_nothing (h : NothingResolved env) : pathnameOracle env = (none, []) := by
  rw [pathnameOracle]
  rcases h with h | h
  · simp [h]
  · simp [h]

/-- When it gets one, the oracle keeps a mount; or it fails, and has given back a reference to
    the dentry that it had not taken. -/
lemma pathnameOracle_something (h : ¬ NothingResolved env) :
    (∃ m, puts (pathnameOracle env).2 (.mount m) < gets (pathnameOracle env).2 (.mount m)) ∨
      (pathnameOracle env).1 = none ∧
        ∃ d, gets (pathnameOracle env).2 (.dentry d) < puts (pathnameOracle env).2 (.dentry d) := by
  obtain ⟨hok, hkern⟩ := not_or.mp h
  obtain ⟨⟨d, m⟩, hkern⟩ := Option.ne_none_iff_exists'.mp hkern
  rw [Bool.not_eq_false] at hok
  cases hi : env.inode d with
  | none =>
      refine Or.inl ⟨m, ?_⟩
      simp [pathnameOracle, hok, hkern, hi, pathGet, pathPut]
  | some i =>
      cases hpath : env.dPath with
      | none =>
          refine Or.inr ⟨by simp [pathnameOracle, hok, hkern, hi, hpath], d, ?_⟩
          simp [pathnameOracle, hok, hkern, hi, hpath, pathGet, pathPut]
      | some path =>
          refine Or.inl ⟨m, ?_⟩
          simp [pathnameOracle, hok, hkern, hi, hpath, pathGet, pathPut]

/-- After the oracle a request does no more than a traversal, and that only for a path that was
    resolved. -/
def AfterOracle (env : RefEnv) (events : Events) : Prop :=
  ∃ more, events = (pathnameOracle env).2 ++ more ∧ ((pathnameOracle env).1 = none → more = []) ∧
    Accounts env.inode [] more

lemma AfterOracle.stop (env : RefEnv) : AfterOracle env (pathnameOracle env).2 :=
  ⟨[], by simp, fun _ => rfl, .nil env.inode⟩

lemma AfterOracle.traverse {decree : RefDecree} (hdecree : (pathnameOracle env).1 = some decree)
    {traversal : Except Stop (Events × List StoreFs)}
    (haccounts : ∀ r, traversal = .ok r → Accounts env.inode [] r.1)
    (hrun : (traversal.map fun r => (pathnameOracle env).2 ++ r.1) = .ok events) : AfterOracle
    env events := by
  cases htraversal : traversal with
  | error stop =>
      rw [htraversal] at hrun
      cases hrun
  | ok r =>
      rw [htraversal] at hrun
      exact ⟨r.1, (Except.ok.inj hrun).symm, fun h => absurd (hdecree.symm.trans h) (by simp),
        haccounts r htraversal⟩

lemma pathStoreAddRefs_after (hrun : st.pathStoreAddRefs env pathName = .ok events) :
    AfterOracle env events := by
  rw [Store.pathStoreAddRefs] at hrun
  dsimp only at hrun
  split at hrun
  · obtain rfl := Except.ok.inj hrun
    exact .stop env
  · rw [Store.locked] at hrun
    split_ifs at hrun
    split at hrun
    · cases hrun
    · obtain rfl := Except.ok.inj hrun
      exact .stop env
    · split at hrun
      · cases hrun
      · split at hrun
        · obtain rfl := Except.ok.inj hrun
          exact .stop env
        · rename_i decree hdecree
          exact .traverse hdecree (fun _ => storeIterateAddRefs_accounts) hrun

lemma pathStoreRmRefs_after (hrun : st.pathStoreRmRefs env pathName = .ok events) :
    AfterOracle env events := by
  rw [Store.pathStoreRmRefs] at hrun
  dsimp only at hrun
  split at hrun
  · obtain rfl := Except.ok.inj hrun
    exact .stop env
  · rename_i j buf st' _
    rw [Store.locked] at hrun
    split_ifs at hrun
    split at hrun
    · cases hrun
    · rename_i curr deepness _
      split_ifs at hrun
      · obtain rfl := Except.ok.inj hrun
        exact .stop env
      · split at hrun
        · cases hrun
        · rename_i e _
          split_ifs at hrun
          · obtain rfl := Except.ok.inj hrun
            exact .stop env
          · -- the trie is pruned after the traversal
            simp only [bind, Except.bind] at hrun
            split at hrun
            · split at hrun
              · cases hrun
              · obtain rfl := Except.ok.inj hrun
                rw [List.append_nil]
                exact .stop env
            · rename_i decree hdecree
              split at hrun
              · cases hrun
              · rename_i more hmore
                split at hrun
                · cases hrun
                · cases htraversal :
                      storeIterateRmRefs env ((st'.nonce + 1) % 2 ^ 64) decree.dentry decree.mount
                      st'.fsStores with
                  | error stop =>
                      rw [htraversal] at hmore
                      cases hmore
                  | ok r =>
                      rw [htraversal] at hmore
                      obtain rfl := Except.ok.inj hmore
                      exact ⟨r.1, (Except.ok.inj hrun).symm,
                        fun h => absurd (hdecree.symm.trans h) (by simp),
                        storeIterateRmRefs_accounts htraversal⟩

lemma pathStoreCheckRefs_after (hrun : st.pathStoreCheckRefs env pathName = .ok events) :
    AfterOracle env events := by
  rw [Store.pathStoreCheckRefs] at hrun
  dsimp only at hrun
  split_ifs at hrun
  · obtain rfl := Except.ok.inj hrun
    exact .stop env
  · split at hrun
    · obtain rfl := Except.ok.inj hrun
      exact .stop env
    · rename_i j buf st' _
      cases hcheck : st'.locked (Store.checkLocked buf j st') with
      | error stop =>
          rw [hcheck] at hrun
          cases hrun
      | ok r =>
          rw [hcheck] at hrun
          obtain rfl := Except.ok.inj hrun
          exact .stop env

/-- What a request that returns has done. -/
lemma references_after {op : StoreOp} (hrun : st.references op env pathName = .ok events) :
    AfterOracle env events := by
  cases op with
  | add => exact pathStoreAddRefs_after hrun
  | rm => exact pathStoreRmRefs_after hrun
  | check => exact pathStoreCheckRefs_after hrun

end Requests

/-- The oracle gives back the lock of the inode that it reads. -/
lemma pathnameOracle_locks (env : RefEnv) (i : Inode) :
    gets (pathnameOracle env).2 (.inodeLock i) = puts (pathnameOracle env).2 (.inodeLock i) := by
  rw [pathnameOracle]
  split_ifs
  · rfl
  · split
    · rfl
    · split
      · simp [pathGet, pathPut]
      · dsimp only
        split
        · simp [pathGet, pathPut]
        · simp [pathGet, pathPut]

/-- **The inode locks are as before** after any request that returns. -/
theorem references_locks {op : StoreOp} {env : RefEnv} {pathName : List UInt8} {st : Store}
    {events : Events} (hrun : st.references op env pathName = .ok events) (i : Inode) :
    gets events (.inodeLock i) = puts events (.inodeLock i) := by
  obtain ⟨more, rfl, -, haccounts⟩ := references_after hrun
  have hmore := haccounts.lock i
  rw [List.filterMap_nil, List.count_nil, Nat.add_zero] at hmore
  rw [gets_append, puts_append, pathnameOracle_locks, hmore]

/-- **A request that returns has balanced its references exactly when the oracle got no dentry**:
    whatever the path, the file systems, the allocations and the state of the store. -/
theorem references_balance_iff {op : StoreOp} {env : RefEnv} {pathName : List UInt8} {st : Store}
    {events : Events} (hrun : st.references op env pathName = .ok events) :
    Balanced events ↔ NothingResolved env := by
  obtain ⟨more, rfl, hstop, haccounts⟩ := references_after hrun
  constructor
  · intro hbalanced
    by_contra hsomething
    rcases pathnameOracle_something hsomething with ⟨m, hkept⟩ | ⟨hnone, d, hover⟩
    · have hsettled := hbalanced.settled (.mount m)
      have hmore := haccounts.mount m
      rw [gets_append, puts_append] at hsettled
      omega
    · have hsettled := hbalanced.settled (.dentry d)
      rw [hstop hnone, gets_append, puts_append, gets_nil, puts_nil] at hsettled
      omega
  · intro hnothing
    rw [pathnameOracle_nothing hnothing] at hstop ⊢
    rw [hstop rfl]
    exact Balanced.nil

/-- A file `/a` at dentry 1 on mount 0, and no other. -/
def oneFile : RefEnv where
  inode := fun d => if d = 1 then some ⟨0, 5⟩ else none
  isSymlink := fun _ => false
  subdirs := fun _ => []
  link := fun _ _ => ⟨true, true, none, none⟩
  kzallocOk := true
  kern := some (1, 0)
  dPath := some [47, 97, 0]
  nodeOk := fun _ => true
  slab := fun _ => ⟨true, some 0⟩
  fuel := 2
  fresh := [1]

/-- The same, where `kern_path` does not find it. -/
def noFile : RefEnv := { oneFile with kern := none }

/-- A directory `/a` with a file and a symlink to it, at dentries 1, 2 and 3. -/
def smallTree : RefEnv where
  inode := fun d => if d = 0 ∨ 3 < d then none else some ⟨0, d + 4⟩
  isSymlink := fun d => d == 3
  subdirs := fun d => if d = 1 then [2, 3] else []
  link := fun _ _ => ⟨true, true, some (2, 0), none⟩
  kzallocOk := true
  kern := some (1, 0)
  dPath := some [47, 97, 0]
  nodeOk := fun _ => true
  slab := fun _ => ⟨true, some 0⟩
  fuel := 4
  fresh := [1]

/-- The traversal of the directory takes three nodes off its list. -/
lemma smallTree_traversed :
    (((Store.setup 0).references .add smallTree [47, 97, 0]).map fun events =>
    decide (RefEvent.free 2 ∈ events)) = .ok true := by
  decide +kernel

/-- The additions of a path that is not found, and of the directory, whose traversal puts three
    dentries on its list. -/
theorem references_balance_iff_tree :
    (∃ events, (Store.setup 0).references .add noFile [47, 97, 0] = .ok events ∧
      (Balanced events ↔ NothingResolved noFile)) ∧
    ∃ events, (Store.setup 0).references .add smallTree [47, 97, 0] = .ok events ∧
      RefEvent.free 2 ∈ events ∧
      (Balanced events ↔ NothingResolved smallTree) := by
  have hnothing : (Store.setup 0).references .add noFile [47, 97, 0] = .ok [] := rfl
  refine ⟨⟨[], hnothing, references_balance_iff hnothing⟩, ?_⟩
  have htraversed := smallTree_traversed
  cases hrun : (Store.setup 0).references .add smallTree [47, 97, 0] with
  | error stop =>
      rw [hrun] at htraversed
      cases htraversed
  | ok events =>
      rw [hrun] at htraversed
      exact ⟨events, rfl, of_decide_eq_true (Except.ok.inj htraversed), references_balance_iff hrun⟩

/-- The addition of the file keeps two references to its mount and two to its dentry. -/
theorem references_leak :
    ∃ events, (Store.setup 0).references .add oneFile [47, 97, 0] = .ok events ∧
      gets events (.mount 0) = puts events (.mount 0) + 2 ∧
      gets events (.dentry 1) = puts events (.dentry 1) + 2 ∧ ¬ Balanced events := by
  refine ⟨_, rfl, by decide, by decide, fun hbalanced => ?_⟩
  exact absurd (hbalanced.settled (.mount 0)) (by decide)

end KLRM
