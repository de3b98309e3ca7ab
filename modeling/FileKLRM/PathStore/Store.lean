import FileKLRM.PathStore.Traversal
import FileKLRM.PathStore.Trie

/-!
# The path store: `path_store/path_store.c`

`path_store_add`, `path_store_rm` and `path_store_check` in the parts that concurrent calls
interleave: the answer of `pathname_oracle`, the lookup in the inode table (for a check),
`process_path`, and the section under `store_lock` (`addLocked`, `rmLocked`, `checkLocked`).  A
section reads the path from the call's own buffer and the offsets from `argIdxs` as it is then.

Each operation is also given as a whole, one part after the other.  `storeLock` says that the lock
is held by a call that is over: `path_store_add` returns without releasing it when the path was
not resolved, when a component is empty and, like `path_store_rm`, when `nonce` has reached
`ULLONG_MAX`, in which case the work it schedules does not release it either.  The next call then
spins.

* `Store` — the trie, the tables and the file-scope variables.
* `StoreEnv` — what a call is told: the answer of the oracle, the graph, and the objects of the
  slab caches.
* `Store.tokenise`, `Store.addLocked`, `Store.rmLocked`, `Store.checkLocked` — the parts.
* `Store.pathStoreAdd`, `Store.pathStoreRm`, `Store.pathStoreCheck` — the operations.
-/

namespace KLRM

/-- The globals of the store. -/
structure Store where
  trie : Trie
  argIdxs : ℕ → ℕ
  storeLock : Bool
  nonce : ℕ
  fsStores : List StoreFs
  refreshScheduled : Bool

/-- `path_decree`: the memory at `path`, and the inode of the dentry that was resolved. -/
structure PathDecree where
  path : List UInt8
  inode : Inode

/-- What the kernel answers to one call: the oracle, the file systems, the slab caches and
    `try_module_get`; what the stack of a traversal holds; and the rounds it may take. -/
structure StoreEnv where
  decree : Option PathDecree
  graph : FsGraph
  slot : ℕ → DentrySlot
  slab : ℕ → SlabAnswer
  fresh : List Addr
  moduleGet : Bool
  fuel : ℕ

/-- `PATH_CHECK_RESULT`, as far as `path_store_check` returns it. -/
inductive PathCheckResult
  | matchRoot
  | fullMatchLeaf
  | fullMatchDir
  | subMatchLeaf
  | subMatchDir
  | matchInode
deriving DecidableEq, Repr

/-- The values of the enumeration. -/
def PathCheckResult.value : PathCheckResult → ℤ
  | matchRoot => 0
  | fullMatchLeaf => 1
  | fullMatchDir => 2
  | subMatchLeaf => 3
  | subMatchDir => 4
  | matchInode => 5

/-- `examinated`: the resolved path, or the one that was passed. -/
def StoreEnv.examinated (env : StoreEnv) (pathName : List UInt8) : List UInt8 :=
  env.decree.elim pathName PathDecree.path

namespace Store

/-- `setup_path_store`, with the object that the root gets. -/
def setup (root : Addr) : Store where
  trie :=
    { root := root
      mem := Function.update (fun _ => none) root
        (some { parent := none, dirName := [47], children := [], childrenNum := 0 })
      allocations := [root] }
  argIdxs := fun _ => 0
  storeLock := false
  nonce := 0
  fsStores := []
  refreshScheduled := false

/-- `process_path` on a call's buffer. -/
def tokenise (st : Store) (buf : List UInt8) : Option ℕ × List UInt8 × Store :=
  let r := Tokens.processPath ⟨buf, st.argIdxs⟩
  (r.1, r.2.buf, { st with argIdxs := r.2.argIdxs })

/-- The release of `store_lock` after a traversal. -/
def unlock (st : Store) (env : StoreEnv) : Store :=
  if st.nonce = 2 ^ 64 - 1 then
    { st with storeLock := true, refreshScheduled := st.refreshScheduled || env.moduleGet }
  else st

/-- `path_store_add` from `write_lock` on. -/
def addLocked (env : StoreEnv) (buf : List UInt8) (j : ℕ) (st : Store) : Except Stop (ℤ × Store) :=
  match Trie.create ⟨buf, st.argIdxs⟩ j (argsSize + 1) st.trie.root 0 env.fresh st.trie with
  | .error stop => .error stop
  | .ok (.emptyName, trie) => .ok (1, { st with trie := trie, storeLock := true })
  | .ok (.node curr, trie) =>
      match trie.mem curr with
      | none => .error .useAfterFree
      | some e =>
          let st := { st with trie := trie.write curr e.setExplicited }
          match env.decree with
          | none => .ok (0, { st with storeLock := true })
          | some decree =>
              let nonce := (st.nonce + 1) % 2 ^ 64
              match storeIterateAdd env.graph env.slot env.slab nonce env.fuel decree.inode
                  st.fsStores with
              | .error stop => .error stop
              | .ok stores => .ok (0, { st with nonce := nonce, fsStores := stores }.unlock env)

/-- The traversal of `path_store_rm`, for a path that was resolved. -/
def uncount (env : StoreEnv) (st : Store) : Except Stop Store :=
  match env.decree with
  | none => .ok st
  | some decree =>
      let nonce := (st.nonce + 1) % 2 ^ 64
      match storeIterateRm env.graph env.slot nonce env.fuel decree.inode st.fsStores with
      | .error stop => .error stop
      | .ok stores => .ok { st with nonce := nonce, fsStores := stores }

/-- What `path_store_rm` does to the trie at a protected node. -/
def deactivate (t : Trie) (curr : Addr) (e : StoreEntry) : Except Stop Trie :=
  let t := t.write curr e.clearExplicited
  if e.count ≠ 0 then .ok t else t.prune (argsSize + 2) curr

/-- `path_store_rm` from `write_lock` on. -/
def rmLocked (env : StoreEnv) (buf : List UInt8) (j : ℕ) (st : Store) : Except Stop (ℤ × Store) :=
  match st.trie.search ⟨buf, st.argIdxs⟩ j (argsSize + 1) st.trie.root 0 with
  | .error stop => .error stop
  | .ok (curr, deepness) =>
      if deepness ≠ j then .ok (1, st)
      else
        match st.trie.mem curr with
        | none => .error .useAfterFree
        | some e =>
            if !e.explicited then .ok (1, st)
            else do
              let st ← st.uncount env
              let trie ← deactivate st.trie curr e
              .ok (0, { st with trie := trie }.unlock env)

/-- `path_store_check` from `read_lock` on. -/
def checkLocked (buf : List UInt8) (j : ℕ) (st : Store) : Except Stop PathCheckResult :=
  match st.trie.search ⟨buf, st.argIdxs⟩ j (argsSize + 1) st.trie.root 0 with
  | .error stop => .error stop
  | .ok (curr, deepness) =>
      match st.trie.mem curr with
      | none => .error .useAfterFree
      | some e =>
          let leaf := e.children = []
          if curr = st.trie.root ∧ leaf then .ok .matchRoot
          else if deepness = j then .ok (if leaf then .fullMatchLeaf else .fullMatchDir)
          else .ok (if leaf then .subMatchLeaf else .subMatchDir)

/-- A section under `store_lock`, once the lock is there. -/
def locked {ρ : Type*} (st : Store) (body : Except Stop ρ) : Except Stop ρ :=
  if st.storeLock then .error .spinForever else body

/-- `path_store_add`. -/
def pathStoreAdd (env : StoreEnv) (pathName : List UInt8) (st : Store) : Except Stop (ℤ × Store) :=
  match st.tokenise (env.examinated pathName) with
  | (none, _, st) => .ok (1, st)
  | (some j, buf, st) => st.locked (addLocked env buf j st)

/-- `path_store_rm`. -/
def pathStoreRm (env : StoreEnv) (pathName : List UInt8) (st : Store) : Except Stop (ℤ × Store) :=
  match st.tokenise (env.examinated pathName) with
  | (none, _, st) => .ok (1, st)
  | (some j, buf, st) => st.locked (rmLocked env buf j st)

/-- The lookup in the inode table that precedes a check. -/
def lookupInode (env : StoreEnv) (st : Store) : Bool :=
  match env.decree with
  | none => false
  | some decree => checkInode decree.inode st.fsStores ≠ 0

/-- `path_store_check`. -/
def pathStoreCheck (env : StoreEnv) (pathName : List UInt8) (st : Store) :
    Except Stop (PathCheckResult × Store) :=
  if st.lookupInode env then .ok (.matchInode, st)
  else
    match st.tokenise (env.examinated pathName) with
    -- the literal `1` that is returned for `UINT_MAX`
    | (none, _, st) => .ok (.fullMatchLeaf, st)
    | (some j, buf, st) => (st.locked (checkLocked buf j st)).map fun ret => (ret, st)

/-- `refresh_nonces`. -/
def refreshNonces (st : Store) : Store :=
  { st with nonce := 0, fsStores := refreshStamps st.fsStores, refreshScheduled := false }

end Store

end KLRM
