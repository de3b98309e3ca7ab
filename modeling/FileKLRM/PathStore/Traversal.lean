import FileKLRM.PathStore.InodeTable

/-!
# The traversals: `path_store/store_iterate.c`

`store_iterate_add` and `store_iterate_rm` walk what lies below a path, a directory through its
cached children and a symlink to what `kern_path` resolves it to, with a work list in place of
recursion.  An inode is followed when its insertion, or removal, did not report it as seen.

They are written separately and differ: on the way down `store_iterate_rm` follows only an inode
that has cached children itself, which a symlink never has; it does not remove the target of a
symlink it starts from; and it frees the list node it has just pushed for that target.

**The unset variable.**  Both call `kern_path` for its effect on `resolved`, do not look at what
it returns, and go on with `resolved.dentry`.  When it fails it has stored nothing there, and the
variable was not initialised: what the traversal then follows is whatever its stack held.
`DentrySlot` is what that can be, and a traversal is given the contents for each symlink it comes
to, one after the other; nothing ties them to each other.

**Dentries.**  A dentry is told apart only as far as its inode is: a directory and a symlink have
one dentry, and the several names of a regular file lead nowhere.  `FileKLRM.PathStore.References`
has the two traversals with their dentries, and `FileKLRM.PathStore.DentryTraversal` shows that
they do the same to the tables.

* `replayAdd`, `storeIterateAdd`: the addition; `storeIterateAddCalls` also has the inodes that it
  made its calls for.
* `replayRm`, `storeIterateRm`: the removal.
* `AddWalk.follow_eq`: what one round of the addition meets is `FsGraph.nextWith`, and
  `FsGraph.next` where nothing unset is followed.
-/

namespace KLRM

/-! ## What a traversal sees

The graph is what the kernel answers during one call, and is fixed for it. -/

/-- What the traversals see of the file systems. -/
structure FsGraph where
  isSymlink : Inode → Bool
  /-- The inode that `kern_path` resolves a symlink to, unless it fails. -/
  target : Inode → Option Inode
  /-- The cached children of a directory; a negative dentry has no inode. -/
  subdirs : Inode → List (Option Inode)
  symlink_subdirs : ∀ i, isSymlink i = true → subdirs i = []

/-- What `resolved.dentry` holds where nothing has been stored in it. -/
inductive DentrySlot
  | null
  /-- A dentry that has no inode. -/
  | negative
  | positive (i : Inode)
  /-- Not the address of a dentry. -/
  | wild
deriving DecidableEq, Repr

/-- The traversal goes nowhere from it. -/
def DentrySlot.Harmless (slot : DentrySlot) : Prop := slot = .null ∨ slot = .negative

instance DentrySlot.decidableHarmless (slot : DentrySlot) : Decidable slot.Harmless :=
  inferInstanceAs (Decidable (slot = .null ∨ slot = .negative))

namespace FsGraph

/-- `kern_path(pth, LOOKUP_FOLLOW, &resolved)`: what `resolved.dentry` is then, `unset` being
    what it was. -/
def resolve (g : FsGraph) (unset : DentrySlot) (i : Inode) : DentrySlot :=
  (g.target i).elim unset .positive

/-- The inodes that lie behind an inode: the cached children, or what the symlink resolves to. -/
def next (g : FsGraph) (i : Inode) : List Inode :=
  if g.isSymlink i then (g.target i).toList else (g.subdirs i).filterMap id

end FsGraph

/-! ## The addition

The translation follows the source: `meet` is the insertion with the push behind it, `follow` the
branch on `d_is_symlink`, and `replayAdd` the loop behind the label `REPLAY`. -/

/-- The state of `store_iterate_add`: the work list, the tables, the inodes that it has made its
    calls for, and how many symlinks it has come to. -/
structure AddWalk where
  stack : List Inode
  stores : List StoreFs
  calls : List Inode
  links : ℕ

namespace AddWalk

/-- Before the first call. -/
def start (stores : List StoreFs) : AddWalk := ⟨[], stores, [], 0⟩

/-- One insertion, and the push unless the inode was seen. -/
def meet (slab : ℕ → SlabAnswer) (nonce : ℕ) (w : AddWalk) (i : Inode) : AddWalk :=
  let r := insertInodeHt (slab w.calls.length) nonce i w.stores
  { w with stack := if r.1 ≠ -1 then i :: w.stack else w.stack
           stores := r.2
           calls := w.calls ++ [i] }

/-- What is done for the inode in hand: a symlink is resolved, and the inode behind
    `resolved.dentry` is met; of a directory all cached children are. -/
def follow (g : FsGraph) (slot : ℕ → DentrySlot) (slab : ℕ → SlabAnswer) (nonce : ℕ) (w : AddWalk)
    (dir : Inode) : Except Stop AddWalk :=
  if g.isSymlink dir then
    let resolved := g.resolve (slot w.links) dir
    let w := { w with links := w.links + 1 }
    match resolved with
    | .null | .negative => .ok w
    | .positive i => .ok (w.meet slab nonce i)
    -- `dget` on whatever the pointer leads to
    | .wild => .error .wildPointer
  else .ok (((g.subdirs dir).filterMap id).foldl (meet slab nonce) w)

end AddWalk

/-- From `REPLAY` on: what `dir` leads to is met, and the next inode is taken off the list. -/
def replayAdd (g : FsGraph) (slot : ℕ → DentrySlot) (slab : ℕ → SlabAnswer) (nonce : ℕ) :
    (fuel : ℕ) → AddWalk → Except Stop AddWalk
  | 0, _ => .error .outOfFuel
  | fuel + 1, w =>
      match w.stack with
      | [] => .ok w
      | dir :: rest =>
          match { w with stack := rest }.follow g slot slab nonce dir with
          | .error stop => .error stop
          | .ok w => replayAdd g slot slab nonce fuel w

/-- `store_iterate_add`, from the inode of the path's dentry: the inodes that `insert_inode_ht`
    was called for, and the tables. -/
def storeIterateAddCalls (g : FsGraph) (slot : ℕ → DentrySlot) (slab : ℕ → SlabAnswer)
    (nonce fuel : ℕ) (dir : Inode)
    (stores : List StoreFs) : Except Stop (List Inode × List StoreFs) :=
  (replayAdd g slot slab nonce fuel ((AddWalk.start stores).meet slab nonce dir)).map fun w =>
    (w.calls, w.stores)

/-- `store_iterate_add`. -/
def storeIterateAdd (g : FsGraph) (slot : ℕ → DentrySlot) (slab : ℕ → SlabAnswer) (nonce fuel : ℕ)
    (dir : Inode) (stores : List StoreFs) : Except Stop (List StoreFs) :=
  (storeIterateAddCalls g slot slab nonce fuel dir stores).map Prod.snd

/-! ## The removal

The same for the removal, with the push guarded by `d_subdirs` and with the `kfree` that comes too
early. -/

/-- One removal on the way down, and the push if the inode has cached children and was not seen. -/
def meetRm (g : FsGraph) (nonce : ℕ) (w : List Inode × List StoreFs) (i : Inode) :
    Except Stop (List Inode × List StoreFs) := do
  let (ret, stores) ← rmInodeHt nonce i w.2
  .ok (if g.subdirs i ≠ [] ∧ ret ≠ -1 then i :: w.1 else w.1, stores)

/-- From `REPLAY` on; `links` counts the symlinks that the traversal has come to. -/
def replayRm (g : FsGraph) (slot : ℕ → DentrySlot) (nonce : ℕ) :
    (fuel links : ℕ) → (stack : List Inode) → List StoreFs → Except Stop (List StoreFs)
  | 0, _, _, _ => .error .outOfFuel
  | fuel + 1, links, stack, stores =>
      match stack with
      | [] => .ok stores
      | dir :: rest =>
          if g.isSymlink dir then
            match g.resolve (slot links) dir with
            | .null | .negative => replayRm g slot nonce fuel (links + 1) rest stores
            -- the node of the work list is freed while it is on the list
            | .positive _ => .error .useAfterFree
            | .wild => .error .wildPointer
          else do
            let (stack, stores) ← ((g.subdirs dir).filterMap id).foldlM (meetRm g nonce)
              (rest, stores)
            replayRm g slot nonce fuel links stack stores

/-- `store_iterate_rm`. -/
def storeIterateRm (g : FsGraph) (slot : ℕ → DentrySlot) (nonce fuel : ℕ) (dir : Inode)
    (stores : List StoreFs) : Except Stop (List StoreFs) := do
  let (ret, stores) ← rmInodeHt nonce dir stores
  if ret = -1 then .ok stores else replayRm g slot nonce fuel 0 [dir] stores

/-! ## What a round of the addition meets

The inodes of a round as one list, so that the search behind the loop can be spoken of without its
branches. -/

namespace FsGraph

/-- The inodes that an addition goes on to from an inode, `unset` being in `resolved.dentry`
    before. -/
def nextWith (g : FsGraph) (unset : DentrySlot) (i : Inode) : List Inode :=
  if g.isSymlink i then
    match g.resolve unset i with
    | .positive j => [j]
    | .null | .negative | .wild => []
  else (g.subdirs i).filterMap id

/-- An addition that comes to the inode follows a pointer to nowhere. -/
def Wild (g : FsGraph) (unset : DentrySlot) (i : Inode) : Prop :=
  g.isSymlink i = true ∧ g.resolve unset i = .wild

instance decidableWild (g : FsGraph) (unset : DentrySlot) (i : Inode) :
    Decidable (g.Wild unset i) :=
  inferInstanceAs (Decidable (g.isSymlink i = true ∧ g.resolve unset i = .wild))

variable {g : FsGraph} {unset : DentrySlot} {i : Inode}

/-- Where the unset variable leads to no inode, the addition goes on to what lies behind. -/
lemma nextWith_eq (h : (g.isSymlink i = true → (g.target i).isSome) ∨ ∀ j, unset ≠ .positive j) :
    g.nextWith unset i = g.next i := by
  rw [nextWith, next]
  split_ifs with hlink
  · cases htarget : g.target i with
    | some j => simp [resolve, htarget]
    | none =>
        rcases h with h | h
        · simp [htarget] at h
          exact absurd hlink (by simp [h])
        · cases unset with
          | positive j => exact absurd rfl (h j)
          | null | negative | wild => simp [resolve, htarget]
  · rfl

/-- A symlink that resolves does not read what was there. -/
lemma resolve_eq (h : (g.target i).isSome) (unset unset' : DentrySlot) :
    g.resolve unset i = g.resolve unset' i := by
  obtain ⟨j, hj⟩ := Option.isSome_iff_exists.mp h
  simp [resolve, hj]

end FsGraph

/-- **What one round of the addition does**: it meets what the inode in hand leads to, unless
    that is nothing that can be followed. -/
lemma AddWalk.follow_eq (g : FsGraph) (slot : ℕ → DentrySlot) (slab : ℕ → SlabAnswer) (nonce : ℕ)
    (w : AddWalk) (dir : Inode) : w.follow g slot slab nonce dir
      = if g.Wild (slot w.links) dir then .error .wildPointer
        else .ok ((g.nextWith (slot w.links) dir).foldl (meet slab nonce)
          { w with links := w.links + if g.isSymlink dir then 1 else 0 }) := by
  by_cases hlink : g.isSymlink dir = true
  · have hwild : g.Wild (slot w.links) dir ↔ g.resolve (slot w.links) dir = .wild := by
      simp [FsGraph.Wild, hlink]
    simp only [follow, FsGraph.nextWith, hlink, if_true, hwild]
    cases g.resolve (slot w.links) dir <;> rfl
  · simp [follow, FsGraph.nextWith, FsGraph.Wild, hlink]

end KLRM
