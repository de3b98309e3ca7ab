import FileKLRM.Core.Machine

/-!
# The inode table: `path_store/inode_store.c`

One `store_fs` for each device, with 100 buckets of `inode_ht` nodes.  A node counts how often its
inode was inserted, `stamp` being the number of the traversal that counted it last, so that one
traversal counts an inode once.

The translation keeps three things a map would hide.  `num` is 32 bits wide, while the inode
number it is compared with is 64; a new node starts from whatever `refCount` the slab object held,
and with `stamp` zero; and `rm_inode_ht` walks the bucket with the cursor of the outer list, so
that it does not get back when the device is there and the inode is not.

* `insertInodeHt`, `rmInodeHt`, `checkInode` — the three operations.
* `visitBucket`, `onStore` — the two loops that they share, over a bucket and over the tables.
* `refreshStamps` — what `refresh_nonces` does to the tables.
-/

namespace KLRM

/-- An inode: its device and its number. -/
structure Inode where
  dev : ℕ
  ino : ℕ
deriving DecidableEq, Repr

/-- `inode_ht`, without its links. -/
structure InodeHt where
  num : ℕ
  refCount : ℕ
  stamp : ℕ
deriving DecidableEq, Repr

/-- `HASH_TABLE_SIZE`. -/
def hashTableSize : ℕ := 100

/-- `store_fs`: the device and the buckets. -/
structure StoreFs where
  numbers : ℕ
  inodes : ℕ → List InodeHt

/-- What the slab caches answer to one insertion: whether `fs_cache` has an object, and the old
    `refCount` of the object that `inodes_cache` returns, if it does. -/
structure SlabAnswer where
  fsOk : Bool
  refCount : Option ℕ

/-- The first node of a bucket for this inode is replaced by `touch` of it, unless the current
    traversal has seen it: `1` in the first case, `-1` in the second, nothing when there is none. -/
def visitBucket (touch : InodeHt → List InodeHt) (nonce inode : ℕ) :
    List InodeHt → Option (ℤ × List InodeHt)
  | [] => none
  | node :: rest =>
      if node.num = inode then
        if node.stamp < nonce then some (1, touch node ++ rest) else some (-1, node :: rest)
      else (visitBucket touch nonce inode rest).map fun r => (r.1, node :: r.2)

/-- `node->refCount++ ; node->stamp = nonce`. -/
def countUp (nonce : ℕ) (node : InodeHt) : List InodeHt :=
  [{ node with refCount := (node.refCount + 1) % 2 ^ 64, stamp := nonce }]

/-- `node->refCount-- ; node->stamp = nonce` and `inode_deallocate`. -/
def countDown (nonce : ℕ) (node : InodeHt) : List InodeHt :=
  let refCount := (node.refCount + 2 ^ 64 - 1) % 2 ^ 64
  if refCount = 0 then [] else [{ node with refCount := refCount, stamp := nonce }]

namespace StoreFs

/-- The bucket of an inode number. -/
def bucket (s : StoreFs) (inode : ℕ) : List InodeHt := s.inodes (inode % hashTableSize)

/-- The table with another bucket for an inode number. -/
def setBucket (s : StoreFs) (inode : ℕ) (nodes : List InodeHt) : StoreFs :=
  { s with inodes := Function.update s.inodes (inode % hashTableSize) nodes }

end StoreFs

/-- `inode_allocate`. -/
def inodeAllocate (slab : SlabAnswer) (nonce : ℕ) (store : StoreFs) (inode : ℕ) : ℤ × StoreFs :=
  match visitBucket (countUp nonce) nonce inode (store.bucket inode) with
  | some (ret, nodes) => (ret, store.setBucket inode nodes)
  | none =>
      match slab.refCount with
      | none => (0, store)
      | some old =>
          let node : InodeHt :=
            { num := inode % 2 ^ 32, refCount := (old + 1) % 2 ^ 64, stamp := 0 }
          (1, store.setBucket inode (node :: store.bucket inode))

/-- The first table of the device is changed; nothing when there is none. -/
def onStore {ρ : Type*} (dev : ℕ) (change : StoreFs → ρ × StoreFs) :
    List StoreFs → Option (ρ × List StoreFs)
  | [] => none
  | store :: rest =>
      if store.numbers = dev then some ((change store).1, (change store).2 :: rest)
      else (onStore dev change rest).map fun r => (r.1, store :: r.2)

/-- `insert_inode_ht`: the return value and `fs_stores`. -/
def insertInodeHt (slab : SlabAnswer) (nonce : ℕ) (i : Inode) (stores : List StoreFs) :
    ℤ × List StoreFs :=
  match onStore i.dev (fun store => inodeAllocate slab nonce store i.ino) stores with
  | some r => r
  | none =>
      if !slab.fsOk then (0, stores)
      else
        let r := inodeAllocate slab nonce { numbers := i.dev, inodes := fun _ => [] } i.ino
        (r.1, r.2 :: stores)

/-- `rm_inode_ht`. -/
def rmInodeHt (nonce : ℕ) (i : Inode) : List StoreFs → Except Stop (ℤ × List StoreFs)
  | [] => .ok (0, [])
  | store :: rest =>
      if store.numbers = i.dev then
        match visitBucket (countDown nonce) nonce i.ino (store.bucket i.ino) with
        | some (ret, nodes) => .ok (ret, store.setBucket i.ino nodes :: rest)
        -- the cursor of the list of tables is now the head of the bucket
        | none => .error .wildCursor
      else
        match rmInodeHt nonce i rest with
        | .ok (ret, stores) => .ok (ret, store :: stores)
        | .error e => .error e

/-- `check_inode`. -/
def checkInode (i : Inode) (stores : List StoreFs) : ℤ :=
  if stores.any fun store => store.numbers = i.dev && (store.bucket i.ino).any
    (·.num = i.ino) then 1
  else 0

/-- `refresh_nonces`, on the table: every stamp becomes zero. -/
def refreshStamps (stores : List StoreFs) : List StoreFs :=
  stores.map fun store =>
    { store with inodes := fun b => (store.inodes b).map fun node => { node with stamp := 0 } }

end KLRM
