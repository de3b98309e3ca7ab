import FileKLRM.Core.Machine
import FileKLRM.PathStore.Tokenise

/-!
# The trie of protected paths: the heap under `path_store/path_store.c`

The nodes are slab objects linked by pointers: each `store_entry` has a list of children, newest
first, a pointer to its parent and the word `children_num`, the number of children with the top
bit set when the path itself is protected.  A slab object is 2048 bytes long and aligned to that,
so there are `2 ^ 53` of them in the address space (`Addr`): a count of children never reaches the
top bit.

The search, the creation of a missing node and the upward pruning are here; the operations that use
them are in `FileKLRM.PathStore.Store`.

* `StoreEntry`, `Trie` — a node, and the heap with the list `allocations`.
* `Trie.search` — the walk along a path, which ends where the path leaves the trie.
* `Trie.create` — the loop `LOOP_ADD`; `Trie.link` is the allocation of one node.
* `Trie.prune` — the way up after a removal; `Trie.unlink` frees one node.
-/

namespace KLRM

/-- The slab objects of `dir_cache`. -/
abbrev Addr := Fin (2 ^ 53)

instance neZero_objects : NeZero (2 ^ 53) := ⟨by decide⟩

/-- `store_entry`; `dirName` is the string in `dir_name`. -/
structure StoreEntry where
  parent : Option Addr
  dirName : Name
  children : List Addr
  childrenNum : ℕ
deriving DecidableEq, Repr

/-- `EXPLICITED_PATH_MASK`. -/
def explicitedPathMask : ℕ := 2 ^ 63

namespace StoreEntry

/-- `children_num & EXPLICITED_PATH_MASK`. -/
def explicited (e : StoreEntry) : Bool := explicitedPathMask ≤ e.childrenNum % 2 ^ 64

/-- `children_num & ~EXPLICITED_PATH_MASK`. -/
def count (e : StoreEntry) : ℕ := e.childrenNum % explicitedPathMask

/-- `children_num | EXPLICITED_PATH_MASK`. -/
def setExplicited (e : StoreEntry) : StoreEntry :=
  { e with childrenNum := e.count + explicitedPathMask }

/-- `children_num & ~EXPLICITED_PATH_MASK`, stored. -/
def clearExplicited (e : StoreEntry) : StoreEntry := { e with childrenNum := e.count }

end StoreEntry

/-- The root, the heap and the list `allocations`. -/
structure Trie where
  root : Addr
  mem : Addr → Option StoreEntry
  allocations : List Addr

namespace Trie

/-- The object at `a` is now `e`. -/
def write (t : Trie) (a : Addr) (e : StoreEntry) : Trie :=
  { t with mem := Function.update t.mem a (some e) }

/-- The child of a list whose name is `name`, the first one. -/
def findChild (t : Trie) (name : Name) : List Addr → Except Stop (Option Addr)
  | [] => .ok none
  | a :: rest =>
      match t.mem a with
      | none => .error .useAfterFree
      | some e => if e.dirName = name then .ok (some a) else findChild t name rest

/-- `PATH_SEARCH_LOOP`: from node `curr` at `deepness`, as far down as the components lead. -/
def search (t : Trie) (tokens : Tokens) (j : ℕ) :
    (fuel : ℕ) → (curr : Addr) → (deepness : ℕ) → Except Stop (Addr × ℕ)
  | 0, _, _ => .error .outOfFuel
  | fuel + 1, curr, deepness =>
      match t.mem curr with
      | none => .error .useAfterFree
      | some e =>
          match t.findChild (tokens.token deepness) e.children with
          | .error stop => .error stop
          | .ok none => .ok (curr, deepness)
          | .ok (some child) =>
              if deepness + 1 ≠ j then search t tokens j fuel child (deepness + 1)
              else .ok (child, deepness + 1)

/-- A new child of `curr` in the object `a`: `init_store_entry` and the statements that link it. -/
def link (t : Trie) (curr a : Addr) (e : StoreEntry) (name : Name) : Trie :=
  let t := { t with allocations := a :: t.allocations }
  (t.write a { parent := some curr, dirName := name, children := [], childrenNum := 0 }).write curr
    { e with children := a :: e.children, childrenNum := (e.childrenNum + 1) % 2 ^ 64 }

/-- How `LOOP_ADD` ends: on a node, or because a component is empty. -/
inductive Created
  | node (curr : Addr)
  | emptyName

/-- `LOOP_ADD`: the search, and while it stops early the creation of the next node in a fresh
    object. -/
def create (tokens : Tokens) (j : ℕ) :
    (fuel : ℕ) → (curr : Addr) → (deepness : ℕ) → (fresh : List Addr) → Trie →
      Except Stop (Created × Trie)
  | 0, _, _, _, _ => .error .outOfFuel
  | fuel + 1, curr, deepness, fresh, t =>
      match t.search tokens j (argsSize + 1) curr deepness with
      | .error stop => .error stop
      | .ok (curr, deepness) =>
          if deepness = j then .ok (.node curr, t)
          else
            let name := tokens.token deepness
            if name = [] then .ok (.emptyName, t)
            else
              match fresh, t.mem curr with
              | [], _ => .error .nullPointer
              | _, none => .error .useAfterFree
              | a :: fresh, some e =>
                  -- `dir_name` has 1024 bytes, the terminator included
                  if 1024 ≤ name.length then .error .outOfBounds
                  else create tokens j fuel curr deepness fresh (t.link curr a e name)

/-- `curr` leaves the children of its parent and is freed. -/
def unlink (t : Trie) (parent curr : Addr) (p : StoreEntry) : Trie :=
  let t := t.write parent
    { p with
      children := p.children.erase curr
      childrenNum := (p.childrenNum + 2 ^ 64 - 1) % 2 ^ 64 }
  { t with
    mem := Function.update t.mem curr none
    allocations := t.allocations.erase curr }

/-- The loop at the end of `path_store_rm`: nodes without children that are not protected go, from
    `curr` upwards. -/
def prune : (fuel : ℕ) → (curr : Addr) → Trie → Except Stop Trie
  | 0, _, _ => .error .outOfFuel
  | fuel + 1, curr, t =>
      match t.mem curr with
      | none => .error .useAfterFree
      | some e =>
          if curr = t.root ∨ e.count ≠ 0 ∨ e.explicited then .ok t
          else
            match e.parent with
            | none => .error .nullPointer
            | some parent =>
                match t.mem parent with
                | none => .error .useAfterFree
                | some p => prune fuel parent (t.unlink parent curr p)

end Trie

end KLRM
