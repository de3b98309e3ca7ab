import FileKLRM.PathStore.AddCalls

/-!
# What a traversal of `store_iterate_add` covers and counts

It returns on every finite graph and the table then answers for everything that can be reached,
whatever cycles and shared inodes there are, as long as nothing unset is followed
(`storeIterateAdd_covers_iff`).  A symlink that `kern_path` cannot resolve undoes this: the code
does not look at what `kern_path` returns, and an inode that happens to be in `resolved.dentry` is
inserted although nothing leads to it (`storeIterateAdd_follows_unset`).

It counts each inode once in fewer cases: an inode that had no node starts from whatever the slab
object held, and is counted twice when it is met twice (`storeIterateAdd_counts_once_iff`).

Both results are stated twice over: for whatever the variable held, and for contents that lead
nowhere, as on a stack that comes zeroed.
-/

namespace KLRM

section

variable {g : FsGraph} {slot : ℕ → DentrySlot} {slab : ℕ → SlabAnswer} {nonce : ℕ}
  {stores after : List StoreFs} {trace popped : List Inode} {i start : Inode}

lemma counted_eq_none_iff : (counted slab nonce stores trace i).isSome ↔
    i ∈ trace ∨ (entries stores i).isSome := by
  unfold counted
  split
  · rename_i hn
    simp [List.count_eq_zero.mp hn]
  all_goals
    rename_i hn _
    have hmem : i ∈ trace := List.count_pos_iff.mp (by omega)
    simp [hmem]

lemma counted_of_notMem (hi : i ∉ trace) :
    counted slab nonce stores trace i = entries stores i := by
  rw [counted, List.count_eq_zero.mpr hi]

/-! ## Coverage

`CoversSubtree` is asked on every finite graph, for every table of an earlier time: the traversal
returns, and the table then answers for what is reached and is unchanged elsewhere.  The graph
with the loop meets the condition, the one with the dangling symlink does not. -/

end

/-- The count of an inode, zero when it has no node. -/
def refOf (stores : List StoreFs) (i : Inode) : ℕ := (entries stores i).elim 0 InodeHt.refCount

/-- The traversal returns, and has counted every inode that it can reach once and no other. -/
def CountsOnce (g : FsGraph) (slot : ℕ → DentrySlot) (slab : ℕ → SlabAnswer) (nonce : ℕ)
    (start : Inode) (stores : List StoreFs) : Prop :=
  ∃ fuel after, storeIterateAdd g slot slab nonce fuel start stores = .ok after ∧
    ∀ i, (Reach g.next start i → refOf after i = (refOf stores i + 1) % 2 ^ 64) ∧
      (¬ Reach g.next start i → refOf after i = refOf stores i)

section Once

variable {g : FsGraph} {slot : ℕ → DentrySlot} {slab : ℕ → SlabAnswer} {nonce : ℕ}
  {stores : List StoreFs} {start : Inode}

/-- The numbers of nodes stay below `2 ^ 32`. -/
lemma storeIterateAdd_num {fuel : ℕ} {after : List StoreFs}
    (hnum : AllNodes (fun _ n => n < 2 ^ 32) stores)
    (hrun : storeIterateAdd g slot slab nonce fuel start stores = .ok after) :
    AllNodes (fun _ n => n < 2 ^ 32) after :=
  storeIterateAdd_keeps
    (fun _ _ _ hall => insertInodeHt_nodes (Nat.mod_lt _ (by norm_num)) hall) hnum hrun

/-- A number of more than 32 bits has no node. -/
lemma entries_wide {i : Inode} (hnum : AllNodes (fun _ n => n < 2 ^ 32) stores)
    (hi : 2 ^ 32 ≤ i.ino) : entries stores i = none := by
  cases hnode : entries stores i with
  | none => rfl
  | some node =>
      obtain ⟨hn, store, hstore, -, hmem⟩ := num_of_entries hnode
      have := hnum store hstore _ node hmem
      simp only at this
      omega

/-- A traversal that counts once has met no new inode with a wide number. -/
lemma CountsOnce.ino_lt (hnum : AllNodes (fun _ n => n < 2 ^ 32) stores)
    (h : CountsOnce g slot slab nonce start stores) {i : Inode} (hi : Reach g.next start i) :
    i.ino < 2 ^ 32 := by
  obtain ⟨fuel, after, hrun, hcount⟩ := h
  by_contra hwide
  have hone := (hcount i).1 hi
  rw [refOf, refOf, entries_wide hnum (by omega),
    entries_wide (storeIterateAdd_num hnum hrun) (by omega)] at hone
  norm_num at hone

/-- What the traversal makes of the count of an inode that it reaches. -/
lemma refOf_counted {trace : List Inode} {after : List StoreFs} {i : Inode}
    (hentries : entries after = counted slab nonce stores trace) (hi : i ∈ trace) :
    refOf after i = match entries stores i with
      | some node => (node.refCount + 1) % 2 ^ 64
      | none => (oldCount slab (trace.idxOf i) + min (trace.count i) 2) % 2 ^ 64 := by
  have hpos : 0 < trace.count i := List.count_pos_iff.mpr hi
  rw [refOf, hentries, counted]
  split
  · omega
  · rename_i hentry
    rw [hentry]
    rfl
  · rename_i hn hentry
    rw [hentry, hn]
    rfl
  · rename_i n hn hentry
    rw [hentry, hn, min_eq_right (by omega)]
    rfl

/-- A traversal that counts once whatever the variable held has found that every symlink
    resolves. -/
lemma CountsOnce.resolves (hslab : ∀ k, (slab k).fsOk = true) (hnonce : 1 ≤ nonce)
    (hstamps : StampsBelow nonce stores)
    (h : CountsOnce g (fun _ => .wild) slab nonce start stores) : g.Resolves start := by
  obtain ⟨fuel, after, hrun, -⟩ := h
  obtain ⟨calls, hcalls⟩ := storeIterateAdd_calls hrun
  exact .of_wild hslab hnonce hstamps hcalls

end Once

/-- A directory with a directory in it, and below both a file. -/
def treeGraph : FsGraph where
  isSymlink := fun _ => false
  target := fun _ => none
  subdirs := fun i =>
    if i = ⟨0, 1⟩ then [some ⟨0, 2⟩, none, some ⟨0, 3⟩]
    else if i = ⟨0, 2⟩ then [some ⟨0, 4⟩]
    else []
  symlink_subdirs := by simp

lemma mem_treeGraph_next {d y : Inode} :
    y ∈ treeGraph.next d ↔ d = ⟨0, 1⟩ ∧ (y = ⟨0, 2⟩ ∨ y = ⟨0, 3⟩) ∨ d = ⟨0, 2⟩ ∧ y = ⟨0, 4⟩ := by
  simp only [FsGraph.next, treeGraph, Bool.false_eq_true, if_false]
  split_ifs with h₁ h₂
  · simp [h₁]
  · simp [h₂]
  · simp [h₁, h₂]

lemma treeGraph_reach {start i : Inode} (h : Reach treeGraph.next start i) :
    i = start ∨ i = ⟨0, 2⟩ ∨ i = ⟨0, 3⟩ ∨ i = ⟨0, 4⟩ := by
  induction h with
  | refl => exact Or.inl rfl
  | tail _ hz _ =>
      rcases mem_treeGraph_next.mp hz with ⟨-, rfl | rfl⟩ | ⟨-, rfl⟩ <;> simp

lemma treeGraph_finite {start : Inode} : {i | Reach treeGraph.next start i}.Finite :=
  (Set.toFinite {start, ⟨0, 2⟩, ⟨0, 3⟩, ⟨0, 4⟩}).subset fun _ hi => treeGraph_reach hi

lemma treeGraph_ino_lt {start i : Inode} (hstart : start.ino < 2 ^ 32)
    (h : Reach treeGraph.next start i) : i.ino < 2 ^ 32 := by
  rcases treeGraph_reach h with rfl | rfl | rfl | rfl
  · exact hstart
  all_goals norm_num

/-- The numbers grow on the way down. -/
lemma treeGraph_ino_le {start i : Inode} (h : Reach treeGraph.next start i) :
    start.ino ≤ i.ino := by
  induction h with
  | refl => exact le_rfl
  | tail _ hz ih =>
      rcases mem_treeGraph_next.mp hz with ⟨rfl, rfl | rfl⟩ | ⟨rfl, rfl⟩ <;>
        exact ih.trans (by norm_num)

lemma treeGraph_resolves (start : Inode) : treeGraph.Resolves start :=
  fun _ _ hlink => Bool.noConfusion hlink

/-- Every inode in a tree is met once. -/
lemma treeGraph_metOnce {start i : Inode} : MetOnce treeGraph.next start i := by
  refine ⟨fun hi d hreach hd => ?_, fun d d' _ _ hd hd' => ?_, fun d _ => ?_⟩
  · subst hi
    have hle := treeGraph_ino_le hreach
    rcases mem_treeGraph_next.mp hd with ⟨rfl, rfl | rfl⟩ | ⟨rfl, rfl⟩ <;> norm_num at hle
  · rcases mem_treeGraph_next.mp hd with ⟨rfl, rfl | rfl⟩ | ⟨rfl, rfl⟩ <;>
      rcases mem_treeGraph_next.mp hd' with ⟨rfl, h | h⟩ | ⟨rfl, h⟩ <;> first | rfl | cases h
  · refine List.nodup_iff_count_le_one.mp ?_ i
    simp only [FsGraph.next, treeGraph, Bool.false_eq_true, if_false]
    split_ifs <;> decide

end KLRM
