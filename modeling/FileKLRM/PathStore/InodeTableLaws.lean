import FileKLRM.PathStore.InodeMap

/-!
# The laws of the inode table

What a caller may expect of `insert_inode_ht`, `check_inode` and `rm_inode_ht`, and when it is so.

The table is a map keyed by device and inode number as long as the numbers fit in the 32 bits of
`num`; the first insertion of a larger one is not found again.  And `rm_inode_ht` does what it
should to an inode that has a node, and to one whose device has no table, but does not get back
when the device is there and the inode is not.
-/

namespace KLRM

/-! ## Sequences of insertions

Any insertions, of any numbers, by any traversals, as long as objects can be had.
`insertInodeHt_every` carries a property of single nodes through an insertion and is used again
for the stamps. -/

/-- One call of `insert_inode_ht`, with the value of `nonce` and what the slab caches answer. -/
structure InsertCall where
  inode : Inode
  nonce : ℕ
  slab : SlabAnswer

namespace InsertCall

/-- The tables after the call. -/
def run (stores : List StoreFs) (c : InsertCall) : List StoreFs :=
  (insertInodeHt c.slab c.nonce c.inode stores).2

/-- Both slab caches have an object. -/
def Allocates (c : InsertCall) : Prop := c.slab.fsOk = true ∧ c.slab.refCount.isSome

end InsertCall

/-- The tables after a sequence of calls, from the empty list. -/
def insertAll (calls : List InsertCall) : List StoreFs := calls.foldl InsertCall.run []

@[simp] lemma insertAll_concat (calls : List InsertCall) (c : InsertCall) :
    insertAll (calls ++ [c]) = c.run (insertAll calls) := by
  simp [insertAll]

/-- At most one table for a device, and at most one node for a number: the nodes of a number are
    all in its own bucket, and there is one at most. -/
structure OneNodeEach (stores : List StoreFs) : Prop extends TableOk stores where
  hashed : ∀ store ∈ stores, ∀ b, ∀ node ∈ store.inodes b, node.num % hashTableSize = b

/-- After `calls` the table is the map that they should have made. -/
structure IsMapOf (calls : List InsertCall) : Prop where
  check : ∀ i, checkInode i (insertAll calls) = 1 ↔ ∃ c ∈ calls, c.inode = i
  unique : OneNodeEach (insertAll calls)
  frame : ∀ before c, calls = before ++ [c] → ∀ j, j ≠ c.inode →
    checkInode j (insertAll calls) = checkInode j (insertAll before) ∧
      entries (insertAll calls) j = entries (insertAll before) j

/-! ### Properties of single nodes

A visit to a bucket changes the node that it touches and no other, so what holds of every node is
kept as soon as it holds of what the visit makes. -/

section Nodes

variable {Q : ℕ → ℕ → InodeHt → Prop} {P : ℕ → ℕ → Prop} {stores : List StoreFs} {nonce : ℕ}

/-- Every node of the tables has `Q`, which may depend on the device and the bucket. -/
def EveryNode (Q : ℕ → ℕ → InodeHt → Prop) (stores : List StoreFs) : Prop :=
  ∀ store ∈ stores, ∀ b, ∀ node ∈ store.inodes b, Q store.numbers b node

/-- Every node of the tables has a number with `P`, which may depend on the bucket. -/
def AllNodes (P : ℕ → ℕ → Prop) (stores : List StoreFs) : Prop :=
  ∀ store ∈ stores, ∀ b, ∀ node ∈ store.inodes b, P b node.num

/-- After a visit there are old nodes, and what the visit has made of the one that it touched. -/
lemma visitBucket_mem {touch : InodeHt → List InodeHt} {inode : ℕ} :
    ∀ {nodes nodes' : List InodeHt} {ret : ℤ},
    visitBucket touch nonce inode nodes = some (ret, nodes') →
    ∀ m ∈ nodes', m ∈ nodes ∨ ∃ n ∈ nodes, n.num = inode ∧ m ∈ touch n
  | [], _, _, h => by cases h
  | n :: rest, nodes', ret, h => by
      rw [visitBucket] at h
      split_ifs at h with hn hstamp
      · obtain ⟨-, rfl⟩ := Prod.mk.inj (Option.some.inj h)
        intro m hm
        rcases List.mem_append.mp hm with hm | hm
        · exact Or.inr ⟨n, by simp, hn, hm⟩
        · exact Or.inl (by simp [hm])
      · obtain ⟨-, rfl⟩ := Prod.mk.inj (Option.some.inj h)
        exact fun m hm => Or.inl hm
      · obtain ⟨⟨ret', nodes''⟩, hrest, heq⟩ := Option.map_eq_some_iff.mp h
        obtain ⟨-, rfl⟩ := Prod.mk.inj heq
        intro m hm
        rcases List.mem_cons.mp hm with rfl | hm
        · exact Or.inl (by simp)
        · rcases visitBucket_mem hrest m hm with hm | ⟨m', hm', hnum, htouch⟩
          · exact Or.inl (by simp [hm])
          · exact Or.inr ⟨m', by simp [hm'], hnum, htouch⟩

/-- Another bucket for one inode number. -/
lemma setBucket_every {store : StoreFs} {inode : ℕ} {nodes : List InodeHt}
    (hstore : ∀ b, ∀ node ∈ store.inodes b, Q store.numbers b node)
    (hnodes : ∀ node ∈ nodes, Q store.numbers (inode % hashTableSize) node) :
    ∀ b, ∀ node ∈ (store.setBucket inode nodes).inodes b, Q store.numbers b node := by
  intro b node hnode
  simp only [StoreFs.setBucket, Function.update_apply] at hnode
  split_ifs at hnode with hb
  · exact hb ▸ hnodes node hnode
  · exact hstore b node hnode

/-- What an operation on one table keeps, it keeps of the list. -/
lemma onStore_every {ρ : Type*} {dev : ℕ} {change : StoreFs → ρ × StoreFs}
    (hchange : ∀ store, store.numbers = dev →
      (∀ b, ∀ node ∈ store.inodes b, Q store.numbers b node) →
      ∀ b, ∀ node ∈ (change store).2.inodes b, Q (change store).2.numbers b node) :
    ∀ {stores : List StoreFs} {r : ρ × List StoreFs}, EveryNode Q stores →
      onStore dev change stores = some r → EveryNode Q r.2
  | [], _, _, h => by cases h
  | st :: rest, r, hall, h => by
      rw [onStore] at h
      split_ifs at h with hdev
      · obtain rfl := Option.some.inj h
        intro store hmem
        rcases List.mem_cons.mp hmem with rfl | hmem
        · exact hchange st hdev (hall st (by simp))
        · exact hall store (by simp [hmem])
      · obtain ⟨r', hr', rfl⟩ := Option.map_eq_some_iff.mp h
        intro store hmem
        rcases List.mem_cons.mp hmem with rfl | hmem
        · exact hall store (by simp)
        · exact onStore_every hchange (fun s hs => hall s (by simp [hs])) hr' store hmem

lemma inodeAllocate_numbers (slab : SlabAnswer) (nonce : ℕ) (store : StoreFs) (inode : ℕ) :
    (inodeAllocate slab nonce store inode).2.numbers = store.numbers := by
  unfold inodeAllocate
  split
  · rfl
  · split <;> rfl

lemma inodeAllocate_every {store : StoreFs} {slab : SlabAnswer} {inode : ℕ}
    (hstore : ∀ b, ∀ node ∈ store.inodes b, Q store.numbers b node)
    (hcount : ∀ b node, Q store.numbers b node → node.num = inode →
      ∀ m ∈ countUp nonce node, Q store.numbers b m)
    (hnew : ∀ n, Q store.numbers (inode % hashTableSize) ⟨inode % 2 ^ 32, n, 0⟩) :
    ∀ b, ∀ node ∈ (inodeAllocate slab nonce store inode).2.inodes b, Q store.numbers b node := by
  unfold inodeAllocate
  split
  · rename_i hvisit
    refine setBucket_every hstore fun m hm => ?_
    rcases visitBucket_mem hvisit m hm with hm | ⟨n, hn, hnum, hm⟩
    · exact hstore _ m hm
    · exact hcount _ n (hstore _ n hn) hnum m hm
  · split
    · exact hstore
    · refine setBucket_every hstore fun m hm => ?_
      rcases List.mem_cons.mp hm with rfl | hm
      · exact hnew _
      · exact hstore _ m hm

/-- What counting and the making of a node keep, an insertion keeps. -/
lemma insertInodeHt_every {slab : SlabAnswer} {i : Inode} (hall : EveryNode Q stores)
    (hcount : ∀ b node, Q i.dev b node → node.num = i.ino → ∀ m ∈ countUp nonce node, Q i.dev b m)
    (hnew : ∀ n, Q i.dev (i.ino % hashTableSize) ⟨i.ino % 2 ^ 32, n, 0⟩) :
    EveryNode Q (insertInodeHt slab nonce i stores).2 := by
  unfold insertInodeHt
  split
  · rename_i h
    refine onStore_every (fun store hdev hstore => ?_) hall h
    rw [inodeAllocate_numbers]
    exact inodeAllocate_every hstore (by rwa [hdev]) (by rwa [hdev])
  · split_ifs
    · exact hall
    · intro store hmem
      rcases List.mem_cons.mp hmem with rfl | hmem
      · rw [inodeAllocate_numbers]
        exact inodeAllocate_every (by simp) hcount hnew
      · exact hall store hmem

/-- An insertion adds at most its own number, in its own bucket. -/
lemma insertInodeHt_nodes {slab : SlabAnswer} {i : Inode}
    (hnew : P (i.ino % hashTableSize) (i.ino % 2 ^ 32)) (hall : AllNodes P stores) :
    AllNodes P (insertInodeHt slab nonce i stores).2 := by
  have hevery : EveryNode (fun _ b node => P b node.num) stores := hall
  refine insertInodeHt_every hevery (fun b node hnode _ m hm => ?_) fun _ => hnew
  rw [countUp, List.mem_singleton] at hm
  rw [hm]
  exact hnode

end Nodes

/-! ### The table as a map

`entries` looks an inode up by its full number, and a node has only the low 32 bits of it; the two
agree on the inodes whose number fits. -/

/-- Numbers of nodes fit in 32 bits. -/
lemma insertAll_num_lt (calls : List InsertCall) :
    AllNodes (fun _ n => n < 2 ^ 32) (insertAll calls) := by
  induction calls using List.reverseRecOn with
  | nil => simp [AllNodes, insertAll]
  | append_singleton calls c ih =>
      rw [insertAll_concat]
      exact insertInodeHt_nodes (Nat.mod_lt _ (by norm_num)) ih

lemma num_of_entries {stores : List StoreFs} {i : Inode} {node : InodeHt}
    (h : entries stores i = some node) :
    node.num = i.ino ∧ ∃ store ∈ stores, store.numbers = i.dev ∧ node ∈ store.bucket i.ino := by
  obtain ⟨pre, store, post, rfl, hdev, -, hfind⟩ := exists_store h
  obtain ⟨before, after, hbucket, hnum, -⟩ := exists_split hfind
  exact ⟨hnum, store, by simp, hdev, by simp [hbucket]⟩

/-- One insertion is one update of the map. -/
lemma InsertCall.run_entries {c : InsertCall} (stores : List StoreFs) (hc : c.Allocates)
    (hino : c.inode.ino < 2 ^ 32) :
    Keeps stores (c.run stores) ∧
      ∃ node, entries (c.run stores) = Function.update (entries stores) c.inode (some node) := by
  obtain ⟨hfs, hold⟩ := hc
  obtain ⟨old, hold⟩ := Option.isSome_iff_exists.mp hold
  unfold InsertCall.run
  cases hnode : entries stores c.inode with
  | none =>
      obtain ⟨stores', hrun, hkeeps, hentries⟩ := insertInodeHt_new c.nonce hnode hino hfs hold
      rw [hrun]
      exact ⟨hkeeps, _, hentries⟩
  | some node =>
      by_cases hstamp : node.stamp < c.nonce
      · obtain ⟨stores', hrun, hkeeps, hentries⟩ := insertInodeHt_count hnode hstamp c.slab
        rw [hrun]
        exact ⟨hkeeps, _, hentries⟩
      · rw [insertInodeHt_seen hnode hstamp]
        exact ⟨Keeps.refl stores, node, by rw [← hnode, Function.update_eq_self]⟩

/-- Insertions of 32-bit numbers make the map of what was inserted. -/
lemma insertAll_entries {calls : List InsertCall} (hc : ∀ c ∈ calls, c.Allocates)
    (hino : ∀ c ∈ calls, c.inode.ino < 2 ^ 32) :
    OneNodeEach (insertAll calls) ∧
      ∀ i, (entries (insertAll calls) i).isSome ↔ ∃ c ∈ calls, c.inode = i := by
  induction calls using List.reverseRecOn with
  | nil => exact ⟨⟨tableOk_nil, by simp [insertAll]⟩, by simp [insertAll]⟩
  | append_singleton calls c ih =>
      obtain ⟨hone, hentries⟩ := ih (fun c' hc' => hc c' (by simp [hc']))
        fun c' hc' => hino c' (by simp [hc'])
      obtain ⟨hkeeps, node, hrun⟩ := InsertCall.run_entries (insertAll calls) (hc c (by simp))
        (hino c (by simp))
      have hhashed : AllNodes (fun b n => n % hashTableSize = b) (c.run (insertAll calls)) :=
        insertInodeHt_nodes (by rw [Nat.mod_eq_of_lt (hino c (by simp))]) hone.hashed
      rw [insertAll_concat]
      refine ⟨⟨hkeeps.tableOk hone.toTableOk, hhashed⟩, fun i => ?_⟩
      · rw [hrun, Function.update_apply]
        simp only [List.mem_append, List.mem_singleton]
        split_ifs with hi
        · exact iff_of_true rfl ⟨c, Or.inr rfl, hi.symm⟩
        · rw [hentries]
          constructor
          · rintro ⟨c', hc', hi'⟩
            exact ⟨c', Or.inl hc', hi'⟩
          · rintro ⟨c', hc' | rfl, hi'⟩
            · exact ⟨c', hc', hi'⟩
            · exact absurd hi'.symm hi

/-- **When the inode table is a map.**  After every sequence of insertions, and at every point of
    it, the table answers and changes like a map keyed by device and inode number, if and only if
    every inode number that is inserted fits in 32 bits. -/
theorem inodeTable_isMap_iff {calls : List InsertCall} (hc : ∀ c ∈ calls, c.Allocates) :
    (∀ done, done <+: calls → IsMapOf done) ↔ ∀ c ∈ calls, c.inode.ino < 2 ^ 32 := by
  constructor
  · intro h c hmem
    obtain ⟨before, after, rfl⟩ := List.append_of_mem hmem
    have hmap := h (before ++ [c]) ⟨after, by simp⟩
    have hfound := (hmap.check c.inode).mpr ⟨c, by simp, rfl⟩
    rw [checkInode_eq hmap.unique.devices] at hfound
    obtain ⟨node, hnode⟩ := Option.isSome_iff_exists.mp hfound
    obtain ⟨hnum, store, hstore, -, hin⟩ := num_of_entries hnode
    rw [← hnum]
    exact insertAll_num_lt _ store hstore _ node hin
  · intro hino done hdone
    have hc' : ∀ c ∈ done, c.Allocates := fun c hmem => hc c (hdone.subset hmem)
    have hino' : ∀ c ∈ done, c.inode.ino < 2 ^ 32 := fun c hmem => hino c (hdone.subset hmem)
    obtain ⟨hone, hentries⟩ := insertAll_entries hc' hino'
    refine ⟨fun i => ?_, hone, ?_⟩
    · rw [checkInode_eq hone.devices, hentries]
    · rintro before c rfl j hj
      have hone' : OneNodeEach (insertAll before) :=
        (insertAll_entries (fun c' h' => hc' c' (List.mem_append_left _ h'))
          fun c' h' => hino' c' (List.mem_append_left _ h')).1
      obtain ⟨-, node, hrun⟩ := InsertCall.run_entries (insertAll before) (hc' c (by simp))
        (hino' c (by simp))
      have hsame : entries (insertAll (before ++ [c])) j = entries (insertAll before) j := by
        rw [insertAll_concat, hrun, Function.update_of_ne hj]
      refine ⟨checkInode_congr ?_, hsame⟩
      rw [checkInode_eq hone.devices, checkInode_eq hone'.devices, hsame]

/-- Two insertions of one inode, and one of another with the same bucket. -/
def threeInserts : List InsertCall :=
  [⟨⟨0, 5⟩, 1, ⟨true, some 0⟩⟩, ⟨⟨0, 105⟩, 1, ⟨true, some 7⟩⟩, ⟨⟨0, 5⟩, 2, ⟨true, some 0⟩⟩]

/-- After each of them the table is the map of those that were made. -/
theorem inodeTable_isMap_three :
    (∀ done, done <+: threeInserts → IsMapOf done) ↔ ∀ c ∈ threeInserts, c.inode.ino < 2 ^ 32 :=
  inodeTable_isMap_iff (by simp [threeInserts, InsertCall.Allocates])

/-- An inode number of 33 bits is not found after its insertion, and one may be found that was not
    inserted. -/
theorem inodeTable_wide_number :
    ¬ IsMapOf [⟨⟨0, 2 ^ 32⟩, 1, ⟨true, some 0⟩⟩] ∧
    ¬ IsMapOf [⟨⟨0, 25 * 2 ^ 32 + 5⟩, 1, ⟨true, some 0⟩⟩] := by
  constructor
  · intro h
    have hcheck := (h.check ⟨0, 2 ^ 32⟩).mpr ⟨_, List.mem_singleton.mpr rfl, rfl⟩
    simp [insertAll, InsertCall.run, insertInodeHt, onStore, inodeAllocate, visitBucket, checkInode,
      StoreFs.bucket, StoreFs.setBucket, hashTableSize] at hcheck
  · intro h
    have hcheck : ∃ c ∈ [(⟨⟨0, 25 * 2 ^ 32 + 5⟩, 1, ⟨true, some 0⟩⟩ : InsertCall)],
        c.inode = ⟨0, 5⟩ :=
      (h.check ⟨0, 5⟩).mp (by
        simp [insertAll, InsertCall.run, insertInodeHt, onStore, inodeAllocate,
          visitBucket, checkInode, StoreFs.bucket, StoreFs.setBucket, hashTableSize])
    simp at hcheck

/-! ## Removals

A removal has one of three outcomes: the count goes down or the node with it, nothing happens
because the device has no table, or the cursor leaves the bucket and never comes back. -/

/-- The node that `countDown` leaves, in words: one less, and nothing when that is zero. -/
def oneLess (nonce : ℕ) (node : InodeHt) : List InodeHt :=
  if node.refCount % 2 ^ 64 = 1 then []
  else [{ node with refCount := (node.refCount + (2 ^ 64 - 1)) % 2 ^ 64, stamp := nonce }]

/-- What a removal should return and leave.  In `counted` the node that changes is the first of
    its number in the inode's bucket, in the first table of the device; everything around it
    stays. -/
inductive RmOutcome (nonce : ℕ) (i : Inode) (stores : List StoreFs) : ℤ → List StoreFs → Prop
  | absent (h : entries stores i = none) : RmOutcome nonce i stores 0 stores
  | seen {node : InodeHt} (h : entries stores i = some node) (hstamp : ¬ node.stamp < nonce) :
      RmOutcome nonce i stores (-1) stores
  | counted {pre post : List StoreFs} {store : StoreFs} {before after : List InodeHt}
      {node : InodeHt}
      (hstores : stores = pre ++ store :: post) (hpre : ∀ st ∈ pre, st.numbers ≠ i.dev)
      (hdev : store.numbers = i.dev) (hbucket : store.bucket i.ino = before ++ node :: after)
      (hbefore : ∀ n ∈ before, n.num ≠ i.ino) (hnum : node.num = i.ino)
      (hstamp : node.stamp < nonce) : RmOutcome nonce i stores 1
        (pre ++ store.setBucket i.ino (before ++ oneLess nonce node ++ after) :: post)

section Removals

variable {nonce : ℕ} {i : Inode} {stores : List StoreFs}

lemma countDown_eq (nonce : ℕ) (node : InodeHt) : countDown nonce node = oneLess nonce node := by
  have hiff : (node.refCount + (2 ^ 64 - 1)) % 2 ^ 64 = 0 ↔ node.refCount % 2 ^ 64 = 1 := by omega
  unfold countDown oneLess
  rw [Nat.add_sub_assoc (show 1 ≤ 2 ^ 64 by norm_num)]
  exact if_congr hiff rfl rfl

/-- Without a table for the device the removal passes all tables. -/
lemma rmInodeHt_no_device : ∀ {stores : List StoreFs}, (∀ st ∈ stores, st.numbers ≠ i.dev) →
    rmInodeHt nonce i stores = .ok (0, stores)
  | [], _ => rfl
  | st :: rest, h => by
      rw [rmInodeHt, if_neg (h st (by simp)), rmInodeHt_no_device fun s hs => h s (by simp [hs])]

/-- With a table and no node the walk leaves the lists. -/
lemma rmInodeHt_absent (hdev : ∃ store ∈ stores, store.numbers = i.dev)
    (hnone : entries stores i = none) : rmInodeHt nonce i stores = .error .wildCursor := by
  cases hfind : findKey StoreFs.numbers i.dev stores with
  | none =>
      obtain ⟨store, hmem, hstore⟩ := hdev
      exact absurd hstore (findKey_eq_none.mp hfind store hmem)
  | some store =>
      obtain ⟨pre, post, rfl, hstore, hpre⟩ := exists_split hfind
      rw [entries_split hpre hstore] at hnone
      rw [rmInodeHt_split hstore pre hpre, visitBucket_none _ (findKey_eq_none.mp hnone)]

/-- A removal that finds its node, or no table, does what it should. -/
lemma rmInodeHt_outcome (nonce : ℕ)
    (h : (∃ store ∈ stores, store.numbers = i.dev) → (entries stores i).isSome) :
    ∃ ret stores', rmInodeHt nonce i stores = .ok (ret, stores') ∧
    RmOutcome nonce i stores ret stores' := by
  by_cases hdev : ∃ store ∈ stores, store.numbers = i.dev
  · obtain ⟨node, hnode⟩ := Option.isSome_iff_exists.mp (h hdev)
    by_cases hstamp : node.stamp < nonce
    · obtain ⟨pre, store, post, rfl, hstore, hpre, hfind⟩ := exists_store hnode
      obtain ⟨before, after, hbucket, hnum, hbefore⟩ := exists_split hfind
      refine ⟨1, _, ?_, .counted rfl hpre hstore hbucket hbefore hnum hstamp⟩
      rw [rmInodeHt_split hstore pre hpre, hbucket, visitBucket_split hnum before hbefore,
        if_pos hstamp, countDown_eq]
    · exact ⟨-1, stores, rmInodeHt_seen hnode hstamp, .seen hnode hstamp⟩
  · push Not at hdev
    refine ⟨0, stores, rmInodeHt_no_device hdev, .absent ?_⟩
    rw [entries, findKey_eq_none.mpr hdev]
    rfl

/-- What a removal that returns has found and done. -/
lemma rmInodeHt_run {ret : ℤ} {stores' : List StoreFs}
    (hrun : rmInodeHt nonce i stores = .ok (ret, stores')) :
    ((∃ store ∈ stores, store.numbers = i.dev) → (entries stores i).isSome) ∧
      RmOutcome nonce i stores ret stores' := by
  have hsome : (∃ store ∈ stores, store.numbers = i.dev) → (entries stores i).isSome := by
    intro hdev
    by_contra hnone
    rw [Option.not_isSome_iff_eq_none] at hnone
    rw [rmInodeHt_absent hdev hnone] at hrun
    cases hrun
  obtain ⟨ret', after, hrun', hout⟩ := rmInodeHt_outcome nonce hsome
  rw [hrun] at hrun'
  obtain ⟨rfl, rfl⟩ := Prod.mk.inj (Except.ok.inj hrun')
  exact ⟨hsome, hout⟩

namespace RmOutcome

variable {ret : ℤ} {stores' : List StoreFs} {j : Inode} {Q : ℕ → ℕ → InodeHt → Prop}

/-- The tables stay for the devices that they are for. -/
lemma numbers (h : RmOutcome nonce i stores ret stores') :
    stores'.map StoreFs.numbers = stores.map StoreFs.numbers := by
  cases h with
  | absent _ => rfl
  | seen _ _ => rfl
  | counted hstores _ _ _ _ _ _ => simp [hstores]

/-- Other inodes keep their nodes. -/
lemma entries_of_ne (h : RmOutcome nonce i stores ret stores') (hji : j ≠ i) :
    entries stores' j = entries stores j := by
  cases h with
  | absent _ => rfl
  | seen _ _ => rfl
  | @counted pre post store before after node hstores hpre hdev hbucket hbefore hnum _ =>
      subst hstores
      have htouch : ∀ n ∈ oneLess nonce node, n.num = node.num := by
        intro n hn
        rw [oneLess] at hn
        split_ifs at hn
        · cases hn
        · rw [List.mem_singleton.mp hn]
      have hlen : (oneLess nonce node).length ≤ 1 := by
        rw [oneLess]
        split_ifs <;> simp
      have hupd : BucketUpdate (store.bucket i.ino) i.ino
          (findKey InodeHt.num i.ino (before ++ oneLess nonce node ++ after))
          (before ++ oneLess nonce node ++ after) := by
        rw [hbucket]
        exact ⟨fun hnodup => nodup_replace hnodup htouch hlen, rfl,
          fun n hn => findKey_replace_of_ne htouch (hnum ▸ hn)⟩
      rw [(update_bucket hpre hdev hupd).2, Function.update_of_ne hji]

/-- A removal reports an inode as seen when its node has the number of the traversal. -/
lemma stamp_of_seen (h : RmOutcome nonce i stores (-1) stores') :
    ∃ store ∈ stores, store.numbers = i.dev ∧ ∃ node ∈ store.bucket i.ino, node.num = i.ino ∧
      nonce ≤ node.stamp := by
  cases h with
  | seen hnode hstamp =>
      obtain ⟨hnum, store, hmem, hdev, hbucket⟩ := num_of_entries hnode
      exact ⟨store, hmem, hdev, _, hbucket, hnum, not_lt.mp hstamp⟩

/-- What counting down keeps, a removal keeps. -/
lemma every (h : RmOutcome nonce i stores ret stores') (hall : EveryNode Q stores)
    (hcount : ∀ b node, Q i.dev b node → node.num = i.ino → ∀ m ∈ oneLess nonce node, Q i.dev b m) :
    EveryNode Q stores' := by
  cases h with
  | absent _ => exact hall
  | seen _ _ => exact hall
  | @counted pre post store before after node hstores _ hdev hbucket _ hnum _ =>
      subst hstores
      have hold : ∀ n ∈ store.bucket i.ino, Q store.numbers (i.ino % hashTableSize) n :=
        hall store (by simp) _
      rw [hbucket] at hold
      intro st hst
      rcases List.mem_append.mp hst with hst | hst
      · exact hall st (by simp [hst])
      · rcases List.mem_cons.mp hst with rfl | hst
        · refine setBucket_every (hall store (by simp)) fun m hm => ?_
          simp only [List.mem_append] at hm
          rcases hm with (hm | hm) | hm
          · exact hold m (by simp [hm])
          · rw [hdev] at hold ⊢
            exact hcount _ node (hold node (by simp)) hnum m hm
          · exact hold m (by simp [hm])
        · exact hall st (by simp [hst])

end RmOutcome

/-- **When `rm_inode_ht` returns with the right frame.**  For every list of tables, every `nonce`
    and every inode: the removal returns, with the return value and the tables it should, if and
    only if the inode has a node or its device has no table. -/
theorem rmInodeHt_right_iff (nonce : ℕ) (i : Inode) (stores : List StoreFs) :
    (∃ ret stores', rmInodeHt nonce i stores = .ok (ret, stores') ∧
      RmOutcome nonce i stores ret stores') ↔
      ((∃ store ∈ stores, store.numbers = i.dev) → (entries stores i).isSome) := by
  constructor
  · rintro ⟨ret, stores', hrun, -⟩
    exact (rmInodeHt_run hrun).1
  · exact fun h => rmInodeHt_outcome nonce h

/-- After the insertion of inode 5 the removal of inode 6 of the same device does not come back. -/
theorem rmInodeHt_wild_cursor :
    ¬ ∃ ret stores',
      rmInodeHt 2 ⟨0, 6⟩ (insertAll [⟨⟨0, 5⟩, 1, ⟨true, some 0⟩⟩]) = .ok (ret, stores') := by
  rintro ⟨ret, stores', hrun⟩
  simp [insertAll, InsertCall.run, insertInodeHt, onStore, inodeAllocate, visitBucket, rmInodeHt,
    StoreFs.bucket, StoreFs.setBucket, hashTableSize] at hrun

end Removals

end KLRM
