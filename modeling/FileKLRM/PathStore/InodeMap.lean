import FileKLRM.Core.KeyedList
import FileKLRM.PathStore.InodeTable

/-!
# The inode table as a map

`entries` reads the table the way the code searches it: the first table of the device, and in the
bucket of the inode number the first node with this number.  In a well-formed table (`TableOk`)
each operation is one update of that map, for an inode number that fits in `num`.
-/

namespace KLRM

/-- Devices are distinct, and so are the numbers within a bucket. -/
structure TableOk (stores : List StoreFs) : Prop where
  devices : (stores.map StoreFs.numbers).Nodup
  buckets : ∀ store ∈ stores, ∀ b, ((store.inodes b).map InodeHt.num).Nodup

/-- The node of an inode. -/
def entries (stores : List StoreFs) (i : Inode) : Option InodeHt :=
  (findKey StoreFs.numbers i.dev stores).bind fun store =>
    findKey InodeHt.num i.ino (store.bucket i.ino)

lemma tableOk_nil : TableOk [] := ⟨List.nodup_nil, by simp⟩

@[simp] lemma entries_nil (i : Inode) : entries [] i = none := rfl

@[simp] lemma StoreFs.numbers_setBucket (store : StoreFs) (inode : ℕ) (nodes : List InodeHt) :
    (store.setBucket inode nodes).numbers = store.numbers := rfl

lemma StoreFs.bucket_setBucket (store : StoreFs) (inode n : ℕ) (nodes : List InodeHt) :
    (store.setBucket inode nodes).bucket n
      = if n % hashTableSize = inode % hashTableSize then nodes else store.bucket n :=
  Function.update_apply ..

lemma entries_cons (store : StoreFs) (stores : List StoreFs) (i : Inode) :
    entries (store :: stores) i
      = if store.numbers = i.dev then findKey InodeHt.num i.ino (store.bucket i.ino)
        else entries stores i := by
  rw [entries, findKey_cons]
  split_ifs
  · rfl
  · rfl

lemma Inode.ext_iff' {i j : Inode} : j = i ↔ j.dev = i.dev ∧ j.ino = i.ino := by
  cases i
  cases j
  simp

/-! ## One bucket

`visitBucket` changes the first node with the number and no other.  Three cases: there is none,
there is one that was not seen, and there is one that was. -/

section Bucket

variable {touch : InodeHt → List InodeHt} {nonce inode : ℕ} {node : InodeHt}
  {nodes pre post : List InodeHt}

lemma visitBucket_none : ∀ nodes : List InodeHt, (∀ n ∈ nodes, n.num ≠ inode) →
    visitBucket touch nonce inode nodes = none
  | [], _ => rfl
  | n :: rest, h => by
      rw [visitBucket, if_neg (h n (by simp)), visitBucket_none rest fun m hm => h m (by simp [hm])]
      rfl

lemma visitBucket_split (hnode : node.num = inode) :
    ∀ pre : List InodeHt, (∀ n ∈ pre, n.num ≠ inode) →
    visitBucket touch nonce inode (pre ++ node :: post)
      = some (if node.stamp < nonce then (1, pre ++ touch node ++ post)
          else (-1, pre ++ node :: post))
  | [], _ => by
      rw [List.nil_append, visitBucket, if_pos hnode]
      split_ifs <;> rfl
  | n :: pre, h => by
      rw [List.cons_append, visitBucket, if_neg (h n (by simp)),
        visitBucket_split hnode pre fun m hm => h m (by simp [hm])]
      split_ifs <;> rfl

/-- What a visit does to the nodes of a bucket, read as a map. -/
structure BucketUpdate (nodes : List InodeHt) (inode : ℕ) (e : Option InodeHt)
    (nodes' : List InodeHt) : Prop where
  nodup : (nodes.map InodeHt.num).Nodup → (nodes'.map InodeHt.num).Nodup
  self : findKey InodeHt.num inode nodes' = e
  other : ∀ n, n ≠ inode → findKey InodeHt.num n nodes' = findKey InodeHt.num n nodes

/-- A node that the visit has not seen is touched.  If that may remove it, the numbers must be
    distinct. -/
lemma visitBucket_touch (touch : InodeHt → List InodeHt) (nodes : List InodeHt)
    (hfind : findKey InodeHt.num inode nodes = some node) (hstamp : node.stamp < nonce)
    (htouch : ∀ n ∈ touch node, n.num = node.num) (hlen : (touch node).length ≤ 1)
    (hnodup : touch node = [] → (nodes.map InodeHt.num).Nodup) :
    ∃ nodes', visitBucket touch nonce inode nodes = some (1, nodes') ∧
      BucketUpdate nodes inode (touch node).head? nodes' := by
  obtain ⟨pre, post, rfl, rfl, hpre⟩ := exists_split hfind
  refine ⟨pre ++ touch node ++ post, ?_, fun h => nodup_replace h htouch hlen,
    findKey_replace hpre htouch fun hnil => (key_ne_of_nodup (hnodup hnil)).2,
    fun n hn => findKey_replace_of_ne htouch hn⟩
  rw [visitBucket_split rfl pre hpre, if_pos hstamp]

lemma visitBucket_seen (hfind : findKey InodeHt.num inode nodes = some node)
    (hstamp : ¬ node.stamp < nonce) : visitBucket touch nonce inode nodes = some (-1, nodes) := by
  obtain ⟨pre, post, rfl, hnode, hpre⟩ := exists_split hfind
  rw [visitBucket_split hnode pre hpre, if_neg hstamp]

end Bucket

/-! ## The tables

The same one level up, for the list of tables and the number of the device.  `Keeps` is the frame:
no operation changes which devices have a table, except to add one. -/

section Tables

variable {stores pre post : List StoreFs} {store : StoreFs} {i : Inode} {nonce : ℕ} {node : InodeHt}
  {nodes : List InodeHt} {e : Option InodeHt}

lemma onStore_split {ρ : Type*} {change : StoreFs → ρ × StoreFs} (hstore : store.numbers = i.dev) :
    ∀ pre : List StoreFs, (∀ st ∈ pre, st.numbers ≠ i.dev) →
    onStore i.dev change (pre ++ store :: post)
      = some ((change store).1, pre ++ (change store).2 :: post)
  | [], _ => by
      rw [List.nil_append, onStore, if_pos hstore]
      rfl
  | st :: pre, h => by
      rw [List.cons_append, onStore, if_neg (h st (by simp)),
        onStore_split hstore pre fun m hm => h m (by simp [hm])]
      rfl

lemma onStore_none {ρ : Type*} {change : StoreFs → ρ × StoreFs} : ∀ stores : List StoreFs,
    (∀ st ∈ stores, st.numbers ≠ i.dev) → onStore i.dev change stores = none
  | [], _ => rfl
  | st :: rest, h => by
      rw [onStore, if_neg (h st (by simp)), onStore_none rest fun m hm => h m (by simp [hm])]
      rfl

lemma rmInodeHt_split (hstore : store.numbers = i.dev) : ∀ pre : List StoreFs,
    (∀ st ∈ pre, st.numbers ≠ i.dev) →
    rmInodeHt nonce i (pre ++ store :: post)
      = match visitBucket (countDown nonce) nonce i.ino (store.bucket i.ino) with
        | some (ret, nodes) => .ok (ret, pre ++ store.setBucket i.ino nodes :: post)
        | none => .error .wildCursor
  | [], _ => by
      rw [List.nil_append, rmInodeHt, if_pos hstore]
      rfl
  | st :: pre, h => by
      rw [List.cons_append, rmInodeHt, if_neg (h st (by simp)),
        rmInodeHt_split hstore pre fun m hm => h m (by simp [hm])]
      cases visitBucket (countDown nonce) nonce i.ino (store.bucket i.ino) <;> rfl

/-- The table of an inode that has a node. -/
lemma exists_store (h : entries stores i = some node) :
    ∃ pre store post, stores = pre ++ store :: post ∧ store.numbers = i.dev ∧
      (∀ st ∈ pre, st.numbers ≠ i.dev) ∧
      findKey InodeHt.num i.ino (store.bucket i.ino) = some node := by
  obtain ⟨store, hstore, hnode⟩ := Option.bind_eq_some_iff.mp h
  obtain ⟨pre, post, rfl, hdev, hpre⟩ := exists_split hstore
  exact ⟨pre, store, post, rfl, hdev, hpre, hnode⟩

lemma entries_split (hpre : ∀ st ∈ pre, st.numbers ≠ i.dev) (hstore : store.numbers = i.dev) :
    entries (pre ++ store :: post) i = findKey InodeHt.num i.ino (store.bucket i.ino) := by
  rw [entries, findKey_append_of_forall_ne hpre, findKey_cons, if_pos hstore]
  rfl

/-- What every operation keeps. -/
structure Keeps (stores stores' : List StoreFs) : Prop where
  tableOk : TableOk stores → TableOk stores'
  devices : (stores.map StoreFs.numbers).Nodup → (stores'.map StoreFs.numbers).Nodup

lemma Keeps.refl (stores : List StoreFs) : Keeps stores stores := ⟨id, id⟩

/-- A bucket of the device's table is updated. -/
lemma update_bucket (hpre : ∀ st ∈ pre, st.numbers ≠ i.dev) (hstore : store.numbers = i.dev)
    (hnodes : BucketUpdate (store.bucket i.ino) i.ino e nodes) :
    Keeps (pre ++ store :: post) (pre ++ store.setBucket i.ino nodes :: post) ∧
      entries (pre ++ store.setBucket i.ino nodes :: post)
        = Function.update (entries (pre ++ store :: post)) i e := by
  have hset : (store.setBucket i.ino nodes).numbers = i.dev := hstore
  have hdevices : (pre ++ store.setBucket i.ino nodes :: post).map StoreFs.numbers
      = (pre ++ store :: post).map StoreFs.numbers := by
    rw [List.map_append, List.map_append, List.map_cons, List.map_cons, StoreFs.numbers_setBucket]
  constructor
  · refine ⟨fun h => ⟨hdevices ▸ h.devices, fun st hst b => ?_⟩, fun h => hdevices ▸ h⟩
    · rcases List.mem_append.mp hst with hst | hst
      · exact h.buckets st (by simp [hst]) b
      · rcases List.mem_cons.mp hst with rfl | hst
        · have hold := h.buckets store (by simp) b
          simp only [StoreFs.setBucket, Function.update_apply]
          split_ifs
          · exact hnodes.nodup (h.buckets store (by simp) _)
          · exact hold
        · exact h.buckets st (by simp [hst]) b
  · funext j
    rw [Function.update_apply]
    by_cases hdev : j.dev = i.dev
    · have hpre' : ∀ st ∈ pre, st.numbers ≠ j.dev := by rwa [hdev]
      rw [entries_split hpre' (hset.trans hdev.symm), entries_split hpre' (hstore.trans hdev.symm)]
      simp only [StoreFs.bucket, StoreFs.setBucket, Function.update_apply]
      split_ifs with hb hji hji
      · rw [hji]
        exact hnodes.self
      · -- another inode of the same bucket
        have hne : j.ino ≠ i.ino := fun hino => hji (Inode.ext_iff'.mpr ⟨hdev, hino⟩)
        rw [hnodes.other j.ino hne, StoreFs.bucket, hb]
      · exact absurd (by rw [hji]) hb
      · rfl
    · rw [if_neg (by rintro rfl; exact hdev rfl), entries, entries]
      congr 1
      have hne : j.dev ≠ store.numbers := by rwa [hstore]
      have heq : findKey StoreFs.numbers j.dev (pre ++ [store.setBucket i.ino nodes] ++ post)
          = findKey StoreFs.numbers j.dev (pre ++ store :: post) :=
          findKey_replace_of_ne (by simp) hne
      rwa [List.append_assoc] at heq

/-! ## The operations

One equation for each case of each operation, as an update of `entries`.  These are what the
traversals cite. -/

/-- A node that this traversal has not counted is counted. -/
lemma insertInodeHt_count (hnode : entries stores i = some node) (hstamp : node.stamp < nonce)
    (slab : SlabAnswer) :
    ∃ stores', insertInodeHt slab nonce i stores = (1, stores') ∧ Keeps stores stores' ∧
      entries stores' = Function.update (entries stores) i
        (some { node with refCount := (node.refCount + 1) % 2 ^ 64, stamp := nonce }) := by
  obtain ⟨pre, store, post, rfl, hstore, hpre, hfind⟩ := exists_store hnode
  obtain ⟨nodes, hvisit, hupd⟩ :=
    visitBucket_touch (countUp nonce) (store.bucket i.ino) hfind hstamp
    (by simp [countUp]) (by simp [countUp]) (by simp [countUp])
  obtain ⟨hkeeps, hentries⟩ := update_bucket hpre hstore hupd
  refine ⟨_, ?_, hkeeps, hentries⟩
  rw [insertInodeHt, onStore_split hstore pre hpre]
  simp only [inodeAllocate, hvisit]

/-- A node that this traversal has counted is left alone. -/
lemma insertInodeHt_seen (hnode : entries stores i = some node) (hstamp : ¬ node.stamp < nonce)
    (slab : SlabAnswer) : insertInodeHt slab nonce i stores = (-1, stores) := by
  obtain ⟨pre, store, post, rfl, hstore, hpre, hfind⟩ := exists_store hnode
  rw [insertInodeHt, onStore_split hstore pre hpre]
  have hset : store.setBucket i.ino (store.bucket i.ino) = store := by
    simp [StoreFs.setBucket, StoreFs.bucket]
  simp only [inodeAllocate, visitBucket_seen hfind hstamp, hset]

/-- An inode without a node gets one, with the count of the slab object plus one. -/
lemma insertInodeHt_new (nonce : ℕ) (hnode : entries stores i = none) (hino : i.ino < 2 ^ 32)
    {slab : SlabAnswer} {old : ℕ} (hfs : slab.fsOk = true) (hold : slab.refCount = some old) :
    ∃ stores', insertInodeHt slab nonce i stores = (1, stores') ∧ Keeps stores stores' ∧
      entries stores' = Function.update (entries stores) i
        (some { num := i.ino, refCount := (old + 1) % 2 ^ 64, stamp := 0 }) := by
  have hmod : i.ino % 2 ^ 32 = i.ino := Nat.mod_eq_of_lt hino
  cases hfind : findKey StoreFs.numbers i.dev stores with
  | some store =>
      obtain ⟨pre, post, rfl, hstore, hpre⟩ := exists_split hfind
      rw [entries_split hpre hstore] at hnode
      have hnone := findKey_eq_none.mp hnode
      have hupd : BucketUpdate (store.bucket i.ino) i.ino (some ⟨i.ino, (old + 1) % 2 ^ 64, 0⟩)
          (⟨i.ino, (old + 1) % 2 ^ 64, 0⟩ :: store.bucket i.ino) := by
        refine ⟨fun h => ?_, by rw [findKey_cons, if_pos rfl],
          fun n hn => by rw [findKey_cons, if_neg hn.symm]⟩
        rw [List.map_cons, List.nodup_cons]
        exact ⟨by simpa using hnone, h⟩
      obtain ⟨hkeeps, hentries⟩ := update_bucket hpre hstore hupd
      refine ⟨_, ?_, hkeeps, hentries⟩
      rw [insertInodeHt, onStore_split hstore pre hpre]
      simp only [inodeAllocate, visitBucket_none _ hnone, hold, hmod]
  | none =>
      have hdev := findKey_eq_none.mp hfind
      refine
        ⟨StoreFs.setBucket ⟨i.dev, fun _ => []⟩ i.ino [⟨i.ino, (old + 1) % 2 ^ 64, 0⟩] :: stores,
        ?_, ?_, ?_⟩
      · rw [insertInodeHt, onStore_none stores hdev]
        simp only [hfs, Bool.not_true, Bool.false_eq_true, if_false, inodeAllocate, StoreFs.bucket,
          visitBucket, hold, hmod]
      · have hdevices : (stores.map StoreFs.numbers).Nodup →
            ((StoreFs.setBucket ⟨i.dev, fun _ => []⟩ i.ino [⟨i.ino, (old + 1) % 2 ^ 64, 0⟩]
              :: stores).map StoreFs.numbers).Nodup := by
          intro h
          rw [List.map_cons, List.nodup_cons]
          exact ⟨by simpa [StoreFs.setBucket] using hdev, h⟩
        refine ⟨fun h => ⟨hdevices h.devices, fun st hst b => ?_⟩, hdevices⟩
        rcases List.mem_cons.mp hst with rfl | hst
        · simp only [StoreFs.setBucket, Function.update_apply]
          split_ifs <;> simp
        · exact h.buckets st hst b
      · funext j
        have hnone : j.dev = i.dev → entries stores j = none := by
          intro hjd
          rw [entries, hjd, hfind]
          rfl
        rw [Function.update_apply, entries_cons, StoreFs.numbers_setBucket,
          StoreFs.bucket_setBucket]
        by_cases hjd : j.dev = i.dev
        · rw [if_pos hjd.symm]
          by_cases hino' : j.ino = i.ino
          · rw [if_pos (by rw [hino']), if_pos (Inode.ext_iff'.mpr ⟨hjd, hino'⟩), findKey_cons,
              if_pos hino'.symm]
          · rw [if_neg fun heq => hino' (Inode.ext_iff'.mp heq).2, hnone hjd]
            split_ifs
            · rw [findKey_cons, if_neg fun heq => hino' heq.symm]
              rfl
            · rfl
        · rw [if_neg fun heq => hjd heq.symm, if_neg fun heq => hjd (Inode.ext_iff'.mp heq).1]

/-- A node that this traversal has not counted loses one, and goes when that was the last. -/
lemma rmInodeHt_count (h : TableOk stores) (hnode : entries stores i = some node)
    (hstamp : node.stamp < nonce) :
    ∃ stores', rmInodeHt nonce i stores = .ok (1, stores') ∧ Keeps stores stores' ∧
      entries stores' = Function.update (entries stores) i (countDown nonce node).head? := by
  obtain ⟨pre, store, post, rfl, hstore, hpre, hfind⟩ := exists_store hnode
  have htouch : ∀ n ∈ countDown nonce node, n.num = node.num := by
    intro n hn
    simp only [countDown] at hn
    split_ifs at hn
    · cases hn
    · rw [List.mem_singleton.mp hn]
  have hlen : (countDown nonce node).length ≤ 1 := by
    simp only [countDown]
    split_ifs <;> simp
  obtain ⟨nodes, hvisit, hupd⟩ :=
    visitBucket_touch (countDown nonce) (store.bucket i.ino) hfind hstamp
    htouch hlen fun _ => h.buckets store (by simp) _
  obtain ⟨hkeeps, hentries⟩ := update_bucket hpre hstore hupd
  refine ⟨_, ?_, hkeeps, hentries⟩
  rw [rmInodeHt_split hstore pre hpre, hvisit]

lemma rmInodeHt_seen (hnode : entries stores i = some node) (hstamp : ¬ node.stamp < nonce) :
    rmInodeHt nonce i stores = .ok (-1, stores) := by
  obtain ⟨pre, store, post, rfl, hstore, hpre, hfind⟩ := exists_store hnode
  have hset : store.setBucket i.ino (store.bucket i.ino) = store := by
    simp [StoreFs.setBucket, StoreFs.bucket]
  rw [rmInodeHt_split hstore pre hpre, visitBucket_seen hfind hstamp]
  simp only [hset]

/-- `check_inode` finds the inodes that have a node, when every device has one table. -/
lemma checkInode_eq (h : (stores.map StoreFs.numbers).Nodup) (i : Inode) :
    checkInode i stores = 1 ↔ (entries stores i).isSome := by
  have hany : (stores.any fun store => store.numbers = i.dev &&
      (store.bucket i.ino).any (·.num = i.ino)) = true ↔ (entries stores i).isSome := by
    rw [List.any_eq_true]
    constructor
    · rintro ⟨store, hmem, hfound⟩
      simp only [Bool.and_eq_true, decide_eq_true_eq, List.any_eq_true] at hfound
      obtain ⟨hstore, node, hnode, hnum⟩ := hfound
      obtain ⟨pre, post, rfl⟩ := List.append_of_mem hmem
      have hpre := (key_ne_of_nodup h).1
      rw [hstore] at hpre
      rw [entries_split hpre hstore, Option.isSome_iff_ne_none]
      exact fun hnone => findKey_eq_none.mp hnone node hnode hnum
    · intro hsome
      obtain ⟨node, hnode⟩ := Option.isSome_iff_exists.mp hsome
      obtain ⟨pre, store, post, rfl, hstore, -, hfind⟩ := exists_store hnode
      obtain ⟨before, after, hbucket, hnum, -⟩ := exists_split hfind
      refine ⟨store, by simp, ?_⟩
      simp only [Bool.and_eq_true, decide_eq_true_eq, List.any_eq_true]
      exact ⟨hstore, node, by simp [hbucket], hnum⟩
  rw [checkInode, ← hany]
  split_ifs with hfound
  · exact iff_of_true rfl hfound
  · exact iff_of_false (by norm_num) hfound

lemma checkInode_congr {j : Inode} {stores' : List StoreFs}
    (h : checkInode i stores = 1 ↔ checkInode j stores' = 1) :
    checkInode i stores = checkInode j stores' := by
  unfold checkInode at h ⊢
  split_ifs at h ⊢
  · rfl
  · simp at h
  · simp at h
  · rfl

end Tables

end KLRM
