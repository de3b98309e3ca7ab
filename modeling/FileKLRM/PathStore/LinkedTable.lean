import FileKLRM.Core.LinkRing
import FileKLRM.PathStore.InodeMap

/-!
# The inode table in memory

`FileKLRM.PathStore.InodeTable` has the table as lists; here is the same code on the lists of the
kernel, with the links in the objects of the two slab caches.  An operation that follows a pointer
out of the table, or into an object that was freed, has no result.

`Laid links L` says how the objects lie in memory: the ring `fs_stores` of the tables, a ring of
nodes for each bucket, no node in two of them, and no other object of the caches in use.  Every
call keeps this, and does to the lists that `L` stands for what the functions of the lists do.  At
the end of a session `cleanup_inode_store` then frees every node and every table once, and nothing
of the table is left in memory.
-/

namespace KLRM

/-! ## The code on the lists of the kernel

A pointer into a list is a `TableLink`, and the two `container_of` of the source tell which object
it is in.  `fuel` bounds every walk; the refinement is about all bounds from some point on. -/

/-- The list heads of the inode store: the static one, two kinds inside a `store_fs`, one inside
    an `inode_ht`. -/
inductive TableLink
  | fsStores
  | stores (s : ℕ)
  | inodes (s b : ℕ)
  | peers (n : ℕ)
deriving DecidableEq

/-- `container_of(tmp, store_fs, stores)`. -/
def TableLink.store : TableLink → Option ℕ
  | stores s => some s
  | _ => none

/-- `container_of(tmp, inode_ht, peers)`. -/
def TableLink.node : TableLink → Option ℕ
  | peers n => some n
  | _ => none

/-- The memory of the inode store: the links and the other fields of the objects. -/
structure LinkedTable where
  links : Links TableLink
  numbers : ℕ → ℕ
  nodes : ℕ → InodeHt

/-- The objects that the caches return to an insertion, the node with the `refCount` it held. -/
structure SlabObjects where
  fs : Option ℕ
  node : Option (ℕ × ℕ)

/-- What `FileKLRM.PathStore.InodeTable` sees of them. -/
def SlabObjects.answer (o : SlabObjects) : SlabAnswer := ⟨o.fs.isSome, o.node.map Prod.snd⟩

/-- The objects are not in use. -/
structure SlabObjects.Unused (o : SlabObjects) (links : Links TableLink) : Prop where
  fs : ∀ s, o.fs = some s → ¬ links.Alive (.stores s)
  node : ∀ n old, o.node = some (n, old) → ¬ links.Alive (.peers n)

namespace LinkedTable

variable (m : LinkedTable) (fuel : ℕ)

/-- The search of `fs_stores` for a device. -/
def findStore (dev : ℕ) : Option (Option TableLink) :=
  (m.links.next .fsStores).bind
    (m.links.search (fun tmp => tmp.store.map fun s => m.numbers s = dev) .fsStores fuel)

/-- The search of a bucket for an inode number. -/
def findNode (s inode : ℕ) : Option (Option TableLink) :=
  (m.links.next (.inodes s (inode % hashTableSize))).bind
    (m.links.search (fun tmp => tmp.node.map fun n => (m.nodes n).num = inode)
      (.inodes s (inode % hashTableSize)) fuel)

/-- The data of a node is `e`. -/
def setNode (n : ℕ) (e : InodeHt) : LinkedTable := { m with nodes := Function.update m.nodes n e }

/-- A node fresh from the cache, its links being whatever they are. -/
def allocNode (n : ℕ) : LinkedTable := { m with links := m.links.write (.peers n) ⟨none, none⟩ }

/-- A table fresh from the cache, with every list of it initialised. -/
def allocStore (s dev : ℕ) : LinkedTable where
  links := fun c =>
    match c with
    | .stores t => if t = s then some ⟨some c, some c⟩ else m.links c
    | .inodes t b => if t = s ∧ b < hashTableSize then some ⟨some c, some c⟩ else m.links c
    | _ => m.links c
  numbers := Function.update m.numbers s dev
  nodes := m.nodes

/-- `kmem_cache_free(inodes_cache, …)` of the node that has a link. -/
def ownedNode (a c : TableLink) : Bool := c = a

/-- `kmem_cache_free(fs_cache, …)`: the list heads of the buckets go with the table. -/
def ownedStore (a c : TableLink) : Bool :=
  match a.store, c with
  | some s, .stores t => s = t
  | some s, .inodes t _ => s = t
  | _, _ => false

/-- `inode_allocate`. -/
def inodeAllocate (o : SlabObjects) (nonce s inode : ℕ) : Option (ℤ × LinkedTable) :=
  (m.findNode fuel s inode).bind fun hit =>
    match hit with
    | some tmp => tmp.node.map fun n =>
        if (m.nodes n).stamp < nonce then
          (1, m.setNode n { m.nodes n with
            refCount := ((m.nodes n).refCount + 1) % 2 ^ 64, stamp := nonce })
        else (-1, m)
    | none =>
        match o.node with
        | none => some (0, m)
        | some (n, old) =>
            let m := (m.allocNode n).setNode n ⟨inode % 2 ^ 32, (old + 1) % 2 ^ 64, 0⟩
            (m.links.listAdd (.peers n) (.inodes s (inode % hashTableSize))).map fun links =>
            (1, { m with links := links })

/-- `insert_inode_ht`. -/
def insertInodeHt (o : SlabObjects) (nonce : ℕ) (i : Inode) : Option (ℤ × LinkedTable) :=
  (m.findStore fuel i.dev).bind fun hit =>
    match hit with
    | some tmp => tmp.store.bind fun s => m.inodeAllocate fuel o nonce s i.ino
    | none =>
        match o.fs with
        | none => some (0, m)
        | some s =>
            let m := m.allocStore s i.dev
            (m.links.listAdd (.stores s) .fsStores).bind fun links =>
              inodeAllocate { m with links := links } fuel o nonce s i.ino

/-- `inode_deallocate` after `refCount--` and the stamp. -/
def uncountNode (nonce n : ℕ) : Option LinkedTable :=
  let refCount := ((m.nodes n).refCount + 2 ^ 64 - 1) % 2 ^ 64
  let m := m.setNode n { m.nodes n with refCount := refCount, stamp := nonce }
  if refCount ≠ 0 then some m
  else (m.links.listDel (.peers n)).map fun links =>
    { m with links := links.free (ownedNode (.peers n)) }

/-- The outer loop of `rm_inode_ht`.  The inner one has the same cursor, so that it leaves it on
    the head of the bucket when the inode is not there. -/
def rmLoop (nonce : ℕ) (i : Inode) : (fuel : ℕ) → (tmp : TableLink) → Option (ℤ × LinkedTable)
  | 0, _ => none
  | rounds + 1, tmp =>
      if tmp = .fsStores then some (0, m)
      else tmp.store.bind fun s =>
        if m.numbers s = i.dev then
          (m.findNode fuel s i.ino).bind fun hit =>
            match hit with
            | some tmp => tmp.node.bind fun n =>
                if (m.nodes n).stamp < nonce then
                  (m.uncountNode nonce n).map fun m => (1, m)
                else some (-1, m)
            | none =>
                (m.links.next (.inodes s (i.ino % hashTableSize))).bind (rmLoop nonce i rounds)
        else (m.links.next tmp).bind (rmLoop nonce i rounds)

/-- `rm_inode_ht`. -/
def rmInodeHt (nonce : ℕ) (i : Inode) : Option (ℤ × LinkedTable) :=
  (m.links.next .fsStores).bind (m.rmLoop fuel nonce i fuel)

/-- `check_inode`: the loop goes on to the next table where the inode is not found. -/
def checkLoop (i : Inode) : (fuel : ℕ) → (tmp : TableLink) → Option ℤ
  | 0, _ => none
  | rounds + 1, tmp =>
      if tmp = .fsStores then some 0
      else tmp.store.bind fun s =>
        (if m.numbers s = i.dev then m.findNode fuel s i.ino else some none).bind fun hit =>
          if hit.isSome then some 1 else (m.links.next tmp).bind (checkLoop i rounds)

/-- `check_inode`. -/
def checkInode (i : Inode) : Option ℤ := (m.links.next .fsStores).bind (m.checkLoop fuel i fuel)

/-- The loop of `refresh_nonces` over one bucket. -/
def refreshBucket (s : ℕ) (m : LinkedTable) (b : ℕ) : Option LinkedTable :=
  (m.links.next (.inodes s b)).bind fun tmp =>
    Links.forEach LinkedTable.links
      (fun tmp m => tmp.node.map fun n => m.setNode n { m.nodes n with stamp := 0 })
      (.inodes s b) fuel tmp m

/-- `refresh_nonces`, on the table. -/
def refreshNonces : Option LinkedTable :=
  (m.links.next .fsStores).bind fun tmp =>
    Links.forEach LinkedTable.links
      (fun tmp m => tmp.store.bind fun s =>
        (List.range hashTableSize).foldlM (refreshBucket fuel s) m)
      .fsStores fuel tmp m

/-! ### The end of the store

Both loops of `cleanup_inode_store` free one element behind their cursor, and the last one after the
loop.  What has been freed is collected, in the order in which it is. -/

/-- In the middle of `cleanup_inode_store`: the table before the cursor, the links, and what has
    been freed. -/
structure Cleanup where
  prevStore : Option TableLink
  links : Links TableLink
  freedStores : List TableLink
  freedNodes : List TableLink

/-- The two inner loops of `cleanup_inode_store`. -/
def cleanupBucket (s : ℕ) (c : Cleanup) (b : ℕ) : Option Cleanup :=
  (c.links.drain ownedNode (.inodes s b) fuel).map fun r =>
    { c with links := r.1, freedNodes := c.freedNodes ++ r.2 }

/-- `if (prevStore != NULL) …`. -/
def releaseStore (c : Cleanup) : Option Cleanup :=
  (Links.release ownedStore c.prevStore (c.links, c.freedStores)).map fun r =>
    { c with links := r.1, freedStores := r.2 }

/-- The body of the outer loop. -/
def cleanupStore (tmp : TableLink) (c : Cleanup) : Option Cleanup :=
  tmp.store.bind fun s =>
    ((List.range hashTableSize).foldlM (cleanupBucket fuel s) c).bind fun c =>
      (releaseStore c).map fun c => { c with prevStore := some tmp }

/-- `cleanup_inode_store`, up to the destruction of the caches. -/
def cleanupInodeStore : Option Cleanup :=
  (m.links.next .fsStores).bind fun tmp =>
    (Links.forEach Cleanup.links (cleanupStore fuel) .fsStores fuel tmp
      ⟨none, m.links, [], []⟩).bind releaseStore

end LinkedTable

/-! ## How the objects lie in memory

`Layout` says which objects are on which list; `Laid` that the links in memory are those rings.
Both are data, so that an operation can be said to lead from one layout to another. -/

/-- The tables in use, newest first, and the nodes of each bucket. -/
structure Layout where
  tables : List ℕ
  nodes : ℕ → ℕ → List ℕ

namespace Layout

/-- Another list of nodes for a bucket. -/
def setBucket (L : Layout) (s b : ℕ) (ns : List ℕ) : Layout where
  tables := L.tables
  nodes := fun t c => if t = s ∧ c = b then ns else L.nodes t c

/-- A table more, with empty buckets. -/
def addTable (L : Layout) (s : ℕ) : Layout where
  tables := s :: L.tables
  nodes := fun t b => if t = s then [] else L.nodes t b

/-- The table in an object. -/
def tableOf (L : Layout) (m : LinkedTable) (s : ℕ) : StoreFs :=
  ⟨m.numbers s, fun b => (L.nodes s b).map m.nodes⟩

@[simp] lemma tableOf_numbers (L : Layout) (m : LinkedTable) (s : ℕ) : (L.tableOf m s).numbers
    = m.numbers s := rfl

/-- The nodes, in the order in which the loops reach them. -/
def allNodes (L : Layout) : List ℕ :=
  L.tables.flatMap fun s => (List.range hashTableSize).flatMap (L.nodes s)

/-- The number of objects. -/
def size (L : Layout) : ℕ := L.tables.length + L.allNodes.length

lemma tables_length_le (L : Layout) : L.tables.length ≤ L.size := Nat.le_add_right _ _

/-- The lists of `FileKLRM.PathStore.InodeTable`. -/
def stores (L : Layout) (m : LinkedTable) : List StoreFs := L.tables.map (L.tableOf m)

end Layout

/-- The links are those of the objects of `L`, and of no other. -/
structure Laid (links : Links TableLink) (L : Layout) : Prop where
  tables : Links.Ring links .fsStores (L.tables.map .stores)
  bucket : ∀ s ∈ L.tables, ∀ b < hashTableSize,
    Links.Ring links (.inodes s b) ((L.nodes s b).map .peers)
  beyond : ∀ s b, hashTableSize ≤ b → L.nodes s b = []
  apart : ∀ s ∈ L.tables, ∀ t ∈ L.tables, ∀ b c n, n ∈ L.nodes s b → n ∈ L.nodes t c → s = t ∧ b = c
  live_stores : ∀ s, links.Alive (.stores s) ↔ s ∈ L.tables
  live_inodes : ∀ s b, links.Alive (.inodes s b) ↔ s ∈ L.tables ∧ b < hashTableSize
  live_peers : ∀ n, links.Alive (.peers n) ↔ ∃ s ∈ L.tables, ∃ b, n ∈ L.nodes s b

namespace Laid

variable {links : Links TableLink} {L : Layout} {s b n : ℕ}

lemma tables_nodup (h : Laid links L) : L.tables.Nodup := h.tables.nodup_tail.of_map

lemma bucket_nodup (h : Laid links L) (hs : s ∈ L.tables) (b : ℕ) : (L.nodes s b).Nodup := by
  by_cases hb : b < hashTableSize
  · exact (h.bucket s hs b hb).nodup_tail.of_map
  · rw [h.beyond s b (not_lt.mp hb)]
    exact List.nodup_nil

lemma bucket_lt (h : Laid links L) (hn : n ∈ L.nodes s b) : b < hashTableSize := by
  by_contra hb
  rw [h.beyond s b (not_lt.mp hb)] at hn
  simp at hn

lemma nodes_length_le (h : Laid links L) (hs : s ∈ L.tables) (b : ℕ) :
    (L.nodes s b).length ≤ L.size := by
  by_cases hb : b < hashTableSize
  · have hsub : (L.nodes s b).length ≤ L.allNodes.length := by
      refine (h.bucket_nodup hs b).length_le_of_subset fun n hn => ?_
      exact List.mem_flatMap.mpr ⟨s, hs, List.mem_flatMap.mpr ⟨b, List.mem_range.mpr hb, hn⟩⟩
    exact hsub.trans (Nat.le_add_left _ _)
  · simp [h.beyond s b (not_lt.mp hb)]

/-! ### What a change does to the layout

The table has four changes: a table is added, a node is added to a bucket, a node is dropped, and a
bucket is emptied.  The last three change the ring of one bucket, and `setBucket` says once what has
to hold of the other links for the memory to be laid out as before but for that bucket. -/

/-- A bucket changes by one node, and with it the links of this bucket only. -/
lemma setBucket (h : Laid links L) (hs : s ∈ L.tables) (hb : b < hashTableSize) {ns : List ℕ}
    {links' : Links TableLink} (hring : Links.Ring links' (.inodes s b) (ns.map .peers))
    (hsame : ∀ c, c ≠ .inodes s b → (∀ n ∈ L.nodes s b, c ≠ .peers n) → (∀ n ∈ ns, c ≠ .peers n) →
      links' c = links c)
    (hnew : ∀ n ∈ ns, n ∈ L.nodes s b ∨ ¬ links.Alive (.peers n))
    (hgone : ∀ n ∈ L.nodes s b, n ∉ ns → ¬ links'.Alive (.peers n)) : Laid links'
    (L.setBucket s b ns) where
  tables := by
    refine h.tables.frame fun c hc => ?_
    simp only [List.mem_cons, List.mem_map] at hc
    rcases hc with rfl | ⟨t, -, rfl⟩ <;> exact hsame _ (by simp) (by simp) (by simp)
  bucket := by
    intro t ht c hc
    by_cases hsb : t = s ∧ c = b
    · obtain ⟨rfl, rfl⟩ := hsb
      simpa [Layout.setBucket] using hring
    · simp only [Layout.setBucket, hsb, if_false]
      refine (h.bucket t ht c hc).frame fun d hd => ?_
      rcases List.mem_cons.mp hd with rfl | hd
      · exact hsame _ (by simpa using fun h1 h2 => hsb ⟨h1, h2⟩) (by simp) (by simp)
      · obtain ⟨n, hn, rfl⟩ := List.mem_map.mp hd
        have hnot : n ∉ L.nodes s b := fun hn' => hsb (h.apart t ht s hs c b n hn hn')
        refine hsame _ (by simp) (fun k hk e => hnot (TableLink.peers.inj e ▸ hk)) fun k hk => ?_
        simp only [ne_eq, TableLink.peers.injEq]
        rintro rfl
        exact (hnew n hk).elim hnot fun hdead => hdead ((h.live_peers n).mpr ⟨t, ht, c, hn⟩)
  beyond := by
    intro t c hc
    have hne : ¬ (t = s ∧ c = b) := by
      rintro ⟨rfl, rfl⟩
      omega
    simpa [Layout.setBucket, hne] using h.beyond t c hc
  apart := by
    have hold : ∀ t ∈ L.tables, ∀ c n, n ∈ ns → n ∈ L.nodes t c → t = s ∧ c = b := by
      intro t ht c n hn htc
      rcases hnew n hn with hn' | hdead
      · exact h.apart t ht s hs c b n htc hn'
      · exact absurd ((h.live_peers n).mpr ⟨t, ht, c, htc⟩) hdead
    intro t ht u hu c d n htc hud
    by_cases h1 : t = s ∧ c = b <;> by_cases h2 : u = s ∧ d = b
    · exact ⟨h1.1.trans h2.1.symm, h1.2.trans h2.2.symm⟩
    · simp only [Layout.setBucket, h1, h2, if_true, if_false, and_self] at htc hud
      exact absurd (hold u hu d n htc hud) h2
    · simp only [Layout.setBucket, h1, h2, if_true, if_false, and_self] at htc hud
      exact absurd (hold t ht c n hud htc) h1
    · simp only [Layout.setBucket, h1, h2, if_false] at htc hud
      exact h.apart t ht u hu c d n htc hud
  live_stores := by
    intro t
    rw [Links.alive_congr (hsame _ (by simp) (by simp) (by simp))]
    exact h.live_stores t
  live_inodes := by
    intro t c
    by_cases hsb : t = s ∧ c = b
    · obtain ⟨rfl, rfl⟩ := hsb
      exact iff_of_true (hring.alive (by simp)) ⟨hs, hb⟩
    · rw
        [Links.alive_congr (hsame _ (by simpa using fun h1 h2 => hsb ⟨h1, h2⟩) (by simp) (by simp))]
      exact h.live_inodes t c
  live_peers := by
    intro n
    by_cases hin : n ∈ ns
    · exact iff_of_true (hring.alive (by simp [hin])) ⟨s, hs, b, by simp [Layout.setBucket, hin]⟩
    · by_cases hold : n ∈ L.nodes s b
      · refine iff_of_false (hgone n hold hin) ?_
        rintro ⟨t, ht, c, hn⟩
        by_cases hsb : t = s ∧ c = b
        · simp [Layout.setBucket, hsb, hin] at hn
        · simp only [Layout.setBucket, hsb, if_false] at hn
          exact hsb (h.apart t ht s hs c b n hn hold)
      · rw [Links.alive_congr
          (hsame (.peers n) (by simp) (fun k hk e => hold (TableLink.peers.inj e ▸ hk))
          fun k hk e => hin (TableLink.peers.inj e ▸ hk))]
        refine (h.live_peers n).trans ⟨?_, ?_⟩
        · rintro ⟨t, ht, c, hn⟩
          refine ⟨t, ht, c, ?_⟩
          have hsb : ¬ (t = s ∧ c = b) := by
            rintro ⟨rfl, rfl⟩
            exact hold hn
          simpa [Layout.setBucket, hsb] using hn
        · rintro ⟨t, ht, c, hn⟩
          refine ⟨t, ht, c, ?_⟩
          by_cases hsb : t = s ∧ c = b
          · simp [Layout.setBucket, hsb, hin] at hn
          · simpa [Layout.setBucket, hsb] using hn

/-- A table fresh from the cache goes to the front. -/
lemma addTable {m : LinkedTable} (h : Laid m.links L) (dev : ℕ) (hs : ¬ m.links.Alive (.stores s)) :
    ∃ links, (m.allocStore s dev).links.listAdd (.stores s) .fsStores = some links ∧
    Laid links (L.addTable s) := by
  have hnot : s ∉ L.tables := fun hin => hs ((h.live_stores s).mpr hin)
  have hne : ∀ t ∈ L.tables, t ≠ s := by
    rintro t ht rfl
    exact hnot ht
  have halloc : ∀ c, (∀ b, c ≠ .inodes s b) → c ≠ .stores s → (m.allocStore s dev).links c
      = m.links c := by
    intro c hc hc'
    cases c with
    | fsStores => rfl
    | stores t => exact if_neg fun e => hc' (by rw [e])
    | inodes t b => exact if_neg fun e => hc b (by rw [e.1])
    | peers n => rfl
  have hring : Links.Ring (m.allocStore s dev).links .fsStores (L.tables.map .stores) := by
    refine h.tables.frame fun c hc => halloc c ?_ ?_
    · rcases List.mem_cons.mp hc with rfl | hc
      · simp
      · obtain ⟨t, -, rfl⟩ := List.mem_map.mp hc
        simp
    · rcases List.mem_cons.mp hc with rfl | hc
      · simp
      · obtain ⟨t, ht, rfl⟩ := List.mem_map.mp hc
        simpa using hne t ht
  have halive : (m.allocStore s dev).links.Alive (.stores s) := by
    simp [Links.Alive, LinkedTable.allocStore]
  obtain ⟨links, hadd, hring', hout⟩ := hring.listAdd (a := .stores s) (by simp [hnot]) halive
  -- no bucket and no node is on the ring of the tables
  have hsame : ∀ c, c ≠ .fsStores → (∀ t, c ≠ .stores t) →
      links c = (m.allocStore s dev).links c := by
    intro c hc hc'
    refine hout.same c ?_
    simp only [List.mem_cons, List.mem_map, not_or, not_exists, not_and]
    exact ⟨hc' s, hc, fun t _ e => hc' t e.symm⟩
  refine ⟨links, hadd, ?_, ?_, ?_, ?_, ?_, ?_, ?_⟩
  · exact hring'
  · intro t ht b hb
    by_cases hts : t = s
    · subst hts
      simp only [Layout.addTable, if_true, List.map_nil]
      refine Links.Ring.init ?_
      rw [hsame _ (by simp) (by simp)]
      exact if_pos ⟨rfl, hb⟩
    · have ht' : t ∈ L.tables := (List.mem_cons.mp ht).resolve_left hts
      simp only [Layout.addTable, hts, if_false]
      refine (h.bucket t ht' b hb).frame fun c hc => ?_
      rcases List.mem_cons.mp hc with rfl | hc
      · rw [hsame _ (by simp) (by simp), halloc _ (by simpa using hts) (by simp)]
      · obtain ⟨n, -, rfl⟩ := List.mem_map.mp hc
        rw [hsame _ (by simp) (by simp), halloc _ (by simp) (by simp)]
  · intro t b hb
    by_cases hts : t = s <;> simp [Layout.addTable, hts, h.beyond t b hb]
  · intro t ht u hu b c n htb huc
    by_cases hts : t = s
    · simp [Layout.addTable, hts] at htb
    · by_cases hus : u = s
      · simp [Layout.addTable, hus] at huc
      · simp only [Layout.addTable, hts, hus, if_false] at htb huc
        exact h.apart t ((List.mem_cons.mp ht).resolve_left hts) u
          ((List.mem_cons.mp hu).resolve_left hus) b c n htb huc
  · intro t
    by_cases hts : t = s
    · subst hts
      exact iff_of_true ((hout.alive _).mpr halive) (by simp [Layout.addTable])
    · rw [hout.alive, Links.alive_congr (halloc _ (by simp) (by simpa using hts))]
      simpa [Layout.addTable, hts] using h.live_stores t
  · intro t b
    rw [hout.alive]
    by_cases hts : t = s
    · subst hts
      have hdead : ¬ m.links.Alive (.inodes t b) := fun ha => hnot ((h.live_inodes t b).mp ha).1
      unfold Links.Alive at hdead ⊢
      by_cases hb : b < hashTableSize <;> simp [LinkedTable.allocStore, Layout.addTable, hb]
      simpa using hdead
    · rw [Links.alive_congr (halloc _ (by simpa using hts) (by simp))]
      simpa [Layout.addTable, hts] using h.live_inodes t b
  · intro n
    rw [hout.alive, Links.alive_congr (halloc _ (by simp) (by simp))]
    refine (h.live_peers n).trans ⟨?_, ?_⟩
    · rintro ⟨t, ht, b, hn⟩
      exact ⟨t, List.mem_cons_of_mem s ht, b, by simpa [Layout.addTable, hne t ht] using hn⟩
    · rintro ⟨t, ht, b, hn⟩
      by_cases hts : t = s
      · simp [Layout.addTable, hts] at hn
      · exact ⟨t, (List.mem_cons.mp ht).resolve_left hts,
          b, by simpa [Layout.addTable, hts] using hn⟩

/-- A node fresh from the cache goes to the front of a bucket. -/
lemma addNode {m : LinkedTable} (h : Laid m.links L) (hs : s ∈ L.tables) (hb : b < hashTableSize)
    (hn : ¬ m.links.Alive (.peers n)) :
    ∃ links, (m.allocNode n).links.listAdd (.peers n) (.inodes s b) = some links ∧
      Laid links (L.setBucket s b (n :: L.nodes s b)) := by
  have hnot : n ∉ L.nodes s b := fun hin => hn ((h.live_peers n).mpr ⟨s, hs, b, hin⟩)
  have halloc : ∀ c, c ≠ .peers n → (m.allocNode n).links c = m.links c :=
    fun c hc => Links.write_of_ne _ hc
  have hring : Links.Ring (m.allocNode n).links (.inodes s b) ((L.nodes s b).map .peers) := by
    refine (h.bucket s hs b hb).frame fun c hc => halloc c ?_
    rintro rfl
    exact hnot (by simpa using hc)
  obtain ⟨links, hadd, hring', hout⟩ := hring.listAdd (a := .peers n) (by simp [hnot])
    ((Links.alive_write _).mpr (Or.inl rfl))
  refine ⟨links, hadd, h.setBucket hs hb hring' ?_ ?_ ?_⟩
  · intro c hc hold hnew
    have hcn : c ≠ .peers n := hnew n (by simp)
    rw [hout.same c, halloc c hcn]
    simp only [List.mem_cons, List.mem_map, not_or, not_exists, not_and]
    exact ⟨hcn, hc, fun k hk e => hold k hk e.symm⟩
  · intro k hk
    rcases List.mem_cons.mp hk with rfl | hk
    · exact Or.inr hn
    · exact Or.inl hk
  · intro k hk hk'
    exact absurd (List.mem_cons_of_mem n hk) hk'

/-- A node leaves its bucket and is freed. -/
lemma dropNode (h : Laid links L) (hs : s ∈ L.tables) {l r : List ℕ}
    (hsplit : L.nodes s b = l ++ n :: r) : ∃ links', links.listDel (.peers n) = some links' ∧
      Laid (links'.free (LinkedTable.ownedNode (.peers n))) (L.setBucket s b (l ++ r)) := by
  have hin : n ∈ L.nodes s b := by
    rw [hsplit]
    simp
  have hb : b < hashTableSize := h.bucket_lt hin
  have hnodup := h.bucket_nodup hs b
  rw [hsplit] at hnodup
  have hnot : n ∉ l ++ r := (List.nodup_cons.mp (List.perm_middle.nodup_iff.mp hnodup)).1
  have hring := h.bucket s hs b hb
  rw [hsplit, List.map_append, List.map_cons] at hring
  obtain ⟨links', hdel, hring', hout⟩ := hring.listDel
  have hkeep : ∀ c, c ≠ .peers n → links'.free (LinkedTable.ownedNode (.peers n)) c = links' c := by
    intro c hc
    exact Links.free_of_not (by simpa [LinkedTable.ownedNode] using hc)
  refine ⟨links', hdel, h.setBucket hs hb ?_ ?_ ?_ ?_⟩
  · rw [List.map_append]
    refine hring'.frame fun c hc => ?_
    refine hkeep c ?_
    rintro rfl
    exact hnot (by simpa using hc)
  · intro c hc hold _
    rw [hkeep c (hold n (by simp [hsplit])), hout.same c]
    rw [← List.map_cons, ← List.map_append, ← hsplit]
    simp only [List.mem_cons, List.mem_map, not_or, not_exists, not_and]
    exact ⟨hc, fun k hk e => hold k hk e.symm⟩
  · intro k hk
    left
    rw [hsplit]
    rcases List.mem_append.mp hk with hk | hk <;> simp [hk]
  · intro k hk hk'
    have hkn : k = n := by
      rw [hsplit] at hk
      simp only [List.mem_append, List.mem_cons] at hk hk'
      tauto
    subst hkn
    unfold Links.Alive
    rw [Links.free_of (by simp [LinkedTable.ownedNode])]
    simp

end Laid

end KLRM
