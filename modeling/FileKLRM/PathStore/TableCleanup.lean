import FileKLRM.PathStore.TableRefinement

/-!
# The end of the inode store

`cleanup_inode_store` walks the lists while it frees what is on them, one step behind its cursors:
the nodes of a table before the table itself, and a table when the cursor has left it.  From a
memory that is laid out as `L` it frees every node and every table of `L` once, follows no pointer
into what it has freed, and leaves the static list head alone, pointing to itself.

* `LinkedTable.cleanupInodeStore_laid` — the loops, from the inner to the outer: `drainBucket` for
  the nodes of a bucket, `dropTable` for a table, `drainTable` for all buckets of one.
* `LinkedTable.Cleanup.FreesAll` — what is left to say at the end of a session.
-/

namespace KLRM

open LinkedTable

variable {links : Links TableLink} {L : Layout} {s b n fuel : ℕ}

/-! ## What is laid out in between

In the middle of the cleanup some tables are gone, the one under the cursor has lost the nodes of
its first buckets, and the ones before the cursor have lost all.  `Layout.left` and
`Layout.drained` are the layouts at these points. -/

namespace Layout

/-- The nodes of a table, bucket after bucket. -/
def tableNodes (L : Layout) (s : ℕ) : List ℕ := (List.range hashTableSize).flatMap (L.nodes s)

lemma allNodes_eq (L : Layout) : L.allNodes = L.tables.flatMap L.tableNodes := rfl

/-- Some tables, of which the buckets are empty but for those in `full`. -/
def left (L : Layout) (tables full : List ℕ) : Layout where
  tables := tables
  nodes := fun t b => if t ∈ full then L.nodes t b else []

/-- The buckets in `bs` of a table are empty. -/
def drained (L : Layout) (s : ℕ) (bs : List ℕ) : Layout where
  tables := L.tables
  nodes := fun t b => if t = s ∧ b ∈ bs then [] else L.nodes t b

lemma setBucket_drained (L : Layout) (s : ℕ) (bs : List ℕ) (b : ℕ) :
    (L.drained s bs).setBucket s b [] = L.drained s (bs ++ [b]) := by
  simp only [setBucket, drained, Layout.mk.injEq, true_and]
  funext t c
  by_cases hts : t = s <;> by_cases hcb : c = b <;> simp [hts, hcb]

end Layout

/-! ## The loops

From the inside out.  A loop over one bucket is `Links.Ring.drain`; the tables are one behind, so
that the body of the outer loop empties the table under the cursor and frees the one before it. -/

namespace Laid

/-- The inner loop over one bucket. -/
lemma drainBucket (h : Laid links L) (hs : s ∈ L.tables) (hb : b < hashTableSize)
    (hfuel : (L.nodes s b).length < fuel) :
    ∃ links', links.drain ownedNode (.inodes s b) fuel = some (links', (L.nodes s b).map .peers) ∧
      Laid links' (L.setBucket s b []) := by
  have hown : Links.Ring.Owns ownedNode (.inodes s b) ((L.nodes s b).map .peers) := by
    intro a _
    exact ⟨by simp [ownedNode], fun c _ hc => by simpa [ownedNode] using hc⟩
  obtain ⟨links', hdrain, hdone⟩ := (h.bucket s hs b hb).drain hown
    (by simpa using hfuel)
  refine ⟨links', hdrain, h.setBucket hs hb hdone.ring ?_ (by simp) ?_⟩
  · intro c hc hold _
    refine hdone.same c ?_ ?_
    · simp only [List.append_nil, List.mem_cons, List.mem_map, not_or, not_exists, not_and]
      exact ⟨hc, fun k hk e => hold k hk e.symm⟩
    · intro a ha
      obtain ⟨k, hk, rfl⟩ := List.mem_map.mp ha
      simpa [ownedNode] using hold k hk
  · intro k hk _ halive
    have := ((hdone.alive _).mp halive).2 (.peers k) (List.mem_map.mpr ⟨k, hk, rfl⟩)
    simp [ownedNode] at this

/-- The first table, whose buckets are empty, is freed. -/
lemma dropTable {tables : List ℕ} (h : Laid links L) (hsplit : L.tables = s :: tables)
    (hempty : ∀ b, L.nodes s b = []) (freed : List TableLink) :
    ∃ links', Links.release ownedStore (some (.stores s)) (links, freed)
      = some (links', freed ++ [.stores s]) ∧
      Laid links' { L with tables := tables } := by
  have hnodup := h.tables_nodup
  rw [hsplit] at hnodup
  have hne : ∀ t ∈ tables, t ≠ s := by
    rintro t ht rfl
    exact (List.nodup_cons.mp hnodup).1 ht
  have hmem : ∀ t ∈ tables, t ∈ L.tables := fun t ht => by simp [hsplit, ht]
  have hring := h.tables
  rw [hsplit, List.map_cons] at hring
  obtain ⟨links₁, hdel, hring', hout⟩ := hring.listDel (l := [])
  -- a link outside the ring of the tables, and outside the table that goes, is as it was
  have hsame : ∀ c, c ≠ .fsStores → (∀ t, c ≠ .stores t) → (∀ b, c ≠ .inodes s b) →
      links₁.free (ownedStore (.stores s)) c = links c := by
    intro c hc hst hin
    rw [Links.free_of_not, hout.same]
    · simp only [List.nil_append, List.mem_cons, List.mem_map, not_or, not_exists, not_and]
      exact ⟨hc, hst s, fun t _ e => hst t e.symm⟩
    · cases c with
      | fsStores => exact absurd rfl hc
      | stores t => exact absurd rfl (hst t)
      | inodes t b => simpa [ownedStore, TableLink.store] using fun e : s = t => hin b (by rw [e])
      | peers n => rfl
  have hkept : ∀ t, t ≠ s → ((links₁.free (ownedStore (.stores s))).Alive (.stores t) ↔
      links.Alive (.stores t)) := by
    intro t hts
    rw [Links.alive_congr
      (Links.free_of_not (by simpa [ownedStore, TableLink.store] using hts.symm)), hout.alive]
  refine ⟨links₁.free (ownedStore (.stores s)), by simp [Links.release, hdel], ?_, ?_, h.beyond,
    ?_, ?_, ?_, ?_⟩
  · refine hring'.frame fun c hc => Links.free_of_not ?_
    rcases List.mem_cons.mp hc with rfl | hc
    · rfl
    · obtain ⟨t, ht, rfl⟩ := List.mem_map.mp (by simpa using hc)
      simpa [ownedStore, TableLink.store] using (hne t ht).symm
  · intro t ht b hb
    refine (h.bucket t (hmem t ht) b hb).frame fun c hc => ?_
    rcases List.mem_cons.mp hc with rfl | hc
    · exact hsame _ (by simp) (by simp) (by simpa using hne t ht)
    · obtain ⟨n, -, rfl⟩ := List.mem_map.mp hc
      exact hsame _ (by simp) (by simp) (by simp)
  · exact fun t ht u hu => h.apart t (hmem t ht) u (hmem u hu)
  · intro t
    by_cases hts : t = s
    · subst hts
      refine iff_of_false ?_ fun ht => hne t ht rfl
      simp [Links.Alive, Links.free, ownedStore, TableLink.store]
    · rw [hkept t hts, h.live_stores, hsplit]
      simp [hts]
  · intro t b
    by_cases hts : t = s
    · subst hts
      refine iff_of_false ?_ fun ht => hne t ht.1 rfl
      simp [Links.Alive, Links.free, ownedStore, TableLink.store]
    · rw [Links.alive_congr (hsame _ (by simp) (by simp) (by simpa using hts)),
        h.live_inodes, hsplit]
      simp [hts]
  · intro n
    rw [Links.alive_congr (hsame _ (by simp) (by simp) (by simp)), h.live_peers]
    constructor
    · rintro ⟨t, ht, b, hn⟩
      refine ⟨t, ?_, b, hn⟩
      rw [hsplit] at ht
      refine (List.mem_cons.mp ht).resolve_left ?_
      rintro rfl
      simp [hempty] at hn
    · rintro ⟨t, ht, b, hn⟩
      exact ⟨t, hmem t ht, b, hn⟩

/-- The inner loops over all the buckets of a table. -/
lemma drainTable (hs : s ∈ L.tables) (hfuel : ∀ b, (L.nodes s b).length < fuel) :
    ∀ (bs done : List ℕ) (c : Cleanup), (done ++ bs).Nodup → (∀ b ∈ bs, b < hashTableSize) →
      Laid c.links (L.drained s done) →
      ∃ links', bs.foldlM (cleanupBucket fuel s) c = some { c with
          links := links'
          freedNodes := c.freedNodes ++ (bs.flatMap (L.nodes s)).map .peers } ∧
        Laid links' (L.drained s (done ++ bs))
  | [], done, c, _, _, h => ⟨c.links, by simp, by simpa using h⟩
  | b :: bs, done, c, hnodup, hbs, h => by
      have hb : b ∉ done := fun hin => by
        have := (List.nodup_cons.mp (List.perm_middle.nodup_iff.mp hnodup)).1
        exact this (List.mem_append_left bs hin)
      have hnodes : (L.drained s done).nodes s b = L.nodes s b := by simp [Layout.drained, hb]
      obtain ⟨links₁, hdrain, hlaid⟩ := h.drainBucket hs (hbs b (by simp))
        (by rw [hnodes]; exact hfuel b : ((L.drained s done).nodes s b).length < fuel)
      rw [Layout.setBucket_drained] at hlaid
      obtain ⟨links', hfold, hlaid'⟩ := drainTable hs hfuel bs (done ++ [b])
        { c with links := links₁, freedNodes := c.freedNodes ++ (L.nodes s b).map .peers }
        (by simpa using hnodup) (fun d hd => hbs d (by simp [hd])) hlaid
      refine ⟨links', ?_, by simpa using hlaid'⟩
      rw [List.foldlM_cons, cleanupBucket, hdrain, hnodes, Option.map_some, Option.bind_eq_bind,
        Option.bind_some, hfold]
      simp

/-- The body of the outer loop: the nodes of the table under the cursor go, then the table before
    it. -/
lemma cleanupStore {prev : Option ℕ} {rest : List ℕ} {c : Cleanup}
    (hnodup : (prev.toList ++ s :: rest).Nodup)
    (h : Laid c.links (L.left (prev.toList ++ s :: rest) (s :: rest))) (hbeyond : ∀ b,
      hashTableSize ≤ b → L.nodes s b = [])
    (hprev : c.prevStore = prev.map .stores) (hfuel : ∀ b, (L.nodes s b).length < fuel) :
    ∃ links', LinkedTable.cleanupStore fuel (.stores s) c = some
        { prevStore := some (.stores s), links := links',
          freedStores := c.freedStores ++ prev.toList.map .stores,
          freedNodes := c.freedNodes ++ (L.tableNodes s).map .peers } ∧
      Laid links' (L.left (s :: rest) rest) := by
  have hsr : (s :: rest).Nodup := (List.nodup_append.mp hnodup).2.1
  have hs : s ∉ rest := (List.nodup_cons.mp hsr).1
  let L₀ := L.left (prev.toList ++ s :: rest) (s :: rest)
  have hnodes : L₀.nodes s = L.nodes s := by
    funext b
    simp [L₀, Layout.left]
  have hstart : L₀.drained s [] = L₀ := by simp [Layout.drained]
  have hend : L₀.drained s (List.range hashTableSize) = L.left (prev.toList ++ s :: rest) rest := by
    simp only [L₀, Layout.drained, Layout.left, Layout.mk.injEq, true_and, List.mem_range,
      List.mem_cons]
    funext t b
    by_cases hts : t = s
    · subst hts
      by_cases hb : b < hashTableSize <;> simp [hs, hb]
      exact hbeyond b (not_lt.mp hb)
    · simp [hts]
  obtain ⟨links₁, hfold, hlaid⟩ :=
    drainTable (List.mem_append_right _ List.mem_cons_self : s ∈ L₀.tables) (by rwa [hnodes])
      (List.range hashTableSize) [] c (by simpa using List.nodup_range)
    (fun b hb => List.mem_range.mp hb) (by rwa [hstart])
  rw [List.nil_append, hend] at hlaid
  rw [hnodes] at hfold
  cases prev with
  | none =>
      refine ⟨links₁, ?_, hlaid⟩
      rw [LinkedTable.cleanupStore, TableLink.store, Option.bind_some, hfold, Option.bind_some,
        releaseStore, hprev]
      simp [Links.release, Layout.tableNodes]
  | some p =>
      have hp : p ∉ rest := fun hin =>
        (List.nodup_cons.mp (hnodup : (p :: s :: rest).Nodup)).1 (List.mem_cons_of_mem s hin)
      have hsplit : (L.left ((some p).toList ++ s :: rest) rest).tables = p :: s :: rest := rfl
      obtain ⟨links', hrel, hlaid'⟩ :=
        hlaid.dropTable hsplit (by simp [Layout.left, hp]) c.freedStores
      refine ⟨links', ?_, hlaid'⟩
      rw [LinkedTable.cleanupStore, TableLink.store, Option.bind_some, hfold, Option.bind_some,
        releaseStore, hprev]
      simp only [Option.map_some, hrel]
      simp [Layout.tableNodes]

end Laid

/-! ## The whole cleanup

The outer loop begins with every table full and none freed, and ends with one table that has no
nodes, which is freed after the loop.  What is left is the static list head. -/

/-- The nodes of objects that are no tables do not matter. -/
lemma Laid.left (h : Laid links L) : Laid links (L.left L.tables L.tables) where
  tables := h.tables
  bucket := by
    intro s hs b hb
    simpa [Layout.left, show s ∈ L.tables from hs] using h.bucket s hs b hb
  beyond := by
    intro s b hb
    simp [Layout.left, h.beyond s b hb]
  apart := by
    intro s hs t ht b c n hn hn'
    simp only [Layout.left] at hs ht hn hn'
    exact h.apart s hs t ht b c n (by simpa [hs] using hn) (by simpa [ht] using hn')
  live_stores := h.live_stores
  live_inodes := h.live_inodes
  live_peers := by
    intro n
    refine (h.live_peers n).trans ⟨?_, ?_⟩
    · rintro ⟨s, hs, b, hn⟩
      exact ⟨s, hs, b, by simpa [Layout.left, hs] using hn⟩
    · rintro ⟨s, hs, b, hn⟩
      exact ⟨s, hs, b, by simpa [Layout.left, show s ∈ L.tables from hs] using hn⟩

/-- When there are no tables the memory is that before the first call. -/
lemma Laid.eq_start (h : Laid links L) (hnil : L.tables = []) :
    links = LinkedTable.start.links := by
  have hdead : ∀ c, ¬ links.Alive c → links c = none := fun c hc => by simpa [Links.Alive] using hc
  funext c
  cases c with
  | fsStores =>
      have hring := h.tables
      rw [hnil, List.map_nil] at hring
      exact hring.eq_of_nil
  | stores s => exact hdead _ fun ha => by simpa [hnil] using (h.live_stores s).mp ha
  | inodes s b => exact hdead _ fun ha => by simpa [hnil] using (h.live_inodes s b).mp ha
  | peers n => exact hdead _ fun ha => by simpa [hnil] using (h.live_peers n).mp ha

/-- **From any layout `cleanup_inode_store` frees every node and every table, each once and in
    the order of the lists**, and nothing but the static list head is left. -/
theorem LinkedTable.cleanupInodeStore_laid {m : LinkedTable} (h : Laid m.links L)
    (hfuel : L.size < fuel) : m.cleanupInodeStore fuel = some
      ⟨(L.tables.getLast?).map .stores, LinkedTable.start.links, L.tables.map .stores,
      L.allNodes.map .peers⟩ := by
  have hnodup := h.tables_nodup
  -- before each round the tables up to the one before the previous table are gone, and its
  -- buckets are empty
  let Inv : List TableLink → Cleanup → Prop := fun ys c => ∃ (gone rest : List ℕ) (prev : Option ℕ),
    ys = rest.map .stores ∧ L.tables = gone ++ (prev.toList ++ rest) ∧ (prev = none → gone = []) ∧
      c.prevStore = prev.map .stores ∧ c.freedStores = gone.map .stores ∧
      c.freedNodes = ((gone ++ prev.toList).flatMap L.tableNodes).map .peers ∧
      Laid c.links (L.left (prev.toList ++ rest) rest)
  have hbody : ∀ y ys c, Inv (y :: ys) c → y ≠ .fsStores ∧ ∃ c',
      LinkedTable.cleanupStore fuel y c = some c' ∧
      c'.links.next y = some (Links.first .fsStores ys) ∧ Inv ys c' := by
    rintro y ys c ⟨gone, rest, prev, hys, hsplit, hnone, hprev, hstores, hnodes, hlaid⟩
    obtain ⟨s, rest, rfl⟩ : ∃ s rest', rest = s :: rest' := by
      cases rest with
      | nil => simp at hys
      | cons s rest => exact ⟨s, rest, rfl⟩
    obtain ⟨rfl, rfl⟩ := List.cons.inj hys
    have hs : s ∈ L.tables := by simp [hsplit]
    rw [hsplit] at hnodup
    obtain ⟨links', hrun, hlaid'⟩ :=
      Laid.cleanupStore (List.nodup_append.mp hnodup).2.1 hlaid (h.beyond s) hprev
      fun b => lt_of_le_of_lt (h.nodes_length_le hs b) hfuel
    refine ⟨by simp, _, hrun, (hlaid'.tables.linked_next (l := [])).1, gone ++ prev.toList, rest,
      some s, rfl, ?_, ?_, rfl, ?_, ?_, hlaid'⟩
    · simpa using hsplit
    · simp
    · simp [hstores]
    · simp [hnodes]
  obtain ⟨⟨_, links₁, _, _⟩, hloop, gone, rest, prev, hrest, hsplit, hnone, rfl, rfl, rfl, hlaid⟩ :=
    Links.Ring.forEach hbody (L.tables.map .stores) fuel ⟨none, m.links, [], []⟩
      (by simpa using lt_of_le_of_lt L.tables_length_le hfuel)
      ⟨[], L.tables, none, rfl, rfl, fun _ => rfl, rfl, rfl, rfl, h.left⟩
  obtain rfl : rest = [] := by simpa using hrest.symm
  rw [cleanupInodeStore, h.tables.linked_first.1, Option.bind_some, hloop, Option.bind_some,
    releaseStore]
  cases prev with
  | none =>
      obtain rfl := hnone rfl
      have hnil : L.tables = [] := by simpa using hsplit
      have hlinks : links₁ = LinkedTable.start.links := Laid.eq_start hlaid rfl
      simp [Links.release, Layout.allNodes, hnil, hlinks]
  | some p =>
      obtain ⟨links', hrel, hlaid'⟩ :=
        hlaid.dropTable rfl (by simp [Layout.left]) (gone.map .stores)
      have hsplit : L.tables = gone ++ [p] := by simpa using hsplit
      have hrel :
        Links.release ownedStore (some (.stores p)) (links₁, gone.map TableLink.stores) = _ := hrel
      simp only [Option.map_some, hrel]
      rw [hlaid'.eq_start rfl, Layout.allNodes_eq, hsplit]
      simp

lemma Laid.allNodes_nodup (h : Laid links L) : L.allNodes.Nodup := by
  refine List.nodup_flatMap.mpr
    ⟨fun s hs => List.nodup_flatMap.mpr ⟨fun b _ => h.bucket_nodup hs b, ?_⟩, ?_⟩
  · refine List.nodup_range.imp_of_mem fun {b c} _ _ hbc n hn hn' => ?_
    exact hbc (h.apart s hs s hs b c n hn hn').2
  · refine h.tables_nodup.imp_of_mem fun {s t} hs ht hst n hn hn' => ?_
    obtain ⟨b, -, hn⟩ := List.mem_flatMap.mp hn
    obtain ⟨c, -, hn'⟩ := List.mem_flatMap.mp hn'
    exact hst (h.apart s hs t ht b c n hn hn').1

lemma Laid.mem_allNodes (h : Laid links L) (n : ℕ) : n ∈ L.allNodes ↔ links.Alive (.peers n) := by
  rw [h.live_peers]
  constructor
  · intro hn
    obtain ⟨s, hs, hn⟩ := List.mem_flatMap.mp hn
    obtain ⟨b, -, hn⟩ := List.mem_flatMap.mp hn
    exact ⟨s, hs, b, hn⟩
  · rintro ⟨s, hs, b, hn⟩
    exact List.mem_flatMap.mpr ⟨s, hs,
      List.mem_flatMap.mpr ⟨b, List.mem_range.mpr (h.bucket_lt hn), hn⟩⟩

/-- What `cleanup_inode_store` has done when it returns: the links are those before the first
    call, and each object of the two caches that was in use has been freed, none of them twice. -/
structure LinkedTable.Cleanup.FreesAll (c : LinkedTable.Cleanup) (links : Links TableLink) :
    Prop where
  links_start : c.links = LinkedTable.start.links
  stores_nodup : c.freedStores.Nodup
  mem_stores : ∀ a, a ∈ c.freedStores ↔ ∃ s, a = .stores s ∧ links.Alive a
  nodes_nodup : c.freedNodes.Nodup
  mem_nodes : ∀ a, a ∈ c.freedNodes ↔ ∃ n, a = .peers n ∧ links.Alive a

/-- From any layout. -/
lemma Laid.cleanup_freesAll {m : LinkedTable} (h : Laid m.links L) :
    ∃ c : Cleanup, Returns m.cleanupInodeStore (some c) ∧ c.FreesAll m.links := by
  refine ⟨_, .beyond _ fun fuel hfuel => LinkedTable.cleanupInodeStore_laid h hfuel, rfl,
    h.tables.nodup_tail, ?_, h.allNodes_nodup.map fun _ _ => TableLink.peers.inj, ?_⟩
  · intro a
    simp only [List.mem_map]
    constructor
    · rintro ⟨s, hs, rfl⟩
      exact ⟨s, rfl, (h.live_stores s).mpr hs⟩
    · rintro ⟨s, rfl, hs⟩
      exact ⟨s, (h.live_stores s).mp hs, rfl⟩
  · intro a
    simp only [List.mem_map]
    constructor
    · rintro ⟨n, hn, rfl⟩
      exact ⟨n, rfl, (h.mem_allNodes n).mp hn⟩
    · rintro ⟨n, rfl, hn⟩
      exact ⟨n, (h.mem_allNodes n).mpr hn, rfl⟩

/-- **The inode store leaves nothing behind.**  After any session `cleanup_inode_store` returns,
    having freed each object of the two caches that was in use, none of them twice, and the links
    are those before the first call. -/
theorem cleanupInodeStore_frees_all {calls : List (TableCall × ℤ)} {m : LinkedTable}
    (hrun : Run TableCall.Served LinkedTable.start calls m) :
    ∃ c : Cleanup, Returns m.cleanupInodeStore (some c) ∧ c.links = LinkedTable.start.links ∧
      c.freedStores.Nodup ∧ (∀ a, a ∈ c.freedStores ↔ ∃ s, a = .stores s ∧ m.links.Alive a) ∧
      c.freedNodes.Nodup ∧ ∀ a, a ∈ c.freedNodes ↔ ∃ n, a = .peers n ∧ m.links.Alive a := by
  obtain ⟨L, h, -⟩ := hrun.laid LinkedTable.start_laid
  obtain ⟨c, hreturns, hc⟩ := h.cleanup_freesAll
  exact ⟨c, hreturns, hc.links_start, hc.stores_nodup, hc.mem_stores, hc.nodes_nodup, hc.mem_nodes⟩

/-- The table and the node of one insertion are freed. -/
theorem cleanupInodeStore_frees_insert : ∃ ret m,
    Run TableCall.Served LinkedTable.start [(.insert ⟨some 1, some (2, 7)⟩ 0 ⟨3, 5⟩, ret)] m ∧
      ∃ c : Cleanup, Returns m.cleanupInodeStore (some c) ∧ c.links = LinkedTable.start.links ∧
        c.freedStores.Nodup ∧ (∀ a, a ∈ c.freedStores ↔ ∃ s, a = .stores s ∧ m.links.Alive a) ∧
        c.freedNodes.Nodup ∧ ∀ a, a ∈ c.freedNodes ↔ ∃ n, a = .peers n ∧ m.links.Alive a := by
  obtain ⟨ret, m, hrun⟩ := TableCall.served_insert
  exact ⟨ret, m, hrun, cleanupInodeStore_frees_all hrun⟩

end KLRM
