import FileKLRM.Core.Transition
import FileKLRM.PathStore.InodeTableLaws
import FileKLRM.PathStore.LinkedTable

/-!
# The table in memory refines the table of lists

Each operation of `FileKLRM.PathStore.LinkedTable`, in a memory laid out as `L`, returns what the
operation on the lists of `L` returns, and leaves a memory laid out as some `L'` whose lists are
those of the other operation.  Where `rm_inode_ht` goes astray with the cursor of the outer loop,
the lists have `wildCursor` and the memory nothing.  A session from the empty table is then one of
the lists, reply for reply.

The loops are bounded by `fuel`; a result holds for every bound from some point on (`Returns`).
-/

namespace KLRM

open Function

/-- The result for every large enough bound on the loops. -/
def Returns {ρ : Type*} (f : ℕ → Option ρ) (r : Option ρ) : Prop :=
  ∃ least, ∀ fuel ≥ least, f fuel = r

namespace LinkedTable

variable {m : LinkedTable} {L : Layout} {fuel nonce s n : ℕ} {i : Inode}

lemma findStore_eq (h : Laid m.links L) (hfuel : L.tables.length < fuel) (dev : ℕ) :
    m.findStore fuel dev = some ((L.tables.find? fun s => m.numbers s = dev).map .stores) := by
  have hread :
      ∀ c ∈ L.tables.map TableLink.stores, (c.store.map fun s => decide (m.numbers s = dev))
        = some (c.store.any fun s => m.numbers s = dev) := by
    intro c hc
    obtain ⟨s, -, rfl⟩ := List.mem_map.mp hc
    rfl
  rw [findStore, h.tables.search hread (by simpa using hfuel), List.find?_map]
  rfl

lemma findNode_eq (h : Laid m.links L) (hs : s ∈ L.tables) (inode : ℕ)
    (hfuel : (L.nodes s (inode % hashTableSize)).length < fuel) :
    m.findNode fuel s inode =
      some (((L.nodes s (inode % hashTableSize)).find? fun n =>
        (m.nodes n).num = inode).map .peers) := by
  have hb : inode % hashTableSize < hashTableSize := Nat.mod_lt _ (by decide)
  have hread : ∀ c ∈ (L.nodes s (inode % hashTableSize)).map TableLink.peers,
      (c.node.map fun n => decide ((m.nodes n).num = inode))
        = some (c.node.any fun n => (m.nodes n).num = inode) := by
    intro c hc
    obtain ⟨n, -, rfl⟩ := List.mem_map.mp hc
    rfl
  rw [findNode, (h.bucket s hs _ hb).search hread (by simpa using hfuel), List.find?_map]
  rfl

/-! ## The lists of a layout

`OnTable` follows `onStore`: the table that is changed is the first of its device, in memory as in
the list. -/

/-- A change to one table. -/
lemma stores_change {m' : LinkedTable} {L' : Layout} {pre post : List ℕ} (hnodup : L.tables.Nodup)
    (hsplit : L.tables = pre ++ s :: post) (htables : L'.tables = L.tables)
    (hother : ∀ t ∈ L.tables, t ≠ s → L'.tableOf m' t = L.tableOf m t) :
    L'.stores m' = pre.map (L.tableOf m) ++ L'.tableOf m' s :: post.map (L.tableOf m) := by
  have hnot : s ∉ pre ++ post := by
    rw [hsplit] at hnodup
    exact (List.nodup_cons.mp (List.perm_middle.nodup_iff.mp hnodup)).1
  have hpart : ∀ ts : List ℕ, (∀ t ∈ ts, t ∈ pre ++ post) →
      ts.map (L'.tableOf m') = ts.map (L.tableOf m) := by
    intro ts hts
    refine List.map_congr_left fun t ht => hother t ?_ ?_
    · have := hts t ht
      rw [hsplit]
      simp only [List.mem_append, List.mem_cons] at this ⊢
      tauto
    · rintro rfl
      exact hnot (hts t ht)
  rw [Layout.stores, htables, hsplit, List.map_append, List.map_cons,
    hpart pre fun t ht => by simp [ht], hpart post fun t ht => by simp [ht]]

lemma map_update_of_not_mem {f : ℕ → InodeHt} {ns : List ℕ} (hn : n ∉ ns) (e : InodeHt) :
    ns.map (update f n e) = ns.map f := by
  refine List.map_congr_left fun k hk => update_of_ne ?_ _ _
  rintro rfl
  exact hn hk

/-- The data of a node are seen in its bucket only. -/
lemma tableOf_setNode (h : Laid m.links L) (hs : s ∈ L.tables) {inode : ℕ} {pre post : List ℕ}
    (hsplit : L.nodes s (inode % hashTableSize) = pre ++ n :: post) (e : InodeHt) :
    L.tableOf (m.setNode n e) s = (L.tableOf m s).setBucket inode
      (pre.map m.nodes ++ e :: post.map m.nodes) := by
  have hin : n ∈ L.nodes s (inode % hashTableSize) := by simp [hsplit]
  have hnot : n ∉ pre ++ post := by
    have hnodup := h.bucket_nodup hs (inode % hashTableSize)
    rw [hsplit] at hnodup
    exact (List.nodup_cons.mp (List.perm_middle.nodup_iff.mp hnodup)).1
  simp only [Layout.tableOf, setNode, StoreFs.setBucket, StoreFs.mk.injEq, true_and]
  funext b
  by_cases hb : b = inode % hashTableSize
  · subst hb
    rw [update_self, hsplit, List.map_append, List.map_cons, update_self,
      map_update_of_not_mem (fun hk => hnot (by simp [hk])), map_update_of_not_mem fun hk =>
      hnot (by simp [hk])]
  · rw [update_of_ne hb]
    exact map_update_of_not_mem (fun hk => hb (h.apart s hs s hs b _ n hk hin).2) e

lemma tableOf_setNode_ne (e : InodeHt) (hn : ∀ b, n ∉ L.nodes s b) :
    L.tableOf (m.setNode n e) s = L.tableOf m s := by
  simp only [Layout.tableOf, setNode, StoreFs.mk.injEq, true_and]
  funext b
  exact map_update_of_not_mem (hn b) e

lemma setBucket_bucket (store : StoreFs) (inode : ℕ) :
    store.setBucket inode (store.bucket inode) = store := by
  simp [StoreFs.setBucket, StoreFs.bucket]

/-- What a change inside one table did: the layout, the table itself, and nothing to the others. -/
structure OnTable (m : LinkedTable) (L : Layout) (s : ℕ) (m' : LinkedTable) (L' : Layout) :
    Prop where
  laid : Laid m'.links L'
  tables : L'.tables = L.tables
  numbers : m'.numbers = m.numbers
  other : ∀ t ∈ L.tables, t ≠ s → L'.tableOf m' t = L.tableOf m t

/-- New data for a node of the table. -/
lemma OnTable.setNode (h : Laid m.links L) (hs : s ∈ L.tables) {b : ℕ} (hn : n ∈ L.nodes s b)
    (e : InodeHt) : OnTable m L s (m.setNode n e) L where
  laid := h
  tables := rfl
  numbers := rfl
  other := fun t ht hts => tableOf_setNode_ne e fun c hc => hts (h.apart t ht s hs c b n hc hn).1

/-- **`inode_allocate` in memory is `inode_allocate` on the lists.** -/
theorem inodeAllocate_refines (h : Laid m.links L) (hs : s ∈ L.tables) {o : SlabObjects}
    (hnode : ∀ n old, o.node = some (n, old) → ¬ m.links.Alive (.peers n)) (nonce inode : ℕ) :
    ∃ ret m' L', (∀ fuel, (L.nodes s (inode % hashTableSize)).length < fuel →
        m.inodeAllocate fuel o nonce s inode = some (ret, m')) ∧
      OnTable m L s m' L' ∧ KLRM.inodeAllocate o.answer nonce (L.tableOf m s) inode = (ret,
        L'.tableOf m' s) := by
  suffices honce : ∃ ret m' L',
      m.inodeAllocate ((L.nodes s (inode % hashTableSize)).length + 1) o nonce s inode
        = some (ret, m') ∧
      OnTable m L s m' L' ∧ KLRM.inodeAllocate o.answer nonce (L.tableOf m s) inode = (ret,
        L'.tableOf m' s) by
    obtain ⟨ret, m', L', hret, hrest⟩ := honce
    refine ⟨ret, m', L', fun fuel hfuel => ?_, hrest⟩
    rw [inodeAllocate, findNode_eq h hs inode hfuel, ← findNode_eq h hs inode (Nat.lt_succ_self _)]
    exact hret
  have hb : inode % hashTableSize < hashTableSize := Nat.mod_lt _ (by decide)
  have hbucket : (L.tableOf m s).bucket inode = (L.nodes s (inode % hashTableSize)).map m.nodes :=
    rfl
  rw [inodeAllocate, findNode_eq h hs inode (Nat.lt_succ_self _), Option.bind_some,
    KLRM.inodeAllocate, hbucket]
  cases hfind : (L.nodes s (inode % hashTableSize)).find? fun n => (m.nodes n).num = inode with
  | some n =>
      obtain ⟨hnum, pre, post, hsplit, hpre⟩ := List.find?_eq_some_iff_append.mp hfind
      have hnum : (m.nodes n).num = inode := by simpa using hnum
      have hpre : ∀ e ∈ pre.map m.nodes, e.num ≠ inode := by
        intro e he
        obtain ⟨k, hk, rfl⟩ := List.mem_map.mp he
        simpa using hpre k hk
      have hin : n ∈ L.nodes s (inode % hashTableSize) := by simp [hsplit]
      rw [hsplit, List.map_append, List.map_cons, visitBucket_split hnum _ hpre]
      by_cases hstamp : (m.nodes n).stamp < nonce
      · refine ⟨1, m.setNode n { m.nodes n with
            refCount := ((m.nodes n).refCount + 1) % 2 ^ 64, stamp := nonce }, L,
          by simp [TableLink.node, hstamp], OnTable.setNode h hs hin _, ?_⟩
        rw [if_pos hstamp, tableOf_setNode h hs hsplit]
        simp [countUp]
      · refine ⟨-1, m, L, by simp [TableLink.node, hstamp], ⟨h, rfl, rfl, fun _ _ _ => rfl⟩, ?_⟩
        rw [if_neg hstamp, ← List.map_cons, ← List.map_append, ← hsplit, ← hbucket]
        simp only [setBucket_bucket]
  | none =>
      have hnone : ∀ e ∈ (L.nodes s (inode % hashTableSize)).map m.nodes, e.num ≠ inode := by
        intro e he
        obtain ⟨k, hk, rfl⟩ := List.mem_map.mp he
        simpa using List.find?_eq_none.mp hfind k hk
      rw [visitBucket_none _ hnone]
      cases hobj : o.node with
      | none =>
          exact ⟨0, m, L, rfl, ⟨h, rfl, rfl, fun _ _ _ => rfl⟩, by simp [SlabObjects.answer, hobj]⟩
      | some obj =>
          obtain ⟨n, old⟩ := obj
          obtain ⟨links, hadd, hlaid⟩ := h.addNode hs hb (hnode n old hobj)
          have hnot : ∀ t ∈ L.tables, ∀ b, n ∉ L.nodes t b := fun t ht b hn =>
            hnode n old hobj ((h.live_peers n).mpr ⟨t, ht, b, hn⟩)
          let e : InodeHt := ⟨inode % 2 ^ 32, (old + 1) % 2 ^ 64, 0⟩
          refine ⟨1, ⟨links, m.numbers, update m.nodes n e⟩, _,
            ?_, ⟨hlaid, rfl, rfl, fun t ht hts => ?_⟩, ?_⟩
          · exact congrArg (Option.map _) hadd
          · rw [← tableOf_setNode_ne e (hnot t ht)]
            simp [Layout.tableOf, Layout.setBucket, hts, setNode]
          · have hanswer : o.answer.refCount = some old := by simp [SlabObjects.answer, hobj]
            simp only [hanswer, Prod.mk.injEq, true_and]
            rw [← tableOf_setNode_ne e (hnot s hs)]
            simp only [StoreFs.setBucket, Layout.tableOf, setNode, Layout.setBucket,
              StoreFs.mk.injEq, true_and]
            funext b
            by_cases hbb : b = inode % hashTableSize
            · subst hbb
              rw [if_pos rfl, List.map_cons, update_self, update_self,
                map_update_of_not_mem (hnot s hs _)]
            · simp [hbb]

/-! ## The calls

One refinement theorem for each operation.  Where the cursor of `rm_inode_ht` leaves the bucket,
the code in memory reads a link of an object that is not on the list, and has no result. -/

/-- **`insert_inode_ht` in memory is `insert_inode_ht` on the lists.** -/
theorem insertInodeHt_refines (h : Laid m.links L) {o : SlabObjects} (ho : o.Unused m.links)
    (nonce : ℕ) (i : Inode) :
    ∃ ret m' L', (∀ fuel, L.size < fuel → m.insertInodeHt fuel o nonce i = some (ret, m')) ∧
      Laid m'.links L' ∧
      KLRM.insertInodeHt o.answer nonce i (L.stores m) = (ret, L'.stores m') := by
  cases hfind : L.tables.find? fun s => m.numbers s = i.dev with
  | some s =>
      obtain ⟨hdev, pre, post, hsplit, hpre⟩ := List.find?_eq_some_iff_append.mp hfind
      have hs : s ∈ L.tables := by simp [hsplit]
      obtain ⟨ret, m', L', hret, hon, hlist⟩ := inodeAllocate_refines h hs ho.node nonce i.ino
      refine ⟨ret, m', L', fun fuel hfuel => ?_, hon.laid, ?_⟩
      · rw [insertInodeHt, findStore_eq h (lt_of_le_of_lt L.tables_length_le hfuel), hfind]
        exact hret fuel (lt_of_le_of_lt (h.nodes_length_le hs _) hfuel)
      · rw [stores_change h.tables_nodup hsplit hon.tables hon.other, KLRM.insertInodeHt,
          Layout.stores, hsplit, List.map_append, List.map_cons,
          onStore_split (by simpa using hdev) _ (by simpa using hpre), hlist]
  | none =>
      have hnone : ∀ store ∈ L.stores m, store.numbers ≠ i.dev := by
        intro store hstore
        obtain ⟨s, hs, rfl⟩ := List.mem_map.mp hstore
        simpa using List.find?_eq_none.mp hfind s hs
      have hlists : ∀ fuel, L.size < fuel → m.findStore fuel i.dev = some none := by
        intro fuel hfuel
        rw [findStore_eq h (lt_of_le_of_lt L.tables_length_le hfuel), hfind, Option.map_none]
      cases hobj : o.fs with
      | none =>
          refine ⟨0, m, L, fun fuel hfuel => ?_, h, ?_⟩
          · rw [insertInodeHt, hlists fuel hfuel, Option.bind_some, hobj]
          · rw [KLRM.insertInodeHt, onStore_none _ hnone]
            simp [SlabObjects.answer, hobj]
      | some s =>
          obtain ⟨links, hadd, hlaid⟩ := h.addTable i.dev (ho.fs s hobj)
          let m₁ : LinkedTable := { m.allocStore s i.dev with links := links }
          have hnode : ∀ n old, o.node = some (n, old) → ¬ m₁.links.Alive (.peers n) := by
            intro n old hn halive
            obtain ⟨t, ht, b, hin⟩ := (hlaid.live_peers n).mp halive
            by_cases hts : t = s
            · subst hts
              simp [Layout.addTable] at hin
            · simp only [Layout.addTable, hts, if_false] at hin
              exact ho.node n old hn
                ((h.live_peers n).mpr ⟨t, (List.mem_cons.mp ht).resolve_left hts, b, hin⟩)
          obtain ⟨ret, m', L', hret, hon, hlist⟩ :=
            inodeAllocate_refines (m := m₁) hlaid (List.mem_cons_self) hnode nonce i.ino
          refine ⟨ret, m', L', fun fuel hfuel => ?_, hon.laid, ?_⟩
          · rw [insertInodeHt, hlists fuel hfuel, Option.bind_some, hobj]
            simp only [hadd, Option.bind_some]
            refine hret fuel ?_
            simp only [Layout.addTable, if_true, List.length_nil]
            omega
          · have hnot : ∀ t ∈ L.tables, t ≠ s := by
              rintro t ht rfl
              exact ho.fs t hobj ((h.live_stores t).mpr ht)
            have hrest : L.tables.map ((L.addTable s).tableOf m₁) = L.stores m := by
              refine List.map_congr_left fun t ht => ?_
              simp [Layout.tableOf, Layout.addTable, hnot t ht, m₁, allocStore]
            have hempty : (L.addTable s).tableOf m₁ s = ⟨i.dev, fun _ => []⟩ := by
              simp [Layout.tableOf, Layout.addTable, m₁, allocStore]
            have hsplit : (L.addTable s).tables = [] ++ s :: L.tables := rfl
            rw [stores_change hlaid.tables_nodup hsplit hon.tables hon.other, hrest,
              KLRM.insertInodeHt, onStore_none _ hnone]
            rw [hempty] at hlist
            simp [SlabObjects.answer, hobj] at hlist ⊢
            simp [hlist]

/-- From a cursor that is on no table the loop of `rm_inode_ht` does not return. -/
lemma rmLoop_astray {tmp : TableLink} (htmp : tmp ≠ .fsStores) (hstore : tmp.store = none)
    (rounds : ℕ) : m.rmLoop fuel nonce i rounds tmp = none := by
  cases rounds <;> simp [rmLoop, htmp, hstore]

/-- Where the loop of `rm_inode_ht` gets from a table that it has come to. -/
lemma rmLoop_eq (h : Laid m.links L) (hfuel : L.size < fuel) (nonce : ℕ) (i : Inode) :
    ∀ (rest done : List ℕ) (rounds : ℕ), L.tables = done ++ rest → rest.length < rounds →
      m.rmLoop fuel nonce i rounds (Links.first .fsStores (rest.map .stores)) =
        match rest.find? fun s => m.numbers s = i.dev with
        | none => some (0, m)
        | some s =>
            match (L.nodes s (i.ino % hashTableSize)).find? fun n => (m.nodes n).num = i.ino with
            | some n =>
                if (m.nodes n).stamp < nonce then
                  (m.uncountNode nonce n).map fun m => (1, m)
                else some (-1, m)
            | none => none := by
  intro rest
  induction rest with
  | nil =>
      intro done rounds hsplit hrounds
      obtain ⟨rounds, rfl⟩ := Nat.exists_eq_succ_of_ne_zero (by simp at hrounds; omega : rounds ≠ 0)
      simp [rmLoop]
  | cons s rest ih =>
      intro done rounds hsplit hrounds
      obtain ⟨rounds, rfl⟩ := Nat.exists_eq_succ_of_ne_zero (by simp at hrounds; omega : rounds ≠ 0)
      have hs : s ∈ L.tables := by simp [hsplit]
      rw [List.map_cons, Links.first_cons, rmLoop, if_neg (by simp), TableLink.store,
        Option.bind_some]
      by_cases hdev : m.numbers s = i.dev
      · rw [if_pos hdev, findNode_eq h hs i.ino (lt_of_le_of_lt (h.nodes_length_le hs _) hfuel),
          Option.bind_some, List.find?_cons_of_pos (by simpa using hdev)]
        cases hnode : (L.nodes s (i.ino % hashTableSize)).find? fun n =>
            (m.nodes n).num = i.ino with
        | some n => simp [TableLink.node, hnode]
        | none =>
            -- the cursor is on the head of the bucket, and what follows it is no table
            have hb : i.ino % hashTableSize < hashTableSize := Nat.mod_lt _ (by decide)
            simp only [Option.map_none]
            rw [(h.bucket s hs _ hb).linked_first.1, Option.bind_some, hnode]
            refine rmLoop_astray ?_ ?_ rounds
            all_goals cases L.nodes s (i.ino % hashTableSize) <;> simp [TableLink.store]
      · rw [if_neg hdev, List.find?_cons_of_neg (by simpa using hdev)]
        have hring := h.tables
        rw [hsplit, List.map_append, List.map_cons] at hring
        rw [hring.linked_next.1, Option.bind_some]
        exact ih (done ++ [s]) rounds (by simpa using hsplit) (by simpa using hrounds)

lemma rmInodeHt_eq (h : Laid m.links L) (hfuel : L.size < fuel) (nonce : ℕ) (i : Inode) :
    m.rmInodeHt fuel nonce i =
      match L.tables.find? fun s => m.numbers s = i.dev with
      | none => some (0, m)
      | some s =>
          match (L.nodes s (i.ino % hashTableSize)).find? fun n => (m.nodes n).num = i.ino with
          | some n =>
              if (m.nodes n).stamp < nonce then
                (m.uncountNode nonce n).map fun m => (1, m)
              else some (-1, m)
          | none => none := by
  rw [rmInodeHt, h.tables.linked_first.1, Option.bind_some]
  exact rmLoop_eq h hfuel nonce i L.tables [] fuel rfl (lt_of_le_of_lt L.tables_length_le hfuel)

/-- `refCount--`, the stamp, and the node freed if it was the last reference. -/
lemma uncountNode_refines (h : Laid m.links L) (hs : s ∈ L.tables) {inode : ℕ} {pre post : List ℕ}
    (hsplit : L.nodes s (inode % hashTableSize) = pre ++ n :: post) (nonce : ℕ) :
    ∃ m' L', m.uncountNode nonce n = some m' ∧ OnTable m L s m' L' ∧
      L'.tableOf m' s = (L.tableOf m s).setBucket inode
        (pre.map m.nodes ++ (countDown nonce (m.nodes n) ++ post.map m.nodes)) := by
  have hin : n ∈ L.nodes s (inode % hashTableSize) := by simp [hsplit]
  let e : InodeHt :=
    { m.nodes n with refCount := ((m.nodes n).refCount + 2 ^ 64 - 1) % 2 ^ 64, stamp := nonce }
  by_cases hlast : ((m.nodes n).refCount + 2 ^ 64 - 1) % 2 ^ 64 = 0
  · obtain ⟨links', hdel, hlaid⟩ := h.dropNode hs hsplit
    refine ⟨⟨links'.free (ownedNode (.peers n)), m.numbers, update m.nodes n e⟩, _,
      ?_, ⟨hlaid, rfl, rfl, ?_⟩, ?_⟩
    · rw [uncountNode, if_neg (not_not_intro hlast)]
      exact congrArg (Option.map _) hdel
    · intro t ht hts
      rw [← tableOf_setNode_ne e fun c hc => hts (h.apart t ht s hs c _ n hc hin).1]
      simp [Layout.tableOf, Layout.setBucket, hts, setNode]
    · have hnot : n ∉ pre ++ post := by
        have hnodup := h.bucket_nodup hs (inode % hashTableSize)
        rw [hsplit] at hnodup
        exact (List.nodup_cons.mp (List.perm_middle.nodup_iff.mp hnodup)).1
      simp only [Layout.tableOf, Layout.setBucket, StoreFs.setBucket, StoreFs.mk.injEq, true_and]
      funext b
      by_cases hb : b = inode % hashTableSize
      · subst hb
        rw [if_pos rfl, update_self, map_update_of_not_mem hnot, countDown, if_pos hlast,
          List.map_append, List.nil_append]
      · rw [if_neg hb, update_of_ne hb]
        exact map_update_of_not_mem (fun hk => hb (h.apart s hs s hs b _ n hk hin).2) e
  · refine ⟨m.setNode n e, L, by rw [uncountNode, if_pos hlast], OnTable.setNode h hs hin e, ?_⟩
    rw [tableOf_setNode h hs hsplit, countDown, if_neg hlast]
    rfl

/-- **`rm_inode_ht` in memory is `rm_inode_ht` on the lists**, and goes astray where that does. -/
theorem rmInodeHt_refines (h : Laid m.links L) (nonce : ℕ) (i : Inode) :
    (∃ ret m' L', (∀ fuel, L.size < fuel → m.rmInodeHt fuel nonce i = some (ret, m')) ∧
      Laid m'.links L' ∧
        KLRM.rmInodeHt nonce i (L.stores m) = .ok (ret, L'.stores m')) ∨
      (∀ fuel, L.size < fuel → m.rmInodeHt fuel nonce i = none) ∧
        KLRM.rmInodeHt nonce i (L.stores m) = .error .wildCursor := by
  cases hfind : L.tables.find? fun s => m.numbers s = i.dev with
  | none =>
      left
      refine ⟨0, m, L, fun fuel hfuel => by rw [rmInodeHt_eq h hfuel, hfind], h, ?_⟩
      refine rmInodeHt_no_device fun store hstore => ?_
      obtain ⟨s, hs, rfl⟩ := List.mem_map.mp hstore
      simpa using List.find?_eq_none.mp hfind s hs
  | some s =>
      obtain ⟨hdev, pre, post, hsplit, hpre⟩ := List.find?_eq_some_iff_append.mp hfind
      have hs : s ∈ L.tables := by simp [hsplit]
      have hlists : KLRM.rmInodeHt nonce i
          (pre.map (L.tableOf m) ++ L.tableOf m s :: post.map (L.tableOf m)) = _ :=
        rmInodeHt_split (by simpa using hdev) _ (by simpa using hpre)
      rw [← List.map_cons, ← List.map_append, ← hsplit] at hlists
      have hbucket :
        (L.tableOf m s).bucket i.ino = (L.nodes s (i.ino % hashTableSize)).map m.nodes := rfl
      rw [hbucket] at hlists
      cases hnode : (L.nodes s (i.ino % hashTableSize)).find? fun n => (m.nodes n).num = i.ino with
      | none =>
          right
          refine ⟨fun fuel hfuel => by rw [rmInodeHt_eq h hfuel, hfind]; simp only [hnode],
            hlists.trans ?_⟩
          rw [visitBucket_none]
          intro e he
          obtain ⟨n, hn, rfl⟩ := List.mem_map.mp he
          simpa using List.find?_eq_none.mp hnode n hn
      | some n =>
          left
          obtain ⟨hnum, before, after, hnodes, hbefore⟩ := List.find?_eq_some_iff_append.mp hnode
          rw [hnodes, List.map_append, List.map_cons,
            visitBucket_split (by simpa using hnum) _ (by simpa using hbefore)]
            at hlists
          by_cases hstamp : (m.nodes n).stamp < nonce
          · obtain ⟨m', L', hrun, hon, htable⟩ := uncountNode_refines h hs hnodes nonce
            refine ⟨1, m', L', fun fuel hfuel => ?_, hon.laid, ?_⟩
            · rw [rmInodeHt_eq h hfuel, hfind]
              simp only [hnode, hstamp, if_true, hrun, Option.map_some]
            · rw [stores_change h.tables_nodup hsplit hon.tables hon.other, htable]
              simpa [hstamp, Layout.stores] using hlists
          · refine ⟨-1, m, L, fun fuel hfuel => ?_, h, ?_⟩
            · rw [rmInodeHt_eq h hfuel, hfind]
              simp only [hnode, hstamp, if_false]
            · rw [if_neg hstamp] at hlists
              refine hlists.trans ?_
              simp only
              rw [← List.map_cons, ← List.map_append, ← hnodes, ← hbucket, setBucket_bucket,
                ← List.map_cons, ← List.map_append, ← hsplit, Layout.stores]

/-- **`check_inode` in memory is `check_inode` on the lists.** -/
theorem checkInode_refines (h : Laid m.links L) (hfuel : L.size < fuel) (i : Inode) :
    m.checkInode fuel i = some (KLRM.checkInode i (L.stores m)) := by
  have hloop : ∀ (rest done : List ℕ) (rounds : ℕ), L.tables = done ++ rest → rest.length < rounds →
      m.checkLoop fuel i rounds (Links.first .fsStores (rest.map .stores)) =
        some (KLRM.checkInode i (rest.map (L.tableOf m))) := by
    intro rest
    induction rest with
    | nil =>
        intro done rounds hsplit hrounds
        obtain ⟨rounds, rfl⟩ :=
          Nat.exists_eq_succ_of_ne_zero (by simp at hrounds; omega : rounds ≠ 0)
        simp [checkLoop, KLRM.checkInode]
    | cons s rest ih =>
        intro done rounds hsplit hrounds
        obtain ⟨rounds, rfl⟩ :=
          Nat.exists_eq_succ_of_ne_zero (by simp at hrounds; omega : rounds ≠ 0)
        have hs : s ∈ L.tables := by simp [hsplit]
        have hring := h.tables
        rw [hsplit, List.map_append, List.map_cons] at hring
        have hrest := ih (done ++ [s]) rounds (by simpa using hsplit) (by simpa using hrounds)
        have hbucket :
          (L.tableOf m s).bucket i.ino = (L.nodes s (i.ino % hashTableSize)).map m.nodes := rfl
        rw [List.map_cons, Links.first_cons, checkLoop, if_neg (by simp), TableLink.store,
          Option.bind_some, hring.linked_next.1, Option.bind_some, hrest, List.map_cons]
        by_cases hdev : m.numbers s = i.dev
        · rw [if_pos hdev, findNode_eq h hs i.ino (lt_of_le_of_lt (h.nodes_length_le hs _) hfuel),
            Option.bind_some]
          cases hnode : (L.nodes s (i.ino % hashTableSize)).find? fun n =>
              (m.nodes n).num = i.ino with
          | some n =>
              have hfound : ((L.tableOf m s).bucket i.ino).any (·.num = i.ino) = true := by
                rw [hbucket, List.any_map]
                exact List.any_eq_true.mpr ⟨n,
                  List.mem_of_find?_eq_some hnode, by simpa using List.find?_some hnode⟩
              simp [KLRM.checkInode, hdev, hfound]
          | none =>
              have hnot : ((L.tableOf m s).bucket i.ino).any (·.num = i.ino) = false := by
                rw [hbucket, List.any_map]
                exact List.any_eq_false.mpr
                  fun n hn => by simpa using List.find?_eq_none.mp hnode n hn
              simp [KLRM.checkInode, hnot]
        · simp [KLRM.checkInode, hdev]
  rw [checkInode, h.tables.linked_first.1, Option.bind_some]
  exact hloop L.tables [] fuel rfl (lt_of_le_of_lt L.tables_length_le hfuel)

/-! ### `refresh_nonces`

Three loops inside one another, over tables, buckets and nodes, that write zero to every stamp.
`zeroed` is the memory after some of the nodes; the loops only ever append to their list. -/

/-- The stamps of some nodes are zero. -/
def zeroed (m : LinkedTable) (ns : List ℕ) : LinkedTable :=
  { m with nodes := fun n => if n ∈ ns then { m.nodes n with stamp := 0 } else m.nodes n }

lemma zeroed_setNode (m : LinkedTable) (ns : List ℕ) (n : ℕ) :
    (m.zeroed ns).setNode n { (m.zeroed ns).nodes n with stamp := 0 } = m.zeroed (ns ++ [n]) := by
  simp only [zeroed, setNode, LinkedTable.mk.injEq, true_and]
  funext k
  by_cases hk : k = n
  · subst hk
    by_cases hin : k ∈ ns <;> simp [hin]
  · simp [hk]

lemma refreshBucket_eq (h : Laid m.links L) (hs : s ∈ L.tables) {b : ℕ} (hb : b < hashTableSize)
    (hfuel : L.size < fuel) (ns : List ℕ) :
    refreshBucket fuel s (m.zeroed ns) b = some (m.zeroed (ns ++ L.nodes s b)) := by
  have hring := h.bucket s hs b hb
  let Inv : List TableLink → LinkedTable → Prop := fun ys m' =>
    ∃ done rest, ys = rest.map .peers ∧ L.nodes s b = done ++ rest ∧ m' = m.zeroed (ns ++ done)
  have hbody : ∀ y ys m', Inv (y :: ys) m' → y ≠ .inodes s b ∧ ∃ m'',
      (y.node.map fun n => m'.setNode n { m'.nodes n with stamp := 0 }) = some m'' ∧
        m''.links.next y = some (Links.first (.inodes s b) ys) ∧ Inv ys m'' := by
    rintro y ys m' ⟨done, rest, hys, hsplit, rfl⟩
    obtain ⟨n, rest, rfl⟩ : ∃ n rest', rest = n :: rest' := by
      cases rest with
      | nil => simp at hys
      | cons n rest => exact ⟨n, rest, rfl⟩
    obtain ⟨rfl, rfl⟩ := List.cons.inj hys
    rw [hsplit, List.map_append, List.map_cons] at hring
    refine ⟨by simp, m.zeroed (ns ++ (done ++ [n])), ?_, hring.linked_next.1, done ++ [n], rest,
      rfl, by simpa using hsplit, rfl⟩
    rw [TableLink.node, Option.map_some, zeroed_setNode, List.append_assoc]
  obtain ⟨m', hloop, done, rest, hrest, hsplit, rfl⟩ :=
    Links.Ring.forEach hbody ((L.nodes s b).map .peers) fuel
    (m.zeroed ns) (by simpa using lt_of_le_of_lt (h.nodes_length_le hs b) hfuel)
    ⟨[], L.nodes s b, rfl, rfl, by rw [List.append_nil]⟩
  have hnil : rest = [] := by simpa using hrest.symm
  rw [refreshBucket, show (m.zeroed ns).links.next (.inodes s b) = _ from hring.linked_first.1,
    Option.bind_some]
  refine hloop.trans ?_
  rw [hsplit, hnil, List.append_nil]

lemma refreshTable_eq (h : Laid m.links L) (hs : s ∈ L.tables) (hfuel : L.size < fuel) :
    ∀ (bs ns : List ℕ), (∀ b ∈ bs, b < hashTableSize) →
      bs.foldlM (refreshBucket fuel s) (m.zeroed ns)
        = some (m.zeroed (ns ++ bs.flatMap (L.nodes s)))
  | [], ns, _ => by simp
  | b :: bs, ns, hbs => by
      rw [List.foldlM_cons, refreshBucket_eq h hs (hbs b (by simp)) hfuel, Option.bind_eq_bind,
        Option.bind_some,
        refreshTable_eq h hs hfuel bs _ fun c hc => hbs c (by simp [hc]), List.flatMap_cons,
        List.append_assoc]

/-- **`refresh_nonces` in memory is the loop over the lists.** -/
theorem refreshNonces_refines (h : Laid m.links L) :
    ∃ m', (∀ fuel, L.size < fuel → m.refreshNonces fuel = some m') ∧ m'.links = m.links ∧
      refreshStamps (L.stores m) = L.stores m' := by
  refine ⟨m.zeroed L.allNodes, fun fuel hfuel => ?_, rfl, ?_⟩
  · let Inv : List TableLink → LinkedTable → Prop := fun ys m' =>
      ∃ done rest, ys = rest.map .stores ∧ L.tables = done ++ rest ∧
        m' = m.zeroed (done.flatMap fun s => (List.range hashTableSize).flatMap (L.nodes s))
    have hbody : ∀ y ys m', Inv (y :: ys) m' → y ≠ .fsStores ∧ ∃ m'',
        (y.store.bind fun s => (List.range hashTableSize).foldlM (refreshBucket fuel s) m')
          = some m'' ∧
          m''.links.next y = some (Links.first .fsStores ys) ∧ Inv ys m'' := by
      rintro y ys m' ⟨done, rest, hys, hsplit, rfl⟩
      obtain ⟨s, rest, rfl⟩ : ∃ s rest', rest = s :: rest' := by
        cases rest with
        | nil => simp at hys
        | cons s rest => exact ⟨s, rest, rfl⟩
      obtain ⟨rfl, rfl⟩ := List.cons.inj hys
      have hring := h.tables
      rw [hsplit, List.map_append, List.map_cons] at hring
      refine ⟨by simp, m.zeroed ((done ++ [s]).flatMap fun s => (List.range hashTableSize).flatMap
        (L.nodes s)), ?_, hring.linked_next.1, done ++ [s], rest, rfl, by simpa using hsplit, rfl⟩
      rw [TableLink.store, Option.bind_some,
        refreshTable_eq h (by simp [hsplit]) hfuel _ _ fun b hb => List.mem_range.mp hb,
        List.flatMap_append, List.flatMap_singleton]
    obtain ⟨m', hloop, done, rest, hrest, hsplit, rfl⟩ :=
      Links.Ring.forEach hbody (L.tables.map .stores) fuel
        m (by simpa using lt_of_le_of_lt L.tables_length_le hfuel) ⟨[], L.tables, rfl,
      rfl, by simp [zeroed]⟩
    have hnil : rest = [] := by simpa using hrest.symm
    rw [refreshNonces, h.tables.linked_first.1, Option.bind_some]
    refine hloop.trans ?_
    rw [Layout.allNodes, hsplit, hnil, List.append_nil]
  · rw [refreshStamps, Layout.stores, List.map_map, Layout.stores]
    refine List.map_congr_left fun s hs => ?_
    simp only [Function.comp_apply, Layout.tableOf, zeroed, StoreFs.mk.injEq, true_and,
      List.map_map]
    funext b
    refine List.map_congr_left fun n hn => ?_
    have hin : n ∈ L.allNodes := List.mem_flatMap.mpr ⟨s, hs, List.mem_flatMap.mpr
      ⟨b, List.mem_range.mpr (h.bucket_lt hn), hn⟩⟩
    simp [hin]

end LinkedTable

/-! ## Sessions

Replies and layouts step by step, and the converse for a further call: it returns in memory
exactly when it returns on the lists. -/

/-- A call of the inode store, with the objects that the caches have for it. -/
inductive TableCall
  | insert (o : SlabObjects) (nonce : ℕ) (i : Inode)
  | rm (nonce : ℕ) (i : Inode)
  | check (i : Inode)
  | refresh

namespace TableCall

/-- The call in memory; `refresh_nonces` returns nothing. -/
def inMemory (fuel : ℕ) (m : LinkedTable) : TableCall → Option (ℤ × LinkedTable)
  | insert o nonce i => m.insertInodeHt fuel o nonce i
  | rm nonce i => m.rmInodeHt fuel nonce i
  | check i => (m.checkInode fuel i).map fun ret => (ret, m)
  | refresh => (m.refreshNonces fuel).map fun m => (0, m)

/-- The call on the lists. -/
def onLists (stores : List StoreFs) : TableCall → Except Stop (ℤ × List StoreFs)
  | insert o nonce i => .ok (insertInodeHt o.answer nonce i stores)
  | rm nonce i => rmInodeHt nonce i stores
  | check i => .ok (checkInode i stores, stores)
  | refresh => .ok (0, refreshStamps stores)

/-- The caches hand out objects that are not in use. -/
def Unused (links : Links TableLink) : TableCall → Prop
  | insert o _ _ => o.Unused links
  | _ => True

/-- A call is served from memory. -/
def Served (m : LinkedTable) (call : TableCall × ℤ) (m' : LinkedTable) : Prop :=
  call.1.Unused m.links ∧ Returns (fun fuel => call.1.inMemory fuel m) (some (call.2, m'))

/-- A call is served from the lists. -/
def ServedByLists (stores : List StoreFs) (call : TableCall × ℤ) (stores' : List StoreFs) : Prop :=
  call.1.onLists stores = .ok (call.2, stores')

end TableCall

/-- The inode store before the first call: `LIST_HEAD_INIT(fs_stores)`, and empty caches. -/
def LinkedTable.start : LinkedTable where
  links := fun c => if c = .fsStores then some ⟨some .fsStores, some .fsStores⟩ else none
  numbers := fun _ => 0
  nodes := fun _ => ⟨0, 0, 0⟩

lemma LinkedTable.start_laid : Laid LinkedTable.start.links ⟨[], fun _ _ => []⟩ where
  tables := Links.Ring.init rfl
  bucket := by simp
  beyond := fun _ _ _ => rfl
  apart := by simp
  live_stores := by simp [Links.Alive, LinkedTable.start]
  live_inodes := by simp [Links.Alive, LinkedTable.start]
  live_peers := by simp [Links.Alive, LinkedTable.start]

/-- The memory and the lists after the same call, or neither. -/
def TableCall.Agrees (c : TableCall) (m : LinkedTable) (stores : List StoreFs) : Prop :=
  (∃ ret m' L', Returns (fun fuel => c.inMemory fuel m) (some (ret, m')) ∧ Laid m'.links L' ∧
      c.onLists stores = .ok (ret, L'.stores m')) ∨
    Returns (fun fuel => c.inMemory fuel m) none ∧ c.onLists stores = .error .wildCursor

/-- A result for every bound beyond the size of the layout. -/
lemma Returns.beyond {ρ : Type*} {f : ℕ → Option ρ} {r : Option ρ} (least : ℕ)
    (h : ∀ fuel, least < fuel → f fuel = r) :
    Returns f r := ⟨least + 1, fun fuel hfuel => h fuel hfuel⟩

lemma Returns.unique {ρ : Type*} {f : ℕ → Option ρ} {r r' : Option ρ} (h : Returns f r)
    (h' : Returns f r') : r = r' := by
  obtain ⟨a, ha⟩ := h
  obtain ⟨b, hb⟩ := h'
  exact (ha (max a b) (le_max_left a b)).symm.trans (hb (max a b) (le_max_right a b))

/-- **One call.** -/
theorem TableCall.agrees (c : TableCall) {m : LinkedTable} {L : Layout} (h : Laid m.links L)
    (hc : c.Unused m.links) : c.Agrees m (L.stores m) := by
  cases c with
  | insert o nonce i =>
      obtain ⟨ret, m', L', hret, hlaid, hlist⟩ := LinkedTable.insertInodeHt_refines h hc nonce i
      exact Or.inl ⟨ret, m', L', .beyond _ hret, hlaid, congrArg Except.ok hlist⟩
  | rm nonce i =>
      rcases LinkedTable.rmInodeHt_refines h nonce i with ⟨ret, m', L', hret, hlaid, hlist⟩ |
        ⟨hret, hlist⟩
      · exact Or.inl ⟨ret, m', L', .beyond _ hret, hlaid, hlist⟩
      · exact Or.inr ⟨.beyond _ hret, hlist⟩
  | check i =>
      refine Or.inl ⟨_, m, L, .beyond L.size fun fuel hfuel => ?_, h, rfl⟩
      simp only [inMemory, LinkedTable.checkInode_refines h hfuel, Option.map_some]
  | refresh =>
      obtain ⟨m', hret, hlinks, hlist⟩ := LinkedTable.refreshNonces_refines h
      refine Or.inl ⟨0, m', L, .beyond L.size fun fuel hfuel => ?_,
        hlinks ▸ h, by rw [onLists, hlist]⟩
      simp only [inMemory, hret fuel hfuel, Option.map_some]

/-- **The calls of a session, one after the other.** -/
theorem Run.laid {calls : List (TableCall × ℤ)} {m₀ m : LinkedTable} {L₀ : Layout}
    (hrun : Run TableCall.Served m₀ calls m) (h : Laid m₀.links L₀) :
    ∃ L, Laid m.links L ∧ Run TableCall.ServedByLists (L₀.stores m₀) calls (L.stores m) := by
  induction hrun generalizing L₀ with
  | nil m => exact ⟨L₀, h, .nil _⟩
  | @cons m₀ m₁ m call calls head tail ih =>
      rcases call.1.agrees h head.1 with ⟨ret, m', L', hret, hlaid, hlist⟩ | ⟨hret, -⟩
      · obtain ⟨rfl, rfl⟩ := Prod.mk.inj (Option.some.inj (hret.unique head.2))
        obtain ⟨L, hL, hlists⟩ := ih hlaid
        exact ⟨L, hL, .cons hlist hlists⟩
      · exact absurd (hret.unique head.2) (by simp)

/-- **The inode store in memory is the table of lists.**  After any session its objects lie in
    memory as some layout says, the replies were those of the lists, and every further call
    returns what it returns on the lists, or goes astray where that does. -/
theorem linkedTable_refines {calls : List (TableCall × ℤ)} {m : LinkedTable}
    (hrun : Run TableCall.Served LinkedTable.start calls m) :
    ∃ L, Laid m.links L ∧ Run TableCall.ServedByLists [] calls (L.stores m) ∧
      ∀ c : TableCall, c.Unused m.links → c.Agrees m (L.stores m) := by
  obtain ⟨L, hlaid, hlists⟩ := hrun.laid LinkedTable.start_laid
  exact ⟨L, hlaid, hlists, fun c hc => c.agrees hlaid hc⟩

/-- One insertion into the empty store is served. -/
lemma TableCall.served_insert : ∃ ret m,
    Run TableCall.Served LinkedTable.start [(.insert ⟨some 1, some (2, 7)⟩ 0 ⟨3, 5⟩, ret)] m := by
  have hunused : SlabObjects.Unused ⟨some 1, some (2, 7)⟩ LinkedTable.start.links :=
    ⟨fun s _ => by simp [Links.Alive, LinkedTable.start],
      fun n old _ => by simp [Links.Alive, LinkedTable.start]⟩
  obtain ⟨ret, m, -, hret, -, -⟩ :=
    LinkedTable.insertInodeHt_refines LinkedTable.start_laid hunused 0 ⟨3, 5⟩
  exact ⟨ret, m, .cons ⟨hunused, .beyond _ hret⟩ (.nil m)⟩

/-- One insertion into the empty store. -/
theorem linkedTable_refines_insert : ∃ ret m,
    Run TableCall.Served LinkedTable.start [(.insert ⟨some 1, some (2, 7)⟩ 0 ⟨3, 5⟩, ret)] m ∧
      ∃ L, Laid m.links L ∧
        Run TableCall.ServedByLists [] [(.insert ⟨some 1, some (2, 7)⟩ 0 ⟨3, 5⟩, ret)]
          (L.stores m) ∧ ∀ c : TableCall, c.Unused m.links → c.Agrees m (L.stores m) := by
  obtain ⟨ret, m, hrun⟩ := TableCall.served_insert
  exact ⟨ret, m, hrun, linkedTable_refines hrun⟩

end KLRM
