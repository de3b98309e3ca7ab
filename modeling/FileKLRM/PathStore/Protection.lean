import FileKLRM.PathStore.Agreement
import FileKLRM.PathStore.Refinement

/-!
# Which inodes are protected

The table should hold an inode for each protected path below which it lies, no more and no less:
then `check_inode` finds exactly the inodes below protected paths, and a removal takes away only
its own share.

`Protects` says this of a table, and it is kept by every call that does none of the things by
which the code miscounts (`StoreCall.CountsWell`).
-/

namespace KLRM

/-! ## Holders

How many protected paths have an inode in what lies below them.  Adding or removing one path
changes this by one for the inodes that lie below it, and by nothing for the others. -/

section Holders

variable {α : Type*} {S : Set α} {holds : α → Prop} {p : α}

/-- How many members of a set hold something. -/
noncomputable def holders (S : Set α) (holds : α → Prop) : ℕ := {p ∈ S | holds p}.ncard

@[simp] lemma holders_empty : holders ∅ holds = 0 := by simp [holders]

lemma holders_le (hfin : S.Finite) : holders S holds ≤ S.ncard :=
  Set.ncard_le_ncard (Set.sep_subset S holds) hfin

lemma holders_pos_iff (hfin : S.Finite) : 0 < holders S holds ↔ ∃ p ∈ S, holds p := by
  rw [holders, Set.ncard_pos (hfin.subset (Set.sep_subset S holds))]
  rfl

/-- A new member that holds it is one more. -/
lemma holders_insert_of_holds (hfin : S.Finite) (hp : p ∉ S) (h : holds p) :
    holders (insert p S) holds = holders S holds + 1 := by
  have hset : {q ∈ insert p S | holds q} = insert p {q ∈ S | holds q} := by
    ext q
    simp only [Set.mem_sep_iff, Set.mem_insert_iff]
    constructor
    · rintro ⟨rfl | hq, hh⟩
      · exact Or.inl rfl
      · exact Or.inr ⟨hq, hh⟩
    · rintro (rfl | ⟨hq, hh⟩)
      · exact ⟨Or.inl rfl, h⟩
      · exact ⟨Or.inr hq, hh⟩
  rw [holders, hset,
    Set.ncard_insert_of_notMem (fun hq => hp hq.1) (hfin.subset (Set.sep_subset S holds)), holders]

/-- And one less without it. -/
lemma holders_sdiff_of_holds (hfin : S.Finite) (hp : p ∈ S) (h : holds p) :
    holders S holds = holders (S \ {p}) holds + 1 := by
  conv_lhs => rw [← Set.insert_sdiff_self_of_mem hp]
  exact holders_insert_of_holds hfin.sdiff (fun hq => hq.2 rfl) h

/-- Any other makes no difference. -/
lemma holders_insert_of_not_holds (S : Set α) (h : ¬ holds p) :
    holders (insert p S) holds = holders S holds := by
  have hset : {q ∈ insert p S | holds q} = {q ∈ S | holds q} := by
    ext q
    simp only [Set.mem_sep_iff, Set.mem_insert_iff]
    constructor
    · rintro ⟨rfl | hq, hh⟩
      · exact absurd hh h
      · exact ⟨hq, hh⟩
    · rintro ⟨hq, hh⟩
      exact ⟨Or.inr hq, hh⟩
  rw [holders, hset, holders]

lemma holders_sdiff_of_not_holds (hp : p ∈ S) (h : ¬ holds p) :
    holders S holds = holders (S \ {p}) holds := by
  conv_lhs => rw [← Set.insert_sdiff_self_of_mem hp]
  exact holders_insert_of_not_holds _ h

end Holders

/-! ## The invariant

An inode has a node exactly when it has holders, and the count of the node is their number.  The
stamps are at or below `nonce`, as every traversal needs them to be. -/

/-- How many protected paths an inode lies below, `inodeOf` being what the paths resolve to. -/
noncomputable def users (g : FsGraph) (inodeOf : List Name → Inode) (S : Set (List Name))
    (i : Inode) : ℕ :=
  holders S fun p => Reach g.next (inodeOf p) i

/-- The table counts for every inode the protected paths that it lies below. -/
structure Protects (g : FsGraph) (inodeOf : List Name → Inode) (nonce : ℕ) (stores : List StoreFs)
    (S : Set (List Name)) : Prop where
  tableOk : TableOk stores
  stamps : ∀ i node, entries stores i = some node → node.stamp ≤ nonce
  narrow : ∀ i, (entries stores i).isSome → i.ino < 2 ^ 32
  finite : S.Finite
  card_le : S.ncard ≤ nonce
  isSome_iff : ∀ i, (entries stores i).isSome ↔ 0 < users g inodeOf S i
  refOf_eq : ∀ i, refOf stores i = users g inodeOf S i

namespace Protects

variable {g : FsGraph} {slot : ℕ → DentrySlot} {inodeOf : List Name → Inode} {nonce : ℕ}
  {stores after : List StoreFs} {S : Set (List Name)} {p : List Name} {i : Inode}

/-- An empty table and no paths. -/
lemma empty (g : FsGraph) (inodeOf : List Name → Inode) : Protects g inodeOf 0 [] ∅ where
  tableOk := tableOk_nil
  stamps := by simp
  narrow := by simp
  finite := Set.finite_empty
  card_le := by simp
  isSome_iff := by simp [users]
  refOf_eq := by simp [users, refOf]

/-- What `check_inode` finds. -/
lemma checkInode_iff (h : Protects g inodeOf nonce stores S) (i : Inode) :
    checkInode i stores = 1 ↔ ∃ p ∈ S, Reach g.next (inodeOf p) i := by
  rw [checkInode_eq h.tableOk.devices, h.isSome_iff, users, holders_pos_iff h.finite]

lemma refOf_le (h : Protects g inodeOf nonce stores S) (i : Inode) : refOf stores i ≤ nonce := by
  rw [h.refOf_eq]
  exact (holders_le h.finite).trans h.card_le

/-! ### Additions

A path that was not protected comes into the set, and every inode that is reached from it is counted
once.  An inode that had a node has one more; one that had none gets a node with the count one,
since it is met once and the slab object comes zeroed. -/

/-- What an addition asks: that it follows nothing unset, and of the inodes that it finds without
    a node that their numbers fit, that they are met once and get zeroed objects. -/
def AddsWell (g : FsGraph) (slot : ℕ → DentrySlot) (slab : ℕ → SlabAnswer) (start : Inode)
    (stores : List StoreFs) : Prop :=
  g.Settled slot start ∧ ∀ i, Reach g.next start i → entries stores i = none →
    i.ino < 2 ^ 32 ∧ MetOnce g.next start i ∧ ∀ k, (slab k).refCount = some 0

lemma addReady {slab : ℕ → SlabAnswer} (h : Protects g inodeOf nonce stores S)
    (hslab : ∀ k, (slab k).fsOk = true ∧ (slab k).refCount.isSome) : AddReady slab
    (nonce + 1) stores where
  allocates := hslab
  nonce_pos := Nat.le_add_left 1 nonce
  stamps := fun i node hnode => Nat.lt_succ_of_le (h.stamps i node hnode)

lemma ino_lt {slab : ℕ → SlabAnswer} (h : Protects g inodeOf nonce stores S)
    (hwell : AddsWell g slot slab (inodeOf p) stores) (hi : Reach g.next (inodeOf p) i) :
    i.ino < 2 ^ 32 := by
  cases hnode : entries stores i with
  | none => exact (hwell.2 i hi hnode).1
  | some node => exact h.narrow i (by simp [hnode])

/-- The addition of a path that is not protected yet. -/
lemma add {slab : ℕ → SlabAnswer} (h : Protects g inodeOf nonce stores S)
    (hslab : ∀ k, (slab k).fsOk = true ∧ (slab k).refCount.isSome) (hp : p ∉ S)
    (hfin : {i | Reach g.next (inodeOf p) i}.Finite)
    (hwell : AddsWell g slot slab (inodeOf p) stores) (hnonce : nonce + 1 < 2 ^ 64) {fuel : ℕ}
    (hrun : storeIterateAdd g slot slab (nonce + 1) fuel (inodeOf p) stores = .ok after) :
    Protects g inodeOf (nonce + 1) after (insert p S) := by
  have hready := h.addReady hslab
  obtain ⟨trace, hcalls⟩ := storeIterateAdd_calls hrun
  obtain ⟨popped, hs, hkeeps, hentries⟩ :=
    (addTraversal_spec hready hwell.1 (fun i => h.ino_lt hwell) hfin).2 fuel trace after hcalls
  have hmem : ∀ i, i ∈ trace ↔ Reach g.next (inodeOf p) i :=
    fun i => hs.mem_trace_iff (meetCap_pos stores)
  have hsome : ∀ i, (entries after i).isSome ↔ i ∈ trace ∨ (entries stores i).isSome := by
    intro i
    rw [hentries, counted_eq_none_iff]
  -- a reached inode is counted once more, whether it had a node or gets one
  have hcount : ∀ i, i ∈ trace → refOf after i = refOf stores i + 1 := by
    intro i hi
    have hle := h.refOf_le i
    rw [refOf_counted hentries hi]
    cases hnode : entries stores i with
    | some node =>
        rw [refOf, hnode] at hle ⊢
        exact Nat.mod_eq_of_lt (by simp only [Option.elim_some] at hle; omega)
    | none =>
        obtain ⟨-, -, hzero⟩ := hwell.2 i ((hmem i).mp hi) hnode
        have honce := (hs.popped_le_one (fun i => entries stores i = none)
          (fun x k hx hk => by rw [meetCap, if_neg hx] at hk; omega)
          (fun x hx hl => (hwell.2 x hx hl).2.1) ((hmem i).mp hi)).2 hnode
        have hpos : 0 < trace.count i := List.count_pos_iff.mpr hi
        rw [refOf, hnode, show trace.count i = 1 by omega, oldCount, hzero]
        rfl
  have husers : ∀ i, users g inodeOf (insert p S) i = refOf after i := by
    intro i
    by_cases hi : i ∈ trace
    · rw [hcount i hi, h.refOf_eq]
      exact holders_insert_of_holds h.finite hp ((hmem i).mp hi)
    · rw [refOf, hentries, counted_of_notMem hi, ← refOf, h.refOf_eq]
      exact holders_insert_of_not_holds S fun hreach => hi ((hmem i).mpr hreach)
  refine ⟨hkeeps.tableOk h.tableOk, fun i node hnode => ?_, fun i hi => ?_, h.finite.insert p,
    ?_, fun i => ?_,
    fun i => (husers i).symm⟩
  · rw [hentries, counted] at hnode
    split at hnode
    · exact (h.stamps i node hnode).trans (Nat.le_succ nonce)
    all_goals
      obtain rfl := Option.some.inj hnode
      simp
  · rcases (hsome i).mp hi with hi | hi
    · exact h.ino_lt hwell ((hmem i).mp hi)
    · exact h.narrow i hi
  · rw [Set.ncard_insert_of_notMem hp h.finite]
    exact Nat.succ_le_succ h.card_le
  · rw [hsome, husers]
    by_cases hi : i ∈ trace
    · rw [hcount i hi]
      exact iff_of_true (Or.inl hi) (Nat.succ_pos _)
    · rw [refOf, hentries, counted_of_notMem hi, ← refOf, h.refOf_eq, ← h.isSome_iff]
      exact or_iff_right hi

/-! ### Removals

The removal comes to everything that the addition from this path would come to, since all of it is
reached through directories.  A node goes when its count is one, that is, when no other protected
path leads to its inode. -/

/-- What a removal asks: that it does not crash on the start, no way to an inode but through
    directories, and a single one to an inode that is counted once. -/
def RemovesWell (g : FsGraph) (slot : ℕ → DentrySlot) (start : Inode) (stores : List StoreFs) :
    Prop :=
  ¬ g.CrashesAt (slot 0) start ∧ ∀ i, Reach g.next start i →
    Reach g.dirNext start i ∧ (LastOne stores i → MetOnce g.dirNext start i)

lemma rmReady (h : Protects g inodeOf nonce stores S) : RmReady (nonce + 1) stores where
  tableOk := h.tableOk
  stamps := fun i node hnode => Nat.lt_succ_of_le (h.stamps i node hnode)

lemma isSome_of_reach (h : Protects g inodeOf nonce stores S) (hp : p ∈ S)
    (hi : Reach g.next (inodeOf p) i) : (entries stores i).isSome :=
  (h.isSome_iff i).mpr ((holders_pos_iff h.finite).mpr ⟨p, hp, hi⟩)

lemma dev_mem (h : Protects g inodeOf nonce stores S) (hp : p ∈ S)
    (hi : Reach g.dirNext (inodeOf p) i) : i.dev ∈ stores.map StoreFs.numbers := by
  obtain ⟨node, hnode⟩ := Option.isSome_iff_exists.mp
    (h.isSome_of_reach hp (hi.mono fun _ _ hy => FsGraph.next_of_dirNext hy))
  obtain ⟨pre, store, post, rfl, hdev, -, -⟩ := exists_store hnode
  exact List.mem_map.mpr ⟨store, by simp, hdev⟩

/-- The removal of a protected path. -/
lemma rm (h : Protects g inodeOf nonce stores S) (hp : p ∈ S)
    (hwell : RemovesWell g slot (inodeOf p) stores) (hnonce : nonce + 1 < 2 ^ 64) {fuel : ℕ}
    (hrun : storeIterateRm g slot (nonce + 1) fuel (inodeOf p) stores = .ok after) :
    Protects g inodeOf (nonce + 1) after (S \ {p}) := by
  obtain ⟨calls, hcalls⟩ : ∃ calls, storeIterateRmCalls g slot (nonce + 1) fuel (inodeOf p) stores
      = .ok (calls, after) := by
    rw [← storeIterateRmCalls_snd] at hrun
    cases hrun' : storeIterateRmCalls g slot (nonce + 1) fuel (inodeOf p) stores with
    | error stop =>
        rw [hrun'] at hrun
        cases hrun
    | ok r =>
        rw [hrun'] at hrun
        exact ⟨r.1, by rw [← Except.ok.inj hrun]⟩
  obtain ⟨-, popped, hs, ht⟩ := rmTraversal_spec h.rmReady (fun i => h.dev_mem hp) hcalls
  have hmem : ∀ i, i ∈ calls ↔ Reach g.next (inodeOf p) i := fun i =>
    (hs.mem_trace_iff fun _ => rfl).trans
      ⟨fun hi => hi.mono fun _ _ hy => FsGraph.next_of_dirNext hy, fun hi => (hwell.2 i hi).1⟩
  have hentry : ∀ i, entries after i = uncounted (nonce + 1) stores calls i := by
    intro i
    rw [ht.entries]
  have hold : ∀ i, i ∈ calls → users g inodeOf S i = users g inodeOf (S \ {p}) i + 1 := fun i hi =>
    holders_sdiff_of_holds h.finite hp ((hmem i).mp hi)
  have hsame : ∀ i, i ∉ calls → users g inodeOf S i = users g inodeOf (S \ {p}) i := fun i hi =>
    holders_sdiff_of_not_holds hp fun hreach => hi ((hmem i).mpr hreach)
  have hcount : ∀ i, refOf after i = users g inodeOf (S \ {p}) i := by
    intro i
    by_cases hi : i ∈ calls
    · have hle := h.refOf_le i
      rw [refOf_uncounted ht hi, h.refOf_eq, hold i hi]
      rw [h.refOf_eq, hold i hi] at hle
      omega
    · rw [refOf, hentry, uncounted_of_notMem hi, ← refOf, h.refOf_eq, hsame i hi]
  -- the node goes with the last path
  have hsome : ∀ i, (entries after i).isSome ↔ 0 < users g inodeOf (S \ {p}) i := by
    intro i
    by_cases hi : i ∈ calls
    · obtain ⟨node, hnode⟩ := Option.isSome_iff_exists.mp (h.isSome_of_reach hp ((hmem i).mp hi))
      have href := h.refOf_eq i
      have hle := h.refOf_le i
      rw [refOf, hnode, Option.elim_some] at href hle
      rw [hold i hi] at href
      rw [hentry, uncounted, if_pos hi, hnode, Option.bind_some, oneLess]
      split_ifs with hone
      · exact iff_of_false (by simp) (by omega)
      · exact iff_of_true (by simp) (by omega)
    · rw [hentry, uncounted_of_notMem hi, h.isSome_iff, hsame i hi]
  have hnode : ∀ i node, entries after i = some node → node.stamp = nonce + 1 ∨
      entries stores i = some node := by
    intro i node hnode
    rw [hentry, uncounted] at hnode
    split_ifs at hnode
    · obtain ⟨old, -, hless⟩ := Option.bind_eq_some_iff.mp hnode
      rw [oneLess] at hless
      split_ifs at hless
      · cases hless
      · rw [← Option.some.inj hless]
        exact Or.inl rfl
    · exact Or.inr hnode
  refine ⟨ht.tableOk, fun i node hi => ?_, fun i hi => ?_, h.finite.sdiff, ?_, hsome, hcount⟩
  · rcases hnode i node hi with hstamp | hstay
    · exact hstamp.le
    · exact (h.stamps i node hstay).trans (Nat.le_succ nonce)
  · by_cases hmeet : i ∈ calls
    · exact h.narrow i (h.isSome_of_reach hp ((hmem i).mp hmeet))
    · rw [hentry, uncounted_of_notMem hmeet] at hi
      exact h.narrow i hi
  · exact (Set.ncard_le_ncard Set.sdiff_subset h.finite).trans (h.card_le.trans (Nat.le_succ nonce))

end Protects

/-! ## Sessions

`CountsWell` is the condition on one call, in the state before it: the addition is of a path that
was not protected and counts each inode once, the removal reaches along directories what the
addition has counted. -/

namespace StoreCall

variable {g : FsGraph} {inodeOf : List Name → Inode} {s s' : Session} {c : StoreCall}

/-- The file systems do not change, a path resolves to the same inode in every call, and the slab
    caches always have an object. -/
structure OnGraph (g : FsGraph) (inodeOf : List Name → Inode) (c : StoreCall) : Prop where
  graph : c.env.graph = g
  inode : ∀ d, c.env.decree = some d → d.inode = inodeOf c.path
  slab : ∀ k, (c.env.slab k).fsOk = true ∧ (c.env.slab k).refCount.isSome

/-- The call does none of the things by which the code miscounts.  An addition is of a path that
    is not protected, it follows nothing unset, and every inode that it makes a node for has a
    number of 32 bits, is met once and gets a zeroed object; the removal of a protected path does
    not crash on the start, reaches everything through directories, and meets once what is
    counted once. -/
structure CountsWell (g : FsGraph) (inodeOf : List Name → Inode) (s : Session) (c : StoreCall) :
    Prop where
  new : c.op = .add → c.path ∉ s.paths
  adds : c.op = .add → Protects.AddsWell g c.env.slot c.env.slab (inodeOf c.path) s.store.fsStores
  removes : c.op = .rm → c.path ∈ s.paths →
    Protects.RemovesWell g c.env.slot (inodeOf c.path) s.store.fsStores

/-- The call, with other bounds on its traversal. -/
def withRounds (c : StoreCall) (fuel : ℕ) : StoreCall :=
  { c with env := { c.env with fuel := fuel } }

/-- A call that counts well keeps the counts. -/
lemma Step.protects (hinv : StoreInv s.store s.paths)
    (h : Protects g inodeOf s.store.nonce s.store.fsStores s.paths)
    (hfin : ∀ p, {i | Reach g.next (inodeOf p) i}.Finite) (ha : c.Assumed s)
    (hg : c.OnGraph g inodeOf) (hwell : c.CountsWell g inodeOf s) (hstep : Step s c s') :
    Protects g inodeOf s'.store.nonce s'.store.fsStores s'.paths := by
  obtain ⟨⟨ret, hret⟩, hpaths⟩ := hstep
  rw [hpaths]
  cases hfree : s.store.storeLock with
  | true =>
      obtain ⟨hop, -, hst⟩ := run_locked hinv ha hfree hret
      rw [hst, show c.effect s.paths = s.paths by simp only [effect, hop]]
      exact h
  | false =>
      by_cases ht : c.Traverses s.paths
      · obtain ⟨d, stores, st, hd, htraverse, hrun, -, hnonce, hstores⟩ :=
          run_traverses hinv ha ht hfree
        rw [hrun] at hret
        obtain ⟨-, rfl⟩ := Prod.mk.inj (Except.ok.inj hret)
        have hbelow : s.store.nonce + 1 < 2 ^ 64 := by
          have := hinv.lock.mp hfree
          omega
        rw [hnonce, hstores]
        rcases ht with hop | ⟨hop, hmem⟩
        · simp only [traverse, hop, hg.graph, hg.inode d hd] at htraverse
          simp only [effect, hop]
          exact h.add hg.slab (hwell.new hop) (hfin _) (hwell.adds hop) hbelow htraverse
        · simp only [traverse, hop, hg.graph, hg.inode d hd] at htraverse
          simp only [effect, hop]
          exact h.rm hmem (hwell.removes hop hmem) hbelow htraverse
      · obtain ⟨ret', idx, hrun, -, heff, -⟩ := run_rest hinv ha ht hfree
        rw [hrun] at hret
        obtain ⟨-, hst⟩ := Prod.mk.inj (Except.ok.inj hret)
        rw [← hst, heff]
        exact h

/-- And its traversal returns, given rounds enough. -/
lemma traverse_returns (h : Protects g inodeOf s.store.nonce s.store.fsStores s.paths)
    (hfin : ∀ p, {i | Reach g.next (inodeOf p) i}.Finite) (hg : c.OnGraph g inodeOf)
    (hwell : c.CountsWell g inodeOf s) (ht : c.Traverses s.paths) :
    ∃ rounds, ∀ fuel, rounds ≤ fuel → ∃ stores,
      (c.withRounds fuel).traverse (s.store.nonce + 1) (inodeOf c.path) s.store.fsStores
        = .ok stores := by
  rcases ht with hop | ⟨hop, hmem⟩
  · obtain ⟨⟨rounds, hreturns⟩, -⟩ := addTraversal_spec (h.addReady hg.slab) (hwell.adds hop).1
      (fun i => h.ino_lt (hwell.adds hop)) (hfin c.path)
    refine ⟨rounds, fun fuel hle => ?_⟩
    obtain ⟨after, hrun⟩ := hreturns fuel hle
    exact ⟨after, by simpa only [traverse, withRounds, hop, hg.graph] using hrun⟩
  · obtain ⟨hcrash, hdirs⟩ := hwell.removes hop hmem
    have hup : ∀ i, Reach g.dirNext (inodeOf c.path) i →
        Reach g.next (inodeOf c.path) i := fun i hi =>
      hi.mono fun _ _ hy => FsGraph.next_of_dirNext hy
    obtain ⟨rounds, calls, after, hrun⟩ :=
      (rmTraversal_returns_iff h.rmReady (fun i => h.dev_mem hmem) ((hfin c.path).subset hup)).mpr
      ⟨hcrash, fun i hi => ⟨h.isSome_of_reach hmem (hup i hi), (hdirs i (hup i hi)).2⟩⟩
    refine ⟨rounds, fun fuel hle => ⟨after, ?_⟩⟩
    have hmono := storeIterateRmCalls_mono hrun hle
    simp only [traverse, withRounds, hop, hg.graph]
    rw [← storeIterateRmCalls_snd, hmono]
    rfl

end StoreCall

/-- **Inode protection follows path protection while the code does not miscount.**  In every
    session of calls that count well, `check_inode` finds exactly the inodes that the traversal
    of an addition reaches from a path that is protected; and the traversal of the next such call
    returns, given rounds enough. -/
theorem inode_protection {g : FsGraph} {inodeOf : List Name → Inode}
    (hfin : ∀ p, {i | Reach g.next (inodeOf p) i}.Finite) {root : Addr} {calls : List StoreCall}
    {s : Session}
    (hrun : Run (When (fun s c => c.Assumed s ∧ c.OnGraph g inodeOf ∧
      c.CountsWell g inodeOf s) StoreCall.Step) (Session.start root) calls s) :
    (∀ i, checkInode i s.store.fsStores = 1 ↔ ∃ p ∈ s.paths, Reach g.next (inodeOf p) i) ∧
      ∀ c : StoreCall, c.OnGraph g inodeOf → c.CountsWell g inodeOf s → c.Traverses s.paths →
        ∃ rounds, ∀ fuel, rounds ≤ fuel → ∃ stores,
          (c.withRounds fuel).traverse (s.store.nonce + 1) (inodeOf c.path) s.store.fsStores
            = .ok stores := by
  obtain ⟨-, h⟩ : StoreInv s.store s.paths ∧
      Protects g inodeOf s.store.nonce s.store.fsStores s.paths := by
    refine hrun.invariant (P := fun s => StoreInv s.store s.paths ∧
      Protects g inodeOf s.store.nonce s.store.fsStores s.paths) ?_
      ⟨storeInv_setup root, Protects.empty g inodeOf⟩
    rintro s c s' ⟨hinv, h⟩ ⟨⟨ha, hg, hwell⟩, hstep⟩
    exact ⟨hstep.storeInv ha hinv, hstep.protects hinv h hfin ha hg hwell⟩
  exact ⟨h.checkInode_iff, fun c => StoreCall.traverse_returns h hfin⟩

/-! ## A tree

Two directories, one inside the other: the inner one is protected, then the outer one, and the
outer one is removed again.  The inodes of the inner one are held twice in between and once at the
end. -/

/-- `/d` is the outer directory of the tree, and every other path the inner one. -/
def treeInode (path : List Name) : Inode := if path = [[100]] then ⟨0, 1⟩ else ⟨0, 2⟩

/-- A call on a directory of the tree, whatever the stack holds; slab memory comes zeroed. -/
def treeCall (op : StoreOp) (path : List Name) (fresh : List Addr) : StoreCall where
  op := op
  env :=
    { decree := some ⟨pathString path ++ [0], treeInode path⟩
      graph := treeGraph
      slot := fun _ => .wild
      slab := fun _ => ⟨true, some 0⟩
      fresh := fresh
      moduleGet := true
      fuel := 5 }
  pathName := pathString path ++ [0]
  path := path

lemma treeCall_onGraph (op : StoreOp) (path : List Name) (fresh : List Addr) :
    (treeCall op path fresh).OnGraph treeGraph treeInode where
  graph := rfl
  inode := by
    rintro d ⟨⟩
    rfl
  slab := by simp [treeCall]

lemma treeCall_countsWell {op : StoreOp} {path : List Name} {fresh : List Addr} {s : Session}
    (hnew : op = .add → path ∉ s.paths) :
    (treeCall op path fresh).CountsWell treeGraph treeInode s where
  new := hnew
  adds := fun _ => ⟨Or.inl (treeGraph_resolves _), fun i hi _ =>
    ⟨treeGraph_ino_lt (by rw [treeInode]; split_ifs <;> norm_num) hi, treeGraph_metOnce,
      fun _ => rfl⟩⟩
  removes := fun _ _ => ⟨fun hcrash => Bool.noConfusion hcrash.1,
    fun _ hi => ⟨hi, fun _ => treeGraph_metOnce⟩⟩

lemma treeCall_assumed {op : StoreOp} {path : List Name} {fresh : List Addr} {s : Session}
    (hpath : path = [[100]] ∨ path = [[100], [101]])
    (hfresh : op = .add → FreshFor s.store.trie fresh path.length)
    (hreturns : ∃ stores, (treeCall op path fresh).traverse (s.store.nonce + 1)
      (treeInode path) s.store.fsStores = .ok stores) : (treeCall op path fresh).Assumed s where
  canonical := by
    rcases hpath with rfl | rfl
    · exact isCanonical_singleton (by decide) (by decide) (by decide)
    · refine ⟨fun c hc => ?_, by norm_num [treeCall, argsSize]⟩
      rcases List.mem_pair.mp hc with rfl | rfl
      all_goals exact isName_singleton (by decide) (by decide) (by decide)
  examines := ⟨[], rfl⟩
  resolves := by
    rcases hpath with rfl | rfl <;> exact fun _ => ⟨rfl, by simp [treeCall]⟩
  allocates := hfresh
  returns := by
    rintro - d ⟨⟩
    exact hreturns

/-- **The inner directory is protected, then the outer one, and the outer one no more**: what
    lies in the inner one stays protected, and what lies in the outer one alone does not.  The
    removal of the inner one then returns. -/
theorem inode_protection_tree :
    ∃ s, Run (When (fun s c => c.Assumed s ∧ c.OnGraph treeGraph treeInode ∧
            c.CountsWell treeGraph treeInode s) StoreCall.Step) (Session.start 0)
        [treeCall .add [[100], [101]] [1, 2], treeCall .add [[100]] [3],
        treeCall .rm [[100]] []] s ∧
      s.paths = {[[100], [101]]} ∧
      (∀ i, checkInode i s.store.fsStores = 1 ↔
        ∃ p ∈ s.paths, Reach treeGraph.next (treeInode p) i) ∧
      checkInode ⟨0, 4⟩ s.store.fsStores = 1 ∧ checkInode ⟨0, 3⟩ s.store.fsStores = 0 ∧
      ∃ rounds, ∀ fuel, rounds ≤ fuel → ∃ stores,
        ((treeCall .rm [[100], [101]] []).withRounds fuel).traverse (s.store.nonce + 1)
          (treeInode [[100], [101]]) s.store.fsStores = .ok stores := by
  obtain ⟨s₁, s₂, s₃, hadd, hadd', hrm, hin, hout, hfree, hreturns, hreturns', hreturns''⟩ :
      ∃ s₁ s₂ s₃,
      (treeCall .add [[100], [101]] [1, 2]).run (Store.setup 0) = .ok (0, s₁) ∧
      (treeCall .add [[100]] [3]).run s₁ = .ok (0, s₂) ∧
      (treeCall .rm [[100]] []).run s₂ = .ok (0, s₃) ∧
      checkInode ⟨0, 4⟩ s₃.fsStores = 1 ∧ checkInode ⟨0, 3⟩ s₃.fsStores = 0 ∧ s₁.trie.mem 3 = none ∧
      (∃ stores, (treeCall .add [[100], [101]] [1, 2]).traverse 1 ⟨0, 2⟩ [] = .ok stores) ∧
      (∃ stores, (treeCall .add [[100]] [3]).traverse (s₁.nonce + 1) ⟨0, 1⟩ s₁.fsStores
          = .ok stores) ∧
      ∃ stores, (treeCall .rm [[100]] []).traverse (s₂.nonce + 1) ⟨0, 1⟩ s₂.fsStores = .ok stores :=
    ⟨_, _, _, rfl, rfl, rfl, rfl, rfl, rfl, ⟨_, rfl⟩, ⟨_, rfl⟩, ⟨_, rfl⟩⟩
  have hpaths : insert [[100]] (insert [[100], [101]] ∅) \ {[[100]]}
      = ({[[100], [101]]} : Set (List Name)) := by
    ext p
    simp only [Set.mem_sdiff, Set.mem_insert_iff, Set.mem_empty_iff_false, or_false,
      Set.mem_singleton_iff]
    constructor
    · rintro ⟨rfl | hp, hne⟩
      · exact absurd rfl hne
      · exact hp
    · rintro rfl
      exact ⟨Or.inr rfl, by decide⟩
  have hrun : Run (When (fun s c => c.Assumed s ∧ c.OnGraph treeGraph treeInode ∧
        c.CountsWell treeGraph treeInode s) StoreCall.Step) (Session.start 0)
      [treeCall .add [[100], [101]] [1, 2], treeCall .add [[100]] [3], treeCall .rm [[100]] []]
      ⟨s₃, insert [[100]] (insert [[100], [101]] ∅) \ {[[100]]}⟩ := by
    have hstep : StoreCall.Step (Session.start 0) (treeCall .add [[100], [101]] [1, 2])
        ⟨s₁, insert [[100], [101]] ∅⟩ := ⟨⟨0, hadd⟩, rfl⟩
    have hstep' : StoreCall.Step ⟨s₁, insert [[100], [101]] ∅⟩ (treeCall .add [[100]] [3])
        ⟨s₂, insert [[100]] (insert [[100], [101]] ∅)⟩ := ⟨⟨0, hadd'⟩, rfl⟩
    have hstep'' : StoreCall.Step ⟨s₂, insert [[100]] (insert [[100], [101]] ∅)⟩
        (treeCall .rm [[100]] [])
        ⟨s₃, insert [[100]] (insert [[100], [101]] ∅) \ {[[100]]}⟩ := ⟨⟨0, hrm⟩, rfl⟩
    refine .cons ⟨⟨?_, treeCall_onGraph _ _ _, treeCall_countsWell ?_⟩, hstep⟩
      (.cons ⟨⟨?_, treeCall_onGraph _ _ _, treeCall_countsWell ?_⟩, hstep'⟩
        (.cons ⟨⟨?_, treeCall_onGraph _ _ _, treeCall_countsWell (by simp)⟩, hstep''⟩ (.nil _)))
    · exact treeCall_assumed (Or.inr rfl)
        (fun _ => ⟨le_rfl, by decide, by simp [Session.start, Store.setup]⟩) hreturns
    · exact fun _ => Set.notMem_empty _
    · exact treeCall_assumed (Or.inl rfl)
        (fun _ => ⟨le_rfl, List.nodup_singleton _, by simpa using hfree⟩) hreturns'
    · simp
    · exact treeCall_assumed (Or.inl rfl) (by simp) hreturns''
  obtain ⟨hcheck, hnext⟩ := inode_protection (fun p => treeGraph_finite) hrun
  refine ⟨_, hrun, hpaths, hcheck, hin, hout,
    hnext (treeCall .rm [[100], [101]] []) (treeCall_onGraph _ _ _)
    (treeCall_countsWell (by simp)) (Or.inr ⟨rfl, ?_⟩)⟩
  rw [hpaths]
  rfl

/-! ## A file

The second addition of a path that is already protected counts its inode once more, and one
removal does not take it away. -/

/-- Calls on files: all paths lead to one inode. -/
lemma fileCall_onGraph (op : StoreOp) (path : List Name) (fresh : List Addr) :
    (fileCall op path ⟨0, 5⟩ fresh).OnGraph fileGraph fun _ => ⟨0, 5⟩ where
  graph := rfl
  inode := by
    rintro d ⟨⟩
    rfl
  slab := by simp [fileCall]

lemma fileCall_assumed {op : StoreOp} {fresh : List Addr} {s : Session}
    (hfresh : op = .add → FreshFor s.store.trie fresh 1)
    (hreturns : ∃ stores,
      (fileCall op [[97]] ⟨0, 5⟩ fresh).traverse (s.store.nonce + 1) ⟨0, 5⟩ s.store.fsStores
        = .ok stores) :
    (fileCall op [[97]] ⟨0, 5⟩ fresh).Assumed s where
  canonical := isCanonical_singleton (by decide) (by decide) (by decide)
  examines := ⟨[], rfl⟩
  resolves := fun _ => ⟨rfl, by simp [fileCall]⟩
  allocates := hfresh
  returns := by
    rintro - d ⟨⟩
    exact hreturns

/-- `/a` is added twice and removed once: no path is protected, and its inode still is. -/
theorem inode_protection_readded :
    ∃ s, Run (When (fun s c => c.Assumed s ∧ c.OnGraph fileGraph fun _ => ⟨0, 5⟩) StoreCall.Step)
        (Session.start 0)
        [fileCall .add [[97]] ⟨0, 5⟩ [1], fileCall .add [[97]] ⟨0, 5⟩ [2],
        fileCall .rm [[97]] ⟨0, 5⟩ []] s ∧
      s.paths = ∅ ∧ checkInode ⟨0, 5⟩ s.store.fsStores = 1 := by
  obtain ⟨s₁, s₂, s₃, hadd, hadd', hrm, hcheck, hfree, hreturns, hreturns', hreturns''⟩ :
      ∃ s₁ s₂ s₃,
      (fileCall .add [[97]] ⟨0, 5⟩ [1]).run (Store.setup 0) = .ok (0, s₁) ∧
      (fileCall .add [[97]] ⟨0, 5⟩ [2]).run s₁ = .ok (0, s₂) ∧
      (fileCall .rm [[97]] ⟨0, 5⟩ []).run s₂ = .ok (0, s₃) ∧
      checkInode ⟨0, 5⟩ s₃.fsStores = 1 ∧ s₁.trie.mem 2 = none ∧
      (∃ stores, (fileCall .add [[97]] ⟨0, 5⟩ [1]).traverse 1 ⟨0, 5⟩ [] = .ok stores) ∧
      (∃ stores, (fileCall .add [[97]] ⟨0, 5⟩ [2]).traverse (s₁.nonce + 1) ⟨0, 5⟩ s₁.fsStores
          = .ok stores) ∧
      ∃ stores, (fileCall .rm [[97]] ⟨0, 5⟩ []).traverse (s₂.nonce + 1) ⟨0, 5⟩ s₂.fsStores
          = .ok stores :=
    ⟨_, _, _, rfl, rfl, rfl, rfl, rfl, ⟨_, rfl⟩, ⟨_, rfl⟩, ⟨_, rfl⟩⟩
  have hstep : StoreCall.Step (Session.start 0) (fileCall .add [[97]] ⟨0, 5⟩ [1])
      ⟨s₁, insert [[97]] ∅⟩ := ⟨⟨0, hadd⟩, rfl⟩
  have hstep' : StoreCall.Step ⟨s₁, insert [[97]] ∅⟩ (fileCall .add [[97]] ⟨0, 5⟩ [2])
      ⟨s₂, insert [[97]] (insert [[97]] ∅)⟩ := ⟨⟨0, hadd'⟩, rfl⟩
  have hstep'' : StoreCall.Step ⟨s₂, insert [[97]] (insert [[97]] ∅)⟩
      (fileCall .rm [[97]] ⟨0, 5⟩ []) ⟨s₃, ∅⟩ :=
    ⟨⟨0, hrm⟩, by simp [StoreCall.effect, fileCall]⟩
  have ha : (fileCall .add [[97]] ⟨0, 5⟩ [1]).Assumed (Session.start 0) :=
    fileCall_assumed
      (fun _ => ⟨le_rfl, List.nodup_singleton _, by simp [Session.start, Store.setup]⟩) hreturns
  have ha' : (fileCall .add [[97]] ⟨0, 5⟩ [2]).Assumed ⟨s₁, insert [[97]] ∅⟩ :=
    fileCall_assumed (fun _ => ⟨le_rfl, List.nodup_singleton _, by simpa using hfree⟩) hreturns'
  have ha'' : (fileCall .rm [[97]] ⟨0, 5⟩ []).Assumed ⟨s₂, insert [[97]] (insert [[97]] ∅)⟩ :=
    fileCall_assumed (by simp) hreturns''
  exact ⟨_,
    .cons ⟨⟨ha, fileCall_onGraph _ _ _⟩, hstep⟩ (.cons ⟨⟨ha', fileCall_onGraph _ _ _⟩, hstep'⟩
    (.cons ⟨⟨ha'', fileCall_onGraph _ _ _⟩, hstep''⟩ (.nil _))), rfl, hcheck⟩

end KLRM
