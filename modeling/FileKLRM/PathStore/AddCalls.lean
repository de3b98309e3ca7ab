import FileKLRM.PathStore.AddTraversal
import FileKLRM.PathStore.InodeTableLaws

/-!
# What an addition has met when it returns

Whatever the table held, and however often it counts: the inodes that `store_iterate_add` has made
its calls for when it returns are those that it can reach.  The stamps tell a first meeting from a
later one, and that is all that is needed (`Covers`).  Nothing is asked of the numbers of the
inodes or of what the slab objects hold.

Of the unset variable it is asked only that it leads to no inode.  So this also speaks of a
traversal that would crash at a symlink which does not resolve: one that returns has come to no
such symlink.

* `storeIterateAddCalls_covers`: the calls are the inodes that are reached, and each has a table
  then.
* `FsGraph.Resolves.of_wild`: with a wild pointer in the variable, a traversal that returns has
  found that every symlink resolves.
* `storeIterateAddCalls_slot`: where every symlink resolves, the variable is never read.
-/

namespace KLRM

/-- Every stamp in the table is below `nonce`. -/
def StampsBelow (nonce : ℕ) (stores : List StoreFs) : Prop :=
  ∀ store ∈ stores, ∀ b, ∀ node ∈ store.inodes b, node.stamp < nonce

section

variable {g : FsGraph} {slot : ℕ → DentrySlot} {slab : ℕ → SlabAnswer} {nonce fuel : ℕ}
  {stores after : List StoreFs} {trace calls : List Inode} {i start : Inode}

lemma StampsBelow.entries (h : StampsBelow nonce stores) {node : InodeHt}
    (hnode : entries stores i = some node) : node.stamp < nonce := by
  obtain ⟨-, store, hstore, -, hmem⟩ := num_of_entries hnode
  exact h store hstore _ node hmem

/-! ## What the stamps tell

An insertion reports an inode as seen only for a node with the number of the traversal, and only a
meeting of this traversal writes that number.  So whatever is reported as seen has been met
(`StampedMet`). -/

/-- Only what has been met carries the number of the traversal. -/
def StampedMet (nonce : ℕ) (trace : List Inode) (stores : List StoreFs) : Prop :=
  EveryNode (fun dev _ node => nonce ≤ node.stamp → (⟨dev, node.num⟩ : Inode) ∈ trace) stores

lemma StampsBelow.stampedMet (h : StampsBelow nonce stores) (trace : List Inode) :
    StampedMet nonce trace stores := by
  intro store hstore b node hnode hstamp
  have := h store hstore b node hnode
  omega

lemma StampedMet.concat (h : StampedMet nonce trace stores) (i : Inode) :
    StampedMet nonce (trace ++ [i]) stores := fun store hstore b node hnode hstamp =>
  List.mem_append.mpr (Or.inl (h store hstore b node hnode hstamp))

/-- A node with the number of the traversal is one that has been met. -/
lemma StampedMet.mem (h : StampedMet nonce trace stores)
    (hseen : ∃ store ∈ stores, store.numbers = i.dev ∧ ∃ node ∈ store.bucket i.ino,
      node.num = i.ino ∧ nonce ≤ node.stamp) : i ∈ trace := by
  obtain ⟨store, hstore, hdev, node, hnode, hnum, hstamp⟩ := hseen
  have hmem := h store hstore _ node hnode hstamp
  rwa [hdev, hnum] at hmem

lemma visitBucket_neg {touch : InodeHt → List InodeHt} {inode : ℕ} :
    ∀ {nodes nodes' : List InodeHt},
    visitBucket touch nonce inode nodes = some (-1, nodes') → ∃ n ∈ nodes, n.num = inode ∧
    nonce ≤ n.stamp
  | [], _, h => by cases h
  | n :: rest, nodes', h => by
      rw [visitBucket] at h
      split_ifs at h with hn hstamp
      · simp at h
      · exact ⟨n, by simp, hn, not_lt.mp hstamp⟩
      · obtain ⟨⟨ret, nodes''⟩, hrest, heq⟩ := Option.map_eq_some_iff.mp h
        obtain ⟨rfl, -⟩ := Prod.mk.inj heq
        obtain ⟨m, hm, hrest⟩ := visitBucket_neg hrest
        exact ⟨m, by simp [hm], hrest⟩

/-- An insertion reports an inode as seen when its node has the number of the traversal. -/
lemma insertInodeHt_stamp {answer : SlabAnswer} (h : (insertInodeHt answer nonce i stores).1 = -1) :
    ∃ store ∈ stores, store.numbers = i.dev ∧ ∃ node ∈ store.bucket i.ino, node.num = i.ino ∧
      nonce ≤ node.stamp := by
  have hone : ∀ store, (inodeAllocate answer nonce store i.ino).1 = -1 →
      ∃ node ∈ store.bucket i.ino, node.num = i.ino ∧ nonce ≤ node.stamp := by
    intro store hret
    unfold inodeAllocate at hret
    split at hret
    · rename_i ret nodes hvisit
      obtain rfl : ret = -1 := hret
      exact visitBucket_neg hvisit
    · split at hret <;> simp at hret
  have honStore : ∀ {stores : List StoreFs} {r : ℤ × List StoreFs},
      onStore i.dev (fun store => inodeAllocate answer nonce store i.ino) stores
        = some r → r.1 = -1 →
      ∃ store ∈ stores, store.numbers = i.dev ∧ ∃ node ∈ store.bucket i.ino, node.num = i.ino ∧
        nonce ≤ node.stamp := by
    intro stores
    induction stores with
    | nil =>
        intro r hr
        cases hr
    | cons st rest ih =>
        intro r hr hret
        rw [onStore] at hr
        split_ifs at hr with hdev
        · obtain rfl := Option.some.inj hr
          exact ⟨st, by simp, hdev, hone st hret⟩
        · obtain ⟨r', hr', rfl⟩ := Option.map_eq_some_iff.mp hr
          obtain ⟨store, hmem, hrest⟩ := ih hr' hret
          exact ⟨store, by simp [hmem], hrest⟩
  unfold insertInodeHt at h
  split at h
  · rename_i hr
    exact honStore hr h
  · split_ifs at h
    obtain ⟨node, hnode, -⟩ := hone _ h
    simp [StoreFs.bucket] at hnode

/-- After an insertion there is a table for every device there was one for, and for that of the
    inode. -/
lemma insertInodeHt_devices {answer : SlabAnswer} (nonce : ℕ) (hfs : answer.fsOk = true) (i : Inode)
    (stores : List StoreFs) :
    ∀ dev, dev ∈ ((insertInodeHt answer nonce i stores).2).map StoreFs.numbers ↔
      dev = i.dev ∨ dev ∈ stores.map StoreFs.numbers := by
  have honStore : ∀ {stores : List StoreFs} {r : ℤ × List StoreFs},
      onStore i.dev (fun store => inodeAllocate answer nonce store i.ino) stores = some r →
      r.2.map StoreFs.numbers = stores.map StoreFs.numbers ∧
      i.dev ∈ stores.map StoreFs.numbers := by
    intro stores
    induction stores with
    | nil =>
        intro r hr
        cases hr
    | cons st rest ih =>
        intro r hr
        rw [onStore] at hr
        split_ifs at hr with hdev
        · obtain rfl := Option.some.inj hr
          simp [inodeAllocate_numbers, hdev]
        · obtain ⟨r', hr', rfl⟩ := Option.map_eq_some_iff.mp hr
          obtain ⟨heq, hmem⟩ := ih hr'
          exact ⟨by simp [heq], by simp only [List.map_cons, List.mem_cons]; exact Or.inr hmem⟩
  intro dev
  unfold insertInodeHt
  split
  · rename_i hr
    obtain ⟨heq, hmem⟩ := honStore hr
    rw [heq]
    refine ⟨Or.inr, ?_⟩
    rintro (rfl | hdev)
    · exact hmem
    · exact hdev
  · simp [hfs, inodeAllocate_numbers]

/-! ## The meetings

One meeting, and then all that an inode leads to: what is new is on the list afterwards, and
nothing else is added to it. -/

/-- What holds of the table after the calls that have been made. -/
structure AddMet (nonce : ℕ) (w : AddWalk) : Prop where
  stamped : StampedMet nonce w.calls w.stores
  devices : ∀ i ∈ w.calls, i.dev ∈ w.stores.map StoreFs.numbers

/-- One meeting of an addition. -/
lemma AddMet.meet (hslab : ∀ k, (slab k).fsOk = true) (hnonce : 1 ≤ nonce) {w : AddWalk}
    (h : AddMet nonce w) (y : Inode) :
    AddMet nonce (w.meet slab nonce y) ∧ (y ∈ w.calls ∨ y ∈ (w.meet slab nonce y).stack) ∧
      (∀ x ∈ w.stack, x ∈ (w.meet slab nonce y).stack) ∧
      ∀ x ∈ (w.meet slab nonce y).stack, x ∈ w.stack ∨ x = y := by
  have hdevices := insertInodeHt_devices nonce (hslab w.calls.length) y w.stores
  have hstamped : StampedMet nonce (w.calls ++ [y])
      (insertInodeHt (slab w.calls.length) nonce y w.stores).2 := by
    refine insertInodeHt_every (h.stamped.concat y) (fun b node _ hnum m hm _ => ?_) fun n hn => ?_
    · rw [countUp, List.mem_singleton] at hm
      rw [hm, hnum]
      simp
    · simp only at hn
      omega
  refine ⟨⟨hstamped, fun x hx => ?_⟩, ?_, fun x hx => ?_, fun x hx => ?_⟩
  · refine (hdevices _).mpr ?_
    rcases List.mem_append.mp hx with hx | hx
    · exact Or.inr (h.devices x hx)
    · exact Or.inl (congrArg Inode.dev (List.mem_singleton.mp hx))
  · by_cases hseen : (insertInodeHt (slab w.calls.length) nonce y w.stores).1 = -1
    · exact Or.inl (h.stamped.mem (insertInodeHt_stamp hseen))
    · exact Or.inr (by simp [AddWalk.meet, hseen])
  · simp only [AddWalk.meet]
    split_ifs
    · exact List.mem_cons_of_mem y hx
    · exact hx
  · simp only [AddWalk.meet] at hx
    split_ifs at hx
    · exact (List.mem_cons.mp hx).symm
    · exact Or.inl hx

lemma AddWalk.calls_foldl (slab : ℕ → SlabAnswer) (nonce : ℕ) : ∀ (ys : List Inode) (w : AddWalk),
    (ys.foldl (AddWalk.meet slab nonce) w).calls = w.calls ++ ys
  | [], w => (List.append_nil _).symm
  | y :: ys, w => by
      rw [List.foldl_cons, calls_foldl slab nonce ys]
      simp [AddWalk.meet]

/-- All meetings with the neighbours of the inode in hand. -/
lemma AddMet.meet_all (hslab : ∀ k, (slab k).fsOk = true) (hnonce : 1 ≤ nonce) :
    ∀ (ys : List Inode) {w : AddWalk}, AddMet nonce w →
    AddMet nonce (ys.foldl (AddWalk.meet slab nonce) w) ∧
      (∀ y ∈ ys, y ∈ w.calls ∨ y ∈ (ys.foldl (AddWalk.meet slab nonce) w).stack) ∧
      (∀ x ∈ w.stack, x ∈ (ys.foldl (AddWalk.meet slab nonce) w).stack) ∧
      ∀ x ∈ (ys.foldl (AddWalk.meet slab nonce) w).stack, x ∈ w.stack ∨ x ∈ ys
  | [], w, h => ⟨h, by simp, by simp, by simp⟩
  | y :: ys, w, h => by
      obtain ⟨h₁, hnew₁, hkeep₁, hmem₁⟩ := h.meet hslab hnonce y
      obtain ⟨h₂, hnew₂, hkeep₂, hmem₂⟩ := meet_all hslab hnonce ys h₁
      refine ⟨h₂, fun z hz => ?_, fun x hx => hkeep₂ x (hkeep₁ x hx), fun x hx => ?_⟩
      · have hy : y ∈ w.calls ∨ y ∈ ((y :: ys).foldl (AddWalk.meet slab nonce) w).stack :=
          hnew₁.imp id (hkeep₂ y)
        rcases List.mem_cons.mp hz with rfl | hz
        · exact hy
        · rcases hnew₂ z hz with hz | hz
          · rcases List.mem_append.mp hz with hz | hz
            · exact Or.inl hz
            · rw [List.mem_singleton.mp hz]
              exact hy
          · exact Or.inr hz
      · rcases hmem₂ x hx with hx | hx
        · rcases hmem₁ x hx with hx | rfl
          · exact Or.inl hx
          · exact Or.inr (by simp)
        · exact Or.inr (by simp [hx])

/-! ## The loop

The induction is on the fuel.  `AddCovers` is the invariant: what was met is on the list or has
had its neighbours met, and what was taken off the list could be followed. -/

namespace FsGraph

/-- No inode is behind the unset variable, or it is never read. -/
def Blind (g : FsGraph) (slot : ℕ → DentrySlot) (start : Inode) : Prop :=
  g.Resolves start ∨ ∀ k j, slot k ≠ .positive j

lemma Blind.nextWith_eq (h : g.Blind slot start) (hi : Reach g.next start i) (k : ℕ) :
    g.nextWith (slot k) i = g.next i :=
  FsGraph.nextWith_eq (h.imp (fun hres => hres i hi) fun hslot => hslot k)

end FsGraph

/-- What holds in a round: the search covers, the stamps tell, and what was taken off the list
    could be followed. -/
structure AddCovers (g : FsGraph) (slot : ℕ → DentrySlot) (nonce : ℕ) (start : Inode)
    (w : AddWalk) : Prop where
  covers : Covers g.next start w.calls w.stack
  met : AddMet nonce w
  followed : ∀ x ∈ w.calls, x ∈ w.stack ∨ ∃ k, ¬ g.Wild (slot k) x

/-- One round. -/
lemma AddCovers.follow (hslab : ∀ k, (slab k).fsOk = true) (hnonce : 1 ≤ nonce)
    (hblind : g.Blind slot start)
    {w w' : AddWalk} {d : Inode} {rest : List Inode} (h : AddCovers g slot nonce start w)
    (hstack : w.stack = d :: rest)
    (hrun : { w with stack := rest }.follow g slot slab nonce d = .ok w') :
    AddCovers g slot nonce start w' := by
  have hc := h.covers
  rw [hstack] at hc
  have hd : Reach g.next start d := hc.reach d (hc.opened_mem d (by simp))
  rw [AddWalk.follow_eq] at hrun
  by_cases hwild : g.Wild (slot w.links) d
  · rw [if_pos hwild] at hrun
    cases hrun
  · rw [if_neg hwild, hblind.nextWith_eq hd] at hrun
    obtain ⟨hmet, hnew, hkeep, hmem⟩ := AddMet.meet_all hslab hnonce (g.next d)
      (w := { w with stack := rest, links := w.links + if g.isSymlink d then 1 else 0 })
      ⟨h.met.stamped, h.met.devices⟩
    have hcalls := AddWalk.calls_foldl slab nonce (g.next d)
      { w with stack := rest, links := w.links + if g.isSymlink d then 1 else 0 }
    rw [Except.ok.inj hrun] at hmet hnew hkeep hmem hcalls
    refine ⟨?_, hmet, fun x hx => ?_⟩
    · rw [hcalls]
      exact hc.step hkeep hmem fun y hy => (hnew y hy).imp id Or.inl
    · rw [hcalls] at hx
      rcases List.mem_append.mp hx with hx | hx
      · rcases h.followed x hx with hx | hx
        · rw [hstack] at hx
          rcases List.mem_cons.mp hx with rfl | hx
          · exact Or.inr ⟨w.links, hwild⟩
          · exact Or.inl (hkeep x hx)
        · exact Or.inr hx
      · rcases hnew x hx with hx | hx
        · rcases h.followed x hx with hx | hx
          · rw [hstack] at hx
            rcases List.mem_cons.mp hx with rfl | hx
            · exact Or.inr ⟨w.links, hwild⟩
            · exact Or.inl (hkeep x hx)
          · exact Or.inr hx
        · exact Or.inl hx

/-- The loop. -/
lemma AddCovers.replay (hslab : ∀ k, (slab k).fsOk = true) (hnonce : 1 ≤ nonce)
    (hblind : g.Blind slot start) :
    ∀ {fuel : ℕ} {w w' : AddWalk}, AddCovers g slot nonce start w →
    replayAdd g slot slab nonce fuel w = .ok w' → AddCovers g slot nonce start w' ∧ w'.stack = []
  | 0, _, _, _, hrun => by cases hrun
  | fuel + 1, w, w', h, hrun => by
      rw [replayAdd] at hrun
      cases hstack : w.stack with
      | nil =>
          rw [hstack] at hrun
          obtain rfl := Except.ok.inj hrun
          exact ⟨h, hstack⟩
      | cons d rest =>
          rw [hstack] at hrun
          dsimp only at hrun
          cases hfollow : { w with stack := rest }.follow g slot slab nonce d with
          | error stop =>
              rw [hfollow] at hrun
              cases hrun
          | ok w₁ =>
              rw [hfollow] at hrun
              exact AddCovers.replay hslab hnonce hblind
                (h.follow hslab hnonce hblind hstack hfollow) hrun

/-- Before the loop. -/
lemma AddCovers.init (hslab : ∀ k, (slab k).fsOk = true) (hnonce : 1 ≤ nonce)
    (hstamps : StampsBelow nonce stores) (g : FsGraph) (slot : ℕ → DentrySlot) (start : Inode) :
    AddCovers g slot nonce start ((AddWalk.start stores).meet slab nonce start) := by
  have hinit : AddMet nonce (AddWalk.start stores) :=
    ⟨hstamps.stampedMet [], by simp [AddWalk.start]⟩
  obtain ⟨hmet, hnew, -, -⟩ := hinit.meet hslab hnonce start
  have hret : (insertInodeHt (slab 0) nonce start stores).1 ≠ -1 := by
    intro hret
    simp [AddWalk.meet, AddWalk.start, hret] at hnew
  have hstack : ((AddWalk.start stores).meet slab nonce start).stack = [start] := by
    simp [AddWalk.meet, AddWalk.start, hret]
  have hcalls : ((AddWalk.start stores).meet slab nonce start).calls = [start] := rfl
  refine ⟨?_, hmet, fun x hx => Or.inl (by rwa [hstack, ← hcalls])⟩
  rw [hstack, hcalls]
  exact Covers.init g.next start

/-- **What an addition that returns has met** is what can be reached, and every device met has a
    table then. -/
theorem storeIterateAddCalls_covers (hslab : ∀ k, (slab k).fsOk = true) (hnonce : 1 ≤ nonce)
    (hstamps : StampsBelow nonce stores) (hblind : g.Blind slot start)
    (hrun : storeIterateAddCalls g slot slab nonce fuel start stores = .ok (calls, after)) :
    (∀ i, i ∈ calls ↔ Reach g.next start i) ∧ (∀ i ∈ calls, i.dev ∈ after.map StoreFs.numbers) ∧
      ∀ i ∈ calls, ∃ k, ¬ g.Wild (slot k) i := by
  unfold storeIterateAddCalls at hrun
  cases hreplay :
      replayAdd g slot slab nonce fuel ((AddWalk.start stores).meet slab nonce start) with
  | error stop => simp [hreplay, Except.map] at hrun
  | ok w =>
      rw [hreplay] at hrun
      obtain ⟨rfl, rfl⟩ := Prod.mk.inj (Except.ok.inj hrun)
      obtain ⟨h, hstack⟩ :=
        (AddCovers.init hslab hnonce hstamps g slot start).replay hslab hnonce hblind hreplay
      have hc := h.covers
      rw [hstack] at hc
      refine ⟨fun i => hc.mem_iff, h.met.devices, fun i hi => (h.followed i hi).resolve_left ?_⟩
      rw [hstack]
      exact List.not_mem_nil

/-! ## The unset variable

Running the traversal with a wild pointer in the variable is a way to say that the variable is not
read: it returns only if every symlink that it comes to resolves, and it then does the same with
any contents. -/

/-- **A traversal that would crash at the first symlink that does not resolve** returns only when
    there is none. -/
theorem FsGraph.Resolves.of_wild (hslab : ∀ k, (slab k).fsOk = true) (hnonce : 1 ≤ nonce)
    (hstamps : StampsBelow nonce stores)
    (hrun : storeIterateAddCalls g (fun _ => .wild) slab nonce fuel start stores
        = .ok (calls, after)) :
    g.Resolves start := by
  obtain ⟨hcalls, -, hfollowed⟩ :=
    storeIterateAddCalls_covers hslab hnonce hstamps (Or.inr (by simp)) hrun
  intro i hi hlink
  obtain ⟨-, hwild⟩ := hfollowed i ((hcalls i).mpr hi)
  by_contra hnone
  rw [Option.not_isSome_iff_eq_none] at hnone
  exact hwild ⟨hlink, by simp [FsGraph.resolve, hnone]⟩

end

end KLRM
