import FileKLRM.Core.Worklist
import FileKLRM.PathStore.InodeTableLaws
import FileKLRM.PathStore.Traversal

/-!
# What `store_iterate_rm` does

The counterpart of `addTraversal_spec`.  The removal follows directories only (`FsGraph.dirNext`),
and it comes back from `rm_inode_ht` as long as the inode still has a node: one whose count goes
to zero loses its node at the first meeting, and the second does not return.  So a traversal from
a start that is not a symlink with a target returns exactly when everything that it reaches has a
node, and what is counted once is met once (`rmTraversal_returns_iff`).
-/

namespace KLRM

/-- The inodes that `store_iterate_rm` goes on to from an inode. -/
def FsGraph.dirNext (g : FsGraph) (i : Inode) : List Inode := (g.subdirs i).filterMap id

/-- What a removal follows, an addition follows. -/
lemma FsGraph.next_of_dirNext {g : FsGraph} {i j : Inode} (h : j ∈ g.dirNext i) : j ∈ g.next i := by
  rw [FsGraph.next]
  split_ifs with hlink
  · rw [FsGraph.dirNext, g.symlink_subdirs i hlink] at h
    cases h
  · exact h

/-- The removal would not follow a symlink to its target; it crashes on one it starts from,
    unless it finds `NULL` or a dentry without an inode in `resolved.dentry`. -/
def FsGraph.CrashesAt (g : FsGraph) (unset : DentrySlot) (i : Inode) : Prop :=
  g.isSymlink i = true ∧ ¬ (g.resolve unset i).Harmless

/-! ## What the calls do to the table

`uncounted` is the node of an inode after the meetings so far, and `RmTable` says that the table has
just these.  A meeting counts the inode down if it is the first (`rm_uncounted`); one that finds no
node any more does not return (`rm_gone`). -/

/-- The node of `i` goes when it is counted down. -/
def LastOne (stores : List StoreFs) (i : Inode) : Prop :=
  ∃ node, entries stores i = some node ∧ node.refCount % 2 ^ 64 = 1

/-- The node of an inode after the meetings in `trace`. -/
def uncounted (nonce : ℕ) (stores : List StoreFs) (trace : List Inode) (i : Inode) :
    Option InodeHt :=
  if i ∈ trace then (entries stores i).bind fun node => (oneLess nonce node).head?
  else entries stores i

/-- A removal relies on a well-formed table in which no node carries its number yet. -/
structure RmReady (nonce : ℕ) (stores : List StoreFs) : Prop where
  tableOk : TableOk stores
  stamps : ∀ i node, entries stores i = some node → node.stamp < nonce

/-- What a meeting finds and leaves: a node that has not gone before. -/
def StillThere (stores : List StoreFs) (trace : List Inode) (i : Inode) : Prop :=
  (entries stores i).isSome ∧ (LastOne stores i → i ∉ trace)

/-- The table after the meetings in `trace`. -/
structure RmTable (nonce : ℕ) (stores : List StoreFs) (trace : List Inode)
    (stores' : List StoreFs) : Prop where
  tableOk : TableOk stores'
  numbers : stores'.map StoreFs.numbers = stores.map StoreFs.numbers
  entries : entries stores' = uncounted nonce stores trace
  there : ∀ i ∈ trace, (KLRM.entries stores i).isSome ∧ (LastOne stores i → trace.count i ≤ 1)

section

variable {g : FsGraph} {slot : ℕ → DentrySlot} {nonce : ℕ} {stores stores' : List StoreFs}
  {trace : List Inode} {i j start : Inode}

lemma uncounted_of_notMem (hi : i ∉ trace) :
    uncounted nonce stores trace i = entries stores i := if_neg hi

lemma uncounted_concat_of_ne (hji : j ≠ i) :
    uncounted nonce stores (trace ++ [i]) j = uncounted nonce stores trace j := by
  unfold uncounted
  simp only [List.mem_append, List.mem_singleton, hji, or_false]

/-- The table before the first meeting. -/
lemma RmReady.table (hr : RmReady nonce stores) : RmTable nonce stores [] stores where
  tableOk := hr.tableOk
  numbers := rfl
  entries := by
    funext i
    rw [uncounted_of_notMem List.not_mem_nil]
  there := by simp

lemma StillThere.concat (h : ∀ i ∈ trace, (entries stores i).isSome ∧
    (LastOne stores i → trace.count i ≤ 1)) (hi : StillThere stores trace i) :
    ∀ j ∈ trace ++ [i], (entries stores j).isSome ∧
    (LastOne stores j → (trace ++ [i]).count j ≤ 1) := by
  intro j hj
  rw [Worklist.count_concat]
  by_cases hji : j = i
  · subst hji
    refine ⟨hi.1, fun hlast => ?_⟩
    rw [if_pos rfl, List.count_eq_zero.mpr (hi.2 hlast)]
  · have hmem : j ∈ trace := by simpa [hji] using hj
    rw [if_neg hji, Nat.add_zero]
    exact h j hmem

/-- One removal of the traversal, seen on the table: it comes back when the node is still there. -/
lemma rm_uncounted (hr : RmReady nonce stores) (ht : RmTable nonce stores trace stores')
    (hi : StillThere stores trace i) :
    ∃ stores'', rmInodeHt nonce i stores' = .ok (if i ∈ trace then -1 else 1, stores'') ∧
      RmTable nonce stores (trace ++ [i]) stores'' := by
  obtain ⟨node, hnode⟩ := Option.isSome_iff_exists.mp hi.1
  have hcur : entries stores' i = uncounted nonce stores trace i := by rw [ht.entries]
  by_cases hmem : i ∈ trace
  · -- the node has stayed, with the number of the traversal
    have hnot : node.refCount % 2 ^ 64 ≠ 1 := fun hone => hi.2 ⟨node, hnode, hone⟩ hmem
    rw [uncounted, if_pos hmem, hnode, Option.bind_some, oneLess, if_neg hnot,
      List.head?_cons] at hcur
    refine ⟨stores', by rw [rmInodeHt_seen hcur (by simp), if_pos hmem], ht.tableOk, ht.numbers, ?_,
      hi.concat ht.there⟩
    rw [ht.entries]
    funext j
    unfold uncounted
    by_cases hji : j = i
    · simp [hji, hmem]
    · simp [hji]
  · rw [uncounted_of_notMem hmem] at hcur
    obtain ⟨stores'', hrun, hkeeps, hentries⟩ := rmInodeHt_count ht.tableOk (hcur.trans hnode)
      (hr.stamps i node hnode)
    refine ⟨stores'', by rw [hrun, if_neg hmem], hkeeps.tableOk ht.tableOk, ?_, ?_,
      hi.concat ht.there⟩
    · rw [(rmInodeHt_run hrun).2.numbers, ht.numbers]
    · rw [hentries]
      funext j
      rw [Function.update_apply]
      split_ifs with hji
      · rw [hji, uncounted, if_pos (by simp), hnode, Option.bind_some, countDown_eq]
      · rw [uncounted_concat_of_ne hji, ht.entries]

/-- And it does not come back when the device has a table and the node has gone. -/
lemma rm_gone (ht : RmTable nonce stores trace stores') (hdev : i.dev ∈ stores.map StoreFs.numbers)
    (hi : ¬ StillThere stores trace i) : rmInodeHt nonce i stores' = .error .wildCursor := by
  have hdev' : ∃ store ∈ stores', store.numbers = i.dev := by
    rw [← ht.numbers] at hdev
    exact List.mem_map.mp hdev
  refine rmInodeHt_absent hdev' ?_
  rw [ht.entries]
  cases hnode : entries stores i with
  | none => simp [uncounted, hnode]
  | some node =>
      have hgone : LastOne stores i ∧ i ∈ trace := by
        by_contra hcon
        refine hi ⟨by simp [hnode], fun hlast hmem => hcon ⟨hlast, hmem⟩⟩
      obtain ⟨⟨node', hnode', hone⟩, hmem⟩ := hgone
      rw [hnode] at hnode'
      obtain rfl := Option.some.inj hnode'
      rw [uncounted, if_pos hmem, hnode, Option.bind_some, oneLess, if_pos hone]
      rfl

/-! ## The loop, with the calls it makes

The calls are not part of the function of the source; they are added so that what was met can be
spoken of, and taken away again by `storeIterateRmCalls_snd`. -/

/-- `replayRm`, and the inodes that `rm_inode_ht` was called for. -/
def rmCalls (g : FsGraph) (slot : ℕ → DentrySlot) (nonce : ℕ) :
    (fuel links : ℕ) → (stack calls : List Inode) → List StoreFs →
    Except Stop (List Inode × List StoreFs)
  | 0, _, _, _, _ => .error .outOfFuel
  | fuel + 1, links, stack, calls, stores =>
      match stack with
      | [] => .ok (calls, stores)
      | dir :: rest =>
          if g.isSymlink dir then
            match g.resolve (slot links) dir with
            | .null | .negative => rmCalls g slot nonce fuel (links + 1) rest calls stores
            | .positive _ => .error .useAfterFree
            | .wild => .error .wildPointer
          else
            match (g.dirNext dir).foldlM (meetRm g nonce) (rest, stores) with
            | .error stop => .error stop
            | .ok (stack, stores) =>
                rmCalls g slot nonce fuel links stack (calls ++ g.dirNext dir) stores

/-- `store_iterate_rm`, and the inodes that `rm_inode_ht` was called for. -/
def storeIterateRmCalls (g : FsGraph) (slot : ℕ → DentrySlot) (nonce fuel : ℕ) (dir : Inode)
    (stores : List StoreFs) : Except Stop (List Inode × List StoreFs) :=
  match rmInodeHt nonce dir stores with
  | .error stop => .error stop
  | .ok (ret, stores) =>
      if ret = -1 then .ok ([dir], stores) else rmCalls g slot nonce fuel 0 [dir] [dir] stores

lemma rmCalls_snd (g : FsGraph) (slot : ℕ → DentrySlot) (nonce : ℕ) :
    ∀ (fuel links : ℕ) (stack calls : List Inode)
    (stores : List StoreFs), (rmCalls g slot nonce fuel links stack calls stores).map Prod.snd
      = replayRm g slot nonce fuel links stack stores
  | 0, _, _, _, _ => rfl
  | fuel + 1, links, stack, calls, stores => by
      cases stack with
      | nil => rfl
      | cons dir rest =>
          rw [rmCalls, replayRm]
          split_ifs with hlink
          · cases g.resolve (slot links) dir with
            | null | negative => exact rmCalls_snd g slot nonce fuel (links + 1) rest calls stores
            | positive _ | wild => rfl
          · rw [FsGraph.dirNext]
            cases ((g.subdirs dir).filterMap id).foldlM (meetRm g nonce) (rest, stores) with
            | error stop => rfl
            | ok r => exact rmCalls_snd g slot nonce fuel links r.1 _ r.2

/-- Without the calls it is `store_iterate_rm`. -/
lemma storeIterateRmCalls_snd (g : FsGraph) (slot : ℕ → DentrySlot) (nonce fuel : ℕ) (dir : Inode)
    (stores : List StoreFs) : (storeIterateRmCalls g slot nonce fuel dir stores).map Prod.snd
      = storeIterateRm g slot nonce fuel dir stores := by
  rw [storeIterateRmCalls, storeIterateRm]
  cases rmInodeHt nonce dir stores with
  | error stop => rfl
  | ok r =>
      obtain ⟨ret, stores⟩ := r
      simp only [bind, Except.bind]
      split_ifs
      · rfl
      · exact rmCalls_snd g slot nonce fuel 0 _ _ stores

/-- What every removal keeps of the tables, the traversal keeps. -/
lemma storeIterateRm_keeps {P : List StoreFs → Prop} {fuel : ℕ} {after : List StoreFs}
    (hrm : ∀ {i : Inode} {ret : ℤ} {stores stores' : List StoreFs}, P stores →
      rmInodeHt nonce i stores = .ok (ret, stores') → P stores')
    (h : P stores) (hrun : storeIterateRm g slot nonce fuel start stores = .ok after) :
    P after := by
  have hmeet : ∀ {w w' : List Inode × List StoreFs} {i : Inode}, P w.2 →
      meetRm g nonce w i = .ok w' → P w'.2 := by
    intro w w' i hw hmeet
    cases hi : rmInodeHt nonce i w.2 with
    | error stop => simp [meetRm, hi, bind, Except.bind] at hmeet
    | ok r =>
        simp only [meetRm, hi, bind, Except.bind, Except.ok.injEq] at hmeet
        rw [← hmeet]
        exact hrm hw hi
  have hloop : ∀ (fuel links : ℕ) (stack : List Inode) (stores : List StoreFs), P stores →
      replayRm g slot nonce fuel links stack stores = .ok after → P after := by
    intro fuel
    induction fuel with
    | zero =>
        intro links stack stores _ h
        cases h
    | succ fuel ih =>
        intro links stack stores hP h
        cases stack with
        | nil => exact Except.ok.inj h ▸ hP
        | cons dir rest =>
            rw [replayRm] at h
            split_ifs at h
            · cases hresolve : g.resolve (slot links) dir with
              | null | negative =>
                  rw [hresolve] at h
                  exact ih (links + 1) rest stores hP h
              | positive _ | wild =>
                  rw [hresolve] at h
                  cases h
            · simp only [bind, Except.bind] at h
              split at h
              · cases h
              · rename_i r hfold
                exact ih links r.1 r.2 (foldlM_keeps (P := fun w => P w.2) hmeet _ hP hfold) h
  simp only [storeIterateRm, bind, Except.bind] at hrun
  split at hrun
  · cases hrun
  · rename_i r hi
    split_ifs at hrun
    · exact Except.ok.inj hrun ▸ hrm h hi
    · exact hloop fuel 0 [start] r.2 (hrm h hi) hrun

/-- More rounds do not change what the loop returns. -/
lemma rmCalls_mono : ∀ {fuel fuel' links : ℕ} {stack calls : List Inode} {stores : List StoreFs}
    {r : List Inode × List StoreFs}, rmCalls g slot nonce fuel links stack calls stores = .ok r →
    fuel ≤ fuel' → rmCalls g slot nonce fuel' links stack calls stores = .ok r
  | 0, _, _, _, _, _, _, h, _ => by cases h
  | fuel + 1, 0, _, _, _, _, _, _, hle => by omega
  | fuel + 1, fuel' + 1, links, stack, calls, stores, r, h, hle => by
      cases stack with
      | nil => exact h
      | cons dir rest =>
          rw [rmCalls] at h ⊢
          split_ifs at h ⊢ with hlink
          · cases hresolve : g.resolve (slot links) dir with
            | null | negative =>
                rw [hresolve] at h
                exact rmCalls_mono h (by omega)
            | positive _ | wild =>
                rw [hresolve] at h
                cases h
          · cases hfold : (g.dirNext dir).foldlM (meetRm g nonce) (rest, stores) with
            | error stop =>
                rw [hfold] at h
                cases h
            | ok r' =>
                rw [hfold] at h
                exact rmCalls_mono h (by omega)

lemma storeIterateRmCalls_mono {fuel fuel' : ℕ} {r : List Inode × List StoreFs}
    (h : storeIterateRmCalls g slot nonce fuel start stores = .ok r) (hle : fuel ≤ fuel') :
    storeIterateRmCalls g slot nonce fuel' start stores = .ok r := by
  rw [storeIterateRmCalls] at h ⊢
  cases hrm : rmInodeHt nonce start stores with
  | error stop =>
      rw [hrm] at h
      cases h
  | ok r' =>
      rw [hrm] at h
      dsimp only at h ⊢
      split_ifs at h ⊢
      · exact h
      · exact rmCalls_mono h hle

/-! ## The search

A search in which the first meeting pushes, provided that the inode has children; those without
any would have nothing to add.  Forwards, a meeting that returned has found the node still there;
backwards, a node that is still there lets the meeting return. -/

/-- The search that the traversal is. -/
abbrev RmSearch (g : FsGraph) (start : Inode) (trace popped opened done : List Inode) : Prop :=
  Worklist g.dirNext start (fun _ k => k = 0) trace popped opened done

lemma count_eq_zero_le (n : ℕ) : Nat.count (fun k => k = 0) n ≤ 1 := by
  induction n with
  | zero => simp
  | succ n ih =>
      rw [Nat.count_succ]
      split_ifs with hn
      · simp [hn]
      · exact ih

section

variable {stack popped done calls after : List Inode} {d y : Inode} {cur final : List StoreFs}

/-- What a meeting that comes back has found and done. -/
lemma meetRm_run (hr : RmReady nonce stores) (hs : RmSearch g start trace popped (d :: stack) done)
    (ht : RmTable nonce stores trace cur) (hy : y ∈ g.dirNext d)
    (hdev : y.dev ∈ stores.map StoreFs.numbers)
    {r : List Inode × List StoreFs} (hrun : meetRm g nonce (stack, cur) y = .ok r) :
    ∃ popped', popped.length ≤ popped'.length ∧
      RmSearch g start (trace ++ [y]) popped' (d :: r.1) (done ++ [y]) ∧
      RmTable nonce stores (trace ++ [y]) r.2 ∧ ∀ x ∈ r.1, x ∈ stack ∨ g.subdirs x ≠ [] := by
  have hthere : StillThere stores trace y := by
    by_contra hgone
    simp [meetRm, rm_gone ht hdev hgone, bind, Except.bind] at hrun
  obtain ⟨stores'', hrm, ht'⟩ := rm_uncounted hr ht hthere
  simp only [meetRm, hrm, bind, Except.bind, Except.ok.injEq] at hrun
  subst hrun
  by_cases hmem : y ∈ trace
  · have hcount : trace.count y ≠ 0 := (List.count_pos_iff.mpr hmem).ne'
    simp only [hmem, if_true, ne_eq, not_true_eq_false, and_false, if_false]
    exact ⟨popped, le_rfl, hs.pass_step hy hcount, ht', fun x hx => Or.inl hx⟩
  · have hcount : trace.count y = 0 := List.count_eq_zero.mpr hmem
    have hone : (1 : ℤ) ≠ -1 := by norm_num
    simp only [hmem, if_false]
    split_ifs with hsub
    · refine ⟨popped, le_rfl, hs.push_step hy hcount, ht', fun x hx => ?_⟩
      rcases List.mem_cons.mp hx with rfl | hx
      · exact Or.inr hsub.1
      · exact Or.inl hx
    · have hnil : g.dirNext y = [] := by
        have hsub' : g.subdirs y = [] := by
          by_contra hne
          exact hsub ⟨hne, hone⟩
        rw [FsGraph.dirNext, hsub']
        rfl
      exact ⟨popped ++ [y], by simp, hs.skip_step hy hcount hnil, ht', fun x hx => Or.inl hx⟩

/-- A meeting comes back when the node is still there. -/
lemma meetRm_ok (g : FsGraph) (stack : List Inode) (hr : RmReady nonce stores)
    (ht : RmTable nonce stores trace cur)
    (hy : StillThere stores trace y) : ∃ r, meetRm g nonce (stack, cur) y = .ok r := by
  obtain ⟨stores'', hrm, -⟩ := rm_uncounted hr ht hy
  simp only [meetRm, hrm, bind, Except.bind]
  exact ⟨_, rfl⟩

/-- All neighbours of the inode in hand. -/
lemma meetRm_all_run (hr : RmReady nonce stores)
    (hdev : ∀ y ∈ g.dirNext d, y.dev ∈ stores.map StoreFs.numbers) :
    ∀ (ys done trace popped stack : List Inode) (cur : List StoreFs), g.dirNext d = done ++ ys →
    RmSearch g start trace popped (d :: stack) done → RmTable nonce stores trace cur →
    ∀ {r : List Inode × List StoreFs}, ys.foldlM (meetRm g nonce) (stack, cur) = .ok r →
    ∃ popped', popped.length ≤ popped'.length ∧
      RmSearch g start (trace ++ ys) popped' (d :: r.1) (g.dirNext d) ∧
      RmTable nonce stores (trace ++ ys) r.2 ∧ ∀ x ∈ r.1, x ∈ stack ∨ g.subdirs x ≠ []
  | [], done, trace, popped, stack, cur, hnext, hs, ht, r, hrun => by
      obtain rfl := Except.ok.inj hrun
      rw [List.append_nil] at hnext
      refine ⟨popped, le_rfl, ?_, by simpa using ht, fun x hx => Or.inl hx⟩
      rw [hnext, List.append_nil]
      exact hs
  | y :: ys, done, trace, popped, stack, cur, hnext, hs, ht, r, hrun => by
      have hy : y ∈ g.dirNext d := by simp [hnext]
      rw [List.foldlM_cons] at hrun
      cases hmeet : meetRm g nonce (stack, cur) y with
      | error stop =>
          rw [hmeet] at hrun
          cases hrun
      | ok r₁ =>
          rw [hmeet] at hrun
          obtain ⟨popped₁, hlen₁, hs₁, ht₁, hmem₁⟩ := meetRm_run hr hs ht hy (hdev y hy) hmeet
          obtain ⟨popped₂, hlen₂, hs₂, ht₂, hmem₂⟩ :=
            meetRm_all_run hr hdev ys (done ++ [y]) (trace ++ [y])
            popped₁ r₁.1 r₁.2 (by simp [hnext]) hs₁ ht₁ hrun
          rw [List.append_assoc] at hs₂ ht₂
          refine ⟨popped₂, hlen₁.trans hlen₂, hs₂, ht₂, fun x hx => ?_⟩
          rcases hmem₂ x hx with hx | hx
          · exact hmem₁ x hx
          · exact Or.inr hx

/-- What the removal asks of the table: a node for everything that it reaches, and a single edge
    to what is counted once. -/
def Removable (g : FsGraph) (start : Inode) (stores : List StoreFs) : Prop :=
  ∀ i, Reach g.dirNext start i →
    (entries stores i).isSome ∧ (LastOne stores i → MetOnce g.dirNext start i)

/-- Under these conditions every meeting comes back. -/
lemma meetRm_all_ok (hr : RmReady nonce stores)
    (hdev : ∀ y ∈ g.dirNext d, y.dev ∈ stores.map StoreFs.numbers)
    (hable : Removable g start stores) :
    ∀ (ys done trace popped stack : List Inode) (cur : List StoreFs), g.dirNext d = done ++ ys →
    RmSearch g start trace popped (d :: stack) done → RmTable nonce stores trace cur →
    ∃ r, ys.foldlM (meetRm g nonce) (stack, cur) = .ok r
  | [], _, _, _, stack, cur, _, _, _ => ⟨(stack, cur), rfl⟩
  | y :: ys, done, trace, popped, stack, cur, hnext, hs, ht => by
      have hy : y ∈ g.dirNext d := by simp [hnext]
      obtain ⟨hsome, honce⟩ := hable y ((hs.opened_reach (by simp)).tail hy)
      have hthere : StillThere stores trace y :=
        ⟨hsome, fun hlast => hs.notMem_of_metOnce (fun _ _ hk => hk) (honce hlast) hnext⟩
      obtain ⟨r₁, hmeet⟩ := meetRm_ok g stack hr ht hthere
      obtain ⟨popped₁, -, hs₁, ht₁, -⟩ := meetRm_run hr hs ht hy (hdev y hy) hmeet
      obtain ⟨r, hrun⟩ :=
        meetRm_all_ok hr hdev hable ys (done ++ [y]) (trace ++ [y]) popped₁ r₁.1 r₁.2
        (by simp [hnext]) hs₁ ht₁
      exact ⟨r, by rw [List.foldlM_cons, hmeet]; exact hrun⟩

/-- The loop, when it returns: the calls are the meetings of the search, at its end. -/
lemma rmCalls_run (hr : RmReady nonce stores)
    (hdev : ∀ i, Reach g.dirNext start i → i.dev ∈ stores.map StoreFs.numbers) :
    ∀ {fuel links : ℕ} {stack trace popped : List Inode} {cur : List StoreFs},
    RmSearch g start trace popped stack [] → RmTable nonce stores trace cur →
    rmCalls g slot nonce fuel links stack trace cur = .ok (calls, final) →
    ∃ popped', RmSearch g start calls popped' [] [] ∧ RmTable nonce stores calls final
  | 0, _, _, _, _, _, _, _, hrun => by cases hrun
  | fuel + 1, _, [], trace, popped, cur, hs, ht, hrun => by
      obtain ⟨rfl, rfl⟩ := Prod.mk.inj (Except.ok.inj hrun)
      exact ⟨popped, hs, ht⟩
  | fuel + 1, links, d :: rest, trace, popped, cur, hs, ht, hrun => by
      have hd : Reach g.dirNext start d := hs.opened_reach (by simp)
      rw [rmCalls] at hrun
      split_ifs at hrun with hlink
      · -- nothing is below a symlink
        have hnil : g.dirNext d = [] := by rw [FsGraph.dirNext, g.symlink_subdirs d hlink]; rfl
        rw [← hnil] at hs
        cases hresolve : g.resolve (slot links) d with
        | null | negative =>
            rw [hresolve] at hrun
            exact rmCalls_run hr hdev hs.close_step ht hrun
        | positive _ | wild => simp [hresolve] at hrun
      · cases hfold : (g.dirNext d).foldlM (meetRm g nonce) (rest, cur) with
        | error stop => simp [hfold] at hrun
        | ok r =>
            rw [hfold] at hrun
            obtain ⟨popped', -, hs', ht', -⟩ := meetRm_all_run hr (fun y hy => hdev y (hd.tail hy))
              (g.dirNext d) [] trace popped rest cur rfl hs ht hfold
            exact rmCalls_run hr hdev hs'.close_step ht' hrun

/-- The loop returns, with rounds enough for every push; a symlink on the list is the one it has
    started from. -/
lemma rmCalls_ok (hr : RmReady nonce stores)
    (hdev : ∀ i, Reach g.dirNext start i → i.dev ∈ stores.map StoreFs.numbers)
    (hable : Removable g start stores) {R : Finset Inode} (hR : ∀ i,
      Reach g.dirNext start i → i ∈ R) :
    ∀ (fuel links : ℕ) (stack trace popped : List Inode) (cur : List StoreFs),
    RmSearch g start trace popped stack [] → RmTable nonce stores trace cur →
    (∀ x ∈ stack, g.isSymlink x = true → stack = [x] ∧ ¬ g.CrashesAt (slot links) x) →
    R.card < fuel + popped.length → ∃ r, rmCalls g slot nonce fuel links stack trace cur = .ok r
  | 0, _, stack, trace, popped, cur, hs, _, _, hfuel => by
      have := hs.length_le hR fun _ n => count_eq_zero_le n
      omega
  | fuel + 1, _, [], trace, popped, cur, _, _, _, _ => ⟨(trace, cur), rfl⟩
  | fuel + 1, links, d :: rest, trace, popped, cur, hs, ht, halone, hfuel => by
      have hd : Reach g.dirNext start d := hs.opened_reach (by simp)
      have hlen : R.card < fuel + (popped ++ [d]).length := by
        rw [List.length_append, List.length_singleton]
        omega
      rw [rmCalls]
      split_ifs with hlink
      · obtain ⟨heq, hcrash⟩ := halone d (by simp) hlink
        have hrest : rest = [] := (List.cons_eq_cons.mp heq).2
        have hnil : g.dirNext d = [] := by rw [FsGraph.dirNext, g.symlink_subdirs d hlink]; rfl
        rw [← hnil] at hs
        cases hresolve : g.resolve (slot links) d with
        | null | negative =>
            exact rmCalls_ok hr hdev hable hR fuel (links + 1) rest trace (popped ++ [d]) cur
              hs.close_step ht (by simp [hrest]) hlen
        | positive _ | wild => exact absurd ⟨hlink, by simp [hresolve, DentrySlot.Harmless]⟩ hcrash
      · have hdev' : ∀ y ∈ g.dirNext d, y.dev ∈ stores.map StoreFs.numbers :=
          fun y hy => hdev y (hd.tail hy)
        obtain ⟨r, hfold⟩ :=
          meetRm_all_ok hr hdev' hable (g.dirNext d) [] trace popped rest cur rfl hs ht
        obtain ⟨popped', hlen', hs', ht', hmem⟩ :=
          meetRm_all_run hr hdev' (g.dirNext d) [] trace popped rest cur rfl hs ht hfold
        have halone' : ∀ x ∈ r.1, g.isSymlink x = true → r.1 = [x] ∧
            ¬ g.CrashesAt (slot links) x := by
          intro x hx hlink'
          rcases hmem x hx with hx | hx
          · obtain ⟨heq, -⟩ := halone x (by simp [hx]) hlink'
            rw [(List.cons_eq_cons.mp heq).2] at hx
            cases hx
          · exact absurd (g.symlink_subdirs x hlink') hx
        rw [hfold]
        exact rmCalls_ok hr hdev hable hR fuel links r.1 _ (popped' ++ [d]) r.2
          hs'.close_step ht' halone' (by rw [List.length_append, List.length_singleton]; omega)

end

/-! ## The traversal

The two directions together: when the whole removal returns, and what the table is then. -/

/-- What holds when the traversal has returned. -/
def RmDone (g : FsGraph) (nonce : ℕ) (start : Inode) (stores : List StoreFs) (calls : List Inode)
    (after : List StoreFs) : Prop :=
  ∃ popped, RmSearch g start calls popped [] [] ∧ RmTable nonce stores calls after

/-- **What `store_iterate_rm` does**: from a well-formed table, with a table for every device
    that is reached, its calls are the meetings of a search through directories, and the table is
    what they make of the one before. -/
theorem rmTraversal_spec (hr : RmReady nonce stores)
    (hdev : ∀ i, Reach g.dirNext start i → i.dev ∈ stores.map StoreFs.numbers) {fuel : ℕ}
    {calls : List Inode}
    {after : List StoreFs} (hrun : storeIterateRmCalls g slot nonce fuel start stores
        = .ok (calls, after)) :
    ¬ g.CrashesAt (slot 0) start ∧ RmDone g nonce start stores calls after := by
  have hthere : StillThere stores [] start := by
    by_contra hgone
    simp [storeIterateRmCalls, rm_gone hr.table (hdev start (Reach.refl _ _)) hgone] at hrun
  obtain ⟨stores₁, hrm, ht⟩ := rm_uncounted hr hr.table hthere
  simp only [storeIterateRmCalls, hrm, List.not_mem_nil, if_false] at hrun
  rw [if_neg (by norm_num)] at hrun
  refine ⟨?_, rmCalls_run hr hdev (Worklist.init g.dirNext rfl) ht hrun⟩
  rintro ⟨hlink, hfollowed⟩
  cases fuel with
  | zero => cases hrun
  | succ fuel =>
      rw [rmCalls, if_pos hlink] at hrun
      cases hresolve : g.resolve (slot 0) start with
      | null | negative => exact hfollowed (by simp [hresolve, DentrySlot.Harmless])
      | positive _ | wild => simp [hresolve] at hrun

/-- **When `store_iterate_rm` returns**: exactly when it does not crash on the start, everything
    that is reached through directories has a node, and what is counted once is met once. -/
theorem rmTraversal_returns_iff (hr : RmReady nonce stores)
    (hdev : ∀ i, Reach g.dirNext start i → i.dev ∈ stores.map StoreFs.numbers)
    (hfin : {i | Reach g.dirNext start i}.Finite) :
    (∃ fuel calls after, storeIterateRmCalls g slot nonce fuel start stores = .ok (calls, after)) ↔
      ¬ g.CrashesAt (slot 0) start ∧ Removable g start stores := by
  constructor
  · rintro ⟨fuel, calls, after, hrun⟩
    obtain ⟨hcrash, popped, hs, ht⟩ := rmTraversal_spec hr hdev hrun
    refine ⟨hcrash, fun i hi => ?_⟩
    obtain ⟨hsome, honce⟩ := ht.there i ((hs.mem_trace_iff fun _ => rfl).mpr hi)
    exact ⟨hsome, fun hlast => hs.metOnce_of_count (fun _ => rfl) (honce hlast)⟩
  · rintro ⟨hcrash, hable⟩
    have hR : ∀ i, Reach g.dirNext start i → i ∈ hfin.toFinset :=
      fun i hi => hfin.mem_toFinset.mpr hi
    obtain ⟨stores₁, hrm, ht⟩ := rm_uncounted hr hr.table
      ⟨(hable start (Reach.refl _ _)).1, fun _ => List.not_mem_nil⟩
    have halone : ∀ x ∈ [start], g.isSymlink x = true → [start] = [x] ∧
        ¬ g.CrashesAt (slot 0) x := by
      intro x hx _
      rw [List.mem_singleton.mp hx]
      exact ⟨rfl, hcrash⟩
    obtain ⟨r, hrun⟩ :=
      rmCalls_ok hr hdev hable hR (hfin.toFinset.card + 1) 0 [start] [start] [] stores₁
      (Worklist.init g.dirNext rfl) ht halone (by simp)
    refine ⟨hfin.toFinset.card + 1, r.1, r.2, ?_⟩
    simp only [storeIterateRmCalls, hrm, List.not_mem_nil, if_false]
    rw [if_neg (by norm_num)]
    exact hrun

end

end KLRM
