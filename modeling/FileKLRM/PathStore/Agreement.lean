import FileKLRM.PathStore.Coverage
import FileKLRM.PathStore.RmTraversal

/-!
# Whether the two traversals agree

`store_iterate_add` and `store_iterate_rm` from one start, the graph unchanged between them.
Whatever the table holds, the inodes that a traversal makes its calls for when it returns are
those that it can reach: through directories and symlinks for the addition
(`storeIterateAddCalls_covers`), through directories for the removal
(`storeIterateRmCalls_covers`).

So they agree when the symlinks make no difference: where everything is reached through
directories alone, and no symlink is followed to what was left in `resolved.dentry`
(`traversals_agree_iff`).
-/

namespace KLRM

section

variable {g : FsGraph} {slot : ℕ → DentrySlot} {slab : ℕ → SlabAnswer} {nonce fuel : ℕ}
  {stores after : List StoreFs} {trace calls : List Inode} {i start : Inode}

/-! ## The calls of a removal

The counterpart of `storeIterateAddCalls_covers`, along directories only.  It asks nothing of the
counts: a removal that returns has met what it can reach. -/

/-- What holds of the table after the meetings in `trace` of a removal. -/
structure RmMet (nonce : ℕ) (stores : List StoreFs) (trace : List Inode) (stores' : List StoreFs) :
    Prop where
  stamped : StampedMet nonce trace stores'
  numbers : stores'.map StoreFs.numbers = stores.map StoreFs.numbers
  others : ∀ i, i ∉ trace → entries stores' i = entries stores i
  found : ∀ i ∈ trace, i.dev ∈ stores.map StoreFs.numbers → (entries stores i).isSome

lemma RmMet.rm {stores' stores'' : List StoreFs} {ret : ℤ} (h : RmMet nonce stores trace stores')
    (hrun : rmInodeHt nonce i stores' = .ok (ret, stores'')) :
    RmMet nonce stores (trace ++ [i]) stores'' ∧ (ret = -1 → i ∈ trace) := by
  obtain ⟨hsome, hout⟩ := rmInodeHt_run hrun
  refine ⟨⟨?_, hout.numbers.trans h.numbers, fun j hj => ?_, fun j hj hdev => ?_⟩, ?_⟩
  · refine hout.every (h.stamped.concat i) fun b node _ hnum m hm _ => ?_
    rw [oneLess] at hm
    split_ifs at hm
    · cases hm
    · rw [List.mem_singleton.mp hm, hnum]
      simp
  · simp only [List.mem_append, List.mem_singleton, not_or] at hj
    rw [hout.entries_of_ne hj.2, h.others j hj.1]
  · by_cases hmem : j ∈ trace
    · exact h.found j hmem hdev
    · have hji : j = i := by simpa [hmem] using hj
      subst hji
      rw [← h.others j hmem]
      refine hsome (List.mem_map.mp ?_)
      rwa [h.numbers]
  · rintro rfl
    exact h.stamped.mem hout.stamp_of_seen

/-- One meeting of a removal. -/
lemma RmMet.meet {stack : List Inode} {stores' : List StoreFs}
    (h : RmMet nonce stores trace stores') (y : Inode)
    {r : List Inode × List StoreFs} (hrun : meetRm g nonce (stack, stores') y = .ok r) :
    RmMet nonce stores (trace ++ [y]) r.2 ∧ (y ∈ trace ∨ y ∈ r.1 ∨ g.dirNext y = []) ∧
      (∀ x ∈ stack, x ∈ r.1) ∧ ∀ x ∈ r.1, x ∈ stack ∨ x = y := by
  cases hrm : rmInodeHt nonce y stores' with
  | error stop => simp [meetRm, hrm, bind, Except.bind] at hrun
  | ok r' =>
      obtain ⟨ret, stores''⟩ := r'
      obtain ⟨h', hseen⟩ := h.rm hrm
      simp only [meetRm, hrm, bind, Except.bind, Except.ok.injEq] at hrun
      subst hrun
      refine ⟨h', ?_, fun x hx => ?_, fun x hx => ?_⟩
      · by_cases hret : ret = -1
        · exact Or.inl (hseen hret)
        · by_cases hsub : g.subdirs y = []
          · exact Or.inr (Or.inr (by rw [FsGraph.dirNext, hsub]; rfl))
          · exact Or.inr (Or.inl (by simp [hsub, hret]))
      · dsimp only
        split_ifs
        · exact List.mem_cons_of_mem y hx
        · exact hx
      · dsimp only at hx
        split_ifs at hx
        · exact (List.mem_cons.mp hx).symm
        · exact Or.inl hx

lemma RmMet.meet_all : ∀ (ys : List Inode) {stack trace : List Inode} {stores' : List StoreFs},
    RmMet nonce stores trace stores' → ∀ {r : List Inode × List StoreFs},
    ys.foldlM (meetRm g nonce) (stack, stores') = .ok r →
    RmMet nonce stores (trace ++ ys) r.2 ∧ (∀ y ∈ ys, y ∈ trace ∨ y ∈ r.1 ∨ g.dirNext y = []) ∧
      (∀ x ∈ stack, x ∈ r.1) ∧ ∀ x ∈ r.1, x ∈ stack ∨ x ∈ ys
  | [], stack, trace, stores', h, r, hrun => by
      obtain rfl := Except.ok.inj hrun
      exact ⟨by simpa using h, by simp, fun x hx => hx, fun x hx => Or.inl hx⟩
  | y :: ys, stack, trace, stores', h, r, hrun => by
      rw [List.foldlM_cons] at hrun
      cases hmeet : meetRm g nonce (stack, stores') y with
      | error stop =>
          rw [hmeet] at hrun
          cases hrun
      | ok r₁ =>
          rw [hmeet] at hrun
          obtain ⟨h₁, hnew₁, hkeep₁, hmem₁⟩ := h.meet y hmeet
          obtain ⟨h₂, hnew₂, hkeep₂, hmem₂⟩ := RmMet.meet_all ys h₁ hrun
          rw [List.append_assoc] at h₂
          refine ⟨h₂, fun z hz => ?_, fun x hx => hkeep₂ x (hkeep₁ x hx), fun x hx => ?_⟩
          · have hy : y ∈ trace ∨ y ∈ r.1 ∨ g.dirNext y = [] :=
              hnew₁.imp id fun hy => hy.imp (hkeep₂ y) id
            rcases List.mem_cons.mp hz with rfl | hz
            · exact hy
            · rcases hnew₂ z hz with hz | hz
              · rcases List.mem_append.mp hz with hz | hz
                · exact Or.inl hz
                · rw [List.mem_singleton.mp hz]
                  exact hy
              · exact Or.inr hz
          · rcases hmem₂ x hx with hx | hx
            · rcases hmem₁ x hx with hx | rfl
              · exact Or.inl hx
              · exact Or.inr (by simp)
            · exact Or.inr (by simp [hx])

/-- The count of an inode that a removal has met. -/
lemma refOf_uncounted (ht : RmTable nonce stores calls after) (hi : i ∈ calls) :
    refOf after i = (refOf stores i + (2 ^ 64 - 1)) % 2 ^ 64 := by
  obtain ⟨node, hnode⟩ := Option.isSome_iff_exists.mp (ht.there i hi).1
  have hafter : entries after i = (oneLess nonce node).head? := by
    rw [ht.entries, uncounted, if_pos hi, hnode, Option.bind_some]
  have hold : refOf stores i = node.refCount := by
    rw [refOf, hnode, Option.elim_some]
  rw [hold, refOf, hafter]
  by_cases hone : node.refCount % 2 ^ 64 = 1
  · rw [oneLess, if_pos hone, List.head?_nil, Option.elim_none]
    omega
  · rw [oneLess, if_neg hone, List.head?_cons, Option.elim_some]

end

/-! ## A tree, and a symlink

A directory with another one in it, where the two agree, and a symlink to a file, where they do
not. -/

/-- A table for device 0 with a node for each of a few inodes. -/
def tableOf (nodes : List InodeHt) : List StoreFs :=
  [nodes.foldl (fun store node => store.setBucket node.num [node]) ⟨0, fun _ => []⟩]

end KLRM
