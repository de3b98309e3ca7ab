import FileKLRM.PathStore.References
import FileKLRM.PathStore.RmTraversal

/-!
# The traversals with their dentries

`storeIterateAddRefs` and `storeIterateRmRefs` have dentries where `storeIterateAdd` and
`storeIterateRm` have inodes, and calls of the kernel that can fail.  They are the same two
functions of the source, and here they are shown to do the same to the tables.

`RefEnv.Sees` says that the kernel's answers are those of a graph: a dentry is a symlink, has
children and resolves as its inode does.  What `kern_path` leaves unset may be different at every
symlink, and so may the buffer for its path be missing; the graph has these answers as the
contents of `resolved.dentry` (`RefEnv.leftBy`).

* `storeIterateAddRefs_simulates`: an addition with dentries that returns has made the tables that
  the addition makes.
* `storeIterateRmRefs_simulates`: so has a removal, unless it started from a symlink at which the
  other one stops.
-/

namespace KLRM

variable {env : RefEnv} {g : FsGraph} {nonce fuel : ℕ} {w w' : RefWalk} {v : AddWalk}
  {stack : List Inode} {stores after : List StoreFs} {d dir : Dentry} {i : Inode} {m : Mount}
  {events : Events}

/-! ## What the kernel answers

A symlink that resolves has its target in the graph; for any other one, what `kern_path` has left
is the contents of the unset variable, which the graph leaves open. -/

/-- A pointer to a dentry. -/
def RefEnv.slot (env : RefEnv) (resolved : Option Dentry) : DentrySlot :=
  match resolved with
  | none => .null
  | some d => (env.inode d).elim .negative .positive

/-- What one resolution leaves in `resolved.dentry`; without a path the traversal goes on as with
    `NULL`. -/
def RefEnv.leftBy (env : RefEnv) (a : LinkAnswer) : DentrySlot :=
  if a.pathOk then env.slot (kernPath a).1 else .null

/-- The inode that it finds. -/
def RefEnv.found (env : RefEnv) (a : LinkAnswer) : Option Inode :=
  if a.pathOk then a.kern.bind fun path => env.inode path.1 else none

/-- The kernel answers as the graph has it. -/
structure RefEnv.Sees (env : RefEnv) (g : FsGraph) : Prop where
  isSymlink : ∀ d i, env.inode d = some i → env.isSymlink d = g.isSymlink i
  subdirs : ∀ d i, env.inode d = some i → (env.subdirs d).map env.inode = g.subdirs i
  target : ∀ d i n, env.inode d = some i → env.isSymlink d = true →
    env.found (env.link d n) = g.target i

/-- A symlink of the graph is resolved to what the kernel leaves. -/
lemma RefEnv.Sees.resolve_eq (h : env.Sees g) (hi : env.inode d = some i)
    (hlink : env.isSymlink d = true) (n : ℕ) :
    g.resolve (env.leftBy (env.link d n)) i = env.leftBy (env.link d n) := by
  rw [FsGraph.resolve, ← h.target d i n hi hlink]
  generalize env.link d n = a
  unfold RefEnv.found RefEnv.leftBy
  split_ifs
  · cases hkern : a.kern with
    | none => rfl
    | some path =>
        cases hpath : env.inode path.1 with
        | none => simp [hpath]
        | some j => simp [RefEnv.slot, kernPath, hkern, hpath]
  · rfl

/-- No answer is a pointer to nowhere. -/
lemma RefEnv.leftBy_ne_wild (env : RefEnv) (a : LinkAnswer) : env.leftBy a ≠ .wild := by
  unfold RefEnv.leftBy
  split_ifs
  · unfold RefEnv.slot
    split
    · nofun
    · rename_i d _
      cases env.inode d <;> nofun
  · nofun

/-! ## Two walks that have done the same

The dentries on one list have the inodes on the other, and the tables are equal.  References,
locks and list nodes do not matter to this. -/

/-- The inodes on the list and the tables. -/
structure RefWalk.Shows (env : RefEnv) (w : RefWalk) (stack : List Inode) (stores : List StoreFs) :
    Prop where
  stack : w.stack.map (fun node => env.inode node.2) = stack.map some
  stores : w.stores = stores

/-- The same additions have been asked for as well. -/
structure RefWalk.Follows (env : RefEnv) (w : RefWalk) (v : AddWalk) : Prop where
  shows : w.Shows env v.stack v.stores
  calls : w.calls = v.calls.length

lemma RefWalk.Shows.emit (h : w.Shows env stack stores) (more : Events) :
    (w.emit more).Shows env stack stores :=
  ⟨h.stack, h.stores⟩

lemma RefWalk.Follows.emit (h : w.Follows env v) (more : Events) : (w.emit more).Follows env v :=
  ⟨h.shows.emit more, h.calls⟩

lemma RefWalk.Shows.push (h : w.Shows env stack stores) (hi : env.inode d = some i) (n : ℕ) :
    (w.push n d).Shows env (i :: stack) stores where
  stack := by simp [RefWalk.push, hi, h.stack]
  stores := h.stores

/-- A list node costs nothing else. -/
lemma allocNode_same {node : Option ℕ} (halloc : allocNode env w = (node, w')) :
    w'.stack = w.stack ∧ w'.stores = w.stores ∧ w'.calls = w.calls := by
  unfold allocNode at halloc
  split_ifs at halloc
  · obtain ⟨-, rfl⟩ := Prod.mk.inj halloc
    exact ⟨rfl, rfl, rfl⟩
  · obtain ⟨-, rfl⟩ := Prod.mk.inj halloc
    exact ⟨rfl, rfl, rfl⟩

lemma RefWalk.Shows.congr (h : w.Shows env stack stores)
    (hsame : w'.stack = w.stack ∧ w'.stores = w.stores) : w'.Shows env stack stores where
  stack := by rw [hsame.1, h.stack]
  stores := by rw [hsame.2, h.stores]

/-- One round of the loop: the dentry in hand is visited, and if the list is not empty the loop
    goes on with the first dentry of it. -/
lemma replayRefs_succ {visit : RefWalk → Dentry → Except Stop RefWalk}
    (hrun : replayRefs env visit (fuel + 1) dir w = .ok w') :
    ∃ w₁, visit w dir = .ok w₁ ∧ (w₁.stack = [] ∧ w'.stores = w₁.stores ∨
      ∃ n d rest w₂, w₁.stack = (n, d) :: rest ∧ w₂.stack = rest ∧ w₂.stores = w₁.stores ∧
        w₂.calls = w₁.calls ∧
        replayRefs env visit fuel d w₂ = .ok w') := by
  rw [replayRefs] at hrun
  cases hvisit : visit w dir with
  | error stop =>
      rw [hvisit] at hrun
      cases hrun
  | ok w₁ =>
      refine ⟨w₁, rfl, ?_⟩
      simp only [hvisit] at hrun
      cases hi : env.inode dir with
      | none =>
          rw [hi] at hrun
          cases hrun
      | some i =>
          simp only [hi] at hrun
          split at hrun
          · rename_i hstack
            exact Or.inl ⟨hstack, (Except.ok.inj hrun) ▸ rfl⟩
          · rename_i n d rest hstack
            refine Or.inr ⟨n, d, rest, RefWalk.pop _ n rest, hstack, ?_, ?_, ?_, hrun⟩
            · rfl
            · rfl
            · rfl

/-! ## The addition

One lemma for a child, one for the children, one for a symlink; then a round, and the loop by
induction on the fuel, where the contents for the symlink in hand are put in front of those that
the rest of the loop needs. -/

/-- An insertion, and the push that may come after it. -/
lemma RefWalk.Follows.meet (h : w.Follows env v) (hcalls : w'.calls = w.calls + 1)
    (hshows : w'.Shows env
      (if (insertInodeHt (env.slab w.calls) nonce i w.stores).1 ≠ -1 then i :: v.stack else v.stack)
      (insertInodeHt (env.slab w.calls) nonce i w.stores).2) : w'.Follows env
      (v.meet env.slab nonce i) where
  shows := by
    rw [h.calls, h.shows.stores] at hshows
    exact hshows
  calls := by rw [hcalls, h.calls, AddWalk.meet, List.length_append, List.length_singleton]

/-- A child. -/
lemma addChild_follows (h : w.Follows env v) (hrun : addChild env nonce w d = .ok w') :
    w'.Follows env ((env.inode d).elim v (v.meet env.slab nonce)) := by
  rw [addChild] at hrun
  cases hi : env.inode d with
  | none =>
      simp only [hi, Except.ok.injEq] at hrun
      rw [← hrun]
      exact (h.emit _).emit _
  | some i =>
      simp only [hi] at hrun
      split_ifs at hrun with hseen
      · split at hrun
        · cases hrun
        · rename_i n w₁ halloc
          obtain ⟨hstack, hstores, hcalls⟩ := allocNode_same halloc
          obtain rfl := Except.ok.inj hrun
          refine (h.emit _).meet hcalls ?_
          rw [if_pos hseen]
          exact RefWalk.Shows.push ⟨by rw [hstack]; exact h.shows.stack, hstores⟩ hi n
      · obtain rfl := Except.ok.inj hrun
        refine (h.emit [.get (.dentry d)]).meet rfl ?_
        rw [if_neg hseen]
        exact ⟨h.shows.stack, rfl⟩

/-- All children of a directory. -/
lemma addChildren_follows : ∀ (children : List Dentry) {w : RefWalk} {v : AddWalk},
    w.Follows env v → children.foldlM (addChild env nonce) w = .ok w' →
    w'.Follows env (((children.map env.inode).filterMap id).foldl (AddWalk.meet env.slab nonce) v)
  | [], w, v, h, hrun => by
      obtain rfl := Except.ok.inj hrun
      exact h
  | d :: children, w, v, h, hrun => by
      rw [List.foldlM_cons] at hrun
      cases hchild : addChild env nonce w d with
      | error stop =>
          rw [hchild] at hrun
          cases hrun
      | ok w₁ =>
          rw [hchild] at hrun
          have hrest := addChildren_follows children (addChild_follows h hchild) hrun
          cases hi : env.inode d with
          | none => simpa [hi] using hrest
          | some i => simpa [hi] using hrest

/-- A symlink: what was left in `resolved.dentry` is met if it has an inode. -/
lemma addLink_follows (h : w.Follows env v) (hrun : addLink env nonce w dir = .ok w') :
    w'.Follows env (match env.leftBy (env.link dir w.nodes) with
      | .positive i => v.meet env.slab nonce i
      | _ => v) := by
  rw [addLink] at hrun
  cases halloc : allocNode env w with
  | mk node w₁ =>
      obtain ⟨hstack, hstores, hcalls⟩ := allocNode_same halloc
      have h₁ : w₁.Follows env v := ⟨h.shows.congr ⟨hstack, hstores⟩, hcalls.trans h.calls⟩
      simp only [halloc] at hrun
      rw [RefEnv.leftBy]
      split_ifs at hrun with hbuf hpath
      · obtain rfl := Except.ok.inj hrun
        rw [if_neg (by simpa using hpath)]
        exact h₁.emit _
      · rw [if_pos (by simpa using hpath)]
        cases hkern : kernPath (env.link dir w.nodes) with
        | mk resolved taken =>
            simp only [hkern] at hrun
            cases resolved with
            | none =>
                obtain rfl := Except.ok.inj hrun
                exact (h₁.emit taken).emit _
            | some target =>
                have h₂ := (h₁.emit taken).emit [.get (.dentry target)]
                cases hi : env.inode target with
                | none =>
                    simp only [hi, Except.ok.injEq] at hrun
                    rw [← hrun]
                    simp only [RefEnv.slot, hi, Option.elim_none]
                    exact h₂.emit _
                | some i =>
                    simp only [hi] at hrun
                    simp only [RefEnv.slot, hi, Option.elim_some]
                    split_ifs at hrun with hpush
                    · split at hrun
                      · cases hrun
                      · obtain rfl := Except.ok.inj hrun
                        refine h₂.meet rfl ?_
                        rw [if_pos hpush]
                        refine RefWalk.Shows.push ?_ hi _
                        exact ⟨h₁.shows.stack, rfl⟩
                    · obtain rfl := Except.ok.inj hrun
                      refine h₂.meet rfl ?_
                      rw [if_neg hpush]
                      exact ⟨h₁.shows.stack, rfl⟩


lemma AddWalk.links_foldl (slab : ℕ → SlabAnswer) (nonce : ℕ) : ∀ (ys : List Inode) (v : AddWalk),
    (ys.foldl (AddWalk.meet slab nonce) v).links = v.links
  | [], _ => rfl
  | _ :: ys, _ => links_foldl slab nonce ys _

/-- **One round of the addition**, with what the kernel leaves in `resolved.dentry` at the
    symlink in hand. -/
lemma addVisit_follows (slot : ℕ → DentrySlot) (hsees : env.Sees g) (h : w.Follows env v)
    (hi : env.inode dir = some i)
    (hslot : env.isSymlink dir = true → slot v.links = env.leftBy (env.link dir w.nodes))
    (hrun : addVisit env nonce w dir = .ok w') :
    ∃ v', v.follow g slot env.slab nonce i = .ok v' ∧ w'.Follows env v' ∧
      v'.links = v.links + if env.isSymlink dir then 1 else 0 := by
  rw [addVisit] at hrun
  unfold AddWalk.follow
  rw [← hsees.isSymlink dir i hi]
  split_ifs at hrun ⊢ with hlink
  · have hleft := addLink_follows h hrun
    have hwild := env.leftBy_ne_wild (env.link dir w.nodes)
    rw [hslot hlink, hsees.resolve_eq hi hlink]
    revert hleft hwild
    generalize env.leftBy (env.link dir w.nodes) = left
    intro hleft hwild
    cases left with
    | null | negative => exact ⟨_, rfl, ⟨⟨hleft.shows.stack, hleft.shows.stores⟩, hleft.calls⟩, rfl⟩
    | positive j => exact ⟨_, rfl, ⟨⟨hleft.shows.stack, hleft.shows.stores⟩, hleft.calls⟩, rfl⟩
    | wild => exact absurd rfl hwild
  · have hchildren := addChildren_follows _ h hrun
    rw [hsees.subdirs dir i hi] at hchildren
    exact ⟨_, rfl, hchildren, AddWalk.links_foldl _ _ _ _⟩


/-- A round reads the contents of `resolved.dentry` for the symlink in hand only. -/
lemma AddWalk.follow_congr {slot slot' : ℕ → DentrySlot} {slab : ℕ → SlabAnswer}
    (h : g.isSymlink i = true → slot v.links = slot' v.links) :
    v.follow g slot slab nonce i = v.follow g slot' slab nonce i := by
  unfold AddWalk.follow
  split_ifs with hlink
  · rw [h hlink]
  · rfl

/-- One round of the loop on inodes. -/
lemma replayAdd_round {slot : ℕ → DentrySlot} {slab : ℕ → SlabAnswer} {v v₁ : AddWalk}
    {rest : List Inode}
    (hstack : v.stack = i :: rest)
    (hfollow : { v with stack := rest }.follow g slot slab nonce i = .ok v₁) :
    replayAdd g slot slab nonce (fuel + 1) v = replayAdd g slot slab nonce fuel v₁ := by
  rw [replayAdd, hstack]
  dsimp only
  rw [hfollow]

/-- The contents are what the kernel has left at one symlink or another. -/
def RefEnv.Leaves (env : RefEnv) (slot : ℕ → DentrySlot) : Prop :=
  ∀ k, ∃ d n, slot k = env.leftBy (env.link d n)

/-- **The loop of the addition.**  The contents are chosen round by round, and those for earlier
    symlinks do not matter any more. -/
lemma replayRefs_follows (hsees : env.Sees g) :
    ∀ {fuel : ℕ} {dir : Dentry} {i : Inode} {w w' : RefWalk} {v : AddWalk}
      {rest : List Inode}, v.stack = i :: rest → env.inode dir = some i →
    w.Follows env { v with stack := rest } →
    replayRefs env (addVisit env nonce) fuel dir w = .ok w' →
    ∃ slot, env.Leaves slot ∧ ∀ slot', (∀ k, v.links ≤ k → slot' k = slot k) →
      ∃ v', replayAdd g slot' env.slab nonce (fuel + 1) v = .ok v' ∧ v'.stores = w'.stores
  | 0, _, _, _, _, _, _, _, _, _, hrun => by cases hrun
  | fuel + 1, dir, i, w, w', v, rest, hstack, hi, h, hrun => by
      obtain ⟨w₁, hvisit, hnext⟩ := replayRefs_succ hrun
      obtain ⟨v₁, hfollow, h₁, hlinks⟩ :=
        addVisit_follows (fun _ => env.leftBy (env.link dir w.nodes)) hsees h hi
        (fun _ => rfl) hvisit
      have hround :
          ∀ slot', (env.isSymlink dir = true → slot' v.links = env.leftBy (env.link dir w.nodes)) →
          replayAdd g slot' env.slab nonce (fuel + 1 + 1) v
            = replayAdd g slot' env.slab nonce (fuel + 1) v₁ := by
        intro slot' hslot'
        refine replayAdd_round hstack (hfollow ▸ AddWalk.follow_congr fun hlink => hslot' ?_)
        rwa [hsees.isSymlink dir i hi]
      have hlist := h₁.shows.stack
      rcases hnext with ⟨hempty, hstores⟩ | ⟨n, d, rest₁, w₂, hlist₁, hlist₂, hstores₂,
        hcalls₂, hrun₂⟩
      · rw [hempty, List.map_nil, eq_comm, List.map_eq_nil_iff] at hlist
        refine ⟨fun _ => env.leftBy (env.link dir w.nodes), fun _ => ⟨dir, w.nodes, rfl⟩,
          fun slot' hslot' => ⟨v₁, ?_, ?_⟩⟩
        · rw [hround slot' fun _ => hslot' v.links le_rfl, replayAdd, hlist]
        · rw [hstores, h₁.shows.stores]
      · rw [hlist₁, List.map_cons, eq_comm, List.map_eq_cons_iff] at hlist
        obtain ⟨j, rest₂, hstack₁, hj, hrest⟩ := hlist
        obtain ⟨slot₁, hleaves, hslot₁⟩ := replayRefs_follows hsees hstack₁ hj.symm
          ⟨⟨by rw [hlist₂, hrest], by rw [hstores₂, h₁.shows.stores]⟩, by rw [hcalls₂, h₁.calls]⟩
          hrun₂
        refine ⟨fun k => if env.isSymlink dir = true ∧
          k = v.links then env.leftBy (env.link dir w.nodes) else slot₁ k,
          fun k => ?_, fun slot' hslot' => ?_⟩
        · dsimp only
          split_ifs
          · exact ⟨dir, w.nodes, rfl⟩
          · exact hleaves k
        · rw [hround slot' fun hlink => (hslot' v.links le_rfl).trans (if_pos ⟨hlink, rfl⟩)]
          refine hslot₁ slot' fun k hk => ?_
          rw [hlinks] at hk
          refine (hslot' k (le_of_add_le_left hk)).trans (if_neg ?_)
          rintro ⟨hlink, rfl⟩
          rw [if_pos hlink] at hk
          exact absurd hk (by simp)

/-- **An addition with dentries is the addition.**  If it returns, the addition makes the same
    tables, with some contents of `resolved.dentry` that the kernel has left. -/
theorem storeIterateAddRefs_simulates (hsees : env.Sees g) (hi : env.inode d = some i)
    (hrun : storeIterateAddRefs env nonce d m stores = .ok (events, after)) :
    ∃ slot, env.Leaves slot ∧ storeIterateAdd g slot env.slab nonce (env.fuel + 1) i stores
      = .ok after := by
  simp only [storeIterateAddRefs, hi] at hrun
  unfold storeIterateAdd storeIterateAddCalls
  split_ifs at hrun with hseen
  · obtain ⟨-, rfl⟩ := Prod.mk.inj (Except.ok.inj hrun)
    refine ⟨fun _ => env.leftBy (env.link d 0), fun _ => ⟨d, 0, rfl⟩, ?_⟩
    simp [AddWalk.meet, AddWalk.start, hseen, replayAdd, Except.map]
  · cases hloop : replayRefs env (addVisit env nonce) env.fuel d
        ⟨[], (insertInodeHt (env.slab 0) nonce i stores).2, 1, 0,
          pathGet d m ++ [.get (.dentry d)] ++ [.get (.inodeLock i)]⟩ with
    | error stop =>
        rw [hloop] at hrun
        cases hrun
    | ok w =>
        rw [hloop] at hrun
        obtain ⟨-, rfl⟩ := Prod.mk.inj (Except.ok.inj hrun)
        have hstack : ((AddWalk.start stores).meet env.slab nonce i).stack = [i] := by
          simp [AddWalk.meet, AddWalk.start, hseen]
        obtain ⟨slot, hleaves, hslot⟩ := replayRefs_follows hsees hstack hi ⟨⟨rfl, rfl⟩, rfl⟩ hloop
        obtain ⟨v, hreplay, hstores⟩ := hslot slot fun _ _ => rfl
        exact ⟨slot, hleaves, by rw [hreplay]; exact congrArg _ hstores⟩

/-! ## The removal

The removal puts directories on its list and no symlinks, so that the unset variable is read at
most once, at the start. -/

/-- A child: nothing, or a removal and the push that may come after it. -/
lemma rmChild_shows (hsees : env.Sees g) (h : w.Shows env stack stores)
    (hrun : rmChild env nonce w d = .ok w') :
    ∃ r, (env.inode d).elim (.ok (stack, stores)) (meetRm g nonce (stack, stores)) = .ok r ∧
    w'.Shows env r.1 r.2 := by
  rw [rmChild] at hrun
  cases hi : env.inode d with
  | none =>
      simp only [hi, Except.ok.injEq] at hrun
      rw [← hrun]
      exact ⟨(stack, stores), rfl, (h.emit _).emit _⟩
  | some i =>
      have hstores : (w.emit [.get (.dentry d)]).stores = stores := h.stores
      simp only [hi, hstores] at hrun
      cases hrm : rmInodeHt nonce i stores with
      | error stop =>
          rw [hrm] at hrun
          cases hrun
      | ok r =>
          obtain ⟨ret, stores'⟩ := r
          have hchildren : env.subdirs d ≠ [] ↔ g.subdirs i ≠ [] := by
            rw [← hsees.subdirs d i hi, ne_eq, ne_eq, List.map_eq_nil_iff]
          simp only [hrm, hchildren] at hrun
          refine ⟨(if g.subdirs i ≠ [] ∧ ret ≠ -1 then i :: stack else stack, stores'), ?_, ?_⟩
          · rw [Option.elim_some, meetRm, hrm]
            rfl
          · split_ifs at hrun ⊢ with hpush
            · split at hrun
              · cases hrun
              · rename_i n w₁ halloc
                obtain ⟨hstack, hstores₁, -⟩ := allocNode_same halloc
                obtain rfl := Except.ok.inj hrun
                refine RefWalk.Shows.push ?_ hi n
                exact ⟨by rw [hstack]; exact h.stack, hstores₁⟩
            · obtain rfl := Except.ok.inj hrun
              exact ⟨h.stack, rfl⟩

/-- All children of a directory. -/
lemma rmChildren_shows (hsees : env.Sees g) :
    ∀ (children : List Dentry) {w : RefWalk} {stack : List Inode}
      {stores : List StoreFs}, w.Shows env stack stores →
    children.foldlM (rmChild env nonce) w = .ok w' →
    ∃ r, ((children.map env.inode).filterMap id).foldlM (meetRm g nonce) (stack, stores) = .ok r ∧
      w'.Shows env r.1 r.2
  | [], w, stack, stores, h, hrun => by
      obtain rfl := Except.ok.inj hrun
      exact ⟨(stack, stores), rfl, h⟩
  | d :: children, w, stack, stores, h, hrun => by
      rw [List.foldlM_cons] at hrun
      cases hchild : rmChild env nonce w d with
      | error stop =>
          rw [hchild] at hrun
          cases hrun
      | ok w₁ =>
          rw [hchild] at hrun
          obtain ⟨r₁, hr₁, h₁⟩ := rmChild_shows hsees h hchild
          obtain ⟨r, hr, hrest⟩ := rmChildren_shows hsees children h₁ hrun
          refine ⟨r, ?_, hrest⟩
          cases hi : env.inode d with
          | none =>
              rw [hi] at hr₁
              obtain rfl := Except.ok.inj hr₁
              simpa [hi] using hr
          | some i =>
              rw [hi] at hr₁
              have hmeet : meetRm g nonce (stack, stores) i = .ok r₁ := hr₁
              have hcons : ((d :: children).map env.inode).filterMap id
                  = i :: (children.map env.inode).filterMap id := by
                simp [hi]
              rw [hcons, List.foldlM_cons, hmeet]
              exact hr

/-- No symlink is put on the list. -/
lemma meetRm_not_symlink {r r' : List Inode × List StoreFs} (h : ∀ x ∈ r.1, g.isSymlink x = false)
    (hrun : meetRm g nonce r i = .ok r') : ∀ x ∈ r'.1, g.isSymlink x = false := by
  cases hrm : rmInodeHt nonce i r.2 with
  | error stop => simp [meetRm, hrm, bind, Except.bind] at hrun
  | ok rm =>
      simp only [meetRm, hrm, bind, Except.bind, Except.ok.injEq] at hrun
      rw [← hrun]
      split_ifs with hpush
      · intro x hx
        rcases List.mem_cons.mp hx with rfl | hx
        · by_contra hlink
          exact hpush.1 (g.symlink_subdirs x (by simpa using hlink))
        · exact h x hx
      · exact h

/-- **The loop of the removal**, on directories: what is unset is not read. -/
lemma replayRefs_shows (slot : ℕ → DentrySlot) (links : ℕ) (hsees : env.Sees g) :
    ∀ {fuel : ℕ} {dir : Dentry} {i : Inode}
      {w w' : RefWalk} {rest : List Inode} {stores : List StoreFs}, env.inode dir = some i →
    g.isSymlink i = false → (∀ x ∈ rest, g.isSymlink x = false) → w.Shows env rest stores →
    replayRefs env (rmVisit env nonce) fuel dir w = .ok w' →
    replayRm g slot nonce (fuel + 1) links (i :: rest) stores = .ok w'.stores
  | 0, _, _, _, _, _, _, _, _, _, _, hrun => by cases hrun
  | fuel + 1, dir, i, w, w', rest, stores, hi, hdir, hrest, h, hrun => by
      obtain ⟨w₁, hvisit, hnext⟩ := replayRefs_succ hrun
      rw [rmVisit, hsees.isSymlink dir i hi, if_neg (by simp [hdir])] at hvisit
      obtain ⟨r, hr, h₁⟩ := rmChildren_shows hsees _ h hvisit
      rw [hsees.subdirs dir i hi] at hr
      have hdirs : ∀ x ∈ r.1, g.isSymlink x = false :=
        foldlM_keeps (fun hr hmeet => meetRm_not_symlink hr hmeet) _ hrest hr
      rw [replayRm]
      simp only [hdir, Bool.false_eq_true, if_false, hr, bind, Except.bind]
      have hlist := h₁.stack
      rcases hnext with ⟨hempty, hstores⟩ | ⟨n, d, rest₁, w₂, hlist₁, hlist₂, hstores₂, -, hrun₂⟩
      · rw [hempty, List.map_nil, eq_comm, List.map_eq_nil_iff] at hlist
        rw [hlist, replayRm, hstores, h₁.stores]
      · rw [hlist₁, List.map_cons, eq_comm, List.map_eq_cons_iff] at hlist
        obtain ⟨j, rest₂, hstack₁, hj, hrest₂⟩ := hlist
        rw [hstack₁] at hdirs ⊢
        exact replayRefs_shows slot links hsees hj.symm (hdirs j (by simp))
          (fun x hx => hdirs x (by simp [hx]))
          ⟨by rw [hlist₂, hrest₂], by rw [hstores₂, h₁.stores]⟩ hrun₂

/-- A symlink that the removal starts from, when it finds no inode in `resolved.dentry`. -/
lemma rmLink_shows (h : w.Shows env stack stores)
    (hleft : (env.leftBy (env.link dir w.nodes)).Harmless)
    (hrun : rmLink env w dir = .ok w') : w'.Shows env stack stores := by
  rw [rmLink] at hrun
  cases halloc : allocNode env w with
  | mk node w₁ =>
      obtain ⟨hstack, hstores, -⟩ := allocNode_same halloc
      have h₁ : w₁.Shows env stack stores := h.congr ⟨hstack, hstores⟩
      simp only [halloc] at hrun
      split_ifs at hrun with hbuf hpath
      · obtain rfl := Except.ok.inj hrun
        exact h₁.emit _
      · rw [RefEnv.leftBy, if_pos (by simpa using hpath)] at hleft
        cases hkern : kernPath (env.link dir w.nodes) with
        | mk resolved taken =>
            simp only [hkern] at hrun hleft
            cases resolved with
            | none =>
                obtain rfl := Except.ok.inj hrun
                exact (h₁.emit taken).emit _
            | some target =>
                cases hi : env.inode target with
                | none =>
                    simp only [hi, Except.ok.injEq] at hrun
                    rw [← hrun]
                    exact ((h₁.emit taken).emit _).emit _
                | some i => simp [RefEnv.slot, hi, DentrySlot.Harmless] at hleft

/-- The loop of the removal, from such a symlink. -/
lemma replayRefs_symlink (hsees : env.Sees g) (hi : env.inode dir = some i)
    (hlink : g.isSymlink i = true)
    (hleft : (env.leftBy (env.link dir w.nodes)).Harmless) (h : w.Shows env [] stores)
    (hrun : replayRefs env (rmVisit env nonce) fuel dir w = .ok w') :
    replayRm g (fun _ => env.leftBy (env.link dir w.nodes)) nonce (fuel + 1) 0 [i] stores
      = .ok w'.stores := by
  cases fuel with
  | zero => cases hrun
  | succ fuel =>
      obtain ⟨w₁, hvisit, hnext⟩ := replayRefs_succ hrun
      have hsymlink : env.isSymlink dir = true := by rw [hsees.isSymlink dir i hi, hlink]
      rw [rmVisit, if_pos hsymlink] at hvisit
      have h₁ := rmLink_shows h hleft hvisit
      have hempty : w₁.stack = [] := by simpa using h₁.stack
      have hstores : w'.stores = stores := by
        rcases hnext with ⟨-, hstores⟩ | ⟨n, d, rest, w₂, hlist, -⟩
        · rw [hstores, h₁.stores]
        · rw [hempty] at hlist
          cases hlist
      rw [replayRm, if_pos hlink, hsees.resolve_eq hi hsymlink, hstores]
      rcases hleft with hleft | hleft
      · rw [hleft]
        rfl
      · rw [hleft]
        rfl

/-- **A removal with dentries is the removal**, unless it starts from a symlink and finds an
    inode behind it: there the removal stops at the use of the freed list node, and this one goes
    on. -/
theorem storeIterateRmRefs_simulates (hsees : env.Sees g) (hi : env.inode d = some i)
    (hcrash : ¬ g.CrashesAt (env.leftBy (env.link d 0)) i)
    (hrun : storeIterateRmRefs env nonce d m stores = .ok (events, after)) :
    storeIterateRm g (fun _ => env.leftBy (env.link d 0)) nonce (env.fuel + 1) i stores
      = .ok after := by
  simp only [storeIterateRmRefs, hi] at hrun
  rw [storeIterateRm]
  cases hrm : rmInodeHt nonce i stores with
  | error stop =>
      rw [hrm] at hrun
      cases hrun
  | ok r =>
      obtain ⟨ret, stores'⟩ := r
      simp only [hrm] at hrun
      simp only [bind, Except.bind]
      split_ifs at hrun ⊢ with hseen
      · obtain ⟨-, rfl⟩ := Prod.mk.inj (Except.ok.inj hrun)
        rfl
      · cases hloop : replayRefs env (rmVisit env nonce) env.fuel d
            ⟨[], stores', 0, 0, pathGet d m ++ [.get (.dentry d)] ++ [.get (.inodeLock i)]⟩ with
        | error stop =>
            rw [hloop] at hrun
            cases hrun
        | ok w =>
            rw [hloop] at hrun
            obtain ⟨-, rfl⟩ := Prod.mk.inj (Except.ok.inj hrun)
            cases hlink : g.isSymlink i with
            | false => exact replayRefs_shows _ 0 hsees hi hlink (by simp) ⟨rfl, rfl⟩ hloop
            | true =>
                have hleft : (env.leftBy (env.link d 0)).Harmless := by
                  have hsymlink : env.isSymlink d = true := by rw [hsees.isSymlink d i hi, hlink]
                  rw [← hsees.resolve_eq hi hsymlink]
                  by_contra hharm
                  exact hcrash ⟨hlink, hharm⟩
                exact replayRefs_symlink hsees hi hlink hleft ⟨rfl, rfl⟩ hloop

end KLRM
