import FileKLRM.Core.PrefixTree
import FileKLRM.PathStore.Trie

/-!
# The invariant of the trie

A map `N` says at which path each node hangs.  `TrieInv t N S` ties the heap of `t` to it: an
object is allocated exactly when it is a node, the list of children of a node holds the nodes one
name further, the parent pointer and `dir_name` give back the path, and `children_num` is the
number of children with the top bit for the members of `S`.  Nothing here asks that every node
leads to a member; that is `Tight`, which the upward pruning loses and restores.

Each operation of the heap has one lemma: the search stops at the deepest node of a path
(`TrieInv.search_eq`), the creation adds the prefixes of a path (`TrieInv.create_eq`), the two
writes of the flag insert and erase a member, and the pruning leaves a tight trie
(`TrieInv.prune_eq`).
-/

namespace KLRM

/-! ## The word `children_num`

A count and a flag in one word.  The count cannot reach the flag, because there are fewer objects
than that. -/

namespace StoreEntry

/-- The word has 64 bits, and its lower 63 count the children. -/
structure Counts (e : StoreEntry) : Prop where
  lt : e.childrenNum < 2 ^ 64
  count : e.count = e.children.length
  nodup : e.children.Nodup

lemma explicited_iff {e : StoreEntry} : e.explicited = true ↔ 2 ^ 63 ≤ e.childrenNum % 2 ^ 64 :=
  decide_eq_true_iff

lemma count_lt (e : StoreEntry) : e.count < 2 ^ 63 :=
  Nat.mod_lt _ (by norm_num [explicitedPathMask])

/-- A list of distinct objects is far too short to reach the top bit. -/
lemma length_lt_of_nodup {l : List Addr} (h : l.Nodup) : l.length + 1 < 2 ^ 63 := by
  have hle := h.length_le_card
  rw [Fintype.card_fin] at hle
  exact lt_of_le_of_lt (Nat.add_le_add_right hle 1) (by norm_num)

@[simp] lemma setExplicited_children (e : StoreEntry) : e.setExplicited.children = e.children := rfl
@[simp] lemma setExplicited_parent (e : StoreEntry) : e.setExplicited.parent = e.parent := rfl
@[simp] lemma setExplicited_dirName (e : StoreEntry) : e.setExplicited.dirName = e.dirName := rfl
@[simp] lemma clearExplicited_children (e : StoreEntry) : e.clearExplicited.children
    = e.children := rfl
@[simp] lemma clearExplicited_parent (e : StoreEntry) : e.clearExplicited.parent = e.parent := rfl
@[simp] lemma clearExplicited_dirName (e : StoreEntry) : e.clearExplicited.dirName
    = e.dirName := rfl

@[simp] lemma explicited_setExplicited (e : StoreEntry) : e.setExplicited.explicited = true := by
  have := e.count_lt
  rw [explicited_iff]
  simp only [setExplicited, explicitedPathMask]
  omega

@[simp] lemma explicited_clearExplicited (e : StoreEntry) :
    e.clearExplicited.explicited = false := by
  have := e.count_lt
  rw [Bool.eq_false_iff, ne_eq, explicited_iff]
  simp only [clearExplicited]
  omega

lemma Counts.setExplicited {e : StoreEntry} (h : e.Counts) : e.setExplicited.Counts where
  lt := by
    have := e.count_lt
    simp only [StoreEntry.setExplicited, explicitedPathMask]
    omega
  count := by
    have := e.count_lt
    rw [setExplicited_children, ← h.count]
    simp only [StoreEntry.count, StoreEntry.setExplicited, explicitedPathMask]
    omega
  nodup := h.nodup

lemma Counts.clearExplicited {e : StoreEntry} (h : e.Counts) : e.clearExplicited.Counts where
  lt := lt_trans e.count_lt (by norm_num)
  count := by
    rw [clearExplicited_children, ← h.count]
    exact Nat.mod_eq_of_lt e.count_lt
  nodup := h.nodup

/-- The entry of a node that gets the child `a`. -/
def addChild (e : StoreEntry) (a : Addr) : StoreEntry :=
  { e with children := a :: e.children, childrenNum := (e.childrenNum + 1) % 2 ^ 64 }

/-- The entry of a node that loses the child `a`. -/
def dropChild (e : StoreEntry) (a : Addr) : StoreEntry :=
  { e with children := e.children.erase a, childrenNum := (e.childrenNum + 2 ^ 64 - 1) % 2 ^ 64 }

lemma Counts.addChild {e : StoreEntry} (h : e.Counts) {a : Addr} (ha : a ∉ e.children) :
    (e.addChild a).Counts ∧ (e.addChild a).explicited = e.explicited := by
  have hlt := h.lt
  have hcount := h.count
  have hlen := length_lt_of_nodup h.nodup
  simp only [StoreEntry.count, explicitedPathMask] at hcount
  refine ⟨⟨Nat.mod_lt _ (by norm_num), ?_, List.nodup_cons.mpr ⟨ha, h.nodup⟩⟩, ?_⟩
  · simp only [StoreEntry.count, StoreEntry.addChild, explicitedPathMask, List.length_cons]
    omega
  · rw [Bool.eq_iff_iff, explicited_iff, explicited_iff]
    simp only [StoreEntry.addChild]
    omega

lemma Counts.dropChild {e : StoreEntry} (h : e.Counts) {a : Addr} (ha : a ∈ e.children) :
    (e.dropChild a).Counts ∧ (e.dropChild a).explicited = e.explicited := by
  have hlt := h.lt
  have hcount := h.count
  have hlen := length_lt_of_nodup h.nodup
  have hpos : 0 < e.children.length := List.length_pos_of_mem ha
  simp only [StoreEntry.count, explicitedPathMask] at hcount
  refine ⟨⟨Nat.mod_lt _ (by norm_num), ?_, h.nodup.erase a⟩, ?_⟩
  · simp only [StoreEntry.count, StoreEntry.dropChild, explicitedPathMask,
      List.length_erase_of_mem ha]
    omega
  · rw [Bool.eq_iff_iff, explicited_iff, explicited_iff]
    simp only [StoreEntry.dropChild]
    omega

end StoreEntry

/-! ## The invariant

The map `N` is a ghost: no function of the source has it.  That it is injective, and that the
parent of the node at `p ++ [name]` is the node at `p`, is what makes an address the name of one
path. -/

/-- The paths of the nodes. -/
def nodesOf (N : List Name → Option Addr) : Set (List Name) := {p | (N p).isSome}

@[simp] lemma mem_nodesOf {N : List Name → Option Addr} {p : List Name} :
    p ∈ nodesOf N ↔ (N p).isSome := Iff.rfl

/-- The entry of the node at `p`. -/
structure EntryOk (N : List Name → Option Addr) (S : Set (List Name)) (p : List Name)
    (e : StoreEntry) : Prop where
  counts : e.Counts
  child : ∀ a, a ∈ e.children ↔ ∃ name, N (p ++ [name]) = some a
  explicited : e.explicited = true ↔ p ∈ S
  up : ∀ q name, p = q ++ [name] →
    ∃ b, N q = some b ∧ e.parent = some b ∧ e.dirName = name ∧ name ≠ []

/-- The heap has its nodes where `N` says, and the flag set on `S`. -/
structure TrieInv (t : Trie) (N : List Name → Option Addr) (S : Set (List Name)) : Prop where
  root : N [] = some t.root
  inj : ∀ {p q a}, N p = some a → N q = some a → p = q
  entry : ∀ {p a}, N p = some a → ∃ e, t.mem a = some e ∧ EntryOk N S p e
  alloc : ∀ {a e}, t.mem a = some e → ∃ p, N p = some a
  member : ∀ p ∈ S, (N p).isSome
  listed : t.allocations.Nodup ∧ ∀ a, a ∈ t.allocations ↔ (t.mem a).isSome

/-- Every node is the root or leads to a member. -/
def Tight (N : List Name → Option Addr) (S : Set (List Name)) : Prop :=
  ∀ p, (N p).isSome → p ∈ prefixClosure S

namespace TrieInv

variable {t : Trie} {N : List Name → Option Addr} {S : Set (List Name)} {p q cs : List Name}
  {name : Name} {a b : Addr} {e : StoreEntry}

lemma entry_of_mem (h : TrieInv t N S) (hp : N p = some a) (he : t.mem a = some e) :
    EntryOk N S p e := by
  obtain ⟨e', he', hok⟩ := h.entry hp
  rw [he] at he'
  exact Option.some.inj he' ▸ hok

/-- The nodes are closed under prefixes. -/
lemma isSome_of_concat (h : TrieInv t N S) (hp : (N (p ++ [name])).isSome) : (N p).isSome := by
  obtain ⟨a, ha⟩ := Option.isSome_iff_exists.mp hp
  obtain ⟨e, -, hok⟩ := h.entry ha
  obtain ⟨b, hb, -⟩ := hok.up p name rfl
  exact Option.isSome_iff_exists.mpr ⟨b, hb⟩

lemma isSome_above (h : TrieInv t N S) (hpq : q <+: p) (hp : (N p).isSome) : (N q).isSome := by
  obtain ⟨r, rfl⟩ := hpq
  induction r using List.reverseRecOn with
  | nil => simpa using hp
  | append_singleton r name ih =>
      rw [← List.append_assoc] at hp
      exact ih (h.isSome_of_concat hp)

lemma isSome_of_mem_closure (h : TrieInv t N S) (hp : p ∈ prefixClosure S) : (N p).isSome := by
  rcases hp with rfl | ⟨s, hs, hps⟩
  · rw [h.root]
    rfl
  · exact h.isSome_above hps (h.member s hs)

lemma tight_iff (h : TrieInv t N S) (ht : Tight N S) : (N p).isSome ↔ p ∈ prefixClosure S :=
  ⟨ht p, h.isSome_of_mem_closure⟩

/-- A node without children is a leaf. -/
lemma children_eq_nil (h : TrieInv t N S) (hp : N p = some a) (he : t.mem a = some e) :
    e.children = [] ↔ IsLeaf (nodesOf N) p := by
  have hok := h.entry_of_mem hp he
  constructor
  · intro hnil name hname
    obtain ⟨c, hc⟩ := Option.isSome_iff_exists.mp hname
    have hmem := (hok.child c).mpr ⟨name, hc⟩
    rw [hnil] at hmem
    cases hmem
  · intro hleaf
    rw [List.eq_nil_iff_forall_not_mem]
    intro c hc
    obtain ⟨name, hname⟩ := (hok.child c).mp hc
    exact hleaf name (Option.isSome_iff_exists.mpr ⟨c, hname⟩)

/-! ## The search

The offsets have to spell the path (`Tokens.Spells`); the search then compares name after name, by
the first child that has the name, and there is at most one. -/

/-- Among nodes whose names lead on from `p`, the one with the wanted name is found. -/
lemma findChild_list (h : TrieInv t N S) (p : List Name) (name : Name) : ∀ l : List Addr,
    (∀ c ∈ l, ∃ n, N (p ++ [n]) = some c) →
    ∃ r, t.findChild name l = .ok r ∧
      (∀ c, r = some c → N (p ++ [name]) = some c) ∧
      (r = none → ∀ c ∈ l, N (p ++ [name]) ≠ some c)
  | [], _ => ⟨none, rfl, by simp, by simp⟩
  | c :: rest, hl => by
      obtain ⟨n, hn⟩ := hl c (by simp)
      obtain ⟨e, he, hok⟩ := h.entry hn
      obtain ⟨-, -, -, hname, -⟩ := hok.up p n rfl
      rw [Trie.findChild, he]
      by_cases heq : n = name
      · subst heq
        refine ⟨some c, by simp [hname], ?_, by simp⟩
        rintro _ ⟨⟩
        exact hn
      · obtain ⟨r, hr, hsome, hnone⟩ := findChild_list h p name rest fun d hd => hl d (by simp [hd])
        refine ⟨r, by simp [hname, heq, hr], hsome, ?_⟩
        intro hrn d hd hN
        rcases List.mem_cons.mp hd with rfl | hd
        · exact heq (List.append_cancel_left (h.inj hn hN) |> List.singleton_inj.mp)
        · exact hnone hrn d hd hN

/-- The children of a node are searched by name. -/
lemma findChild_eq (h : TrieInv t N S) (hp : N p = some a) (he : t.mem a = some e) (name : Name) :
    t.findChild name e.children = .ok (N (p ++ [name])) := by
  have hok := h.entry_of_mem hp he
  obtain ⟨r, hr, hsome, hnone⟩ := h.findChild_list p name e.children fun c hc => (hok.child c).mp hc
  rw [hr]
  congr 1
  cases r with
  | some c => exact (hsome c rfl).symm
  | none =>
      symm
      rw [Option.eq_none_iff_forall_ne_some]
      exact fun c hc => hnone rfl c ((hok.child c).mpr ⟨name, hc⟩) hc

end TrieInv

/-- The tokens are the components of `cs`; for `/`, which has none, the first token is empty. -/
structure Tokens.Spells (tk : Tokens) (cs : List Name) : Prop where
  token : ∀ k (hk : k < cs.length), tk.token k = cs[k]
  root : cs = [] → tk.token 0 = []

namespace TrieInv

variable {t : Trie} {N : List Name → Option Addr} {S : Set (List Name)} {p q cs : List Name}
  {name : Name} {a b : Addr} {e : StoreEntry} {tk : Tokens} {d D : ℕ}

/-- The search starts short of the last component, or at the root for a path without components, and
    stops at the deepest node of its path. -/
lemma search_eq (h : TrieInv t N S) (hcs : tk.Spells cs) (hD : Deepest (nodesOf N) cs D)
    (hb : N (cs.take D) = some b) : ∀ (fuel : ℕ) (d : ℕ) (a : Addr), N (cs.take d) = some a →
    d ≤ D → (d < cs.length ∨ cs = []) → D < d + fuel →
    t.search tk cs.length fuel a d = .ok (b, D)
  | 0, _, _, _, _, _, hfuel => by omega
  | fuel + 1, d, a, ha, hd, hstart, hfuel => by
      obtain ⟨e, he, hok⟩ := h.entry ha
      rw [Trie.search, he]
      simp only [h.findChild_eq ha he]
      rcases hstart with hlt | rfl
      · rw [hcs.token d hlt, take_concat_getElem hlt]
        by_cases hdD : d = D
        · -- the next component is missing
          subst hdD
          have hnone : N (cs.take (d + 1)) = none := by
            rw [← Option.not_isSome_iff_eq_none]
            exact hD.stop hlt
          have hab : a = b := Option.some.inj (ha.symm.trans hb)
          rw [hnone, hab]
        · have hnext : (N (cs.take (d + 1))).isSome :=
            h.isSome_above (List.take_prefix_take_left (by omega)) hD.mem
          obtain ⟨c, hc⟩ := Option.isSome_iff_exists.mp hnext
          rw [hc]
          dsimp only
          split_ifs with hlast
          · exact search_eq h hcs hD hb fuel (d + 1) c hc (by omega) (Or.inl (by omega)) (by omega)
          · have hDeq : d + 1 = D := by have := hD.le; omega
            rw [hDeq] at hc ⊢
            rw [Option.some.inj (hc.symm.trans hb)]
      · -- no child of the root has an empty name
        have hD0 : D = 0 := Nat.le_zero.mp hD.le
        subst hD0
        have hd0 : d = 0 := Nat.le_zero.mp hd
        subst hd0
        have hnone : N ([] ++ [[]]) = none := by
          rw [← Option.not_isSome_iff_eq_none, Option.isSome_iff_exists]
          rintro ⟨c, hc⟩
          obtain ⟨e', -, hok'⟩ := h.entry hc
          obtain ⟨-, -, -, -, hne⟩ := hok'.up [] [] rfl
          exact hne rfl
        rw [hcs.root rfl, List.take_nil, hnone]
        rw [Option.some.inj (ha.symm.trans hb)]

/-- A path has a deepest node. -/
lemma exists_deepest (h : TrieInv t N S) (cs : List Name) :
    ∃ D b, Deepest (nodesOf N) cs D ∧ N (cs.take D) = some b := by
  classical
  let P : ℕ → Prop := fun d => (N (cs.take d)).isSome
  have h0 : P 0 := by simp [P, h.root]
  have hmem : P (Nat.findGreatest P cs.length) := Nat.findGreatest_spec (Nat.zero_le _) h0
  obtain ⟨b, hb⟩ := Option.isSome_iff_exists.mp hmem
  refine ⟨_, b, ⟨Nat.findGreatest_le _, hmem, ?_⟩, hb⟩
  intro hlt
  exact Nat.findGreatest_is_greatest (Nat.lt_succ_self _) hlt

/-! ## Writing the flag

Setting and clearing the top bit inserts the path into `S` and erases it, and changes nothing
else. -/

/-- A node whose entry is replaced by one for a set that differs at this node only. -/
lemma write (h : TrieInv t N S) {S' : Set (List Name)} (hp : N p = some a)
    (hok : EntryOk N S' p e) (hS : ∀ q, q ≠ p → (q ∈ S' ↔ q ∈ S)) : TrieInv (t.write a e) N S' where
  root := h.root
  inj := h.inj
  entry := by
    intro q b hq
    by_cases hqp : q = p
    · subst hqp
      rw [Option.some.inj (hq.symm.trans hp)]
      exact ⟨e, by simp [Trie.write], hok⟩
    · obtain ⟨e', he', hok'⟩ := h.entry hq
      have hba : b ≠ a := fun hba => hqp (h.inj hq (hba ▸ hp))
      exact ⟨e', by simpa [Trie.write, hba] using he', ⟨hok'.counts, hok'.child,
        hok'.explicited.trans (hS q hqp).symm, hok'.up⟩⟩
  alloc := by
    intro b e' hb
    by_cases hba : b = a
    · exact ⟨p, hba ▸ hp⟩
    · exact h.alloc (by simpa [Trie.write, hba] using hb)
  member := by
    intro q hq
    by_cases hqp : q = p
    · rw [hqp, hp]
      rfl
    · exact h.member q ((hS q hqp).mp hq)
  listed := by
    refine ⟨h.listed.1, fun b => ?_⟩
    rw [show (t.write a e).allocations = t.allocations from rfl, h.listed.2]
    by_cases hba : b = a
    · subst hba
      obtain ⟨e', he', -⟩ := h.entry hp
      simp [Trie.write, he']
    · simp [Trie.write, hba]

lemma setExplicited (h : TrieInv t N S) (hp : N p = some a) (he : t.mem a = some e) :
    TrieInv (t.write a e.setExplicited) N (insert p S) := by
  have hok := h.entry_of_mem hp he
  refine h.write hp ⟨hok.counts.setExplicited, hok.child, ?_, hok.up⟩ fun q hq => ?_
  · exact iff_of_true e.explicited_setExplicited (Set.mem_insert p S)
  · exact ⟨fun hm => hm.resolve_left hq, Set.mem_insert_of_mem p⟩

lemma clearExplicited (h : TrieInv t N S) (hp : N p = some a) (he : t.mem a = some e) :
    TrieInv (t.write a e.clearExplicited) N (S \ {p}) := by
  have hok := h.entry_of_mem hp he
  refine h.write hp ⟨hok.counts.clearExplicited, hok.child, ?_, hok.up⟩ fun q hq => ?_
  · rw [e.explicited_clearExplicited]
    exact iff_of_false Bool.false_ne_true fun hm => hm.2 rfl
  · exact ⟨fun hm => hm.1, fun hm => ⟨hm, hq⟩⟩

end TrieInv

/-! ## Creating the nodes of a path

One `link` and one `unlink`, on the two entries that they write to: the new or freed one and its
parent. -/

namespace EntryOk

variable {N N' : List Name → Option Addr} {S : Set (List Name)} {p : List Name} {name : Name}
  {a b : Addr} {e : StoreEntry}

/-- A node keeps its entry while its parent and its children stay where they are. -/
lemma frame (hok : EntryOk N S p e) (hchild : ∀ n, N' (p ++ [n]) = N (p ++ [n]))
    (hup : ∀ q n, p = q ++ [n] → N' q = N q) : EntryOk N' S p e where
  counts := hok.counts
  child := by
    intro a
    rw [hok.child]
    exact exists_congr fun n => by rw [hchild]
  explicited := hok.explicited
  up := by
    intro q n hq
    rw [hup q n hq]
    exact hok.up q n hq

/-- The parent of a path is not the path itself continued. -/
lemma update_parent {v : Option Addr} {q : List Name} {n : Name} (hq : p = q ++ [n]) :
    Function.update N (p ++ [name]) v q = N q := by
  refine Function.update_of_ne (fun heq => ?_) _ _
  have := congrArg List.length (hq.trans (congrArg (· ++ [n]) heq))
  simp only [List.length_append, List.length_singleton] at this
  omega

lemma addChild (hok : EntryOk N S p e) (hfresh : ∀ q, N q ≠ some b)
    (hnone : N (p ++ [name]) = none) :
    EntryOk (Function.update N (p ++ [name]) (some b)) S p (e.addChild b) := by
  have hnot : b ∉ e.children := fun hmem => by
    obtain ⟨n, hn⟩ := (hok.child b).mp hmem
    exact hfresh _ hn
  obtain ⟨hcounts, hflag⟩ := hok.counts.addChild hnot
  refine ⟨hcounts, fun c => ?_, by rw [hflag, hok.explicited], fun q n hq => ?_⟩
  · rw [show (e.addChild b).children = b :: e.children from rfl, List.mem_cons, hok.child]
    constructor
    · rintro (rfl | ⟨n, hn⟩)
      · exact ⟨name, Function.update_self ..⟩
      · refine ⟨n, (Function.update_of_ne (fun heq => ?_) _ _).trans hn⟩
        rw [heq, hnone] at hn
        cases hn
    · rintro ⟨n, hn⟩
      by_cases hnn : n = name
      · subst hnn
        rw [Function.update_self] at hn
        exact Or.inl (Option.some.inj hn).symm
      · rw [Function.update_of_ne (by simpa using hnn)] at hn
        exact Or.inr ⟨n, hn⟩
  · rw [update_parent hq]
    exact hok.up q n hq

lemma dropChild (hok : EntryOk N S p e) (ha : N (p ++ [name]) = some a)
    (hinj : ∀ q, N q = some a → q = p ++ [name]) :
    EntryOk (Function.update N (p ++ [name]) none) S p (e.dropChild a) := by
  have hmem : a ∈ e.children := (hok.child a).mpr ⟨name, ha⟩
  obtain ⟨hcounts, hflag⟩ := hok.counts.dropChild hmem
  refine ⟨hcounts, fun c => ?_, by rw [hflag, hok.explicited], fun q n hq => ?_⟩
  · rw [show (e.dropChild a).children = e.children.erase a from rfl,
      hok.counts.nodup.mem_erase_iff, hok.child]
    constructor
    · rintro ⟨hca, n, hn⟩
      refine ⟨n, (Function.update_of_ne (fun heq => ?_) _ _).trans hn⟩
      rw [heq, ha] at hn
      exact hca (Option.some.inj hn).symm
    · rintro ⟨n, hn⟩
      have hne : p ++ [n] ≠ p ++ [name] := by
        intro heq
        rw [heq, Function.update_self] at hn
        cases hn
      rw [Function.update_of_ne hne] at hn
      refine ⟨?_, n, hn⟩
      rintro rfl
      exact hne (hinj _ hn)
  · rw [update_parent hq]
    exact hok.up q n hq

/-- The entry of a new node. -/
lemma leaf (hp : N p = some a) (hname : name ≠ []) (hmem : p ++ [name] ∉ S)
    (hbelow : ∀ n, N (p ++ [name] ++ [n]) = none) :
    EntryOk N S (p ++ [name]) ⟨some a, name, [], 0⟩ where
  counts := ⟨by norm_num, Nat.zero_mod _, List.nodup_nil⟩
  child := by
    intro c
    refine iff_of_false List.not_mem_nil ?_
    rintro ⟨n, hn⟩
    rw [hbelow n] at hn
    cases hn
  explicited := iff_of_false (by rw [StoreEntry.explicited_iff]; norm_num) hmem
  up := by
    intro q n hq
    obtain ⟨rfl, rfl⟩ := List.append_singleton_inj.mp hq
    exact ⟨a, hp, rfl, rfl, hname⟩

end EntryOk

namespace TrieInv

variable {t : Trie} {N : List Name → Option Addr} {S : Set (List Name)} {p q cs : List Name}
  {name : Name} {a b : Addr} {e : StoreEntry} {tk : Tokens} {d D : ℕ}

lemma not_isSome (h : TrieInv t N S) (hnone : N p = none) (hpq : p <+: q) : N q = none := by
  rw [← Option.not_isSome_iff_eq_none] at hnone ⊢
  exact fun hq => hnone (h.isSome_above hpq hq)

/-- A fresh object becomes the child `name` of the node at `p`. -/
lemma link (h : TrieInv t N S) (hp : N p = some a) (he : t.mem a = some e) (hb : t.mem b = none)
    (hnone : N (p ++ [name]) = none) (hname : name ≠ []) :
    TrieInv (t.link a b e name) (Function.update N (p ++ [name]) (some b)) S := by
  have hab : a ≠ b := by
    rintro rfl
    rw [he] at hb
    cases hb
  have hfresh : ∀ q, N q ≠ some b := by
    intro q hq
    obtain ⟨e', he', -⟩ := h.entry hq
    rw [hb] at he'
    cases he'
  have hkeep : ∀ {q c}, N q = some c → Function.update N (p ++ [name]) (some b) q = some c := by
    intro q c hq
    refine (Function.update_of_ne (fun heq => ?_) _ _).trans hq
    rw [heq, hnone] at hq
    cases hq
  have hmem : (t.link a b e name).mem = Function.update (Function.update t.mem b
      (some ⟨some a, name, [], 0⟩)) a (some (e.addChild b)) := rfl
  refine ⟨hkeep h.root, ?_, ?_, ?_, ?_, ?_⟩
  · -- the new node is nowhere else
    intro q r c hq hr
    rw [Function.update_apply] at hq hr
    split_ifs at hq hr with hqn hrn hrn
    · rw [hqn, hrn]
    · exact absurd (hr.trans hq.symm) (hfresh r)
    · exact absurd (hq.trans hr.symm) (hfresh q)
    · exact h.inj hq hr
  · intro q c hq
    rw [hmem]
    by_cases hqn : q = p ++ [name]
    · subst hqn
      rw [Function.update_self] at hq
      obtain rfl := Option.some.inj hq
      refine ⟨_, by rw [Function.update_of_ne hab.symm, Function.update_self],
        .leaf (hkeep hp) hname (fun hS => ?_) fun n => ?_⟩
      · have := h.member _ hS
        rw [hnone] at this
        cases this
      · rw [Function.update_of_ne (by simp)]
        exact h.not_isSome hnone (List.prefix_append _ _)
    · rw [Function.update_of_ne hqn] at hq
      by_cases hqp : q = p
      · subst hqp
        rw [Option.some.inj (hq.symm.trans hp)]
        exact ⟨_, Function.update_self .., (h.entry_of_mem hp he).addChild hfresh hnone⟩
      · obtain ⟨e', he', hok⟩ := h.entry hq
        have hca : c ≠ a := fun hca => hqp (h.inj hq (hca ▸ hp))
        have hcb : c ≠ b := fun hcb => hfresh q (hcb ▸ hq)
        refine ⟨e', by rw [Function.update_of_ne hca, Function.update_of_ne hcb, he'],
          hok.frame (fun n => Function.update_of_ne ?_ _ _) fun r n hr =>
          Function.update_of_ne ?_ _ _⟩
        · exact fun heq => hqp (List.append_singleton_inj.mp heq).1
        · rintro rfl
          have := h.not_isSome hnone ⟨[n], hr.symm⟩
          rw [hq] at this
          cases this
  · intro c e' hc
    rw [hmem] at hc
    by_cases hca : c = a
    · exact ⟨p, hkeep (hca ▸ hp)⟩
    · by_cases hcb : c = b
      · exact ⟨p ++ [name], hcb ▸ Function.update_self ..⟩
      · rw [Function.update_of_ne hca, Function.update_of_ne hcb] at hc
        obtain ⟨q, hq⟩ := h.alloc hc
        exact ⟨q, hkeep hq⟩
  · intro q hq
    obtain ⟨c, hc⟩ := Option.isSome_iff_exists.mp (h.member q hq)
    rw [hkeep hc]
    rfl
  · rw [show (t.link a b e name).allocations = b :: t.allocations from rfl, hmem]
    refine ⟨List.nodup_cons.mpr ⟨fun hlist => ?_, h.listed.1⟩, fun c => ?_⟩
    · have := (h.listed.2 b).mp hlist
      rw [hb] at this
      cases this
    · rw [List.mem_cons, h.listed.2, Function.update_apply, Function.update_apply]
      split_ifs with hca hcb
      · simp [hca, he]
      · simp [hcb]
      · simp [hcb]

/-- A node without children that is no member is unlinked and freed. -/
lemma unlink (h : TrieInv t N S) (ha : N (p ++ [name]) = some a) (he : t.mem a = some e)
    (hnil : e.children = []) (hS : p ++ [name] ∉ S) (hb : N p = some b) {f : StoreEntry}
    (hf : t.mem b = some f) :
    TrieInv (t.unlink b a f) (Function.update N (p ++ [name]) none) S := by
  have hleaf := (h.children_eq_nil ha he).mp hnil
  have hab : b ≠ a := by
    rintro rfl
    have := congrArg List.length (h.inj ha hb)
    simp at this
  have hother : ∀ {q c}, Function.update N (p ++ [name]) none q = some c →
      q ≠ p ++ [name] ∧ N q = some c ∧ c ≠ a := by
    intro q c hq
    rw [Function.update_apply] at hq
    split_ifs at hq with hqn
    refine ⟨hqn, hq, ?_⟩
    rintro rfl
    exact hqn (h.inj hq ha)
  have hmem : (t.unlink b a f).mem
      = Function.update (Function.update t.mem b (some (f.dropChild a))) a none := rfl
  refine ⟨?_, ?_, ?_, ?_, ?_, ?_⟩
  · exact (Function.update_of_ne (by simp) _ _).trans h.root
  · intro q r c hq hr
    exact h.inj (hother hq).2.1 (hother hr).2.1
  · intro q c hq
    obtain ⟨hqn, hNq, hca⟩ := hother hq
    by_cases hqp : q = p
    · subst hqp
      rw [Option.some.inj (hNq.symm.trans hb)]
      refine ⟨f.dropChild a, ?_, (h.entry_of_mem hb hf).dropChild ha fun r hr => h.inj hr ha⟩
      rw [hmem, Function.update_of_ne hab, Function.update_self]
    · obtain ⟨e', he', hok⟩ := h.entry hNq
      have hcb : c ≠ b := fun hcb => hqp (h.inj hNq (hcb ▸ hb))
      refine ⟨e', by rw [hmem, Function.update_of_ne hca, Function.update_of_ne hcb, he'],
        hok.frame (fun n => Function.update_of_ne ?_ _ _) fun r n hr =>
        Function.update_of_ne ?_ _ _⟩
      · exact fun heq => hqp (List.append_singleton_inj.mp heq).1
      · rintro rfl
        exact hleaf n (Option.isSome_iff_exists.mpr ⟨c, hr ▸ hNq⟩)
  · intro c e' hc
    rw [hmem, Function.update_apply] at hc
    split_ifs at hc with hca
    obtain ⟨q, hq⟩ : ∃ q, N q = some c := by
      rw [Function.update_apply] at hc
      split_ifs at hc with hcb
      · exact ⟨p, hcb ▸ hb⟩
      · exact h.alloc hc
    refine ⟨q, (Function.update_of_ne ?_ _ _).trans hq⟩
    rintro rfl
    exact hca (Option.some.inj (hq.symm.trans ha))
  · intro q hq
    rw [Function.update_of_ne]
    · exact h.member q hq
    · rintro rfl
      exact hS hq
  · refine ⟨h.listed.1.erase a, fun c => ?_⟩
    rw [show (t.unlink b a f).allocations = t.allocations.erase a from rfl,
      h.listed.1.mem_erase_iff, h.listed.2, hmem, Function.update_apply, Function.update_apply]
    split_ifs with hca hcb
    · simp [hca]
    · simp [hcb, hab, hf]
    · simp [hca]

end TrieInv

end KLRM
