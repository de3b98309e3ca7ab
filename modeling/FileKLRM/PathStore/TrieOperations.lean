import FileKLRM.PathStore.Store
import FileKLRM.PathStore.TrieInvariant

/-!
# Creating and pruning nodes

`Trie.create` adds the prefixes of a path and nothing else; `Trie.prune` removes the nodes above a
path that lead to no member.  Both are loops over the heap, and the induction of each carries
`TrieInv` through one `link` or `unlink`.  At the end the trie is read from outside, by walking
down from its root: `Represents` says what a trie for a set of paths looks like without naming the
map `N`.
-/

namespace KLRM

/-- The slab hands out `n` distinct objects that are not in use. -/
structure FreshFor (t : Trie) (fresh : List Addr) (n : ℕ) : Prop where
  enough : n ≤ fresh.length
  nodup : fresh.Nodup
  free : ∀ a ∈ fresh, t.mem a = none

/-- One of the objects is linked. -/
lemma FreshFor.link {t : Trie} {fresh : List Addr} {n : ℕ} {b c : Addr} {e : StoreEntry}
    (h : FreshFor t (c :: fresh) n) (he : t.mem b = some e) (name : Name) :
    FreshFor (t.link b c e name) fresh (n - 1) where
  enough := by
    have := h.enough
    rw [List.length_cons] at this
    omega
  nodup := (List.nodup_cons.mp h.nodup).2
  free := by
    intro x hx
    have hfree := h.free x (by simp [hx])
    have hxb : x ≠ b := by
      rintro rfl
      rw [he] at hfree
      cases hfree
    have hxc : x ≠ c := by
      rintro rfl
      exact (List.nodup_cons.mp h.nodup).1 hx
    simp [Trie.link, Trie.write, hxb, hxc, hfree]

/-- The components of a canonical path. -/
structure IsCanonical (cs : List Name) : Prop where
  isName : ∀ c ∈ cs, IsName c
  size : cs.length ≤ argsSize

lemma IsCanonical.nil_notMem {cs : List Name} (h : IsCanonical cs) : [] ∉ cs :=
  fun hmem => (h.isName _ hmem).ne_nil rfl

namespace Trie

variable {t t' : Trie} {tk : Tokens} {a b : Addr} {name : Name} {e : StoreEntry} {P : Name → Prop}

/-! ## The names of the nodes

A name that is created is a component of the path, so whatever holds of the names in the trie and
of the components holds afterwards; and the creation of a whole path is a sequence of links, each
at the deepest node. -/

/-- Every name in the heap has `P`. -/
def EveryName (P : Name → Prop) (t : Trie) : Prop := ∀ a e, t.mem a = some e → P e.dirName

lemma EveryName.write (h : t.EveryName P) (he : P e.dirName) (a : Addr) :
    (t.write a e).EveryName P := by
  intro b f hf
  simp only [Trie.write, Function.update_apply] at hf
  split_ifs at hf
  · rw [← Option.some.inj hf]
    exact he
  · exact h b f hf

lemma EveryName.link (h : t.EveryName P) (he : t.mem b = some e) (hname : P name) (a : Addr) :
    (t.link b a e name).EveryName P := by
  intro c f hf
  simp only [Trie.link, Trie.write, Function.update_apply] at hf
  split_ifs at hf
  · rw [← Option.some.inj hf]
    exact h b e he
  · rw [← Option.some.inj hf]
    exact hname
  · exact h c f hf

lemma EveryName.unlink (h : t.EveryName P) (he : t.mem b = some e) (a : Addr) :
    (t.unlink b a e).EveryName P := by
  intro c f hf
  simp only [Trie.unlink, Trie.write, Function.update_apply] at hf
  split_ifs at hf
  · rw [← Option.some.inj hf]
    exact h b e he
  · exact h c f hf

/-- `LOOP_ADD` gives a node a name that is not empty and fits in `dir_name`. -/
lemma EveryName.create (hP : ∀ name, name ≠ [] → name.length < 1024 → P name) {j : ℕ}
    {r : Created} : ∀ {fuel : ℕ} {a : Addr} {d : ℕ} {fresh : List Addr} {t : Trie}, t.EveryName P →
    Trie.create tk j fuel a d fresh t = .ok (r, t') → t'.EveryName P
  | 0, _, _, _, _, _, hrun => by cases hrun
  | fuel + 1, a, d, fresh, t, h, hrun => by
      rw [Trie.create] at hrun
      split at hrun
      · cases hrun
      · rename_i b D hsearch
        by_cases hD : D = j
        · rw [if_pos hD] at hrun
          obtain ⟨-, rfl⟩ := Prod.mk.inj (Except.ok.inj hrun)
          exact h
        · rw [if_neg hD] at hrun
          by_cases hname : tk.token D = []
          · rw [if_pos hname] at hrun
            obtain ⟨-, rfl⟩ := Prod.mk.inj (Except.ok.inj hrun)
            exact h
          · rw [if_neg hname] at hrun
            split at hrun
            · cases hrun
            · cases hrun
            · rename_i he
              split_ifs at hrun with hlong
              exact (h.link he (hP _ hname (not_le.mp hlong)) _).create hP hrun

lemma EveryName.prune : ∀ {fuel : ℕ} {a : Addr} {t : Trie}, t.EveryName P →
    Trie.prune fuel a t = .ok t' → t'.EveryName P
  | 0, _, _, _, hrun => by cases hrun
  | fuel + 1, a, t, h, hrun => by
      rw [Trie.prune] at hrun
      split at hrun
      · cases hrun
      · split_ifs at hrun
        · exact Except.ok.inj hrun ▸ h
        · split at hrun
          · cases hrun
          · split at hrun
            · cases hrun
            · rename_i he
              exact (h.unlink he _).prune hrun

end Trie

namespace TrieInv

variable {t t' : Trie} {N : List Name → Option Addr} {S : Set (List Name)} {p cs : List Name}
  {a b : Addr} {e : StoreEntry} {tk : Tokens}

/-- Once the missing child is there, the path leads one step further down. -/
lemma deepest_link (h : TrieInv t N S) {D : ℕ} (hD : Deepest (nodesOf N) cs D)
    (hlt : D < cs.length) (b : Addr) :
    Deepest (nodesOf (Function.update N (cs.take (D + 1)) (some b))) cs (D + 1) where
  le := hlt
  mem := by simp
  stop := by
    intro hlt'
    have hnone : N (cs.take (D + 1)) = none := Option.not_isSome_iff_eq_none.mp (hD.stop hlt)
    have hne : cs.take (D + 1 + 1) ≠ cs.take (D + 1) := by
      intro heq
      have := congrArg List.length heq
      rw [List.length_take, List.length_take] at this
      omega
    rw [mem_nodesOf, Function.update_of_ne hne,
      h.not_isSome hnone (List.take_prefix_take_left (by omega))]
    simp

/-- The missing child of the deepest node is linked. -/
lemma link_deepest (h : TrieInv t N S) {D : ℕ} (hD : Deepest (nodesOf N) cs D) (hlt : D < cs.length)
    (hb : N (cs.take D) = some b) (he : t.mem b = some e) {c : Addr} (hc : t.mem c = none)
    (hname : cs[D] ≠ []) :
    TrieInv (t.link b c e cs[D]) (Function.update N (cs.take (D + 1)) (some c)) S ∧
      Deepest (nodesOf (Function.update N (cs.take (D + 1)) (some c))) cs (D + 1) ∧
      Function.update N (cs.take (D + 1)) (some c) (cs.take D) = some b := by
  have hnone : N (cs.take D ++ [cs[D]]) = none := by
    rw [take_concat_getElem hlt]
    exact Option.not_isSome_iff_eq_none.mp (hD.stop hlt)
  have hlink := h.link hb he hc hnone hname
  rw [take_concat_getElem hlt] at hlink
  refine ⟨hlink, h.deepest_link hD hlt c, (Function.update_of_ne (fun heq => ?_) _ _).trans hb⟩
  have := congrArg List.length heq
  rw [List.length_take, List.length_take] at this
  omega

/-- What `LOOP_ADD` adds to the nodes of a path that is there down to depth `D`: one node for
    each further component, in the next fresh object. -/
structure Grown (t : Trie) (N : List Name → Option Addr) (cs : List Name) (D : ℕ)
    (fresh : List Addr) (t' : Trie) (N' : List Name → Option Addr) : Prop where
  old : ∀ q, (N q).isSome → N' q = N q
  new : ∀ k, D ≤ k → k < cs.length → N' (cs.take (k + 1)) = fresh[k - D]?
  allocations : t'.allocations = (fresh.take (cs.length - D)).reverse ++ t.allocations
  nodes : ∀ q, (N' q).isSome ↔ (N q).isSome ∨ q <+: cs

/-- Nothing is added when the whole path is there. -/
lemma Grown.full (h : TrieInv t N S) (hcs : (N cs).isSome) (fresh : List Addr) :
    Grown t N cs cs.length fresh t N where
  old := fun _ _ => rfl
  new := fun k hle hlt => by omega
  allocations := by simp
  nodes := fun q => ⟨Or.inl, fun hq => hq.elim id fun hpre => h.isSome_above hpre hcs⟩

/-- One node, and then the rest. -/
lemma Grown.link {N' : List Name → Option Addr} {c : Addr} {fresh : List Addr} {D : ℕ}
    (hlt : D < cs.length) (hnone : N (cs.take (D + 1)) = none)
    (h : Grown (t.link b c e cs[D]) (Function.update N (cs.take (D + 1)) (some c)) cs
      (D + 1) fresh t' N') :
    Grown t N cs D (c :: fresh) t' N' where
  old := by
    intro q hq
    have hne : q ≠ cs.take (D + 1) := by
      rintro rfl
      rw [hnone] at hq
      cases hq
    rw [← Function.update_of_ne hne (some c) N] at hq ⊢
    exact h.old q hq
  new := by
    intro k hle hk
    rcases Nat.eq_or_lt_of_le hle with rfl | hgt
    · rw [h.old _ (by rw [Function.update_self]; rfl), Function.update_self, Nat.sub_self]
      rfl
    · rw [h.new k hgt hk, show k - D = (k - (D + 1)) + 1 by omega, List.getElem?_cons_succ]
  allocations := by
    rw [h.allocations, show cs.length - D = (cs.length - (D + 1)) + 1 by omega, List.take_succ_cons,
      List.reverse_cons, List.append_assoc]
    rfl
  nodes := by
    intro q
    rw [h.nodes, Function.update_apply]
    split_ifs with hq
    · subst hq
      exact iff_of_true (Or.inl rfl) (Or.inr (List.take_prefix _ _))
    · exact Iff.rfl

/-- `LOOP_ADD` ends on the node of its path, and has added the nodes that were missing. -/
lemma create_eq (hcs : tk.Spells cs) (hsize : cs.length ≤ argsSize) (hnil : [] ∉ cs)
    (hshort : ∀ c ∈ cs, c.length < 1024) : ∀ (fuel d D : ℕ) (a : Addr)
    (fresh : List Addr) (t : Trie) (N : List Name → Option Addr), TrieInv t N S →
    Deepest (nodesOf N) cs D → N (cs.take d) = some a → d ≤ D → (d < cs.length ∨ cs = []) →
    FreshFor t fresh (cs.length - D) → cs.length - D < fuel →
    ∃ t' N' b, Trie.create tk cs.length fuel a d fresh t = .ok (.node b, t') ∧ TrieInv t' N' S ∧
      N' cs = some b ∧ Grown t N cs D fresh t' N'
  | 0, _, _, _, _, _, _, _, _, _, _, _, _, hfuel => by omega
  | fuel + 1, d, D, a, fresh, t, N, h, hD, ha, hd, hstart, hfresh, hfuel => by
      have hDle := hD.le
      obtain ⟨b, hb⟩ := Option.isSome_iff_exists.mp hD.mem
      have hsearch := h.search_eq hcs hD hb (argsSize + 1) d a ha hd hstart (by omega)
      rw [Trie.create, hsearch]
      by_cases hDj : D = cs.length
      · -- every component is there
        subst hDj
        rw [List.take_length] at hb
        exact ⟨t, N, b, by simp, h, hb, .full h (by rw [hb]; rfl) fresh⟩
      · have hlt : D < cs.length := by omega
        have hmem := List.getElem_mem hlt
        have hname : cs[D] ≠ [] := fun heq => hnil (heq ▸ hmem)
        have hfits : ¬ 1024 ≤ cs[D].length := not_le.mpr (hshort _ hmem)
        obtain ⟨e, he, -⟩ := h.entry hb
        obtain ⟨c, fresh', rfl⟩ : ∃ c fresh', fresh = c :: fresh' :=
          List.exists_cons_of_length_pos (by have := hfresh.enough; omega)
        obtain ⟨hlink, hD', hb'⟩ := h.link_deepest hD hlt hb he (hfresh.free c (by simp)) hname
        have hfresh' : FreshFor (t.link b c e cs[D]) fresh' (cs.length - (D + 1)) := by
          have hrest := hfresh.link he cs[D]
          rwa [Nat.sub_sub] at hrest
        obtain ⟨t', N', r, hrun, hinv, hr, hgrown⟩ :=
          create_eq hcs hsize hnil hshort fuel D (D + 1) b fresh' _ _ hlink hD' hb' (by omega)
            (Or.inl hlt) hfresh' (by omega)
        refine ⟨t', N', r, ?_, hinv, hr,
          .link hlt (Option.not_isSome_iff_eq_none.mp (hD.stop hlt)) hgrown⟩
        simp only [hDj, if_false, hcs.token D hlt, hname, he, hfits]
        exact hrun

/-- The creation as `path_store_add` calls it, from the root. -/
lemma create_root (h : TrieInv t N S) (hcs : tk.Spells cs) (hsize : cs.length ≤ argsSize)
    (hnil : [] ∉ cs)
    (hshort : ∀ c ∈ cs, c.length < 1024) {fresh : List Addr} (hfresh : FreshFor t fresh cs.length) :
    ∃ D t' N' b, Deepest (nodesOf N) cs D ∧
      Trie.create tk cs.length (argsSize + 1) t.root 0 fresh t = .ok (.node b, t') ∧
      TrieInv t' N' S ∧ N' cs = some b ∧ Grown t N cs D fresh t' N' := by
  obtain ⟨D, b, hD, hb⟩ := h.exists_deepest cs
  have hstart : 0 < cs.length ∨ cs = [] := by
    cases cs with
    | nil => exact Or.inr rfl
    | cons c cs => exact Or.inl (Nat.succ_pos _)
  obtain ⟨t', N', b, hrun⟩ :=
    create_eq hcs hsize hnil hshort (argsSize + 1) 0 D t.root fresh t N h hD
    (by simpa using h.root) (Nat.zero_le _) hstart
    ⟨(Nat.sub_le _ _).trans hfresh.enough, hfresh.nodup, hfresh.free⟩ (by omega)
  exact ⟨D, t', N', b, hD, hrun⟩

/-- The search as the three operations call it, from the root. -/
lemma search_root (h : TrieInv t N S) (hcs : tk.Spells cs) (hsize : cs.length ≤ argsSize) :
    ∃ D b, t.search tk cs.length (argsSize + 1) t.root 0 = .ok (b, D) ∧
      Deepest (nodesOf N) cs D ∧ N (cs.take D) = some b := by
  obtain ⟨D, b, hD, hb⟩ := h.exists_deepest cs
  have hDle := hD.le
  refine ⟨D, b, ?_, hD, hb⟩
  refine h.search_eq hcs hD hb (argsSize + 1) 0 t.root (by simpa using h.root) (Nat.zero_le _) ?_
    (by omega)
  cases cs with
  | nil => exact Or.inr rfl
  | cons c cs => exact Or.inl (Nat.succ_pos _)

/-! ## Pruning

The way up stops at the first node that has other children or is protected itself.  Before it only
the node that has just lost its flag may lead nowhere; with each step that is true of its parent
instead. -/

/-- The pruned node goes, and its parent is next. -/
lemma prune_step (h : TrieInv t N S) (ha : N p = some a) (he : t.mem a = some e)
    (hstop : ¬ (a = t.root ∨ e.count ≠ 0 ∨ e.explicited = true)) :
    ∃ q n b f, p = q ++ [n] ∧ e.parent = some b ∧ t.mem b = some f ∧
      TrieInv (t.unlink b a f) (Function.update N p none) S ∧
      Function.update N p none q = some b := by
  push Not at hstop
  obtain ⟨hroot, hcount, hflag⟩ := hstop
  have hok := h.entry_of_mem ha he
  have hne : p ≠ [] := by
    rintro rfl
    exact hroot (Option.some.inj (ha.symm.trans h.root))
  obtain ⟨q, n, rfl⟩ := List.eq_nil_or_concat' p |>.resolve_left hne
  obtain ⟨b, hb, hparent, -, -⟩ := hok.up q n rfl
  obtain ⟨f, hf, -⟩ := h.entry hb
  have hnil : e.children = [] := List.length_eq_zero_iff.mp (hok.counts.count ▸ hcount)
  exact ⟨q, n, b, f, rfl, hparent, hf,
    h.unlink ha he hnil (fun hS => hflag (hok.explicited.mpr hS)) hb hf,
    (Function.update_of_ne (by simp) _ _).trans hb⟩

/-- The pruning starts where every node leads to a member or to the pruned path, and ends where
    every node leads to a member. -/
lemma prune_eq : ∀ (fuel : ℕ) (p : List Name) (a : Addr) (t : Trie) (N : List Name → Option Addr),
    TrieInv t N S → N p = some a → p.length < fuel →
    (∀ q, (N q).isSome → q ∈ prefixClosure S ∨ q <+: p) →
    ∃ t' N', Trie.prune fuel a t = .ok t' ∧ TrieInv t' N' S ∧ Tight N' S
  | 0, _, _, _, _, _, _, hfuel, _ => by omega
  | fuel + 1, p, a, t, N, h, ha, hfuel, htight => by
      obtain ⟨e, he, hok⟩ := h.entry ha
      rw [Trie.prune, he]
      dsimp only
      split_ifs with hstop
      · refine ⟨t, N, rfl, h, ?_⟩
        have hp : p ∈ prefixClosure S := by
          rcases hstop with hroot | hcount | hflag
          · exact Or.inl (h.inj ha (hroot ▸ h.root))
          · -- a child of `p` is no prefix of `p`, so it leads to a member
            rw [hok.counts.count, ne_eq, List.length_eq_zero_iff] at hcount
            obtain ⟨c, hc⟩ := List.exists_mem_of_ne_nil _ hcount
            obtain ⟨n, hn⟩ := (hok.child c).mp hc
            rcases htight _ (Option.isSome_iff_exists.mpr ⟨c, hn⟩) with hmem | hpre
            · exact prefixClosure_closed hmem (List.prefix_append _ _)
            · have := hpre.length_le
              rw [List.length_append, List.length_singleton] at this
              omega
          · exact mem_prefixClosure_of_mem (hok.explicited.mp hflag)
        intro q hq
        rcases htight q hq with hmem | hpre
        · exact hmem
        · exact prefixClosure_closed hp hpre
      · obtain ⟨q, n, b, f, rfl, hparent, hf, hunlink, hbq⟩ := h.prune_step ha he hstop
        rw [List.length_append, List.length_singleton] at hfuel
        obtain ⟨t', N', hrun, hinv, ht⟩ :=
          prune_eq fuel q b _ _ hunlink hbq (by omega) fun r hr => by
          rw [Function.update_apply] at hr
          split_ifs at hr with hrp
          · cases hr
          · rcases htight r hr with hmem | hpre
            · exact Or.inl hmem
            · exact Or.inr ((List.prefix_concat_iff.mp hpre).resolve_left hrp)
        exact ⟨t', N', by simp only [hparent, hf]; exact hrun, hinv, ht⟩

/-- What `path_store_rm` does at the node of a member: it leaves a tight trie for the other
    members. -/
lemma deactivate_eq (h : TrieInv t N S) (ht : Tight N S) (ha : N p = some a) (he : t.mem a = some e)
    (hsize : p.length ≤ argsSize) :
    ∃ t' N', Store.deactivate t a e = .ok t' ∧ TrieInv t' N' (S \ {p}) ∧ Tight N' (S \ {p}) := by
  have hclear := h.clearExplicited ha he
  have hok := h.entry_of_mem ha he
  -- a node leads to a member other than `p`, or to `p`
  have hweak : ∀ q, (N q).isSome → q ∈ prefixClosure (S \ {p}) ∨ q <+: p := by
    intro q hq
    rcases ht q hq with rfl | ⟨s, hs, hqs⟩
    · exact Or.inl (nil_mem_prefixClosure _)
    · by_cases hsp : s = p
      · exact Or.inr (hsp ▸ hqs)
      · exact Or.inl (Or.inr ⟨s, ⟨hs, hsp⟩, hqs⟩)
  rw [Store.deactivate]
  split_ifs with hcount
  · refine ⟨_, N, rfl, hclear, ?_⟩
    rw [hok.counts.count, ne_eq, List.length_eq_zero_iff] at hcount
    obtain ⟨c, hc⟩ := List.exists_mem_of_ne_nil _ hcount
    obtain ⟨n, hn⟩ := (hok.child c).mp hc
    have hp : p ∈ prefixClosure (S \ {p}) := by
      rcases hweak _ (Option.isSome_iff_exists.mpr ⟨c, hn⟩) with hmem | hpre
      · exact prefixClosure_closed hmem (List.prefix_append _ _)
      · have := hpre.length_le
        rw [List.length_append, List.length_singleton] at this
        omega
    intro q hq
    rcases hweak q hq with hmem | hpre
    · exact hmem
    · exact prefixClosure_closed hp hpre
  · exact prune_eq (argsSize + 2) p a _ N hclear ha (by omega) hweak

end TrieInv

/-! ## The trie from outside

`nodeAt` walks from the root by names and needs no map `N`.  What can be said with it is what
callers may rely on. -/

namespace Trie

/-- From `curr` down along the names. -/
def walk (t : Trie) : (curr : Addr) → List Name → Option Addr
  | curr, [] => some curr
  | curr, name :: rest =>
      match t.mem curr with
      | none => none
      | some e =>
          match t.findChild name e.children with
          | .ok (some child) => walk t child rest
          | _ => none

/-- The object at a path. -/
def nodeAt (t : Trie) (p : List Name) : Option Addr := t.walk t.root p

/-- **What the trie of a set of protected paths is**: its nodes are the prefixes of members and
    the root, each a different object, nothing else is allocated or listed, and the flag is set
    on the members. -/
structure Represents (t : Trie) (S : Set (List Name)) : Prop where
  nodes : ∀ p, (t.nodeAt p).isSome ↔ p ∈ prefixClosure S
  distinct : ∀ p q a, t.nodeAt p = some a → t.nodeAt q = some a → p = q
  allocated : ∀ a, (t.mem a).isSome ↔ ∃ p, t.nodeAt p = some a
  listed : t.allocations.Nodup ∧ ∀ a, a ∈ t.allocations ↔ (t.mem a).isSome
  explicited : ∀ p a e, t.nodeAt p = some a → t.mem a = some e → (e.explicited = true ↔ p ∈ S)

end Trie

namespace TrieInv

variable {t : Trie} {N : List Name → Option Addr} {S : Set (List Name)}

lemma walk_eq (h : TrieInv t N S) : ∀ (q p : List Name) (a : Addr), N p = some a →
    t.walk a q = N (p ++ q)
  | [], p, a, ha => by simp [Trie.walk, ha]
  | name :: q, p, a, ha => by
      obtain ⟨e, he, -⟩ := h.entry ha
      rw [Trie.walk, he]
      simp only [h.findChild_eq ha he]
      cases hn : N (p ++ [name]) with
      | none => exact (h.not_isSome hn ⟨q, by simp⟩).symm
      | some c => simpa using h.walk_eq q (p ++ [name]) c hn

lemma nodeAt_eq (h : TrieInv t N S) (p : List Name) : t.nodeAt p = N p := by
  simpa [Trie.nodeAt] using h.walk_eq p [] t.root h.root

lemma represents (h : TrieInv t N S) (ht : Tight N S) : t.Represents S where
  nodes := by
    intro p
    rw [h.nodeAt_eq, h.tight_iff ht]
  distinct := by
    intro p q a hp hq
    rw [h.nodeAt_eq] at hp hq
    exact h.inj hp hq
  allocated := by
    intro a
    simp only [h.nodeAt_eq]
    constructor
    · intro ha
      obtain ⟨e, he⟩ := Option.isSome_iff_exists.mp ha
      exact h.alloc he
    · rintro ⟨p, hp⟩
      obtain ⟨e, he, -⟩ := h.entry hp
      exact Option.isSome_iff_exists.mpr ⟨e, he⟩
  listed := h.listed
  explicited := by
    intro p a e hp he
    rw [h.nodeAt_eq] at hp
    exact (h.entry_of_mem hp he).explicited

end TrieInv

end KLRM
