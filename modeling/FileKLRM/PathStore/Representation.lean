import FileKLRM.PathStore.Refinement

/-!
# The representation invariant of the trie

What holds of the three linked structures of `path_store.c` themselves, with no path in sight: the
lists of children, the parent pointers with the word `children_num`, and the list `allocations`.
`Trie.WellLinked` reads only the heap; that every session keeps it follows from `TrieInv` and
`Tight`, since the names above a node are components of a protected path.

* `Descends` — the parent pointers lead from one node to another.
* `WellLinked` — lists, pointers, counts and `allocations` agree, and every node descends from the
  root.
-/

namespace KLRM

namespace Trie

/-- `b` is reached from `a` through lists of children. -/
def Descends (t : Trie) : Addr → Addr → Prop :=
  Relation.ReflTransGen fun a b => ∃ e, t.mem a = some e ∧ b ∈ e.children

/-- **The representation invariant.** -/
structure WellLinked (t : Trie) : Prop where
  /-- `children_num` counts the children. -/
  counts : ∀ a e, t.mem a = some e → e.count = e.children.length
  /-- The parent pointer of a child. -/
  parent : ∀ a e, t.mem a = some e → ∀ c ∈ e.children, ∃ f, t.mem c = some f ∧ f.parent = some a
  /-- No object is twice among the children, and no two of them have one name. -/
  siblings : ∀ a e, t.mem a = some e → e.children.Nodup ∧ ∀ c ∈ e.children, ∀ c' ∈ e.children,
    ∀ f f', t.mem c = some f → t.mem c' = some f' → f.dirName = f'.dirName → c = c'
  names : ∀ a e, t.mem a = some e → ∀ c ∈ e.children, ∀ f, t.mem c = some f → IsName f.dirName
  /-- No node dangles. -/
  supported : ∀ a e, t.mem a = some e → a ≠ t.root → e.explicited = true ∨ e.children ≠ []
  /-- The root and what is below it, each once, is what is listed and what is allocated. -/
  listed : t.allocations.Nodup ∧ ∀ a, a ∈ t.allocations ↔ t.Descends t.root a
  allocated : ∀ a, (t.mem a).isSome ↔ t.Descends t.root a

end Trie

namespace TrieInv

variable {t : Trie} {N : List Name → Option Addr} {S : Set (List Name)} {p : List Name} {a c : Addr}
  {e f : StoreEntry}

/-- The objects below the root are the nodes. -/
lemma descends_iff (h : TrieInv t N S) : t.Descends t.root a ↔ ∃ p, N p = some a := by
  constructor
  · intro ha
    induction ha with
    | refl => exact ⟨[], h.root⟩
    | tail _ hb ih =>
        obtain ⟨p, hp⟩ := ih
        obtain ⟨e, he, hmem⟩ := hb
        obtain ⟨name, hname⟩ := ((h.entry_of_mem hp he).child _).mp hmem
        exact ⟨p ++ [name], hname⟩
  · rintro ⟨p, hp⟩
    induction p using List.reverseRecOn generalizing a with
    | nil =>
        rw [← Option.some.inj (h.root.symm.trans hp)]
        exact Relation.ReflTransGen.refl
    | append_singleton q name ih =>
        obtain ⟨e, he, hok⟩ := h.entry hp
        obtain ⟨b, hb, -⟩ := hok.up q name rfl
        obtain ⟨f, hf, hokb⟩ := h.entry hb
        exact (ih hb).tail ⟨f, hf, (hokb.child a).mpr ⟨name, hp⟩⟩

/-- A child hangs under its parent by its name. -/
lemma child_eq (h : TrieInv t N S) (hp : N p = some a) (he : t.mem a = some e) (hc : c ∈ e.children)
    (hf : t.mem c = some f) : N (p ++ [f.dirName]) = some c ∧ f.parent = some a := by
  obtain ⟨name, hname⟩ := ((h.entry_of_mem hp he).child c).mp hc
  obtain ⟨b, hb, hparent, hdir, -⟩ := (h.entry_of_mem hname hf).up p name rfl
  rw [hdir, hparent, ← hb, hp]
  exact ⟨hname, rfl⟩

/-- A node that is neither the root nor explicit is on the way to a member, and has a child. -/
lemma supported (h : TrieInv t N S) (ht : Tight N S) (hp : N p = some a) (he : t.mem a = some e)
    (hroot : a ≠ t.root) : e.explicited = true ∨ e.children ≠ [] := by
  have hok := h.entry_of_mem hp he
  rcases ht p (by rw [hp]; rfl) with rfl | ⟨s, hs, r, rfl⟩
  · exact absurd (Option.some.inj (hp.symm.trans h.root)) hroot
  · cases r with
    | nil => exact Or.inl (hok.explicited.mpr (by simpa using hs))
    | cons name r =>
        have hnext : (N (p ++ [name])).isSome := h.isSome_above ⟨r, by simp⟩ (h.member _ hs)
        obtain ⟨c, hc⟩ := Option.isSome_iff_exists.mp hnext
        have hmem := (hok.child c).mpr ⟨name, hc⟩
        exact Or.inr (List.ne_nil_of_mem hmem)

/-- **A tight trie of canonical paths is well linked.** -/
theorem wellLinked (h : TrieInv t N S) (ht : Tight N S) (hS : ∀ s ∈ S, IsCanonical s) :
    t.WellLinked := by
  have hnode : ∀ {a e}, t.mem a = some e → ∃ p, N p = some a := fun he => h.alloc he
  have hallocated : ∀ a, (t.mem a).isSome ↔ t.Descends t.root a := by
    intro a
    rw [h.descends_iff]
    constructor
    · intro ha
      obtain ⟨e, he⟩ := Option.isSome_iff_exists.mp ha
      exact hnode he
    · rintro ⟨p, hp⟩
      obtain ⟨e, he, -⟩ := h.entry hp
      rw [he]
      rfl
  refine ⟨?_, ?_, ?_, ?_, ?_, ⟨h.listed.1, fun a => (h.listed.2 a).trans (hallocated a)⟩,
    hallocated⟩
  · intro a e he
    obtain ⟨p, hp⟩ := hnode he
    exact (h.entry_of_mem hp he).counts.count
  · intro a e he c hc
    obtain ⟨p, hp⟩ := hnode he
    obtain ⟨name, hname⟩ := ((h.entry_of_mem hp he).child c).mp hc
    obtain ⟨f, hf, -⟩ := h.entry hname
    exact ⟨f, hf, (h.child_eq hp he hc hf).2⟩
  · intro a e he
    obtain ⟨p, hp⟩ := hnode he
    refine ⟨(h.entry_of_mem hp he).counts.nodup, fun c hc c' hc' f f' hf hf' hdir => ?_⟩
    have heq := (h.child_eq hp he hc hf).1
    rw [hdir, (h.child_eq hp he hc' hf').1] at heq
    exact (Option.some.inj heq).symm
  · intro a e he c hc f hf
    obtain ⟨p, hp⟩ := hnode he
    have hchild := (h.child_eq hp he hc hf).1
    -- the name is a component of a protected path
    rcases ht _ (by rw [hchild]; rfl) with hnil | ⟨s, hs, r, rfl⟩
    · simp at hnil
    · exact (hS _ hs).isName _ (by simp)
  · intro a e he hroot
    obtain ⟨p, hp⟩ := hnode he
    exact h.supported ht hp he hroot

end TrieInv

/-- The protected paths are canonical. -/
lemma Session.canonical {root : Addr} {calls : List StoreCall} {s : Session}
    (hrun : Run (When StoreCall.Assumed StoreCall.Step) (Session.start root) calls s) :
    ∀ p ∈ s.paths, IsCanonical p := by
  refine hrun.invariant (P := fun s => ∀ p ∈ s.paths, IsCanonical p) ?_ (by simp [Session.start])
  rintro s c s' h ⟨ha, -, hpaths⟩ p hp
  rw [hpaths, StoreCall.effect] at hp
  cases hop : c.op with
  | add =>
      rw [hop] at hp
      rcases hp with rfl | hp
      · exact ha.canonical
      · exact h p hp
  | rm =>
      rw [hop] at hp
      exact h p hp.1
  | check =>
      rw [hop] at hp
      exact h p hp

/-- **Every session keeps the representation invariant of the trie.** -/
theorem session_wellLinked {root : Addr} {calls : List StoreCall} {s : Session}
    (hrun : Run (When StoreCall.Assumed StoreCall.Step) (Session.start root) calls s) :
    s.store.trie.WellLinked := by
  obtain ⟨N, hinv, ht⟩ := (Session.storeInv hrun).trie
  exact hinv.wellLinked ht (Session.canonical hrun)

/-- The trie once `/a` is protected. -/
theorem session_wellLinked_add_a :
    ∃ s, Run (When StoreCall.Assumed StoreCall.Step) (Session.start 0)
      [fileCall .add [[97]] ⟨0, 5⟩ [1]] s ∧
      s.store.trie.WellLinked := by
  obtain ⟨st, hrun⟩ := run_add_file [[97]]
    (isCanonical_singleton (by decide) (by decide) (by decide))
    (by simp) le_rfl ⟨0, 5⟩
  have hrun' := Session.assumed_of_below hrun
  exact ⟨_, hrun', session_wellLinked hrun'⟩

end KLRM
