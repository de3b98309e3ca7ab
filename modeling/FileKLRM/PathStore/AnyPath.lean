import FileKLRM.PathStore.Refinement

/-!
# Calls with any path

The tokeniser accepts more than canonical paths: a repeated slash gives an empty component, and a
path that the oracle does not resolve is taken as it is.  Here the path is any string and the call
any call that returns.  The components are then a list of names that may be empty
(`Store.components`); `LOOP_ADD` creates the nodes before the first empty one
(`TrieInv.create_run`), and what a returning call can have done is said once for each operation
(`Store.pathStoreAdd_run`, `Store.pathStoreRm_run`).
-/

namespace KLRM

namespace Tokens

variable {t t' : Tokens} {j k : ℕ}

/-- The components of a tokenised path. -/
def components (t : Tokens) (j : ℕ) : List Name := (List.range j).map t.token

@[simp] lemma length_components : (t.components j).length = j := by simp [components]

/-- The loop never finds fewer components than it has, nor more than fit. -/
lemma splitLoop_le (length : ℕ) : ∀ {rest i j k : ℕ} {t t' : Tokens}, j ≤ argsSize →
    splitLoop length rest i j t = (some k, t') → j ≤ k ∧ k ≤ argsSize
  | 0, _, _, _, _, _, hj, h => by
      obtain ⟨rfl, -⟩ : _ = _ ∧ _ := by simpa [splitLoop] using h
      exact ⟨le_rfl, hj⟩
  | rest + 1, i, j, k, t, t', hj, h => by
      rw [splitLoop] at h
      split_ifs at h with hslash hfull hlast
      · simp at h
      · obtain ⟨hle, hk⟩ := splitLoop_le length (by omega) h
        exact ⟨by omega, hk⟩
      · exact splitLoop_le length hj h
      · exact splitLoop_le length hj h

/-- A path without components is a slash alone. -/
lemma token_zero (hslash : t.buf.getD 0 0 = 47)
    (h : splitLoop (strlen t.buf) (strlen t.buf) 0 0 t = (some 0, t')) {idx : ℕ →
    ℕ} (hidx : idx 0 ≤ 1) : (⟨t'.buf, idx⟩ : Tokens).token 0 = [] := by
  obtain ⟨b, rest, hbuf⟩ : ∃ b rest, t.buf = b :: rest := by
    cases hb : t.buf with
    | nil => simp [hb] at hslash
    | cons b rest => exact ⟨b, rest, rfl⟩
  have hb : b = 47 := by simpa [hbuf] using hslash
  subst hb
  cases hlen : strlen t.buf with
  | zero => simp [hbuf, strlen, cString] at hlen
  | succ n =>
      rw [hlen, splitLoop, if_pos hslash] at h
      simp only [if_neg (show (0 : ℕ) ≠ argsSize by decide)] at h
      by_cases hn : n = 0
      · -- behind the slash there is a NUL or nothing
        subst hn
        have hnul : rest.getD 0 0 = 0 := by
          cases rest with
          | nil => rfl
          | cons c cs =>
              by_contra hc
              simp only [List.getD_cons_zero] at hc
              simp [hbuf, strlen, cString, hc] at hlen
        obtain ⟨-, rfl⟩ := Prod.mk.inj (show (some 0, _) = (some 0, t') from h)
        simp only [token, hbuf, List.set_cons_zero]
        interval_cases idx 0
        · rfl
        · cases rest with
          | nil => rfl
          | cons c cs =>
              obtain rfl : c = 0 := by simpa using hnul
              rfl
      · rw [if_pos (by omega)] at h
        have := (splitLoop_le _ (by decide) h).1
        omega

/-- **What the tokeniser accepts spells its components**, as long as the offsets are those of the
    components. -/
lemma processPath_spells_of (h : processPath t = (some j, t')) {idx : ℕ → ℕ} (hidx : idx 0 ≤ 1)
    (hcs : (⟨t'.buf, idx⟩ : Tokens).components j = t'.components j) :
    j ≤ argsSize ∧ Spells ⟨t'.buf, idx⟩ (t'.components j) := by
  rw [processPath] at h
  split_ifs at h with hslash
  · simp at h
  · rw [ne_eq, not_not] at hslash
    cases hloop : splitLoop (strlen t.buf) (strlen t.buf) 0 0 t with
    | mk r u =>
        rw [hloop] at h
        cases r with
        | none => simp at h
        | some k =>
            dsimp only at h
            split_ifs at h with hdots
            · simp at h
            · obtain ⟨hk, rfl⟩ := Prod.mk.inj h
              obtain rfl := Option.some.inj hk
              refine ⟨(splitLoop_le _ (Nat.zero_le _) hloop).2, ?_, fun hnil => ?_⟩
              · rw [← hcs]
                simp [components]
              · have hk0 : k = 0 := by simpa [components] using hnil
                subst hk0
                exact token_zero hslash hloop hidx

lemma processPath_spells (hidx : t.argIdxs 0 ≤ 1) (h : processPath t = (some j, t')) :
    j ≤ argsSize ∧ t'.Spells (t'.components j) := by
  have hzero := processPath_zero t hidx
  rw [h] at hzero
  exact processPath_spells_of h hzero rfl

end Tokens

/-! ## Creating nodes up to an empty component

`creatable` cuts a list of components before its first empty one.  The loop creates the nodes of
that part and ends on it, with the name still to be read empty, or at the end of the components. -/

/-- The components before the first empty one. -/
def creatable (cs : List Name) : List Name := cs.takeWhile (· ≠ [])

lemma creatable_of_notMem {cs : List Name} (h : [] ∉ cs) : creatable cs = cs := by
  rw [creatable, List.takeWhile_eq_self_iff]
  intro c hc
  rw [decide_eq_true_eq]
  rintro rfl
  exact h hc

/-- A component that is no node's name ends what can be created. -/
lemma creatable_eq_take {cs : List Name} {D : ℕ} (hlt : D < cs.length) (hpre : [] ∉ cs.take D)
    (hnil : cs[D] = []) : creatable cs = cs.take D := by
  conv_lhs => rw [← List.take_append_drop D cs, List.drop_eq_getElem_cons hlt, hnil]
  rw [creatable, List.takeWhile_append_of_pos, List.takeWhile_cons_of_neg (by simp),
    List.append_nil]
  intro c hc
  rw [decide_eq_true_eq]
  rintro rfl
  exact hpre hc

/-- What comes before a component that is not empty. -/
lemma take_prefix_creatable {cs : List Name} {D : ℕ} (hpre : [] ∉ cs.take D) :
    cs.take D <+: creatable cs := by
  refine ⟨creatable (cs.drop D), ?_⟩
  conv_rhs => rw [← List.take_append_drop D cs]
  rw [creatable, creatable, List.takeWhile_append_of_pos]
  intro c hc
  rw [decide_eq_true_eq]
  rintro rfl
  exact hpre hc

namespace TrieInv

variable {t t' : Trie} {N : List Name → Option Addr} {S : Set (List Name)} {p cs : List Name}
  {a b : Addr} {e : StoreEntry} {tk : Tokens}

/-- The path of a node has no empty component. -/
lemma nil_notMem (h : TrieInv t N S) (hp : (N p).isSome) : [] ∉ p := by
  induction p using List.reverseRecOn with
  | nil => simp
  | append_singleton q name ih =>
      obtain ⟨a, ha⟩ := Option.isSome_iff_exists.mp hp
      obtain ⟨e, -, hok⟩ := h.entry ha
      obtain ⟨b, hb, -, -, hne⟩ := hok.up q name rfl
      have hq := ih (Option.isSome_iff_exists.mpr ⟨b, hb⟩)
      rw [List.mem_append, List.mem_singleton]
      rintro (hm | rfl)
      · exact hq hm
      · exact hne rfl

/-- What `LOOP_ADD` ends on, for any components. -/
def CreateEnds (cs : List Name) (N' : List Name → Option Addr) : Trie.Created → Prop
  | .node b => [] ∉ cs ∧ N' cs = some b
  | .emptyName => [] ∈ cs

/-- What `LOOP_ADD` does when it returns: the nodes are then those of before and those before the
    first empty component, and if these were there it has changed nothing. -/
lemma create_loop (hcs : tk.Spells cs) (hsize : cs.length ≤ argsSize) {r : Trie.Created} :
    ∀ (fuel d D : ℕ) (a : Addr) (fresh : List Addr) (t : Trie) (N : List Name → Option Addr),
    TrieInv t N S → Deepest (nodesOf N) cs D → N (cs.take d) = some a → d ≤ D →
    (d < cs.length ∨ cs = []) → FreshFor t fresh 0 →
    Trie.create tk cs.length fuel a d fresh t = .ok (r, t') →
    ∃ N', TrieInv t' N' S ∧ CreateEnds cs N' r ∧
      (∀ q, (N' q).isSome ↔ (N q).isSome ∨ q <+: creatable cs) ∧
      ((N (creatable cs)).isSome → t' = t)
  | 0, _, _, _, _, _, _, _, _, _, _, _, _, hrun => by cases hrun
  | fuel + 1, d, D, a, fresh, t, N, h, hD, ha, hd, hstart, hfresh, hrun => by
      have hDle := hD.le
      obtain ⟨b, hb⟩ := Option.isSome_iff_exists.mp hD.mem
      have hpre : [] ∉ cs.take D := h.nil_notMem hD.mem
      have hsearch := h.search_eq hcs hD hb (argsSize + 1) d a ha hd hstart (by omega)
      rw [Trie.create, hsearch] at hrun
      -- nothing is created when the way ends at the last node that can be there
      have hsame : creatable cs = cs.take D →
          (∀ q, (N q).isSome ↔ (N q).isSome ∨ q <+: creatable cs) := by
        intro heq q
        refine ⟨Or.inl, fun hq => hq.elim id fun hpq => h.isSome_above hpq ?_⟩
        rw [heq, hb]
        rfl
      by_cases hDj : D = cs.length
      · subst hDj
        simp only [if_true, Except.ok.injEq, Prod.mk.injEq] at hrun
        obtain ⟨rfl, rfl⟩ := hrun
        rw [List.take_length] at hb hpre hsame
        exact ⟨N, h, ⟨hpre, hb⟩, hsame (creatable_of_notMem hpre), fun _ => rfl⟩
      · have hlt : D < cs.length := by omega
        simp only [hDj, if_false, hcs.token D hlt] at hrun
        by_cases hname : cs[D] = []
        · rw [if_pos hname] at hrun
          simp only [Except.ok.injEq, Prod.mk.injEq] at hrun
          obtain ⟨rfl, rfl⟩ := hrun
          have hmem : [] ∈ cs := by
            rw [← hname]
            exact List.getElem_mem hlt
          exact ⟨N, h, hmem, hsame (creatable_eq_take hlt hpre hname), fun _ => rfl⟩
        · rw [if_neg hname] at hrun
          obtain ⟨e, he, -⟩ := h.entry hb
          cases fresh with
          | nil => simp at hrun
          | cons c fresh =>
              simp only [he] at hrun
              split_ifs at hrun with hlong
              obtain ⟨hlink, hD', hb'⟩ :=
                h.link_deepest hD hlt hb he (hfresh.free c (by simp)) hname
              obtain ⟨N', hinv, hends, hnodes, -⟩ :=
                create_loop hcs hsize fuel D (D + 1) b fresh _ _ hlink hD'
                hb' (by omega) (Or.inl hlt) (hfresh.link he cs[D]) hrun
              have hnext : cs.take (D + 1) <+: creatable cs := by
                refine take_prefix_creatable ?_
                rw [← take_concat_getElem hlt, List.mem_append, List.mem_singleton]
                rintro (hm | hm)
                · exact hpre hm
                · exact hname hm.symm
              refine ⟨N', hinv, hends, fun q => ?_, fun hthere => ?_⟩
              · rw [hnodes, Function.update_apply]
                split_ifs with hq
                · subst hq
                  exact iff_of_true (Or.inl rfl) (Or.inr hnext)
                · exact Iff.rfl
              · exact absurd (h.isSome_above hnext hthere) (hD.stop hlt)

/-- The creation as `path_store_add` calls it. -/
lemma create_run (h : TrieInv t N S) (hcs : tk.Spells cs) (hsize : cs.length ≤ argsSize)
    {fresh : List Addr} (hfresh : FreshFor t fresh 0) {r : Trie.Created}
    (hrun : Trie.create tk cs.length (argsSize + 1) t.root 0 fresh t = .ok (r, t')) :
    ∃ N', TrieInv t' N' S ∧ CreateEnds cs N' r ∧ (t' = t ↔ (N (creatable cs)).isSome) := by
  obtain ⟨D, b, hD, hb⟩ := h.exists_deepest cs
  obtain ⟨N', hinv, hends, hnodes, hsame⟩ :=
    create_loop hcs hsize (argsSize + 1) 0 D t.root fresh t N h hD
    (by simpa using h.root) (Nat.zero_le _) (by cases cs <;> simp) hfresh hrun
  refine ⟨N', hinv, hends, fun heq => ?_, hsame⟩
  subst heq
  rw [← h.nodeAt_eq, hinv.nodeAt_eq, hnodes]
  exact Or.inr (List.prefix_refl _)

/-- The pruning keeps the invariant. -/
lemma prune_run : ∀ {fuel : ℕ} {p : List Name} {a : Addr} {t : Trie} {N : List Name → Option Addr},
    TrieInv t N S → N p = some a → Trie.prune fuel a t = .ok t' → ∃ N', TrieInv t' N' S
  | 0, _, _, _, _, _, _, hrun => by cases hrun
  | fuel + 1, p, a, t, N, h, ha, hrun => by
      obtain ⟨e, he, -⟩ := h.entry ha
      rw [Trie.prune, he] at hrun
      dsimp only at hrun
      split_ifs at hrun with hstop
      · obtain rfl := Except.ok.inj hrun
        exact ⟨N, h⟩
      · obtain ⟨q, n, b, f, rfl, hparent, hf, hunlink, hbq⟩ := h.prune_step ha he hstop
        simp only [hparent, hf] at hrun
        exact prune_run hunlink hbq hrun

lemma deactivate_run (h : TrieInv t N S) (ha : N p = some a) (he : t.mem a = some e)
    (hrun : Store.deactivate t a e = .ok t') : ∃ N', TrieInv t' N' (S \ {p}) := by
  have hclear := h.clearExplicited ha he
  rw [Store.deactivate] at hrun
  split_ifs at hrun with hcount
  · obtain rfl := Except.ok.inj hrun
    exact ⟨N, hclear⟩
  · exact prune_run hclear ha hrun

end TrieInv

/-! ## What a returning call has done

A store is `Sound` when its trie is that of some set of names and its offsets are in range.  Every
call that returns keeps this, and the cases of `AddRun` and `RmRun` are the exits of the two
functions. -/

/-- The store between calls, whatever their paths were. -/
structure Store.Sound (st : Store) : Prop where
  trie : ∃ N S, TrieInv st.trie N S
  offset : st.argIdxs 0 ≤ 1

lemma Store.sound_setup (root : Addr) : (Store.setup root).Sound := by
  obtain ⟨N, hinv, -⟩ := isTrieOf_setup root
  exact ⟨⟨N, ∅, hinv⟩, Nat.zero_le _⟩

/-- The flag of the node at a path. -/
def Trie.ExplicitAt (t : Trie) (p : List Name) : Prop :=
  ∃ a e, t.nodeAt p = some a ∧ t.mem a = some e ∧ e.explicited = true

namespace Store

/-- The components of the string that a call examines, unless the tokeniser rejects it. -/
def components (st : Store) (env : StoreEnv) (pathName : List UInt8) : Option (List Name) :=
  let r := Tokens.processPath ⟨env.examinated pathName, st.argIdxs⟩
  r.1.map fun j => r.2.components j

/-- `nonce` after a successful call. -/
def nonceAfter (st : Store) (env : StoreEnv) : ℕ :=
  if env.decree.isSome then (st.nonce + 1) % 2 ^ 64 else st.nonce

variable {st st' : Store} {env : StoreEnv} {pathName buf : List UInt8} {ret : ℤ} {idx : ℕ → ℕ}
  {cs : List Name} {t : Trie} {stores : List StoreFs}

/-- The tokeniser, on any string. -/
lemma tokenise_run (st : Store) (env : StoreEnv) (pathName : List UInt8) (h : st.Sound) :
    ∃ idx, idx 0 ≤ 1 ∧
      ((∃ buf, st.components env pathName = none ∧
          st.tokenise (env.examinated pathName) = (none, buf, { st with argIdxs := idx })) ∨
        ∃ buf cs, st.components env pathName = some cs ∧ cs.length ≤ argsSize ∧
          Tokens.Spells ⟨buf, idx⟩ cs ∧
          st.tokenise (env.examinated pathName) = (some cs.length,
            buf, { st with argIdxs := idx })) := by
  have hzero := Tokens.processPath_zero ⟨env.examinated pathName, st.argIdxs⟩ h.offset
  cases hr : Tokens.processPath ⟨env.examinated pathName, st.argIdxs⟩ with
  | mk r t =>
      rw [hr] at hzero
      refine ⟨t.argIdxs, hzero, ?_⟩
      cases r with
      | none =>
          refine Or.inl ⟨t.buf, ?_, by simp only [tokenise, hr]⟩
          simp only [components, hr, Option.map_none]
      | some j =>
          obtain ⟨hsize, hspells⟩ := Tokens.processPath_spells h.offset hr
          refine Or.inr ⟨t.buf, t.components j, ?_, by simpa using hsize, hspells, ?_⟩
          · simp only [components, hr, Option.map_some]
          · simp only [tokenise, hr, Tokens.length_components]

/-! ### The release of the lock

When `nonce` is used up the lock is left to `refresh_nonces`; the rest of the store is as it was
either way. -/

@[simp] lemma unlock_trie (st : Store) (env : StoreEnv) : (st.unlock env).trie = st.trie := by
  rw [unlock]
  split_ifs <;> rfl

@[simp] lemma unlock_argIdxs (st : Store) (env : StoreEnv) :
    (st.unlock env).argIdxs = st.argIdxs := by
  rw [unlock]
  split_ifs <;> rfl

@[simp] lemma unlock_nonce (st : Store) (env : StoreEnv) : (st.unlock env).nonce = st.nonce := by
  rw [unlock]
  split_ifs <;> rfl

@[simp] lemma unlock_fsStores (st : Store) (env : StoreEnv) :
    (st.unlock env).fsStores = st.fsStores := by
  rw [unlock]
  split_ifs <;> rfl

lemma Sound.unlock (h : st.Sound) (env : StoreEnv) : (st.unlock env).Sound := by
  rw [Store.unlock]
  split_ifs
  · exact ⟨h.trie, h.offset⟩
  · exact h

/-- The ways in which `path_store_add` returns.  The trie is the one of before exactly when the
    components before the first empty one lead to a node. -/
inductive AddRun (st : Store) (env : StoreEnv) (pathName : List UInt8) : ℤ → Store → Prop
  | rejected (idx : ℕ → ℕ) (hrejects : st.components env pathName = none) :
      AddRun st env pathName 1 { st with argIdxs := idx }
  | emptyName (idx : ℕ → ℕ) (cs : List Name) (t : Trie) (hcs : st.components env pathName = some cs)
      (hnil : [] ∈ cs) (hsame : t = st.trie ↔ (st.trie.nodeAt (creatable cs)).isSome) :
      AddRun st env pathName 1 { st with argIdxs := idx, trie := t, storeLock := true }
  | unresolved (idx : ℕ → ℕ) (cs : List Name) (t : Trie)
      (hcs : st.components env pathName = some cs) (hnil : [] ∉ cs) (hdecree : env.decree = none) :
      AddRun st env pathName 0 { st with argIdxs := idx, trie := t, storeLock := true }
  | resolved (idx : ℕ → ℕ) (cs : List Name) (t : Trie) (stores : List StoreFs)
      (hcs : st.components env pathName = some cs) (hnil : [] ∉ cs) (hdecree : env.decree.isSome) :
      AddRun st env pathName 0
        (unlock { st with
          argIdxs := idx, trie := t, nonce := st.nonceAfter env, fsStores := stores } env)

/-- The ways in which `path_store_rm` returns. -/
inductive RmRun (st : Store) (env : StoreEnv) (pathName : List UInt8) : ℤ → Store → Prop
  | refused (idx : ℕ → ℕ) (habsent : ∀ cs, st.components env pathName = some cs →
      ¬ st.trie.ExplicitAt cs) : RmRun st env pathName 1 { st with argIdxs := idx }
  | removed (idx : ℕ → ℕ) (cs : List Name) (t : Trie) (stores : List StoreFs)
      (hcs : st.components env pathName = some cs) (hflag : st.trie.ExplicitAt cs) :
      RmRun st env pathName 0
        (unlock { st with
          argIdxs := idx, trie := t, nonce := st.nonceAfter env, fsStores := stores } env)

lemma locked_run {ρ : Type*} {body : Except Stop ρ} {r : ρ} (h : st.locked body = .ok r) :
    body = .ok r := by
  rw [locked] at h
  split_ifs at h
  exact h

/-! ### The sections under the lock

A section ends at one of its exits, and each exit is a constructor here, with what was computed on
the way to it.  `addLocked_cases` and `rmLocked_cases` are the only places where the sections are
unfolded; whatever is said of a call with any path goes through them. -/

section Sections

variable {j : ℕ}

/-- What `path_store_add` has done under the lock when it returns. -/
inductive AddSection (env : StoreEnv) (buf : List UInt8) (j : ℕ) (st : Store) : ℤ → Store → Prop
  | emptyName {t : Trie}
      (hcreate : Trie.create ⟨buf, st.argIdxs⟩ j (argsSize + 1) st.trie.root 0 env.fresh st.trie
          = .ok (.emptyName, t)) :
      AddSection env buf j st 1 { st with trie := t, storeLock := true }
  | unresolved {t : Trie} {curr : Addr} {e : StoreEntry}
      (hcreate : Trie.create ⟨buf, st.argIdxs⟩ j (argsSize + 1) st.trie.root 0 env.fresh st.trie
          = .ok (.node curr, t))
      (he : t.mem curr = some e) (hdecree : env.decree = none) :
      AddSection env buf j st 0 { st with trie := t.write curr e.setExplicited, storeLock := true }
  | resolved {t : Trie} {curr : Addr} {e : StoreEntry} {decree : PathDecree} {stores : List StoreFs}
      (hcreate : Trie.create ⟨buf, st.argIdxs⟩ j (argsSize + 1) st.trie.root 0 env.fresh st.trie
          = .ok (.node curr, t))
      (he : t.mem curr = some e) (hdecree : env.decree = some decree)
      (htraverse : storeIterateAdd env.graph env.slot env.slab ((st.nonce + 1) % 2 ^ 64) env.fuel
        decree.inode st.fsStores = .ok stores) :
      AddSection env buf j st 0 (unlock { st with
        trie := t.write curr e.setExplicited
        nonce := (st.nonce + 1) % 2 ^ 64
        fsStores := stores } env)

lemma addLocked_cases (hrun : addLocked env buf j st = .ok (ret, st')) :
    AddSection env buf j st ret st' := by
  rw [addLocked] at hrun
  split at hrun
  · cases hrun
  · rename_i t hcreate
    obtain ⟨rfl, rfl⟩ := Prod.mk.inj (Except.ok.inj hrun)
    exact .emptyName hcreate
  · rename_i curr t hcreate
    split at hrun
    · cases hrun
    · rename_i e he
      dsimp only at hrun
      split at hrun
      · rename_i hdecree
        obtain ⟨rfl, rfl⟩ := Prod.mk.inj (Except.ok.inj hrun)
        exact .unresolved hcreate he hdecree
      · rename_i decree hdecree
        split at hrun
        · cases hrun
        · rename_i stores htraverse
          obtain ⟨rfl, rfl⟩ := Prod.mk.inj (Except.ok.inj hrun)
          exact .resolved hcreate he hdecree htraverse

/-- The traversal of a removal changes `nonce` and the table, if there is one. -/
lemma uncount_cases (hrun : st.uncount env = .ok st') :
    env.decree = none ∧ st' = st ∨ ∃ decree stores, env.decree = some decree ∧
      storeIterateRm env.graph env.slot ((st.nonce + 1) % 2 ^ 64) env.fuel decree.inode
        st.fsStores = .ok stores ∧
      st' = { st with nonce := (st.nonce + 1) % 2 ^ 64, fsStores := stores } := by
  rw [uncount] at hrun
  split at hrun
  · rename_i hdecree
    exact Or.inl ⟨hdecree, (Except.ok.inj hrun).symm⟩
  · rename_i decree hdecree
    dsimp only at hrun
    split at hrun
    · cases hrun
    · rename_i stores htraverse
      exact Or.inr ⟨decree, stores, hdecree, htraverse, (Except.ok.inj hrun).symm⟩

lemma uncount_run (hrun : st.uncount env = .ok st') :
    ∃ stores, st' = { st with nonce := st.nonceAfter env, fsStores := stores } := by
  rcases uncount_cases hrun with ⟨hdecree, rfl⟩ | ⟨decree, stores, hdecree, -, rfl⟩
  · exact ⟨st'.fsStores, by simp [nonceAfter, hdecree]⟩
  · exact ⟨stores, by simp [nonceAfter, hdecree]⟩

/-- What `path_store_rm` has done under the lock when it returns. -/
inductive RmSection (env : StoreEnv) (buf : List UInt8) (j : ℕ) (st : Store) : ℤ → Store → Prop
  | absent {curr : Addr} {deepness : ℕ}
      (hsearch : st.trie.search ⟨buf, st.argIdxs⟩ j (argsSize + 1) st.trie.root 0
          = .ok (curr, deepness))
      (hdeep : deepness ≠ j) : RmSection env buf j st 1 st
  | inexplicit {curr : Addr} {e : StoreEntry}
      (hsearch : st.trie.search ⟨buf, st.argIdxs⟩ j (argsSize + 1) st.trie.root 0 = .ok (curr, j))
      (he : st.trie.mem curr = some e) (hflag : e.explicited = false) : RmSection env buf j st 1 st
  | removed {curr : Addr} {e : StoreEntry} {st₁ : Store} {t : Trie}
      (hsearch : st.trie.search ⟨buf, st.argIdxs⟩ j (argsSize + 1) st.trie.root 0 = .ok (curr, j))
      (he : st.trie.mem curr = some e) (hflag : e.explicited = true)
      (hcount : st.uncount env = .ok st₁) (hdeactivate : deactivate st₁.trie curr e = .ok t) :
      RmSection env buf j st 0 (unlock { st₁ with trie := t } env)

lemma rmLocked_cases (hrun : rmLocked env buf j st = .ok (ret, st')) :
    RmSection env buf j st ret st' := by
  rw [rmLocked] at hrun
  split at hrun
  · cases hrun
  · rename_i curr deepness hsearch
    split_ifs at hrun with hdeep
    · obtain ⟨rfl, rfl⟩ := Prod.mk.inj (Except.ok.inj hrun)
      exact .absent hsearch hdeep
    · rw [not_not] at hdeep
      subst hdeep
      split at hrun
      · cases hrun
      · rename_i e he
        split_ifs at hrun with hflag
        · obtain ⟨rfl, rfl⟩ := Prod.mk.inj (Except.ok.inj hrun)
          exact .inexplicit hsearch he (by simpa using hflag)
        · simp only [bind, Except.bind] at hrun
          split at hrun
          · cases hrun
          · rename_i st₁ hcount
            split at hrun
            · cases hrun
            · rename_i t hdeactivate
              obtain ⟨rfl, rfl⟩ := Prod.mk.inj (Except.ok.inj hrun)
              exact .removed hsearch he (by simpa using hflag) hcount hdeactivate

end Sections

/-- **What a `path_store_add` that returns has done.** -/
theorem pathStoreAdd_run (h : st.Sound) (hfresh : FreshFor st.trie env.fresh 0)
    (hrun : st.pathStoreAdd env pathName = .ok (ret, st')) :
    AddRun st env pathName ret st' ∧ st'.Sound := by
  obtain ⟨idx, hidx, hrest⟩ := st.tokenise_run env pathName h
  rcases hrest with ⟨buf, hnone, htok⟩ | ⟨buf, cs, hcs, hsize, hspells, htok⟩
  · simp only [pathStoreAdd, htok, Except.ok.injEq, Prod.mk.injEq] at hrun
    obtain ⟨rfl, rfl⟩ := hrun
    exact ⟨.rejected idx hnone, h.trie, hidx⟩
  · simp only [pathStoreAdd, htok] at hrun
    replace hrun := locked_run hrun
    obtain ⟨N, S, hinv⟩ := h.trie
    have hcreated : ∀ {r t}, Trie.create ⟨buf, idx⟩ cs.length (argsSize + 1) st.trie.root 0
        env.fresh st.trie = .ok (r, t) →
        ∃ N', TrieInv t N' S ∧ TrieInv.CreateEnds cs N' r ∧
        (t = st.trie ↔ (st.trie.nodeAt (creatable cs)).isSome) := by
      intro r t hcreate
      rw [hinv.nodeAt_eq]
      exact hinv.create_run hspells hsize hfresh hcreate
    cases addLocked_cases hrun with
    | emptyName hcreate =>
        obtain ⟨N', hinv', hnil, hsame⟩ := hcreated hcreate
        exact ⟨.emptyName idx cs _ hcs hnil hsame, ⟨N', S, hinv'⟩, hidx⟩
    | unresolved hcreate he hdecree =>
        obtain ⟨N', hinv', ⟨hnil, hb⟩, -⟩ := hcreated hcreate
        exact ⟨.unresolved idx cs _ hcs hnil hdecree, ⟨_, _, hinv'.setExplicited hb he⟩, hidx⟩
    | resolved hcreate he hdecree htraverse =>
        obtain ⟨N', hinv', ⟨hnil, hb⟩, -⟩ := hcreated hcreate
        have hnonce : (st.nonce + 1) % 2 ^ 64 = st.nonceAfter env := by simp [nonceAfter, hdecree]
        dsimp only
        rw [hnonce]
        exact ⟨.resolved idx cs _ _ hcs hnil (by simp [hdecree]),
          Sound.unlock ⟨⟨_, _, hinv'.setExplicited hb he⟩, hidx⟩ env⟩

/-! ### The names that a section leaves

A node that an addition makes has a name that is not empty and fits in `dir_name`; no other call
makes nodes.  Overlapping requests need the first, the length of components the second. -/

section Names

variable {P : Name → Prop} {j : ℕ}

/-- An addition makes nodes with names that fit, and leaves the offsets alone. -/
lemma addLocked_names (hP : ∀ name, name ≠ [] → name.length < 1024 → P name)
    (h : st.trie.EveryName P)
    (hrun : addLocked env buf j st = .ok (ret, st')) :
    st'.trie.EveryName P ∧ st'.argIdxs = st.argIdxs := by
  have hset : ∀ {t : Trie} {curr : Addr} {e : StoreEntry}, t.EveryName P → t.mem curr = some e →
      (t.write curr e.setExplicited).EveryName P :=
      fun {_ curr e} ht he => ht.write (e := e.setExplicited) (ht curr e he) curr
  cases addLocked_cases hrun with
  | emptyName hcreate => exact ⟨h.create hP hcreate, rfl⟩
  | unresolved hcreate he _ => exact ⟨hset (h.create hP hcreate) he, rfl⟩
  | resolved hcreate he _ _ =>
      rw [unlock_trie, unlock_argIdxs]
      exact ⟨hset (h.create hP hcreate) he, rfl⟩

lemma deactivate_names {t t' : Trie} {curr : Addr} {e : StoreEntry} (h : t.EveryName P)
    (he : t.mem curr = some e) (hrun : deactivate t curr e = .ok t') : t'.EveryName P := by
  have hclear : (t.write curr e.clearExplicited).EveryName P :=
    h.write (e := e.clearExplicited) (h curr e he) curr
  rw [deactivate] at hrun
  split_ifs at hrun
  · exact Except.ok.inj hrun ▸ hclear
  · exact hclear.prune hrun

/-- A removal makes no names. -/
lemma rmLocked_names (h : st.trie.EveryName P) (hrun : rmLocked env buf j st = .ok (ret, st')) :
    st'.trie.EveryName P ∧ st'.argIdxs = st.argIdxs := by
  cases rmLocked_cases hrun with
  | absent => exact ⟨h, rfl⟩
  | inexplicit => exact ⟨h, rfl⟩
  | removed _ he _ hcount hdeactivate =>
      obtain ⟨stores, rfl⟩ := uncount_run hcount
      rw [unlock_trie, unlock_argIdxs]
      exact ⟨deactivate_names h he hdeactivate, rfl⟩

end Names

/-- **What a `path_store_rm` that returns has done.** -/
theorem pathStoreRm_run (h : st.Sound) (hrun : st.pathStoreRm env pathName = .ok (ret, st')) :
    RmRun st env pathName ret st' ∧ st'.Sound := by
  obtain ⟨idx, hidx, hrest⟩ := st.tokenise_run env pathName h
  rcases hrest with ⟨buf, hnone, htok⟩ | ⟨buf, cs, hcs, hsize, hspells, htok⟩
  · simp only [pathStoreRm, htok, Except.ok.injEq, Prod.mk.injEq] at hrun
    obtain ⟨rfl, rfl⟩ := hrun
    exact ⟨.refused idx (by simp [hnone]), h.trie, hidx⟩
  · simp only [pathStoreRm, htok] at hrun
    replace hrun := locked_run hrun
    obtain ⟨N, S, hinv⟩ := h.trie
    obtain ⟨D, b, hsearch, hD, hb⟩ := hinv.search_root hspells hsize
    -- nothing is refused but a path that has no explicit node
    have hrefused : (∀ a e, st.trie.nodeAt cs = some a → st.trie.mem a = some e →
        e.explicited = false) → RmRun st env pathName 1 { st with argIdxs := idx } := by
      refine fun hall => .refused idx fun cs' hcs' => ?_
      obtain rfl := Option.some.inj (hcs.symm.trans hcs')
      rintro ⟨a, e, ha, he, hflag⟩
      rw [hall a e ha he] at hflag
      cases hflag
    have hfound : ∀ {curr : Addr} {deepness : ℕ},
        st.trie.search ⟨buf, idx⟩ cs.length (argsSize + 1) st.trie.root 0 = .ok (curr, deepness) →
        curr = b ∧ deepness = D := by
      intro curr deepness hat
      obtain ⟨rfl, rfl⟩ := Prod.mk.inj (Except.ok.inj (hsearch.symm.trans hat))
      exact ⟨rfl, rfl⟩
    cases rmLocked_cases hrun with
    | absent hat hdeep =>
        obtain ⟨rfl, rfl⟩ := hfound hat
        refine ⟨hrefused fun a _ ha _ => ?_, ⟨N, S, hinv⟩, hidx⟩
        rw [hinv.nodeAt_eq] at ha
        exact absurd
          (hinv.isSome_above (List.take_prefix _ _) (Option.isSome_iff_exists.mpr ⟨a, ha⟩))
          (hD.stop (lt_of_le_of_ne hD.le hdeep))
    | inexplicit hat he' hflag =>
        obtain ⟨rfl, rfl⟩ := hfound hat
        rw [List.take_length] at hb
        refine ⟨hrefused fun a e' ha he'' => ?_, ⟨N, S, hinv⟩, hidx⟩
        rw [hinv.nodeAt_eq, hb] at ha
        obtain rfl := Option.some.inj ha
        obtain rfl := Option.some.inj (he'.symm.trans he'')
        exact hflag
    | removed hat he' hflag hcount hdeactivate =>
        obtain ⟨rfl, rfl⟩ := hfound hat
        rw [List.take_length] at hb
        obtain ⟨stores, rfl⟩ := uncount_run hcount
        obtain ⟨N', hinv'⟩ := hinv.deactivate_run hb he' hdeactivate
        exact ⟨.removed idx cs _ stores hcs ⟨_, _, by rw [hinv.nodeAt_eq, hb], he', hflag⟩,
          Sound.unlock ⟨⟨N', _, hinv'⟩, hidx⟩ env⟩

/-- A `path_store_check` that returns has changed the offsets at most. -/
lemma pathStoreCheck_offsets {res : PathCheckResult}
    (hrun : st.pathStoreCheck env pathName = .ok (res, st')) :
    ∃ idx, (idx = st.argIdxs ∨
      idx = (Tokens.processPath ⟨env.examinated pathName, st.argIdxs⟩).2.argIdxs) ∧
      st' = { st with argIdxs := idx } := by
  rw [pathStoreCheck] at hrun
  split_ifs at hrun
  · exact ⟨_, Or.inl rfl, (Prod.mk.inj (Except.ok.inj hrun)).2.symm⟩
  · refine ⟨_, Or.inr rfl, ?_⟩
    simp only [tokenise] at hrun
    cases hj : (Tokens.processPath ⟨env.examinated pathName, st.argIdxs⟩).1 with
    | none =>
        simp only [hj] at hrun
        exact (Prod.mk.inj (Except.ok.inj hrun)).2.symm
    | some j =>
        simp only [hj, Except.map] at hrun
        split at hrun
        · cases hrun
        · exact (Prod.mk.inj (Except.ok.inj hrun)).2.symm

lemma pathStoreCheck_run (h : st.Sound) {res : PathCheckResult}
    (hrun : st.pathStoreCheck env pathName = .ok (res, st')) :
    ∃ idx, idx 0 ≤ 1 ∧ st' = { st with argIdxs := idx } := by
  obtain ⟨idx, rfl | rfl, hst⟩ := pathStoreCheck_offsets hrun
  · exact ⟨_, h.offset, hst⟩
  · exact ⟨_, Tokens.processPath_zero ⟨env.examinated pathName, st.argIdxs⟩ h.offset, hst⟩

end Store

end KLRM
