import FileKLRM.PathStore.AnyPath
import FileKLRM.PathStore.Verdict

/-!
# Requests that overlap

Any number of requests at once, each of them four steps: the oracle answers, a check looks up the
inode, `process_path` writes the offsets of the components into `argIdxs`, and the section under
`store_lock` reads them from there.  `rec_sem`, which the requests hold for reading, keeps none of
them apart.

A request whose section still finds its own offsets, and a check whose inode has not come into the
table since it was looked up, are as good as alone (`Requests.Undisturbed`): the requests then do
what they would do one after the other, in the order in which they return.
-/

namespace KLRM

/-! ## What a section reads of the offsets

The search compares component after component and stops at the first that is not in the trie, and
a node of the trie never has an empty name.  So of the offsets only those are read that
`process_path` has written for this call, and stores that differ elsewhere cannot be told apart
(`Named.search_congr`). -/

namespace Trie

variable {t t' : Trie} {tk tk' : Tokens} {cs : List Name} {a b : Addr} {d D : ℕ} {name : Name}
  {e : StoreEntry}

/-- No node has the empty name. -/
def Named (t : Trie) : Prop := ∀ a e, t.mem a = some e → e.dirName ≠ []

lemma Named.every (h : t.Named) : t.EveryName (· ≠ []) := h

lemma Named.findChild_nil (h : t.Named) :
  ∀ {l : List Addr} {r : Option Addr}, t.findChild [] l = .ok r → r = none
  | [], _, hrun => (Except.ok.inj hrun).symm
  | a :: l, r, hrun => by
      rw [findChild] at hrun
      cases he : t.mem a with
      | none =>
          rw [he] at hrun
          cases hrun
      | some e =>
          rw [he] at hrun
          dsimp only at hrun
          rw [if_neg (h a e he)] at hrun
          exact h.findChild_nil hrun

/-- Where a search may stand: above the last component, or at the root for a path without
    components. -/
def Above (cs : List Name) (d : ℕ) : Prop := d < cs.length ∨ cs = [] ∧ d = 0

lemma above_zero (cs : List Name) : Above cs 0 := by
  cases cs with
  | nil => exact Or.inr ⟨rfl, rfl⟩
  | cons => exact Or.inl (Nat.succ_pos _)

/-- One look for a child at such a place. -/
lemma findChild_congr (hcs : tk.Spells cs) (hcs' : tk'.Spells cs) (hd : Above cs d) (t : Trie)
    (l : List Addr) : t.findChild (tk.token d) l = t.findChild (tk'.token d) l := by
  rcases hd with hd | ⟨rfl, rfl⟩
  · rw [hcs.token d hd, hcs'.token d hd]
  · rw [hcs.root rfl, hcs'.root rfl]

/-- A child is found only where there is a component. -/
lemma Named.lt_of_findChild (h : t.Named) (hcs : tk.Spells cs) (hd : Above cs d) {l : List Addr}
    (hrun : t.findChild (tk.token d) l = .ok (some b)) : d < cs.length := by
  rcases hd with hd | ⟨rfl, rfl⟩
  · exact hd
  · rw [hcs.root rfl] at hrun
    cases h.findChild_nil hrun

/-- The search reads the offsets of the components only. -/
lemma Named.search_congr (h : t.Named) (hcs : tk.Spells cs) (hcs' : tk'.Spells cs) :
    ∀ (fuel : ℕ) (a : Addr) (d : ℕ), Above cs d →
    t.search tk cs.length fuel a d = t.search tk' cs.length fuel a d
  | 0, _, _, _ => rfl
  | fuel + 1, a, d, hd => by
      rw [search, search]
      cases t.mem a with
      | none => rfl
      | some e =>
          dsimp only
          rw [← findChild_congr hcs hcs' hd]
          cases hfind : t.findChild (tk.token d) e.children with
          | error stop => rfl
          | ok r =>
              cases r with
              | none => rfl
              | some b =>
                  have hlt := h.lt_of_findChild hcs hd hfind
                  dsimp only
                  split_ifs with hlast
                  · exact h.search_congr hcs hcs' fuel b (d + 1) (Or.inl (by omega))
                  · rfl

/-- And it does not get past them. -/
lemma Named.search_le (h : t.Named) (hcs : tk.Spells cs) :
    ∀ {fuel : ℕ} {a : Addr} {d : ℕ}, Above cs d →
    t.search tk cs.length fuel a d = .ok (b, D) → D ≤ cs.length
  | 0, _, _, _, hrun => by cases hrun
  | fuel + 1, a, d, hd, hrun => by
      rw [search] at hrun
      cases he : t.mem a with
      | none =>
          rw [he] at hrun
          cases hrun
      | some e =>
          rw [he] at hrun
          dsimp only at hrun
          cases hfind : t.findChild (tk.token d) e.children with
          | error stop =>
              rw [hfind] at hrun
              cases hrun
          | ok r =>
              rw [hfind] at hrun
              cases r with
              | none =>
                  obtain ⟨-, rfl⟩ := Prod.mk.inj (Except.ok.inj hrun)
                  rcases hd with hd | ⟨rfl, rfl⟩
                  · exact hd.le
                  · exact le_rfl
              | some c =>
                  have hlt := h.lt_of_findChild hcs hd hfind
                  dsimp only at hrun
                  split_ifs at hrun with hlast
                  · exact h.search_le hcs (Or.inl (by omega)) hrun
                  · obtain ⟨-, rfl⟩ := Prod.mk.inj (Except.ok.inj hrun)
                    exact hlt

/-- The creation reads the offsets of the components only. -/
lemma Named.create_congr (hcs : tk.Spells cs) (hcs' : tk'.Spells cs) :
    ∀ (fuel : ℕ) (a : Addr) (d : ℕ) (fresh : List Addr) (t : Trie), t.Named → Above cs d →
    Trie.create tk cs.length fuel a d fresh t = Trie.create tk' cs.length fuel a d fresh t
  | 0, _, _, _, _, _, _ => rfl
  | fuel + 1, a, d, fresh, t, h, hd => by
      rw [create, create, ← h.search_congr hcs hcs' (argsSize + 1) a d hd]
      cases hsearch : t.search tk cs.length (argsSize + 1) a d with
      | error stop => rfl
      | ok r =>
          obtain ⟨b, D⟩ := r
          have hle := h.search_le hcs hd hsearch
          dsimp only
          by_cases hD : D = cs.length
          · rw [if_pos hD, if_pos hD]
          · have hlt : D < cs.length := by omega
            rw [if_neg hD, if_neg hD, hcs.token D hlt, hcs'.token D hlt]
            by_cases hname : cs[D] = []
            · rw [if_pos hname, if_pos hname]
            · rw [if_neg hname, if_neg hname]
              cases fresh with
              | nil => rfl
              | cons c fresh =>
                  cases he : t.mem b with
                  | none => rfl
                  | some e =>
                      dsimp only
                      split_ifs
                      · rfl
                      · exact Named.create_congr hcs hcs' fuel b D fresh _
                          (h.every.link he hname c) (Or.inl hlt)

end Trie

/-- The section of a call under `store_lock`. -/
def StoreCall.underLock (c : StoreCall) (buf : List UInt8) (j : ℕ) (st : Store) :
    Except Stop (ℤ × Store) :=
  match c.op with
  | .add => Store.addLocked c.env buf j st
  | .rm => Store.rmLocked c.env buf j st
  | .check => (Store.checkLocked buf j st).map fun r => (r.value, st)

namespace Store

variable {st st' : Store} {env : StoreEnv} {buf buf' : List UInt8} {cs : List Name}
  {idx idx' : ℕ → ℕ} {j : ℕ} {ret : ℤ}

/-- The store with other offsets. -/
def withOffsets (st : Store) (idx : ℕ → ℕ) : Store := { st with argIdxs := idx }

lemma unlock_withOffsets (st : Store) (env : StoreEnv) (idx : ℕ → ℕ) :
    (st.withOffsets idx).unlock env = (st.unlock env).withOffsets idx := by
  unfold unlock withOffsets
  dsimp only
  split_ifs <;> rfl

lemma addLocked_congr (h : st.trie.Named) (hcs : Tokens.Spells ⟨buf, idx⟩ cs)
    (hcs' : Tokens.Spells ⟨buf', idx'⟩ cs) : addLocked env buf' cs.length (st.withOffsets idx')
        = (addLocked env buf cs.length (st.withOffsets idx)).map fun r =>
      (r.1, r.2.withOffsets idx') := by
  rw [addLocked, addLocked]
  dsimp only [withOffsets]
  rw [← Trie.Named.create_congr hcs hcs' (argsSize + 1) st.trie.root 0 env.fresh st.trie h
    (Trie.above_zero cs)]
  cases Trie.create ⟨buf, idx⟩ cs.length (argsSize + 1) st.trie.root 0 env.fresh st.trie with
  | error stop => rfl
  | ok r =>
      obtain ⟨_ | _, t⟩ := r
      · rename_i curr
        dsimp only
        cases t.mem curr with
        | none => rfl
        | some e =>
            cases env.decree with
            | none => rfl
            | some d =>
                dsimp only
                cases storeIterateAdd env.graph env.slot env.slab ((st.nonce + 1) % 2 ^ 64) env.fuel
                    d.inode st.fsStores with
                | error stop => rfl
                | ok stores =>
                    exact congrArg (fun st => Except.ok ((0 : ℤ), st)) (unlock_withOffsets
                      { st with
                        trie := t.write curr e.setExplicited
                        argIdxs := idx
                        nonce := (st.nonce + 1) % 2 ^ 64
                        fsStores := stores } env idx')
      · rfl

lemma rmLocked_congr (h : st.trie.Named) (hcs : Tokens.Spells ⟨buf, idx⟩ cs)
    (hcs' : Tokens.Spells ⟨buf', idx'⟩ cs) : rmLocked env buf' cs.length (st.withOffsets idx')
        = (rmLocked env buf cs.length (st.withOffsets idx)).map fun r =>
      (r.1, r.2.withOffsets idx') := by
  rw [rmLocked, rmLocked]
  dsimp only [withOffsets]
  rw [← h.search_congr hcs hcs' (argsSize + 1) st.trie.root 0 (Trie.above_zero cs)]
  cases st.trie.search ⟨buf, idx⟩ cs.length (argsSize + 1) st.trie.root 0 with
  | error stop => rfl
  | ok r =>
      obtain ⟨curr, deepness⟩ := r
      dsimp only
      by_cases hD : deepness ≠ cs.length
      · rw [if_pos hD, if_pos hD]
        rfl
      · rw [if_neg hD, if_neg hD]
        cases st.trie.mem curr with
        | none => rfl
        | some e =>
            dsimp only
            cases e.explicited with
            | false => rfl
            | true =>
                simp only [uncount, Bool.not_true, Bool.false_eq_true, if_false, bind, Except.bind]
                cases env.decree with
                | none =>
                    dsimp only
                    cases deactivate st.trie curr e with
                    | error stop => rfl
                    | ok t =>
                        exact congrArg (fun st => Except.ok ((0 : ℤ), st))
                          (unlock_withOffsets { st with trie := t, argIdxs := idx } env idx')
                | some d =>
                    dsimp only
                    cases storeIterateRm env.graph env.slot ((st.nonce + 1) % 2 ^ 64) env.fuel
                        d.inode st.fsStores with
                    | error stop => rfl
                    | ok stores =>
                        dsimp only
                        cases deactivate st.trie curr e with
                        | error stop => rfl
                        | ok t =>
                            exact congrArg (fun st => Except.ok ((0 : ℤ), st)) (unlock_withOffsets
                              { st with
                                trie := t
                                argIdxs := idx
                                nonce := (st.nonce + 1) % 2 ^ 64
                                fsStores := stores } env idx')

lemma checkLocked_congr (h : st.trie.Named) (hcs : Tokens.Spells ⟨buf, idx⟩ cs)
    (hcs' : Tokens.Spells ⟨buf', idx'⟩ cs) :
    checkLocked buf' cs.length (st.withOffsets idx')
      = checkLocked buf cs.length (st.withOffsets idx) := by
  rw [checkLocked, checkLocked]
  dsimp only [withOffsets]
  rw [← h.search_congr hcs hcs' (argsSize + 1) st.trie.root 0 (Trie.above_zero cs)]
  rfl

/-! ### What a section leaves

Under the lock the offsets are only read.  So a request that has written its offsets finds them in
`argIdxs` until another one tokenises its path. -/

/-- A section leaves the offsets alone, and no node without a name. -/
def Leaves (st st' : Store) : Prop := st'.trie.Named ∧ st'.argIdxs = st.argIdxs

lemma addLocked_leaves (h : st.trie.Named) (hrun : addLocked env buf j st = .ok (ret, st')) :
    Leaves st st' :=
  addLocked_names (fun _ hname _ => hname) h.every hrun

lemma rmLocked_leaves (h : st.trie.Named) (hrun : rmLocked env buf j st = .ok (ret, st')) :
    Leaves st st' :=
  rmLocked_names h.every hrun

end Store

namespace StoreCall

variable {c : StoreCall} {st st' : Store} {buf buf' : List UInt8} {cs : List Name}
  {idx idx' : ℕ → ℕ} {j : ℕ} {ret : ℤ}

/-- **A section does the same with another buffer and other offsets** that give the same
    components. -/
lemma underLock_congr (c : StoreCall) (h : st.trie.Named) (hcs : Tokens.Spells ⟨buf, idx⟩ cs)
    (hcs' : Tokens.Spells ⟨buf', idx'⟩ cs) :
    c.underLock buf' cs.length (st.withOffsets idx') =
      (c.underLock buf cs.length (st.withOffsets idx)).map fun r =>
      (r.1, r.2.withOffsets idx') := by
  unfold underLock
  cases c.op with
  | add => exact Store.addLocked_congr h hcs hcs'
  | rm => exact Store.rmLocked_congr h hcs hcs'
  | check =>
      dsimp only
      rw [Store.checkLocked_congr h hcs hcs']
      cases Store.checkLocked buf cs.length (st.withOffsets idx) <;> rfl

lemma underLock_leaves (h : st.trie.Named) (hrun : c.underLock buf j st = .ok (ret, st')) :
    Store.Leaves st st' := by
  unfold underLock at hrun
  cases hop : c.op with
  | add =>
      rw [hop] at hrun
      exact Store.addLocked_leaves h hrun
  | rm =>
      rw [hop] at hrun
      exact Store.rmLocked_leaves h hrun
  | check =>
      rw [hop] at hrun
      dsimp only at hrun
      cases hcheck : Store.checkLocked buf j st with
      | error stop =>
          rw [hcheck] at hrun
          cases hrun
      | ok r =>
          rw [hcheck] at hrun
          obtain ⟨-, rfl⟩ := Prod.mk.inj (Except.ok.inj hrun)
          exact ⟨h, rfl⟩

end StoreCall

/-! ## The tokeniser does not read the offsets

It writes them one after the other, from the first on; what they were before decides nothing. -/

namespace Tokens

/-- Two runs of the loop from offsets that agree on the components found so far. -/
lemma splitLoop_congr (length : ℕ) : ∀ (rest i j : ℕ) (buf : List UInt8) (idx idx' : ℕ → ℕ),
    (∀ k < j, idx k = idx' k) →
    (splitLoop length rest i j ⟨buf, idx⟩).1 = (splitLoop length rest i j ⟨buf, idx'⟩).1 ∧
      (splitLoop length rest i j ⟨buf, idx⟩).2.buf = (splitLoop length rest i j ⟨buf, idx'⟩).2.buf ∧
      ∀ n, (splitLoop length rest i j ⟨buf, idx⟩).1 = some n → ∀ k < n,
        (splitLoop length rest i j ⟨buf, idx⟩).2.argIdxs k
          = (splitLoop length rest i j ⟨buf, idx'⟩).2.argIdxs k
  | 0, i, j, buf, idx, idx', h => by
      refine ⟨rfl, rfl, fun n hn k hk => ?_⟩
      obtain rfl := Option.some.inj hn
      exact h k hk
  | rest + 1, i, j, buf, idx, idx', h => by
      rw [splitLoop, splitLoop]
      dsimp only
      split_ifs with hslash hfull hlast
      · exact ⟨rfl, rfl, fun n hn => absurd hn (by simp)⟩
      · refine splitLoop_congr length rest (i + 1) (j + 1) _ _ _ fun k hk => ?_
        rw [Function.update_apply, Function.update_apply]
        split_ifs with hkj
        · rfl
        · exact h k (by omega)
      · exact splitLoop_congr length rest (i + 1) j _ _ _ h
      · exact splitLoop_congr length rest (i + 1) j _ _ _ h

/-- Nor does the tokeniser. -/
lemma processPath_congr (buf : List UInt8) (idx idx' : ℕ → ℕ) :
    (processPath ⟨buf, idx⟩).1 = (processPath ⟨buf, idx'⟩).1 ∧
      (processPath ⟨buf, idx⟩).2.buf = (processPath ⟨buf, idx'⟩).2.buf ∧
      ∀ n, (processPath ⟨buf, idx⟩).1 = some n →
        (processPath ⟨buf, idx⟩).2.components n = (processPath ⟨buf, idx'⟩).2.components n := by
  unfold processPath
  dsimp only
  by_cases hslash : buf.getD 0 0 ≠ 47
  · rw [if_pos hslash, if_pos hslash]
    exact ⟨rfl, rfl, fun n hn => absurd hn (by simp)⟩
  · rw [if_neg hslash, if_neg hslash]
    obtain ⟨hsame, hbuf, hidx⟩ :=
      splitLoop_congr (strlen buf) (strlen buf) 0 0 buf idx idx' (by simp)
    revert hsame hbuf hidx
    generalize splitLoop (strlen buf) (strlen buf) 0 0 ⟨buf, idx⟩ = r
    generalize splitLoop (strlen buf) (strlen buf) 0 0 ⟨buf, idx'⟩ = r'
    obtain ⟨_ | j, t⟩ := r
    · rintro hsame hbuf -
      obtain ⟨_ | j', t'⟩ := r'
      · exact ⟨rfl, hbuf, fun n hn => absurd hn (by simp)⟩
      · cases hsame
    · rintro hsame hbuf hidx
      obtain ⟨_ | j', t'⟩ := r'
      · cases hsame
      · obtain rfl := Option.some.inj hsame
        dsimp only at hbuf hidx ⊢
        have htoken : ∀ k < j, t.token k = t'.token k := by
          intro k hk
          rw [token, token, hbuf, hidx j rfl k hk]
        have hdots : ((List.range j).any fun k => t.token k = [46] ∨ t.token k = [46, 46])
            = (List.range j).any fun k => t'.token k = [46] ∨ t'.token k = [46, 46] := by
          rw [Bool.eq_iff_iff, List.any_eq_true, List.any_eq_true]
          refine exists_congr fun k => and_congr_right fun hk => ?_
          rw [htoken k (List.mem_range.mp hk)]
        rw [hdots]
        split_ifs
        · exact ⟨rfl, hbuf, fun n hn => absurd hn (by simp)⟩
        · refine ⟨rfl, hbuf, fun n hn => ?_⟩
          obtain rfl := Option.some.inj hn
          exact List.map_congr_left fun k hk => htoken k (List.mem_range.mp hk)

end Tokens

/-! ## A call alone

A call that is not interleaved with others is its parts one after the other: this ties the four
steps of a request to the three functions of the store. -/

namespace StoreCall

variable {c : StoreCall} {st st' : Store} {buf : List UInt8} {idx : ℕ → ℕ} {j : ℕ} {ret : ℤ}

/-- What `process_path` makes of the request's own path. -/
def own (c : StoreCall) : Option ℕ × Tokens :=
  Tokens.processPath ⟨c.env.examinated c.pathName, fun _ => 0⟩

/-- The check finds the inode in the table. -/
def Found (c : StoreCall) (st : Store) : Prop := c.op = .check ∧ st.lookupInode c.env = true

/-- A call that finds its inode. -/
lemma run_found (hfound : c.Found st) : c.run st = .ok (PathCheckResult.matchInode.value, st) := by
  simp only [run, hfound.1, Store.pathStoreCheck, hfound.2, if_true, Except.map]

/-- Any other call, in its two parts. -/
lemma run_parts (hfound : ¬ c.Found st) : c.run st =
    match st.tokenise (c.env.examinated c.pathName) with
    | (none, _, st) => .ok (1, st)
    | (some j, buf, st) => st.locked (c.underLock buf j st) := by
  unfold run underLock
  cases hop : c.op with
  | add => rfl
  | rm => rfl
  | check =>
      have hlook : st.lookupInode c.env = false := by
        by_contra hlook
        exact hfound ⟨hop, by simpa using hlook⟩
      dsimp only
      rw [Store.pathStoreCheck, hlook, if_neg (by simp)]
      cases st.tokenise (c.env.examinated c.pathName) with
      | mk r rest =>
          cases r with
          | none => rfl
          | some j =>
              dsimp only
              unfold Store.locked
              split_ifs
              · rfl
              · cases Store.checkLocked rest.1 j rest.2 <;> rfl

/-- The tokeniser of a call, from any offsets. -/
lemma tokenise_own (c : StoreCall) (st : Store) (hidx : idx 0 ≤ 1) :
    ∃ idx', idx' 0 ≤ 1 ∧
      (st.withOffsets idx).tokenise (c.env.examinated c.pathName)
        = (c.own.1, c.own.2.buf, st.withOffsets idx') ∧
      ∀ j, c.own.1 = some j → Tokens.components ⟨c.own.2.buf, idx'⟩ j = c.own.2.components j := by
  obtain ⟨hsame, hbuf, hcomponents⟩ :=
    Tokens.processPath_congr (c.env.examinated c.pathName) idx fun _ => 0
  refine ⟨(Tokens.processPath ⟨c.env.examinated c.pathName, idx⟩).2.argIdxs,
    Tokens.processPath_zero _ hidx, ?_, ?_⟩
  · rw [own, ← hsame, ← hbuf]
    rfl
  · intro j hj
    rw [own] at hj ⊢
    rw [← hbuf]
    exact hcomponents j (hsame.trans hj)

/-- A call whose path is rejected. -/
lemma run_rejected (hfound : ¬ c.Found st) (hidx : idx 0 ≤ 1) (hown : c.own.1 = none) :
    ∃ idx', idx' 0 ≤ 1 ∧ c.run (st.withOffsets idx) = .ok (1, st.withOffsets idx') := by
  obtain ⟨idx', hidx', htok, -⟩ := c.tokenise_own st hidx
  refine ⟨idx', hidx', ?_⟩
  rw [run_parts (show ¬ c.Found (st.withOffsets idx) from hfound), htok, hown]

/-- **A section that still finds its own components** does what the whole call does alone. -/
lemma run_underLock (hfound : ¬ c.Found st) (hnamed : st.trie.Named) (hoffset : st.argIdxs 0 ≤ 1)
    (hidx : idx 0 ≤ 1) (hown : c.own.1 = some j)
    (hcs : Tokens.components ⟨c.own.2.buf, st.argIdxs⟩ j = c.own.2.components j)
    (hrun : st.locked (c.underLock c.own.2.buf j st) = .ok (ret, st')) :
    ∃ idx', idx' 0 ≤ 1 ∧ c.run (st.withOffsets idx) = .ok (ret, st'.withOffsets idx') := by
  obtain ⟨idx', hidx', htok, hcs'⟩ := c.tokenise_own st hidx
  have hprocess :
      Tokens.processPath ⟨c.env.examinated c.pathName, fun _ => 0⟩ = (some j, c.own.2) :=
    Prod.ext hown rfl
  have hspells := (Tokens.processPath_spells_of hprocess hoffset hcs).2
  have hspells' := (Tokens.processPath_spells_of hprocess hidx' (hcs' j hown)).2
  have hcongr := c.underLock_congr hnamed hspells hspells'
  rw [Tokens.length_components] at hcongr
  refine ⟨idx', hidx', ?_⟩
  rw [run_parts (show ¬ c.Found (st.withOffsets idx) from hfound), htok, hown]
  dsimp only
  unfold Store.locked at hrun ⊢
  split_ifs at hrun with hlock
  rw [if_neg (show ¬ (st.withOffsets idx').storeLock = true from hlock), hcongr,
    show st.withOffsets st.argIdxs = st from rfl, hrun]
  rfl

end StoreCall

/-! ## Requests

`Serial` is the statement about a run so far: some order of the requests that have returned, namely
that of their returns, gives the same replies and the same store.  Each step of a request keeps
it, if the request is undisturbed; the two runs at the end are one that is and one that is not. -/

/-- What a request has done last. -/
inductive Phase
  | entered
  | resolved
  | looked
  | tokenised (j : ℕ) (buf : List UInt8)
  | returned (ret : ℤ)

namespace StoreCall

/-- `process_path`, on the request's own buffer, and the return when it rejects the path. -/
def tokeniseStep (c : StoreCall) (st : Store) : Phase × Store :=
  match st.tokenise (c.env.examinated c.pathName) with
  | (none, _, st) => (.returned 1, st)
  | (some j, buf, st) => (.tokenised j buf, st)

/-- The next step of a request: the oracle, which does not touch the store, the lookup of the
    inode for a check, `process_path`, and the section under the lock once it is free. -/
def next (c : StoreCall) (st : Store) : Phase → Option (Phase × Store)
  | .entered => some (.resolved, st)
  | .resolved =>
      match c.op with
      | .check => some (if st.lookupInode c.env then .returned PathCheckResult.matchInode.value
          else .looked, st)
      | _ => some (c.tokeniseStep st)
  | .looked => some (c.tokeniseStep st)
  | .tokenised j buf =>
      match st.locked (c.underLock buf j st) with
      | .ok (ret, st) => some (.returned ret, st)
      | .error _ => none
  | .returned _ => none

/-- A call that nothing overlaps, with what it returns. -/
def Alone (st : Store) (c : StoreCall × ℤ) (st' : Store) : Prop := c.1.run st = .ok (c.2, st')

end StoreCall

/-- The store, and where the requests are. -/
structure Requests where
  store : Store
  phase : ℕ → Phase

namespace Requests

/-- No request has done anything. -/
def start (st : Store) : Requests := ⟨st, fun _ => .entered⟩

/-- One step of the request `t`. -/
def step (calls : ℕ → StoreCall) (s : Requests) (t : ℕ) : Option Requests :=
  ((calls t).next s.store (s.phase t)).map fun r => ⟨r.2, Function.update s.phase t r.1⟩

/-- The step of a request that others have not disturbed: a section finds the components of its
    own path at the offsets in `argIdxs`, and at the last step of a check its inode has not come
    into the table since it was looked up. -/
def Undisturbed (calls : ℕ → StoreCall) (s : Requests) (t : ℕ) : Prop :=
  match s.phase t with
  | .looked => (calls t).own.1 = none → ¬ (calls t).Found s.store
  | .tokenised j buf =>
      Tokens.components ⟨buf, s.store.argIdxs⟩ j = (calls t).own.2.components j ∧
        ¬ (calls t).Found s.store
  | _ => True

/-- The requests that have returned did what they would have done alone, in the order of
    `history`. -/
structure Serial (calls : ℕ → StoreCall) (st₀ : Store) (history : List (ℕ × ℤ)) (s : Requests) :
    Prop where
  once : (history.map Prod.fst).Nodup
  returned : ∀ t ret, (t, ret) ∈ history ↔ s.phase t = .returned ret
  alone : ∃ idx, idx 0 ≤ 1 ∧
    Run StoreCall.Alone st₀ (history.map fun r => (calls r.1, r.2)) (s.store.withOffsets idx)

/-- The state that the requests keep. -/
structure Inv (calls : ℕ → StoreCall) (s : Requests) : Prop where
  offset : s.store.argIdxs 0 ≤ 1
  named : s.store.trie.Named
  own : ∀ t j buf, s.phase t = .tokenised j buf → (calls t).own.1 = some j ∧
    (calls t).own.2.buf = buf

variable {calls : ℕ → StoreCall} {st₀ st : Store} {history : List (ℕ × ℤ)} {s s' : Requests}
  {t : ℕ} {ret : ℤ} {p : Phase} {idx : ℕ → ℕ}

/-- A step that is not the last one. -/
lemma Serial.move (h : s.Serial calls st₀ history) (hnew : ∀ ret, p ≠ .returned ret)
    (hold : ∀ ret, s.phase t ≠ .returned ret) :
    Serial calls st₀ history ⟨s.store.withOffsets idx, Function.update s.phase t p⟩ where
  once := h.once
  returned := by
    intro u ret
    rw [h.returned]
    dsimp only
    rw [Function.update_apply]
    split_ifs with hu
    · subst hu
      exact iff_of_false (hold ret) (hnew ret)
    · exact Iff.rfl
  alone := h.alone

/-- The last step of a request that does what the call does alone. -/
lemma Serial.finish (h : s.Serial calls st₀ history) (hold : ∀ ret, s.phase t ≠ .returned ret)
    (hrun : ∀ idx, idx 0 ≤ 1 → ∃ idx', idx' 0 ≤ 1 ∧
      (calls t).run (s.store.withOffsets idx) = .ok (ret, st.withOffsets idx')) :
    Serial calls st₀ (history ++ [(t, ret)]) ⟨st, Function.update s.phase t (.returned ret)⟩ where
  once := by
    rw [List.map_append, List.nodup_append]
    refine ⟨h.once, by simp, ?_⟩
    rintro u hu v hv rfl
    obtain ⟨⟨v, ret'⟩, hmem, rfl⟩ := List.mem_map.mp hu
    obtain rfl : v = t := by simpa using hv
    exact hold ret' ((h.returned v ret').mp hmem)
  returned := by
    intro u ret'
    rw [List.mem_append, h.returned]
    dsimp only
    rw [Function.update_apply]
    split_ifs with hu
    · subst hu
      simp [hold ret', eq_comm]
    · simp [hu]
  alone := by
    obtain ⟨idx, hidx, hserial⟩ := h.alone
    obtain ⟨idx', hidx', hlast⟩ := hrun idx hidx
    refine ⟨idx', hidx', ?_⟩
    rw [List.map_append, Run.append_iff]
    exact ⟨_, hserial, .cons hlast (.nil _)⟩

/-- `process_path` and its early return. -/
lemma tokeniseStep_eq (c : StoreCall) (st : Store) (hoffset : st.argIdxs 0 ≤ 1) :
    ∃ idx, idx 0 ≤ 1 ∧ c.tokeniseStep st
      = (match c.own.1 with
          | none => .returned 1
          | some j => .tokenised j c.own.2.buf, st.withOffsets idx) := by
  obtain ⟨idx, hidx, htok, -⟩ := c.tokenise_own st hoffset
  refine ⟨idx, hidx, ?_⟩
  rw [StoreCall.tokeniseStep, show st = st.withOffsets st.argIdxs from rfl, htok]
  cases c.own.1 <;> rfl

/-- Moving one request keeps what the others have tokenised. -/
lemma Inv.move (h : s.Inv calls) (hidx : idx 0 ≤ 1)
    (hown : ∀ j buf, p = .tokenised j buf → (calls t).own.1 = some j ∧ (calls t).own.2.buf = buf) :
    Inv calls ⟨s.store.withOffsets idx, Function.update s.phase t p⟩ where
  offset := hidx
  named := h.named
  own := by
    intro u j buf hu
    dsimp only at hu
    rw [Function.update_apply] at hu
    split_ifs at hu with hut
    · rw [hut]
      exact hown j buf hu
    · exact h.own u j buf hu

/-- The step of `process_path`. -/
lemma tokenise_step (h : s.Inv calls) (hserial : s.Serial calls st₀ history)
    (hold : ∀ ret, s.phase t ≠ .returned ret) (hfound : (calls t).own.1 = none →
      ¬ (calls t).Found s.store) :
    let r := (calls t).tokeniseStep s.store
    Inv calls ⟨r.2, Function.update s.phase t r.1⟩ ∧
      ∃ history', Serial calls st₀ history' ⟨r.2, Function.update s.phase t r.1⟩ := by
  obtain ⟨idx, hidx, hstep⟩ := tokeniseStep_eq (calls t) s.store h.offset
  dsimp only
  rw [hstep]
  cases hown : (calls t).own.1 with
  | none =>
      refine ⟨h.move hidx (by simp), _, hserial.finish hold fun idx' hidx' => ?_⟩
      obtain ⟨idx'', hidx'', hrun⟩ := StoreCall.run_rejected (hfound hown) hidx' hown
      exact ⟨idx'', hidx'', hrun⟩
  | some j =>
      refine ⟨h.move hidx ?_, _, hserial.move (by simp) hold⟩
      intro j' buf heq
      obtain ⟨rfl, rfl⟩ := Phase.tokenised.inj heq
      exact ⟨hown, rfl⟩

/-- **One step** of a request that is not disturbed. -/
lemma Serial.step (h : s.Inv calls) (hserial : s.Serial calls st₀ history)
    (hgood : s.Undisturbed calls t)
    (hstep : s.step calls t = some s') :
    s'.Inv calls ∧ ∃ history', s'.Serial calls st₀ history' := by
  obtain ⟨r, hnext, rfl⟩ := Option.map_eq_some_iff.mp hstep
  cases hphase : s.phase t with
  | entered =>
      rw [hphase] at hnext
      obtain rfl := Option.some.inj hnext
      exact ⟨h.move h.offset (by simp), _, hserial.move (by simp) (by simp [hphase])⟩
  | resolved =>
      rw [hphase, StoreCall.next] at hnext
      cases hop : (calls t).op with
      | add =>
          rw [hop] at hnext
          obtain rfl := Option.some.inj hnext
          exact tokenise_step h hserial (by simp [hphase])
            fun _ hfound => by simp [StoreCall.Found, hop] at hfound
      | rm =>
          rw [hop] at hnext
          obtain rfl := Option.some.inj hnext
          exact tokenise_step h hserial (by simp [hphase])
            fun _ hfound => by simp [StoreCall.Found, hop] at hfound
      | check =>
          rw [hop] at hnext
          obtain rfl := Option.some.inj hnext
          cases hlook : s.store.lookupInode (calls t).env with
          | false => exact ⟨h.move h.offset (by simp), _, hserial.move (by simp) (by simp [hphase])⟩
          | true =>
              refine ⟨h.move h.offset (by simp), _, hserial.finish (by simp [hphase])
                fun idx hidx => ⟨idx, hidx, ?_⟩⟩
              exact StoreCall.run_found
                (show (calls t).Found (s.store.withOffsets idx) from ⟨hop, hlook⟩)
  | looked =>
      rw [hphase] at hnext
      obtain rfl := Option.some.inj hnext
      rw [Undisturbed, hphase] at hgood
      exact tokenise_step h hserial (by simp [hphase]) hgood
  | tokenised j buf =>
      obtain ⟨hown, rfl⟩ := h.own t j buf hphase
      rw [Undisturbed, hphase] at hgood
      rw [hphase, StoreCall.next] at hnext
      cases hrun : s.store.locked ((calls t).underLock (calls t).own.2.buf j s.store) with
      | error stop =>
          rw [hrun] at hnext
          cases hnext
      | ok r' =>
          rw [hrun] at hnext
          obtain rfl := Option.some.inj hnext
          obtain ⟨hnamed, hoffset⟩ := StoreCall.underLock_leaves h.named (Store.locked_run hrun)
          refine ⟨⟨by rw [hoffset]; exact h.offset, hnamed, fun u j' buf hu => ?_⟩, _,
            hserial.finish (by simp [hphase]) fun idx hidx =>
              StoreCall.run_underLock hgood.2 h.named h.offset hidx hown hgood.1 hrun⟩
          dsimp only at hu
          rw [Function.update_apply] at hu
          split_ifs at hu
          exact h.own u j' buf hu
  | returned ret =>
      rw [hphase] at hnext
      cases hnext

end Requests

/-- Calls that nothing overlaps leave the offsets and the names as the sections need them. -/
lemma Store.ready_of_alone {root : Addr} {before : List (StoreCall × ℤ)} {st : Store}
    (hrun : Run StoreCall.Alone (Store.setup root) before st) :
    st.argIdxs 0 ≤ 1 ∧ st.trie.Named := by
  refine hrun.invariant (P := fun st => st.argIdxs 0 ≤ 1 ∧ st.trie.Named) ?_ ⟨Nat.zero_le _, ?_⟩
  · rintro st ⟨c, ret⟩ st' ⟨hoffset, hnamed⟩ hcall
    by_cases hfound : c.Found st
    · rw [StoreCall.Alone, StoreCall.run_found hfound] at hcall
      obtain ⟨-, rfl⟩ := Prod.mk.inj (Except.ok.inj hcall)
      exact ⟨hoffset, hnamed⟩
    · obtain ⟨idx, hidx, htok, -⟩ := c.tokenise_own st hoffset
      rw [show st.withOffsets st.argIdxs = st from rfl] at htok
      rw [StoreCall.Alone, StoreCall.run_parts hfound, htok] at hcall
      cases hown : c.own.1 with
      | none =>
          rw [hown] at hcall
          obtain ⟨-, rfl⟩ := Prod.mk.inj (Except.ok.inj hcall)
          exact ⟨hidx, hnamed⟩
      | some j =>
          rw [hown] at hcall
          dsimp only at hcall
          obtain ⟨hnamed', hoffset'⟩ := StoreCall.underLock_leaves
            (show (st.withOffsets idx).trie.Named from hnamed) (Store.locked_run hcall)
          exact ⟨by rw [hoffset']; exact hidx, hnamed'⟩
  · intro a e he
    simp only [Store.setup, Function.update_apply] at he
    split_ifs at he
    rw [← Option.some.inj he]
    simp

/-- **Requests that are not disturbed are serialisable.**  Whatever the interleaving, the
    requests that have returned so far returned what the same calls return one after another in
    some order, and left the trie, the inode table, `nonce` and the lock as these do. -/
theorem requests_serialisable {root : Addr} {before : List (StoreCall × ℤ)} {st₀ : Store}
    (hbefore : Run StoreCall.Alone (Store.setup root) before st₀) {calls : ℕ → StoreCall}
    {labels : List ℕ} {s : Requests}
    (hrun : Run (When (Requests.Undisturbed calls) (stepsOf (Requests.step calls)))
      (Requests.start st₀) labels s) :
    ∃ history : List (ℕ × ℤ), (history.map Prod.fst).Nodup ∧
      (∀ t ret, (t, ret) ∈ history ↔ s.phase t = .returned ret) ∧
      ∃ st, Run StoreCall.Alone st₀ (history.map fun r => (calls r.1, r.2)) st ∧
        st.trie = s.store.trie ∧ st.fsStores = s.store.fsStores ∧ st.nonce = s.store.nonce ∧
        st.storeLock = s.store.storeLock := by
  obtain ⟨hoffset, hnamed⟩ := Store.ready_of_alone hbefore
  obtain ⟨-, history, h⟩ : s.Inv calls ∧ ∃ history, s.Serial calls st₀ history := by
    refine hrun.invariant (P := fun s => s.Inv calls ∧ ∃ history, s.Serial calls st₀ history) ?_
      ⟨⟨hoffset, hnamed, by simp [Requests.start]⟩, [], by simp, by simp [Requests.start],
        st₀.argIdxs, hoffset, .nil _⟩
    rintro s t s' ⟨hinv, history, hserial⟩ ⟨hgood, hstep⟩
    exact hserial.step hinv hgood hstep
  obtain ⟨idx, -, halone⟩ := h.alone
  exact ⟨history, h.once, h.returned, _, halone, rfl, rfl, rfl, rfl⟩

/-- Two additions at once, of `/a` and of `/b`, each with its section after both have tokenised
    their path. -/
def twoAdds (t : ℕ) : StoreCall :=
  if t = 0 then fileCall .add [[97]] ⟨0, 5⟩ [1] else fileCall .add [[98]] ⟨0, 6⟩ [2]

theorem requests_serialisable_two :
    ∃ s, Run (When (Requests.Undisturbed twoAdds) (stepsOf (Requests.step twoAdds)))
        (Requests.start (Store.setup 0)) [0, 1, 0, 1, 1, 0] s ∧
      ∃ history : List (ℕ × ℤ), (history.map Prod.fst).Nodup ∧
        (∀ t ret, (t, ret) ∈ history ↔ s.phase t = .returned ret) ∧
        ∃ st, Run StoreCall.Alone (Store.setup 0) (history.map fun r => (twoAdds r.1, r.2)) st ∧
          st.trie = s.store.trie ∧ st.fsStores = s.store.fsStores ∧ st.nonce = s.store.nonce ∧
          st.storeLock = s.store.storeLock := by
  obtain ⟨s, hrun⟩ : ∃ s,
      Run (When (Requests.Undisturbed twoAdds) (stepsOf (Requests.step twoAdds)))
      (Requests.start (Store.setup 0)) [0, 1, 0, 1, 1, 0] s :=
    ⟨_, .cons ⟨trivial, rfl⟩ (.cons ⟨trivial, rfl⟩ (.cons ⟨trivial, rfl⟩ (.cons ⟨trivial, rfl⟩
      (.cons ⟨⟨rfl, fun h => StoreOp.noConfusion h.1⟩, rfl⟩
        (.cons ⟨⟨rfl, fun h => StoreOp.noConfusion h.1⟩, rfl⟩ (.nil _))))))⟩
  exact ⟨s, hrun, requests_serialisable (.nil _) hrun⟩

/-- Two checks at once, of `/a/b` and of `/aa/b`. -/
def twoChecks (t : ℕ) : StoreCall :=
  if t = 0 then unresolvedCheck [[97], [98]] else unresolvedCheck [[97, 97], [98]]

/-- With `/a/b` protected, the check of `/a/b` is answered `SUB_MATCH_DIR` when the other one
    tokenises its path before the section: it then looks for an empty component below `a`.  Alone
    it is never answered so. -/
theorem requests_not_serialisable :
    ∃ st₀ s,
      Run StoreCall.Alone (Store.setup 0) [(fileCall .add [[97], [98]] ⟨0, 5⟩ [1, 2], 0)] st₀ ∧
      Run (stepsOf (Requests.step twoChecks)) (Requests.start st₀) [0, 0, 0, 1, 1, 1, 0, 1] s ∧
      s.phase 0 = .returned PathCheckResult.subMatchDir.value ∧
      ¬ ∃ history : List (ℕ × ℤ), (history.map Prod.fst).Nodup ∧
        (∀ t ret, (t, ret) ∈ history ↔ s.phase t = .returned ret) ∧
        ∃ st, Run StoreCall.Alone st₀ (history.map fun r => (twoChecks r.1, r.2)) st := by
  obtain ⟨st₀, s, st₁, ret, st₂, hadd, hrun, hret, hothers, hfirst, hother,
      hsecond⟩ : ∃ st₀ s st₁ ret st₂,
      (fileCall .add [[97], [98]] ⟨0, 5⟩ [1, 2]).run (Store.setup 0) = .ok (0, st₀) ∧
      Run (stepsOf (Requests.step twoChecks)) (Requests.start st₀) [0, 0, 0, 1, 1, 1, 0, 1] s ∧
      s.phase 0 = .returned PathCheckResult.subMatchDir.value ∧
      (∀ t, 2 ≤ t → s.phase t = .entered) ∧
      (∃ st, (twoChecks 0).run st₀ = .ok (1, st)) ∧
      (twoChecks 1).run st₀ = .ok (ret, st₁) ∧
      (twoChecks 0).run st₁ = .ok (1, st₂) := by
    refine ⟨_, _, _, _, _, rfl,
      .cons rfl (.cons rfl (.cons rfl (.cons rfl (.cons rfl (.cons rfl (.cons rfl (.cons rfl
      (.nil _)))))))), rfl, ?_, ⟨_, rfl⟩, rfl, rfl⟩
    intro t ht
    simp [Requests.start, show t ≠ 0 by omega, show t ≠ 1 by omega]
  refine ⟨st₀, s, .cons hadd (.nil _), hrun, hret, ?_⟩
  rintro ⟨history, honce, hreturned, st, halone⟩
  -- wherever the first check stands, it has answered otherwise
  have hwrong : ∀ st r st', StoreCall.Alone st (twoChecks 0, r) st' → (0, r) ∈ history →
      (∃ st'', (twoChecks 0).run st = .ok (1, st'')) → False := by
    rintro st r st' hcall hmem ⟨st'', halone⟩
    obtain ⟨hone, -⟩ := Prod.mk.inj (Except.ok.inj (hcall.symm.trans halone))
    have hphase := (hreturned 0 r).mp hmem
    rw [hret] at hphase
    have hfour := Phase.returned.inj hphase
    dsimp only at hone
    rw [hone] at hfour
    exact absurd hfour (by decide)
  have htwo : ∀ r ∈ history, r.1 = 0 ∨ r.1 = 1 := by
    rintro ⟨t, r⟩ hmem
    by_contra hmany
    have hphase := (hreturned t r).mp hmem
    rw [hothers t (by dsimp only at hmany; omega)] at hphase
    cases hphase
  have hmem : (0, PathCheckResult.subMatchDir.value) ∈ history := (hreturned 0 _).mpr hret
  cases history with
  | nil => cases hmem
  | cons first rest =>
      obtain ⟨t, r⟩ := first
      cases halone with
      | cons head tail =>
          rcases htwo (t, r) (by simp) with ht | ht
          · dsimp only at ht
            subst ht
            exact hwrong _ r _ head (by simp) hfirst
          · dsimp only at ht
            subst ht
            obtain ⟨-, rfl⟩ := Prod.mk.inj (Except.ok.inj (head.symm.trans hother))
            cases rest with
            | nil => simp at hmem
            | cons second rest =>
                obtain ⟨t', r'⟩ := second
                cases tail with
                | cons head' tail' =>
                    rcases htwo (t', r') (by simp) with ht' | ht'
                    · dsimp only at ht'
                      subst ht'
                      exact hwrong _ r' _ head' (by simp) ⟨st₂, hsecond⟩
                    · simp only [List.map_cons, List.nodup_cons, List.mem_cons] at honce
                      exact honce.1 (Or.inl ht'.symm)

end KLRM
