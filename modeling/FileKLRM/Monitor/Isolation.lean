import FileKLRM.Monitor.Interference
import FileKLRM.PathStore.LockBalance
import FileKLRM.PathStore.PathField
import FileKLRM.PathStore.Serial

/-!
# What a request reads

`dev_ioctl` copies a request into an object of `input_cache` that is longer, and the handlers take
the password and the path from there as strings.  Two runs of the same request, on objects that
held something else behind it: the reply, the toggles and the store should be the same, and the
password should not be continued by the path.

This is so exactly when each string that a handler takes ends in its field (`Contained`), or when
the path field alone has `process_path` reject the path.  `dev_write` clears its buffer and leaves
room for a NUL; `dev_ioctl` does neither.
-/

namespace KLRM

/-! ## The module with its store

Here the store that was a parameter in `FileKLRM.Monitor.Ioctl` is the path store, with what the
kernel answers to a path; a call that waits for `store_lock` gives no reply. -/

/-- What the kernel answers to the store call of a request, for each string at `pathName`.
    `kern_path` resolves no name of `PATH_MAX` bytes or more. -/
structure PathKernel where
  answer : List UInt8 → StoreEnv
  tooLong : ∀ name, 4096 ≤ name.length → (answer name).decree = none

/-- The call of the path store that a handler makes. -/
def PathOp.storeOp : PathOp → StoreOp
  | add => .add
  | rm => .rm
  | check => .check

/-- `path_store_add`, `path_store_rm` and `path_store_check` on the memory at `input->path`. -/
def Store.serve (op : PathOp) (path : List UInt8) (kernel : PathKernel) (st : Store) :
    Option ℤ × Store :=
  match (⟨op.storeOp, kernel.answer (cString path), path, []⟩ : StoreCall).run st with
  | .ok (ret, st') => (some ret, st')
  -- the call spins on the lock, or the kernel has gone down in it
  | .error _ => (none, st)

/-- The module, with the digest that it compares with. -/
def moduleConfig (sha512 : List UInt8 → List UInt8) (hashCompressed : List UInt8)
    (overtake : Bool) : Config Store PathKernel where
  sha512 := sha512
  hashCompressed := hashCompressed
  pathStore := Store.serve
  overtake := overtake

/-- A step of one of the requests, or `refresh_nonces`. -/
def Requests.Moves (calls : ℕ → StoreCall) (s : Requests) (t : Option ℕ) (s' : Requests) : Prop :=
  match t with
  | some t => s.step calls t = some s'
  | none => s' = { s with store := s.store.refreshNonces }

/-- A store that requests lead to, overlapping or not. -/
def Store.Reached (st : Store) : Prop :=
  ∃ root calls labels s, Run (Requests.Moves calls) (Requests.start (Store.setup root)) labels s ∧
    s.store = st

/-! ## Two runs

`outcome` is what can be told from outside: the reply, the toggles and the store but for
`argIdxs`, which any request overwrites.  `Isolated` compares two runs that differ in the memory
behind the request, and in what earlier requests left in `argIdxs`. -/

/-- The store without `argIdxs`: what an earlier call has left there makes no difference to a
    later one (`StoreCall.run_visible`). -/
def Store.visible (st : Store) : Store := st.withOffsets fun _ => 0

/-- What a request does: the reply, the toggles and the store. -/
def outcome (r : Option ℤ × Monitor Store) : Option ℤ × Toggle × Toggle × Store :=
  (r.1, r.2.recToggle, r.2.setToggle, r.2.store.visible)

/-- The code selects a handler. -/
def Selects (code : UInt32) : Prop := ∃ c, (plainRequest code [] []).command = some c

/-- **The outcome of a request depends on its own bytes**, whatever else is in the object and
    whatever earlier calls have left in `argIdxs`; and the decision on its password, if a handler
    takes one, on those of the password field. -/
structure Isolated (sha512 : List UInt8 → List UInt8) (code : UInt32) (bytes : List UInt8) :
    Prop where
  stale : ∀ (hashCompressed : List UInt8) (overtake : Bool) (m : Monitor Store) (st : Store),
    m.store.Reached →
    st.Reached → m.store.visible = st.visible → ∀ r : IoctlRequest PathKernel, r.code = code →
    ∀ beyond beyond' : List UInt8, beyond.length = 8192 - klrmInputSize →
    beyond'.length = 8192 - klrmInputSize →
      outcome ((moduleConfig sha512 hashCompressed overtake).devIoctl
        { r with buffer := bytes ++ beyond } m)
        = outcome ((moduleConfig sha512 hashCompressed overtake).devIoctl
          { r with buffer := bytes ++ beyond' } { m with store := st })
  password : Selects code → ∀ (hashCompressed : List UInt8) (overtake : Bool) (crypto : CryptoEnv),
    ∀ rest rest' : List UInt8, rest.length = 8192 - 128 → rest'.length = 8192 - 128 →
      (moduleConfig sha512 hashCompressed overtake).checkPassword crypto (bytes.take 128 ++ rest)
        = (moduleConfig sha512 hashCompressed overtake).checkPassword crypto
          (bytes.take 128 ++ rest')

/-- The password that a handler takes ends in its field, and so does the path that it hands to
    the store, unless the path field alone has it rejected. -/
structure Contained (code : UInt32) (bytes : List UInt8) : Prop where
  password : Selects code → 0 ∈ bytes.take 128
  path : ∀ op, (plainRequest code [] []).command = some (.path op) →
    0 ∈ bytes.drop 128 ∨ Tokens.Settles (bytes.drop 128)

/-- SHA-512 tells apart some two texts that begin with the same 128 bytes. -/
def TellsApart (sha512 : List UInt8 → List UInt8) : Prop :=
  ∀ p : List UInt8, p.length = 128 → ∃ x y : List UInt8, (∀ b ∈ x, b ≠ 0) ∧ (∀ b ∈ y, b ≠ 0) ∧
    x.length < 4096 ∧ y.length < 4096 ∧ (sha512 (p ++ x)).take 64 ≠ (sha512 (p ++ y)).take 64

/-! ## Stores that requests lead to

The stores that occur are those that requests lead to from the empty one, and the offsets in them
are in range. -/

/-- What a search relies on. -/
structure Store.Ready (st : Store) : Prop where
  offset : st.argIdxs 0 ≤ 1
  named : st.trie.Named

namespace StoreCall

variable {c : StoreCall} {st st' : Store} {p p' : Phase}

lemma tokeniseStep_ready (h : st.Ready) (hstep : c.tokeniseStep st = (p', st')) : st'.Ready := by
  obtain ⟨idx, hidx, heq⟩ := Requests.tokeniseStep_eq c st h.offset
  obtain ⟨-, rfl⟩ := Prod.mk.inj (heq.symm.trans hstep)
  exact ⟨hidx, h.named⟩

/-- No step of a request unmakes that, disturbed or not. -/
lemma next_ready (h : st.Ready) (hnext : c.next st p = some (p', st')) : st'.Ready := by
  cases p with
  | entered =>
      obtain ⟨-, rfl⟩ := Prod.mk.inj (Option.some.inj hnext)
      exact h
  | resolved =>
      unfold next at hnext
      cases hop : c.op with
      | add =>
          rw [hop] at hnext
          exact tokeniseStep_ready h (Option.some.inj hnext)
      | rm =>
          rw [hop] at hnext
          exact tokeniseStep_ready h (Option.some.inj hnext)
      | check =>
          rw [hop] at hnext
          obtain ⟨-, rfl⟩ := Prod.mk.inj (Option.some.inj hnext)
          exact h
  | looked => exact tokeniseStep_ready h (Option.some.inj hnext)
  | tokenised j buf =>
      rw [next] at hnext
      cases hrun : st.locked (c.underLock buf j st) with
      | error stop =>
          rw [hrun] at hnext
          cases hnext
      | ok r =>
          rw [hrun] at hnext
          obtain ⟨-, rfl⟩ := Prod.mk.inj (Option.some.inj hnext)
          obtain ⟨hnamed, hoffset⟩ := underLock_leaves h.named (Store.locked_run hrun)
          exact ⟨by rw [hoffset]; exact h.offset, hnamed⟩
  | returned ret => cases hnext

end StoreCall

lemma Store.ready_setup (root : Addr) : (Store.setup root).Ready := by
  obtain ⟨hoffset, hnamed⟩ := Store.ready_of_alone (.nil (Store.setup root))
  exact ⟨hoffset, hnamed⟩

lemma Store.Reached.ready {st : Store} (h : st.Reached) : st.Ready := by
  obtain ⟨root, calls, labels, s, hrun, rfl⟩ := h
  refine hrun.invariant (P := fun s => s.store.Ready) ?_ (Store.ready_setup root)
  rintro s (_ | t) s' hready hstep
  · obtain rfl := hstep
    exact ⟨hready.offset, hready.named⟩
  · obtain ⟨r, hnext, rfl⟩ := Option.map_eq_some_iff.mp hstep
    exact StoreCall.next_ready hready hnext

/-! ## What a store call reads

Of `argIdxs` it reads only what its own `process_path` has written, and of the memory behind the
path nothing, if the path ends in its field or is rejected for what the field holds. -/

namespace StoreCall

variable {c : StoreCall} {st : Store}

lemma not_found_of_unresolved (h : c.env.decree = none) : ¬ c.Found st := by
  rintro ⟨-, hlook⟩
  simp [Store.lookupInode, h] at hlook

/-- A call for a path that is not resolved. -/
lemma run_unresolved (h : c.env.decree = none) : c.run st =
    match st.tokenise c.pathName with
    | (none, _, st) => .ok (1, st)
    | (some j, buf, st) => st.locked (c.underLock buf j st) := by
  have hexamines : c.env.examinated c.pathName = c.pathName := by
    rw [StoreEnv.examinated, h, Option.elim_none]
  have hparts := run_parts (show ¬ c.Found st from not_found_of_unresolved h)
  rw [hexamines] at hparts
  exact hparts

/-- What a call returns and leaves is decided by the components that it finds. -/
lemma run_same {op : StoreOp} {env : StoreEnv} {pathName pathName' : List UInt8} {idx idx' : ℕ → ℕ}
    (names : List Name) (hnamed : st.trie.Named) (hidx : idx 0 ≤ 1) (hidx' : idx' 0 ≤ 1)
    (hsame : (Tokens.processPath ⟨env.examinated pathName, idx⟩).1
      = (Tokens.processPath ⟨env.examinated pathName', idx'⟩).1)
    (hcomponents : ∀ j, (Tokens.processPath ⟨env.examinated pathName, idx⟩).1 = some j →
      (Tokens.processPath ⟨env.examinated pathName, idx⟩).2.components j
        = (Tokens.processPath ⟨env.examinated pathName', idx'⟩).2.components j) :
    (((⟨op, env, pathName, names⟩ : StoreCall).run (st.withOffsets idx)).map fun r =>
      (r.1, r.2.visible))
        = ((⟨op, env, pathName', names⟩ : StoreCall).run (st.withOffsets idx')).map fun r =>
      (r.1, r.2.visible) := by
  by_cases hfound : Found ⟨op, env, pathName, names⟩ st
  · rw [run_found (show Found ⟨op, env, pathName, names⟩ (st.withOffsets idx) from hfound),
      run_found (show Found ⟨op, env, pathName', names⟩ (st.withOffsets idx') from hfound)]
    rfl
  · rw [run_parts (show ¬ Found ⟨op, env, pathName, names⟩ (st.withOffsets idx) from hfound),
      run_parts (show ¬ Found ⟨op, env, pathName', names⟩ (st.withOffsets idx') from hfound)]
    simp only [Store.tokenise, Store.withOffsets]
    cases hr : Tokens.processPath ⟨env.examinated pathName, idx⟩ with
    | mk r t =>
        cases hr' : Tokens.processPath ⟨env.examinated pathName', idx'⟩ with
        | mk r' t' =>
            rw [hr, hr'] at hsame hcomponents
            dsimp only at hsame
            subst hsame
            cases r with
            | none => rfl
            | some j =>
                have hspells := (Tokens.processPath_spells hidx hr).2
                have hspells' := (Tokens.processPath_spells hidx' hr').2
                rw [← hcomponents j rfl] at hspells'
                have hcongr := underLock_congr ⟨op, env, pathName, names⟩ hnamed hspells hspells'
                rw [Tokens.length_components] at hcongr
                dsimp only [Store.locked]
                split_ifs
                · rfl
                · refine Eq.trans ?_ (congrArg _ hcongr.symm)
                  change Except.map _ (underLock _ t.buf j (st.withOffsets t.argIdxs)) = _
                  cases underLock ⟨op, env, pathName, names⟩ t.buf j
                    (st.withOffsets t.argIdxs) <;> rfl

/-- The memory behind the terminator does not decide. -/
lemma run_behind (op : StoreOp) (env : StoreEnv) {path : List UInt8} (h : st.Ready)
    (hnul : ∀ b ∈ path, b ≠ 0) (beyond beyond' : List UInt8) (names : List Name) :
    (((⟨op, env, path ++ 0 :: beyond, names⟩ : StoreCall).run st).map fun r => (r.1, r.2.visible)) =
      ((⟨op, env, path ++ 0 :: beyond', names⟩ : StoreCall).run st).map fun r =>
      (r.1, r.2.visible) := by
  cases hdecree : env.decree with
  | none =>
      have hexamines : ∀ pathName, env.examinated pathName = pathName := by
        intro pathName
        rw [StoreEnv.examinated, hdecree, Option.elim_none]
      obtain ⟨hsame, hcomponents⟩ :=
        Tokens.processPath_behind hnul beyond beyond' st.argIdxs st.argIdxs
      rw [← hexamines (path ++ 0 :: beyond), ← hexamines (path ++ 0 :: beyond')]
        at hsame hcomponents
      exact run_same names h.named h.offset h.offset hsame hcomponents
  | some d =>
      have hexamines : env.examinated (path ++ 0 :: beyond)
          = env.examinated (path ++ 0 :: beyond') := by
        rw [StoreEnv.examinated, StoreEnv.examinated, hdecree, Option.elim_some, Option.elim_some]
      refine run_same names h.named h.offset h.offset (by rw [hexamines]) fun j _ => ?_
      rw [hexamines]

/-- Nor do the offsets that earlier calls have left. -/
lemma run_visible {st' : Store} (c : StoreCall) (h : st.Ready) (h' : st'.Ready)
    (hsame : st.visible = st'.visible) :
    ((c.run st).map fun r => (r.1, r.2.visible)) = (c.run st').map fun r => (r.1, r.2.visible) := by
  obtain ⟨hnone, -, hcomponents⟩ :=
    Tokens.processPath_congr (c.env.examinated c.pathName) st.argIdxs st'.argIdxs
  have hst' : st' = st.withOffsets st'.argIdxs := by
    calc st' = st'.visible.withOffsets st'.argIdxs := rfl
      _ = st.withOffsets st'.argIdxs := by rw [← hsame]; rfl
  conv_rhs => rw [hst']
  exact run_same c.path h.named h.offset h'.offset hnone hcomponents

end StoreCall

namespace Store

variable {st : Store} {op : PathOp} {kernel : PathKernel} {path field : List UInt8}

/-- A store call whose path the tokeniser rejects. -/
lemma serve_rejected (hdecree : (kernel.answer (cString path)).decree = none)
    (hrejects : (Tokens.processPath ⟨path, st.argIdxs⟩).1 = none) :
    ∃ idx, st.serve op path kernel = (some 1, st.withOffsets idx) := by
  refine ⟨(Tokens.processPath ⟨path, st.argIdxs⟩).2.argIdxs, ?_⟩
  rw [serve, StoreCall.run_unresolved hdecree]
  simp only [tokenise, hrejects]
  rfl

/-- A store call that finds the lock held. -/
lemma serve_waits (hdecree : (kernel.answer (cString path)).decree = none)
    (haccepts : (Tokens.processPath ⟨path, st.argIdxs⟩).1 ≠ none) (hlock : st.storeLock = true) :
    st.serve op path kernel = (none, st) := by
  obtain ⟨j, hj⟩ := Option.ne_none_iff_exists'.mp haccepts
  rw [serve, StoreCall.run_unresolved hdecree]
  simp only [tokenise, hj, locked, if_pos hlock]

/-- A store call on two memories and two stores that its body does not tell apart. -/
lemma serve_congr {st' : Store} {path' : List UInt8} (hvisible : st.visible = st'.visible)
    (hname : cString path = cString path')
    (hrun : (((⟨op.storeOp, kernel.answer (cString path), path, []⟩ : StoreCall).run st).map
      fun r => (r.1, r.2.visible))
      = ((⟨op.storeOp, kernel.answer (cString path), path', []⟩ : StoreCall).run st').map fun r =>
      (r.1, r.2.visible)) :
    (st.serve op path kernel).1 = (st'.serve op path' kernel).1 ∧
      (st.serve op path kernel).2.visible = (st'.serve op path' kernel).2.visible := by
  rw [serve, serve, ← hname]
  revert hrun
  generalize StoreCall.run _ st = run
  generalize StoreCall.run _ st' = run'
  intro hrun
  cases run with
  | error stop =>
      cases run' with
      | error stop' => exact ⟨rfl, hvisible⟩
      | ok r' => cases hrun
  | ok r =>
      cases run' with
      | error stop' => cases hrun
      | ok r' =>
          obtain ⟨hret, hstore⟩ := Prod.mk.inj (Except.ok.inj hrun)
          exact ⟨congrArg some hret, hstore⟩

/-- **A store call does not see what earlier calls have left in `argIdxs`.** -/
lemma serve_visible {st' : Store} (h : st.Ready) (h' : st'.Ready)
    (hvisible : st.visible = st'.visible) :
    (st.serve op path kernel).1 = (st'.serve op path kernel).1 ∧
      (st.serve op path kernel).2.visible = (st'.serve op path kernel).2.visible :=
  serve_congr hvisible rfl (StoreCall.run_visible _ h h' hvisible)

/-- **A store call does not see what is behind its field** when the path ends in it. -/
lemma serve_terminated (h : st.Ready) (hnul : 0 ∈ field) (beyond beyond' : List UInt8) :
    (st.serve op (field ++ beyond) kernel).1 = (st.serve op (field ++ beyond') kernel).1 ∧
      (st.serve op (field ++ beyond) kernel).2.visible
        = (st.serve op (field ++ beyond') kernel).2.visible := by
  obtain ⟨rest, hfield⟩ := exists_terminator hnul
  have hchars : ∀ b ∈ cString field, b ≠ 0 := cString_ne_zero
  have hrun :=
    StoreCall.run_behind op.storeOp (kernel.answer (cString field)) h hchars (rest ++ beyond)
    (rest ++ beyond') []
  rw [← List.cons_append, ← List.cons_append, ← List.append_assoc, ← List.append_assoc,
    ← hfield] at hrun
  have hname : ∀ more, cString (field ++ more) = cString field := cString_append_of_mem hnul
  exact serve_congr rfl (by rw [hname, hname]) (by rw [hname]; exact hrun)

/-- Nor when the field alone has the path rejected. -/
lemma serve_settled (hlen : field.length = 4096) (hnul : 0 ∉ field) (h : Tokens.Settles field)
    (beyond : List UInt8) :
    ∃ idx, st.serve op (field ++ beyond) kernel = (some 1, st.withOffsets idx) := by
  have hnul' : ∀ b ∈ field, b ≠ 0 := fun b hb hzero => hnul (hzero ▸ hb)
  refine serve_rejected (kernel.tooLong _ ?_) (h.rejects ?_ hnul' beyond _)
  · rw [cString_append hnul', List.length_append, hlen]
    omega
  · rintro rfl
    simp at hlen

end Store

/-! ## Requests whose strings end in their fields

The direction from the condition: handler by handler, each string that is taken ends in its field,
and two runs then see the same strings. -/

/-- No word that a toggle is set to fills the path field. -/
lemma parseToggle_beyond {field : List UInt8} (hlen : field.length = 4096)
    (beyond beyond' : List UInt8) :
    parseToggle (field ++ beyond) = parseToggle (field ++ beyond') := by
  by_cases hnul : 0 ∈ field
  · rw [parseToggle, parseToggle, cString_append_of_mem hnul, cString_append_of_mem hnul]
  · have hnone : ∀ more, parseToggle (field ++ more) = none := by
      intro more
      have hlong : 4096 ≤ (cString (field ++ more)).length := by
        rw [cString_append fun b hb hzero => hnul (hzero ▸ hb), List.length_append, hlen]
        omega
      rw [parseToggle, if_neg, if_neg]
      · intro heq
        rw [heq] at hlong
        simp at hlong
      · intro heq
        rw [heq] at hlong
        simp at hlong
    rw [hnone, hnone]

/-- What `dev_ioctl` does with a request is decided by its code. -/
lemma command_of_code {ω : Type*} {r : IoctlRequest ω} {c : Command} (h : r.command = some c) :
    (plainRequest r.code [] []).command = some c := by
  obtain ⟨code, buffer, allocOk, copyOk, crypto, world⟩ := r
  unfold IoctlRequest.command at h ⊢
  cases allocOk with
  | false => cases h
  | true =>
      cases copyOk with
      | false =>
          have hnone :
            (if (code &&& ~~~codeMask).toNat ≠ klrmInputSize then none else none) = some c := h
          rw [ite_self] at hnone
          cases hnone
      | true => exact h

section Outcome

variable {sha512 : List UInt8 → List UInt8} {hashCompressed : List UInt8} {overtake : Bool}
  {m : Monitor Store} {r : IoctlRequest PathKernel} {b b' : List UInt8}

lemma outcome_congr {ret : Option ℤ} {m m' : Monitor Store} (hrec : m.recToggle = m'.recToggle)
    (hset : m.setToggle = m'.setToggle) (hvisible : m.store.visible = m'.store.visible) :
    outcome (ret, m) = outcome (ret, m') := by
  simp only [outcome, hrec, hset, hvisible]

/-- A handler on two buffers that begin with strings it cannot tell apart, and on two stores that
    differ in `argIdxs`. -/
lemma handle_outcome {c : Command} {st : Store} (hvisible : m.store.visible = st.visible)
    (hpassword : (moduleConfig sha512 hashCompressed overtake).checkPassword r.crypto b
      = (moduleConfig sha512 hashCompressed overtake).checkPassword r.crypto b')
    (htoggle : parseToggle (b.drop 128) = parseToggle (b'.drop 128))
    (hserve : ∀ op, c = .path op →
      (m.store.serve op (b.drop 128) r.world).1 = (st.serve op (b'.drop 128) r.world).1 ∧
        (m.store.serve op (b.drop 128) r.world).2.visible
          = (st.serve op (b'.drop 128) r.world).2.visible) :
    outcome ((moduleConfig sha512 hashCompressed overtake).handle { r with buffer := b } m c)
      = outcome ((moduleConfig sha512 hashCompressed overtake).handle { r with buffer := b' }
        { m with store := st } c) := by
  generalize hd : (moduleConfig sha512 hashCompressed overtake).checkPassword r.crypto b
      = decision at hpassword
  cases c with
  | path op =>
      obtain ⟨hreply, hstore⟩ := hserve op rfl
      have henter : (moduleConfig sha512 hashCompressed overtake).stateMachineEnterRecOn
          { m with store := st }
          = (moduleConfig sha512 hashCompressed overtake).stateMachineEnterRecOn m := rfl
      simp only [Config.handle, Config.klrmPath, IoctlRequest.password, IoctlRequest.path, hd,
        ← hpassword, henter]
      cases (moduleConfig sha512 hashCompressed overtake).stateMachineEnterRecOn m with
      | none => exact outcome_congr rfl rfl hvisible
      | some e =>
          obtain ⟨_ | _, sem⟩ := e
          · exact outcome_congr rfl rfl hvisible
          · dsimp only [moduleConfig]
            split_ifs
            · exact outcome_congr rfl rfl hvisible
            · revert hreply hstore
              generalize m.store.serve op (b.drop 128) r.world = s
              generalize st.serve op (b'.drop 128) r.world = s'
              obtain ⟨ret, store⟩ := s
              obtain ⟨ret', store'⟩ := s'
              rintro rfl hstore
              cases ret with
              | none => exact outcome_congr rfl rfl hstore
              | some ret => exact outcome_congr rfl rfl hstore
  | set =>
      simp only [Config.handle, Config.klrmSet, IoctlRequest.password, IoctlRequest.path, hd,
        ← hpassword, htoggle]
      split_ifs
      · exact outcome_congr rfl rfl hvisible
      · cases parseToggle (b'.drop 128) with
        | none => exact outcome_congr rfl rfl hvisible
        | some t =>
            dsimp only
            cases m.setSem.downWrite with
            | none => exact outcome_congr rfl rfl hvisible
            | some sem => exact outcome_congr rfl rfl hvisible
  | switchRec =>
      simp only [Config.handle, Config.klrmRec, IoctlRequest.password, IoctlRequest.path, hd,
        ← hpassword, htoggle]
      split_ifs
      · exact outcome_congr rfl rfl hvisible
      · cases parseToggle (b'.drop 128) with
        | none => exact outcome_congr rfl rfl hvisible
        | some t =>
            dsimp only
            cases m.recSem.downWrite with
            | none => exact outcome_congr rfl rfl hvisible
            | some sem => exact outcome_congr rfl rfl hvisible

end Outcome

lemma Config.checkPassword_append {σ ω : Type*} (cfg : Config σ ω) {password : List UInt8}
    (h : 0 ∈ password) (crypto : CryptoEnv) (rest : List UInt8) :
    cfg.checkPassword crypto (password ++ rest) = cfg.checkPassword crypto password := by
  simp only [checkPassword, cString_append_of_mem h]

section Requests

variable {sha512 : List UInt8 → List UInt8} {code : UInt32} {bytes : List UInt8}

lemma drop_path (hlen : bytes.length = klrmInputSize) (more : List UInt8) :
    (bytes ++ more).drop 128 = bytes.drop 128 ++ more :=
  List.drop_append_of_le_length (hlen ▸ Nat.le_add_right 128 4096)

lemma length_path (hlen : bytes.length = klrmInputSize) : (bytes.drop 128).length = 4096 := by
  rw [List.length_drop, hlen, klrmInputSize]

/-- **A request whose strings end in their fields** is not told apart by what the object held. -/
lemma Contained.isolated (hlen : bytes.length = klrmInputSize) (h : Contained code bytes) :
    Isolated sha512 code bytes where
  stale := by
    rintro hashCompressed overtake m st hm hst hvisible r rfl beyond beyond' - -
    rcases (moduleConfig sha512 hashCompressed overtake).devIoctl_buffer_cases r
      with ⟨-, ret, hrun⟩ | ⟨c, hc, hrun⟩
    · rw [hrun, hrun]
      exact outcome_congr rfl rfl hvisible
    · rw [hrun, hrun]
      have hmem : 0 ∈ bytes := List.mem_of_mem_take (h.password ⟨c, command_of_code hc⟩)
      refine handle_outcome hvisible ?_ ?_ fun op hop => ?_
      · rw [Config.checkPassword_append _ hmem, Config.checkPassword_append _ hmem]
      · rw [drop_path hlen, drop_path hlen]
        exact parseToggle_beyond (length_path hlen) beyond beyond'
      · subst hop
        rw [drop_path hlen, drop_path hlen]
        by_cases hnul : 0 ∈ bytes.drop 128
        · obtain ⟨hreply, hstore⟩ := Store.serve_terminated hm.ready hnul beyond beyond'
          obtain ⟨hreply', hstore'⟩ := Store.serve_visible hm.ready hst.ready hvisible
          exact ⟨hreply.trans hreply', hstore.trans hstore'⟩
        · have hsettles := (h.path op (command_of_code hc)).resolve_left hnul
          obtain ⟨idx, hserve⟩ := Store.serve_settled (length_path hlen) hnul hsettles beyond
          obtain ⟨idx', hserve'⟩ := Store.serve_settled (length_path hlen) hnul hsettles beyond'
          rw [hserve, hserve']
          exact ⟨rfl, hvisible⟩
  password := by
    intro hselects hashCompressed overtake crypto rest rest' _ _
    rw [Config.checkPassword_append _ (h.password hselects),
      Config.checkPassword_append _ (h.password hselects)]

/-! ## Requests whose strings do not

The other direction needs two memories that are told apart.  For the password it is a digest
function that tells strings apart; for the path, a store in which what is behind the field decides
between a rejection and a reply. -/

/-- A password that fills its field is continued by the bytes behind it. -/
lemma Isolated.password_ends (htells : TellsApart sha512) (hlen : bytes.length = klrmInputSize)
    (h : Isolated sha512 code bytes) (hselects : Selects code) : 0 ∈ bytes.take 128 := by
  by_contra hnul
  have hnul' : ∀ b ∈ bytes.take 128, b ≠ 0 := fun b hb hzero => hnul (hzero ▸ hb)
  have hfield : (bytes.take 128).length = 128 := by
    rw [List.length_take, hlen, klrmInputSize]
    omega
  obtain ⟨x, y, hx, hy, hxlen, hylen, hne⟩ := htells (bytes.take 128) hfield
  -- the object from the password on, with `x` and with `y` behind the field
  have hpad : ∀ x : List UInt8, x.length < 4096 →
      (x ++ 0 :: List.replicate (8192 - 128 - x.length - 1) 0).length = 8192 - 128 := by
    intro x hx
    simp only [List.length_append, List.length_cons, List.length_replicate]
    omega
  have hread : ∀ x : List UInt8, (∀ b ∈ x, b ≠ 0) →
      cString (bytes.take 128 ++ (x ++ 0 :: List.replicate (8192 - 128 - x.length - 1) 0))
        = bytes.take 128 ++ x := by
    intro x hx
    rw [cString_append hnul', cString_append_zero hx]
  have hsame :=
    h.password hselects (sha512 (bytes.take 128 ++ x)) false ⟨true, 0, 0, 0⟩ _ _ (hpad x hxlen)
    (hpad y hylen)
  simp only [Config.checkPassword, moduleConfig, hread x hx, hread y hy] at hsame
  simp [hne.symm] at hsame

/-- A store whose lock is held. -/
lemma exists_locked : ∃ st : Store, st.Reached ∧ st.storeLock = true :=
  ⟨_, ⟨0, fun _ => unresolvedCall .add [47, 97, 0] [1], [some 0, some 0, some 0], _,
    .cons rfl (.cons rfl (.cons rfl (.nil _))), rfl⟩, rfl⟩

/-- With its password accepted and `rec_sem` free, a path request returns what the store call
    does. -/
lemma klrmPath_reply {hashCompressed : List UInt8} {overtake : Bool} {op : PathOp}
    {r : IoctlRequest PathKernel}
    (haccepted : (moduleConfig sha512 hashCompressed overtake).checkPassword r.crypto r.password
        = 0) (st : Store) :
    ((moduleConfig sha512 hashCompressed overtake).klrmPath op r ⟨RwSem.initial, RwSem.initial,
    .on, .on, st⟩).1
      = (st.serve op r.path r.world).1 := by
  have henter : (moduleConfig sha512 hashCompressed overtake).stateMachineEnterRecOn
      (⟨RwSem.initial, RwSem.initial, .on, .on, st⟩ : Monitor Store)
        = some (true, RwSem.initial.held 1) := by
    simp [Config.stateMachineEnterRecOn, RwSem.downRead, RwSem.initial, RwSem.held]
  simp only [Config.klrmPath, henter, haccepted, ne_eq, not_true_eq_false, if_false]
  dsimp only [moduleConfig]
  cases st.serve op r.path r.world with
  | mk ret store => cases ret <;> rfl

/-- A kernel that resolves nothing. -/
def resolvesNothing : PathKernel where
  answer := fun _ => (unresolvedCall .check [] []).env
  tooLong := fun _ _ => rfl

/-- A path that fills its field is continued by what the object held: with enough slashes it is
    rejected, and with one more letter it is accepted, unless the field alone has it rejected.
    The store call then waits for a lock that is held. -/
lemma Isolated.path_ends (hlen : bytes.length = klrmInputSize) (h : Isolated sha512 code bytes)
    (hpassword : 0 ∈ bytes.take 128) {op : PathOp}
    (hop : (plainRequest code [] []).command = some (.path op)) :
    0 ∈ bytes.drop 128 ∨ Tokens.Settles (bytes.drop 128) := by
  by_contra hfield
  rw [not_or] at hfield
  obtain ⟨hnul, hopen⟩ := hfield
  have hnul' : ∀ b ∈ bytes.drop 128, b ≠ 0 := fun b hb hzero => hnul (hzero ▸ hb)
  obtain ⟨st, hreached, hlock⟩ := exists_locked
  let m : Monitor Store := ⟨RwSem.initial, RwSem.initial, .on, .on, st⟩
  let cfg := moduleConfig sha512 (sha512 (cString bytes)) false
  let r : IoctlRequest PathKernel := ⟨code, [], true, true, ⟨true, 0, 0, 0⟩, resolvesNothing⟩
  have haccepted : ∀ beyond, cfg.checkPassword ⟨true, 0, 0, 0⟩ (bytes ++ beyond) = 0 := by
    intro beyond
    rw [Config.checkPassword_append _ (List.mem_of_mem_take hpassword)]
    simp [Config.checkPassword, cfg, moduleConfig]
  have hreply : ∀ beyond, (outcome (cfg.devIoctl { r with buffer := bytes ++ beyond } m)).1
      = (st.serve op (bytes.drop 128 ++ beyond) resolvesNothing).1 := by
    intro beyond
    rcases cfg.devIoctl_buffer_cases r with ⟨hnone, -⟩ | ⟨c, hc, hrun⟩
    · rw [show r.command = some (.path op) from hop] at hnone
      cases hnone
    · rw [show r.command = some (.path op) from hop] at hc
      obtain rfl := Option.some.inj hc
      rw [hrun, outcome, Config.handle, klrmPath_reply (haccepted beyond), IoctlRequest.path,
        drop_path hlen]
  have hslashes : (List.replicate (argsSize + 1) (47 : UInt8) ++
      List.replicate (8192 - klrmInputSize - (argsSize + 1)) 0).length = 8192 - klrmInputSize := by
    rw [List.length_append, List.length_replicate, List.length_replicate, klrmInputSize, argsSize]
  have hletter : ((97 : UInt8) :: 0 :: List.replicate (8192 - klrmInputSize - 2) 0).length
      = 8192 - klrmInputSize := by
    rw [List.length_cons, List.length_cons, List.length_replicate, klrmInputSize]
  obtain ⟨idx, hrejected⟩ : ∃ idx, st.serve op _ resolvesNothing = (some 1, st.withOffsets idx) :=
    Store.serve_rejected rfl
      (Tokens.exists_rejected hnul'
        (List.replicate (8192 - klrmInputSize - (argsSize + 1)) 0) st.argIdxs)
  have hwaits : st.serve op _ resolvesNothing = (none, st) :=
    Store.serve_waits rfl
      (Tokens.exists_accepted hopen hnul' (List.replicate (8192 - klrmInputSize - 2) 0) st.argIdxs)
      hlock
  have hsame := congrArg Prod.fst
    (h.stale (sha512 (cString bytes)) false m st hreached hreached rfl r rfl _ _ hslashes hletter)
  rw [hreply, hreply, hrejected, hwaits] at hsame
  cases hsame

end Requests

/-- **When the outcome of a request depends on its own bytes**: exactly when its password ends in
    the password field, if its code selects a handler, and, for the three path requests, its path
    ends in the path field or is rejected for what stands there. -/
theorem isolated_iff {sha512 : List UInt8 → List UInt8} (htells : TellsApart sha512) (code : UInt32)
    {bytes : List UInt8} (hlen : bytes.length = klrmInputSize) :
    Isolated sha512 code bytes ↔ Contained code bytes := by
  refine ⟨fun h => ?_, fun h => h.isolated hlen⟩
  have hpassword := h.password_ends htells hlen
  exact ⟨hpassword, fun op hop => h.path_ends hlen (hpassword ⟨_, hop⟩) hop⟩

/-- A digest that tells texts apart by their ends. -/
def tailDigest (text : List UInt8) : List UInt8 := (text.reverse ++ List.replicate 64 0).take 64

lemma tellsApart_tailDigest : TellsApart tailDigest := by
  refine fun p _ => ⟨[1], [2], by simp, by simp, by simp, by simp, fun heq => ?_⟩
  have hhead := congrArg List.head? heq
  simp [tailDigest] at hhead

/-- The bytes of a request with this password and path. -/
def requestBytes (password path : List UInt8) : List UInt8 :=
  password ++ List.replicate (128 - password.length) 0 ++
    (path ++ List.replicate (4096 - path.length) 0)

lemma length_requestBytes {password path : List UInt8} (hpassword : password.length ≤ 128)
    (hpath : path.length ≤ 4096) : (requestBytes password path).length = klrmInputSize := by
  simp only [requestBytes, List.length_append, List.length_replicate, klrmInputSize]
  omega

/-- The request `rec on` with the password `s`. -/
theorem isolated_iff_rec :
    Isolated tailDigest 0x80001080 (requestBytes [115] [111, 110]) ↔
      Contained 0x80001080 (requestBytes [115] [111, 110]) :=
  isolated_iff tellsApart_tailDigest _ (length_requestBytes (by simp) (by simp))

lemma not_settles_letters : ¬ Tokens.Settles (47 :: List.replicate 4095 97) := by
  have hslash : ∀ c ∈ [] ++ [List.replicate 4095 (97 : UInt8)], ∀ b ∈ c, b ≠ 47 := by
    intro c hc b hb
    rw [List.nil_append, List.mem_singleton] at hc
    rw [hc] at hb
    rw [List.eq_of_mem_replicate hb]
    decide
  have hfield : (47 : UInt8) :: List.replicate 4095 97
      = joined 47 ([] ++ [List.replicate 4095 97]) := by
    rw [List.nil_append, joined_cons, joined_nil, List.append_nil]
  rw [hfield, Tokens.Settles, Tokens.closedComponents_joined hslash, Tokens.count_joined hslash]
  rintro (hhead | hcount | ⟨c, hc, -⟩)
  · exact hhead rfl
  · exact absurd hcount (by decide)
  · cases hc

/-- Two requests that the object continues: a password of 128 letters, and an empty password with
    a path that fills its field. -/
theorem not_isolated_unterminated :
    ¬ Isolated tailDigest 0x80001080 (requestBytes (List.replicate 128 97) [111, 110]) ∧
      ¬ Isolated tailDigest 0x00001080 (requestBytes [] (47 :: List.replicate 4095 97)) := by
  constructor
  · intro h
    have hnul := h.password_ends tellsApart_tailDigest (length_requestBytes (by simp) (by simp))
      ⟨.switchRec, by decide⟩
    rw [requestBytes, List.length_replicate, Nat.sub_self, List.replicate_zero, List.append_nil,
      List.take_left' List.length_replicate] at hnul
    exact absurd (List.eq_of_mem_replicate hnul) (by decide)
  · intro h
    have hbytes : requestBytes [] (47 :: List.replicate 4095 97)
        = List.replicate 128 0 ++ (47 :: List.replicate 4095 97) := by
      rw [requestBytes, List.length_cons, List.length_replicate, Nat.sub_self, List.replicate_zero,
        List.append_nil]
      rfl
    have hpassword : 0 ∈ (requestBytes [] (47 :: List.replicate 4095 97)).take 128 := by
      rw [hbytes, List.take_left' List.length_replicate]
      exact List.mem_replicate.mpr ⟨by decide, rfl⟩
    have hempty : ([] : List UInt8).length ≤ 128 := Nat.zero_le 128
    have hfull : (47 :: List.replicate 4095 (97 : UInt8)).length ≤ 4096 := by
      rw [List.length_cons, List.length_replicate]
    have hpath := h.path_ends (length_requestBytes hempty hfull) hpassword
      (show (plainRequest 0x00001080 [] []).command = some (.path .add) by decide)
    rw [hbytes, List.drop_left' List.length_replicate] at hpath
    rcases hpath with hnul | hsettles
    · rcases List.mem_cons.mp hnul with heq | hmem
      · exact absurd heq (by decide)
      · exact absurd (List.eq_of_mem_replicate hmem) (by decide)
    · exact not_settles_letters hsettles

end KLRM
