import FileKLRM.Core.Transition
import FileKLRM.Monitor.Client
import FileKLRM.Monitor.Interference

/-!
# Sessions of the client: `user/client.c`

`main` of `klrmctl` reads a password from stdin, copies its second argument behind it and makes at
most one `ioctl`.  The test of `argc` only prints.  `rec` asks for a word that is `on` and `off`
at once, and what was meant to be `set` is a second test for `check`; so the client sends paths
only, and never a new value for a toggle.

A session is any number of client runs against one monitor.  It does what a store behind a
password does (`GuardedStep`), the toggles stay, and no request waits for a semaphore.
-/

namespace KLRM

variable {σ ω : Type*}

/-! ## `main`

The arguments are tested in the order of the source, and every `exit` is an end of its own
(`ClientEnd`). -/

/-- What `main` is started with, and what the system answers. -/
structure ClientEnv where
  argv : List (List UInt8)
  strings : ∀ arg ∈ argv, ∀ b ∈ arg, b ≠ 0
  stdin : ℕ → Option UInt8
  mallocOk : Bool
  openOk : Bool

/-- `main` returns, or does something that C leaves open: it uses `NULL`, or stores behind the
    `klrm_input`. -/
inductive ClientEnd
  | exit (code : ℤ)
  | undefined
deriving DecidableEq, Repr

/-- The end of `main`, and the code and the `klrm_input` of its `ioctl`. -/
structure ClientRun where
  finish : ClientEnd
  request : Option (UInt32 × List UInt8)

/-- `OP | (unsigned int) sizeof(klrm_input)`. -/
def ioctlCode (op : UInt32) : UInt32 := op ||| UInt32.ofNat klrmInputSize

/-- `strcpy(input->path.path, path)`. -/
def copyPath (input path : List UInt8) : List UInt8 :=
  input.take 128 ++ path ++ [0] ++ input.drop (128 + path.length + 1)

/-- `main`. -/
def clientMain (env : ClientEnv) : ClientRun :=
  if !env.mallocOk then ⟨.undefined, none⟩
  else
    match (readPassword env.stdin).finish with
    | .eof => ⟨.exit 1, none⟩
    | .overrun => ⟨.undefined, none⟩
    | .done =>
        match env.argv with
        | _ :: command :: path :: _ =>
            if klrmInputSize < 128 + path.length + 1 then ⟨.undefined, none⟩
            else
              let input := copyPath (readPassword env.stdin).input path
              let word := cString (input.drop 128)
              if !env.openOk then ⟨.exit 1, none⟩
              else if command = [97, 100, 100] then ⟨.exit 0, some (ioctlCode 0x00000000, input)⟩
              else if command = [114, 109] then ⟨.exit 0, some (ioctlCode 0x20000000, input)⟩
              else if command = [99, 104, 101, 99, 107] then
                ⟨.exit 0, some (ioctlCode 0x40000000, input)⟩
              else if command = [114, 101, 99] then
                if word ≠ [111, 110] ∨ word ≠ [111, 102, 102] then ⟨.exit 1, none⟩
                else ⟨.exit 0, some (ioctlCode 0x80000000, input)⟩
              else if command = [99, 104, 101, 99, 107] then
                if word ≠ [111, 110] ∨ word ≠ [111, 102, 102] then ⟨.exit 1, none⟩
                else ⟨.exit 0, some (ioctlCode 0x60000000, input)⟩
              else ⟨.exit 0, none⟩
        -- `argv[argc]` is `NULL`
        | _ => ⟨.undefined, none⟩

/-! ## What is sent

`ClientEnv.Asks` says in terms of the arguments and of stdin what the user has asked for.  A run
sends a request exactly when something was asked for that `main` can send, and then the one
request for it. -/

/-- What is typed from index `idx` on: `rest` and the newline that ends it, which one at index
    126 does not. -/
def TypedFrom (stdin : ℕ → Option UInt8) : ℕ → List UInt8 → Prop
  | idx, [] => stdin idx = some 10 ∧ idx ≠ 126
  | idx, b :: rest => stdin idx = some b ∧ (b ≠ 10 ∨ idx = 126) ∧ TypedFrom stdin (idx + 1) rest

/-- The word for an operation. -/
def PathOp.word : PathOp → List UInt8
  | add => [97, 100, 100]
  | rm => [114, 109]
  | check => [99, 104, 101, 99, 107]

/-- Its code. -/
def PathOp.code : PathOp → UInt32
  | add => ioctlCode 0x00000000
  | rm => ioctlCode 0x20000000
  | check => ioctlCode 0x40000000

/-- The `klrm_input` with what was typed and the path. -/
def clientInput (line path : List UInt8) : List UInt8 :=
  copyPath (line ++ List.replicate (klrmInputSize - line.length) 0) path

/-- The user asks for an operation on a path and types a line. -/
structure ClientEnv.Asks (env : ClientEnv) (op : PathOp) (line path : List UInt8) : Prop where
  typed : TypedFrom env.stdin 0 line
  line_lt : line.length < klrmInputSize
  argv : ∃ name more, env.argv = name :: op.word :: path :: more
  path_lt : path.length < 4096
  mallocOk : env.mallocOk = true
  openOk : env.openOk = true

section Loop

variable {stdin : ℕ → Option UInt8}

/-- The loop takes the line. -/
lemma readLoop_of_typed {rest : List UInt8} :
    ∀ {before : List UInt8} {room : ℕ}, TypedFrom stdin before.length rest → rest.length < room →
    (readLoop stdin room before.length (before ++ List.replicate room 0)).finish = .done ∧
      (readLoop stdin room before.length (before ++ List.replicate room 0)).input
        = before ++ rest ++ List.replicate (room - rest.length) 0 := by
  induction rest with
  | nil =>
      intro before room htyped hroom
      obtain ⟨room, rfl⟩ : ∃ k, room = k + 1 := ⟨room - 1, by simp at hroom; omega⟩
      obtain ⟨hnewline, hend⟩ := htyped
      simp [readLoop, hnewline, hend, List.replicate_succ]
  | cons b rest ih =>
      intro before room htyped hroom
      obtain ⟨room, rfl⟩ : ∃ k, room = k + 1 := ⟨room - 1, by simp at hroom; omega⟩
      obtain ⟨hbyte, hgoes, hrest⟩ := htyped
      have hgoes' : b ≠ 10 ∨ before.length + 1 = 127 := hgoes.imp_right fun h => by omega
      have hset : (before ++ List.replicate (room + 1) 0).set before.length b
          = before ++ [b] ++ List.replicate room 0 := by
        simp [List.replicate_succ]
      have hlength : before.length + 1 = (before ++ [b]).length := by simp
      rw [hlength] at hrest
      obtain ⟨hfinish, hinput⟩ := ih hrest (by simpa using hroom)
      have hstep : readLoop stdin (room + 1) before.length (before ++ List.replicate (room + 1) 0)
          = (readLoop stdin room (before ++ [b]).length
            (before ++ [b] ++ List.replicate room 0)).after
            before.length := by
        rw [readLoop, hbyte]
        simp only [if_pos hgoes']
        rw [hset, hlength]
      rw [hstep]
      exact ⟨hfinish, by simpa [PasswordRead.after] using hinput⟩

/-- A loop that is done has taken a line. -/
lemma typed_of_readLoop : ∀ {room idx : ℕ} {input : List UInt8},
    (readLoop stdin room idx input).finish = .done → ∃ rest, TypedFrom stdin idx rest ∧
    rest.length < room := by
  intro room
  induction room with
  | zero =>
      intro idx input hdone
      rw [readLoop] at hdone
      cases h : stdin idx <;> simp [h] at hdone
  | succ room ih =>
      intro idx input hdone
      rw [readLoop] at hdone
      cases hread : stdin idx with
      | none => simp [hread] at hdone
      | some b =>
          by_cases hgoes : b ≠ 10 ∨ idx + 1 = 127
          · simp only [hread, if_pos hgoes, PasswordRead.after] at hdone
            obtain ⟨rest, hrest, hlt⟩ := ih hdone
            exact ⟨b :: rest, ⟨hread, hgoes.imp_right fun h => by omega, hrest⟩, by simpa using hlt⟩
          · obtain ⟨hb, hend⟩ := not_or.mp hgoes
            obtain rfl := not_not.mp hb
            exact ⟨[], ⟨hread, by omega⟩, by simp⟩

lemma TypedFrom.unique {idx : ℕ} {line line' : List UInt8} (h : TypedFrom stdin idx line)
    (h' : TypedFrom stdin idx line') : line = line' := by
  induction line generalizing idx line' with
  | nil =>
      cases line' with
      | nil => rfl
      | cons b rest =>
          have hb := Option.some.inj (h.1.symm.trans h'.1)
          exact absurd hb.symm (h'.2.1.resolve_right h.2)
  | cons b rest ih =>
      cases line' with
      | nil =>
          have hb := Option.some.inj (h.1.symm.trans h'.1)
          exact absurd hb (h.2.1.resolve_right h'.2)
      | cons b' rest' =>
          rw [Option.some.inj (h.1.symm.trans h'.1), ih h.2.2 h'.2.2]

end Loop

/-- The whole loop. -/
lemma readPassword_done_iff (stdin : ℕ → Option UInt8) :
    (readPassword stdin).finish = .done ↔ ∃ line, TypedFrom stdin 0 line ∧
    line.length < klrmInputSize :=
  ⟨typed_of_readLoop, fun ⟨_, htyped, hlt⟩ => (@readLoop_of_typed _ _ [] _ htyped hlt).1⟩

lemma readPassword_input {stdin : ℕ → Option UInt8} {line : List UInt8}
    (htyped : TypedFrom stdin 0 line) (hlt : line.length < klrmInputSize) :
    (readPassword stdin).input = line ++ List.replicate (klrmInputSize - line.length) 0 := by
  simpa [readPassword] using (@readLoop_of_typed _ _ [] _ htyped hlt).2

lemma not_both_words (word : List UInt8) : word ≠ [111, 110] ∨ word ≠ [111, 102, 102] := by
  by_cases h : word = [111, 110]
  · rw [h]
    decide
  · exact Or.inl h

/-- Once everything has been read and opened the command decides. -/
lemma clientMain_request {env : ClientEnv} {line name command path : List UInt8}
    {more : List (List UInt8)}
    (hmalloc : env.mallocOk = true) (htyped : TypedFrom env.stdin 0 line)
    (hlt : line.length < klrmInputSize)
    (hargv : env.argv = name :: command :: path :: more) (hpath : path.length < 4096)
    (hopen : env.openOk = true) : (clientMain env).request
        = if command = PathOp.add.word then some (PathOp.add.code, clientInput line path)
      else if command = PathOp.rm.word then some (PathOp.rm.code, clientInput line path)
      else if command = PathOp.check.word then some (PathOp.check.code, clientInput line path)
      else none := by
  have hdone := (readPassword_done_iff env.stdin).mpr ⟨line, htyped, hlt⟩
  have hroom : ¬ klrmInputSize < 128 + path.length + 1 := by
    simp only [klrmInputSize]
    omega
  have hinput : copyPath (readPassword env.stdin).input path = clientInput line path := by
    rw [clientInput, readPassword_input htyped hlt]
  simp only [clientMain, hmalloc, hopen, hdone, hargv, if_neg hroom, hinput, Bool.not_true,
    Bool.false_eq_true, if_false, if_pos (not_both_words _)]
  by_cases hadd : command = PathOp.add.word
  · rw [if_pos hadd, if_pos (show command = [97, 100, 100] from hadd)]
    rfl
  rw [if_neg hadd, if_neg (show command ≠ [97, 100, 100] from hadd)]
  by_cases hrm : command = PathOp.rm.word
  · rw [if_pos hrm, if_pos (show command = [114, 109] from hrm)]
    rfl
  rw [if_neg hrm, if_neg (show command ≠ [114, 109] from hrm)]
  by_cases hcheck : command = PathOp.check.word
  · rw [if_pos hcheck, if_pos (show command = [99, 104, 101, 99, 107] from hcheck)]
    rfl
  · rw [if_neg hcheck, if_neg (show command ≠ [99, 104, 101, 99, 107] from hcheck)]
    split_ifs <;> rfl

/-- **What the client sends**: the path operation that its first argument names, with the typed
    line and its second argument, and nothing else ever. -/
theorem clientMain_request_iff (env : ClientEnv) (code : UInt32) (input : List UInt8) :
    (clientMain env).request = some (code, input) ↔
      ∃ op line path, env.Asks op line path ∧ code = op.code ∧ input = clientInput line path := by
  constructor
  · intro h
    cases hmalloc : env.mallocOk with
    | false => simp [clientMain, hmalloc] at h
    | true =>
    cases hdone : (readPassword env.stdin).finish with
    | eof => simp [clientMain, hmalloc, hdone] at h
    | overrun => simp [clientMain, hmalloc, hdone] at h
    | done =>
    obtain ⟨line, htyped, hlt⟩ := (readPassword_done_iff env.stdin).mp hdone
    rcases hargv : env.argv with _ | ⟨name, _ | ⟨command, _ | ⟨path, more⟩⟩⟩
    · simp [clientMain, hmalloc, hdone, hargv] at h
    · simp [clientMain, hmalloc, hdone, hargv] at h
    · simp [clientMain, hmalloc, hdone, hargv] at h
    · by_cases hroom : klrmInputSize < 128 + path.length + 1
      · simp [clientMain, hmalloc, hdone, hargv, hroom] at h
      have hpath : path.length < 4096 := by
        simp only [klrmInputSize] at hroom
        omega
      cases hopen : env.openOk with
      | false => simp [clientMain, hmalloc, hdone, hargv, hroom, hopen] at h
      | true =>
          have hasks : ∀ op : PathOp, command = op.word → some (op.code, clientInput line path)
              = some (code, input) →
              ∃ op line path, env.Asks op line path ∧ code = op.code ∧
              input = clientInput line path := by
            rintro op rfl hsent
            obtain ⟨rfl, rfl⟩ := Prod.mk.inj (Option.some.inj hsent)
            exact ⟨op, line, path, ⟨htyped, hlt, ⟨name, more, hargv⟩, hpath, hmalloc, hopen⟩, rfl,
              rfl⟩
          rw [clientMain_request hmalloc htyped hlt hargv hpath hopen] at h
          split_ifs at h with hadd hrm hcheck
          · exact hasks .add hadd h
          · exact hasks .rm hrm h
          · exact hasks .check hcheck h
  · rintro ⟨op, line, path, hasks, rfl, rfl⟩
    obtain ⟨name, more, hargv⟩ := hasks.argv
    rw [clientMain_request hasks.mallocOk hasks.typed hasks.line_lt hargv hasks.path_lt
      hasks.openOk]
    cases op <;> rfl

/-! ## What the monitor gets

The two fields of the request are NUL-terminated if the password is short enough, so that the
monitor takes exactly the typed password and the path from them; `GuardedStep` is the store behind
a password that this comes down to. -/

/-- The password that `check_password` takes from the buffer: the path continues a line that
    fills its field. -/
def typedPassword (line path : List UInt8) : List UInt8 :=
  cString (if line.length ≤ 127 then line else line.take 128 ++ path)

lemma cString_cut (buf rest : List UInt8) : cString (buf ++ 0 :: rest) = cString buf := by
  rw [← List.singleton_append, ← List.append_assoc, cString_append_of_mem (by simp),
    cString_concat_zero]

/-- The fields of the `klrm_input`. -/
lemma clientInput_eq {line : List UInt8} (hlt : line.length < klrmInputSize) (path : List UInt8) :
    ∃ field : List UInt8, clientInput line path
        = field ++
          (path ++ 0 :: (line ++ List.replicate (klrmInputSize - line.length) 0).drop
            (128 + path.length + 1)) ∧
      field.length = 128 ∧ ∀ rest, cString (field ++ (path ++ 0 :: rest))
        = typedPassword line path := by
  have hsize : klrmInputSize = 4224 := rfl
  refine ⟨(line ++ List.replicate (klrmInputSize - line.length) 0).take 128, ?_, ?_, fun rest => ?_⟩
  · simp [clientInput, copyPath]
  · rw [List.length_take, List.length_append, List.length_replicate]
    omega
  · unfold typedPassword
    split_ifs with hline
    · obtain ⟨k, hk⟩ : ∃ k, 128 - line.length = k + 1 := ⟨127 - line.length, by omega⟩
      have hfield : (line ++ List.replicate (klrmInputSize - line.length) 0).take 128
          = line ++ 0 :: List.replicate k 0 := by
        rw [List.take_append, List.take_of_length_le (by omega), List.take_replicate,
          min_eq_left (by omega), hk, List.replicate_succ]
      rw [hfield, List.append_assoc, List.cons_append, cString_cut]
    · have hfield :
          (line ++ List.replicate (klrmInputSize - line.length) 0).take 128 = line.take 128 :=
        List.take_append_of_le_length (by omega)
      rw [hfield, ← List.append_assoc, cString_cut]

/-- A client run, and what the kernel answers to its request; `beyond` is what the object of
    `input_cache` holds behind the copied bytes. -/
structure ClientCall (ω : Type*) where
  env : ClientEnv
  allocOk : Bool
  copyOk : Bool
  crypto : CryptoEnv
  world : ω
  beyond : List UInt8

/-- Its `ioctl`. -/
def ClientCall.request (c : ClientCall ω) (code : UInt32) (input : List UInt8) :
    IoctlRequest ω where
  code := code
  buffer := input ++ c.beyond
  allocOk := c.allocOk
  copyOk := c.copyOk
  crypto := c.crypto
  world := c.world

/-- The client runs against the monitor: the reply to its `ioctl`, if it makes one. -/
def Config.serveClient (cfg : Config σ ω) (c : ClientCall ω) (m : Monitor σ) :
    Option (Option ℤ) × Monitor σ :=
  match (clientMain c.env).request with
  | none => (none, m)
  | some (code, input) =>
      let r := cfg.devIoctl (c.request code input) m
      (some r.1, r.2)

/-- The step relation of a session. -/
def ClientStep (cfg : Config σ ω) (m : Monitor σ) (l : ClientCall ω × Option (Option ℤ))
    (m' : Monitor σ) : Prop :=
  cfg.serveClient l.1 m = (l.2, m')

/-- The memory at `input->path`. -/
def ClientCall.pathMemory (c : ClientCall ω) (line path : List UInt8) : List UInt8 :=
  path ++ 0 :: (line ++ List.replicate (klrmInputSize - line.length) 0).drop
    (128 + path.length + 1) ++ c.beyond

/-- **What a session is for**: a store that is reached with the password only, and only while
    `rec` is on. -/
inductive GuardedStep (cfg : Config σ ω) (recToggle : Toggle) : σ →
  ClientCall ω × Option (Option ℤ) → σ → Prop
  | silent {st : σ} {c : ClientCall ω} (nothing : ∀ op line path, ¬ c.env.Asks op line path) :
      GuardedStep cfg recToggle st (c, none) st
  | noMemory {st : σ} {c : ClientCall ω} {op : PathOp} {line path : List UInt8}
      (asks : c.env.Asks op line path)
      (alloc : c.allocOk = false) : GuardedStep cfg recToggle st (c, some (some (-enomem))) st
  | notCopied {st : σ} {c : ClientCall ω} {op : PathOp} {line path : List UInt8}
      (asks : c.env.Asks op line path) (alloc : c.allocOk = true) (copy : c.copyOk = false) :
      GuardedStep cfg recToggle st (c, some (some (-eacces))) st
  | refused {st : σ} {c : ClientCall ω} {op : PathOp} {line path : List UInt8}
      (asks : c.env.Asks op line path)
      (alloc : c.allocOk = true) (copy : c.copyOk = true) (off : recToggle = .off) :
      GuardedStep cfg recToggle st (c, some (some (-ebusy))) st
  | rejected {st : σ} {c : ClientCall ω} {op : PathOp} {line path : List UInt8}
      (asks : c.env.Asks op line path)
      (alloc : c.allocOk = true) (copy : c.copyOk = true) (on : recToggle = .on)
      (fails : cfg.checkPassword c.crypto (typedPassword line path) ≠ 0) :
      GuardedStep cfg recToggle st (c, some (some (-eacces))) st
  | served {st : σ} {c : ClientCall ω} {op : PathOp} {line path : List UInt8}
      (asks : c.env.Asks op line path)
      (alloc : c.allocOk = true) (copy : c.copyOk = true) (on : recToggle = .on)
      (passes : cfg.checkPassword c.crypto (typedPassword line path) = 0) :
      GuardedStep cfg recToggle st (c,
        some (cfg.pathStore op (c.pathMemory line path) c.world st).1)
        (cfg.pathStore op (c.pathMemory line path) c.world st).2

lemma checkPassword_congr (cfg : Config σ ω) (crypto : CryptoEnv) {a b : List UInt8}
    (h : cString a = cString b) : cfg.checkPassword crypto a = cfg.checkPassword crypto b := by
  simp only [Config.checkPassword, h]

lemma cString_typedPassword (line path : List UInt8) :
    cString (typedPassword line path) = typedPassword line path := by
  simpa [typedPassword] using cString_append cString_ne_zero (s := typedPassword line path) []

/-- Nobody holds the semaphore for writing, and a reader gets it. -/
def Config.Free (cfg : Config σ ω) (m : Monitor σ) : Prop :=
  m.recSem.writer = false ∧ (m.recSem.waiting = 0 ∨ cfg.overtake = true)

lemma Config.Free.downRead {cfg : Config σ ω} {m : Monitor σ} (h : cfg.Free m) :
    m.recSem.downRead cfg.overtake = some (m.recSem.held 1) := if_pos h

/-- The code selects the operation and carries the size. -/
lemma PathOp.code_size (op : PathOp) : (op.code &&& ~~~codeMask).toNat = klrmInputSize := by
  cases op <;> decide

lemma Config.devIoctl_asks (cfg : Config σ ω) {c : ClientCall ω} (halloc : c.allocOk = true)
    (hcopy : c.copyOk = true) (op : PathOp) (input : List UInt8) (m : Monitor σ) :
    cfg.devIoctl (c.request op.code input) m = cfg.klrmPath op (c.request op.code input) m := by
  have hcommand : (c.request op.code input).command = some (.path op) := by
    simp only [IoctlRequest.command, ClientCall.request, halloc, hcopy, op.code_size]
    cases op <;> rfl
  rcases cfg.devIoctl_cases (c.request op.code input) with ⟨hnone, -⟩ | ⟨command, hsome, hrun⟩
  · rw [hcommand] at hnone
    cases hnone
  · rw [hcommand] at hsome
    obtain rfl := Option.some.inj hsome
    exact hrun m

/-- A path request of the client on a free monitor. -/
lemma serveClient_asks {cfg : Config σ ω} {c : ClientCall ω} {m : Monitor σ} {op : PathOp}
    {line path : List UInt8} (hfree : cfg.Free m) (hasks : c.env.Asks op line path) :
    ∃ reply st n,
    cfg.serveClient c m = (some reply, { m with recSem := m.recSem.held n, store := st }) ∧ n ≤ 1 ∧
      GuardedStep cfg m.recToggle m.store (c, some reply) st := by
  have hrequest := (clientMain_request_iff c.env op.code (clientInput line path)).mpr
    ⟨op, line, path, hasks, rfl, rfl⟩
  have hserve :
      cfg.serveClient c m = (some (cfg.devIoctl (c.request op.code (clientInput line path)) m).1,
      (cfg.devIoctl (c.request op.code (clientInput line path)) m).2) := by
    simp only [Config.serveClient, hrequest]
  rw [hserve]
  cases halloc : c.allocOk with
  | false =>
      refine ⟨_, m.store, 0, ?_, by omega, .noMemory hasks halloc⟩
      simp [Config.devIoctl, ClientCall.request, halloc]
  | true =>
  cases hcopy : c.copyOk with
  | false =>
      refine ⟨_, m.store, 0, ?_, by omega, .notCopied hasks halloc hcopy⟩
      simp [Config.devIoctl, ClientCall.request, halloc, hcopy, op.code_size]
  | true =>
  rw [cfg.devIoctl_asks halloc hcopy]
  obtain ⟨field, hinput, hfield, hpassword⟩ := clientInput_eq hasks.line_lt path
  have hcheck : cfg.checkPassword (c.request op.code (clientInput line path)).crypto
      (c.request op.code (clientInput line path)).password
        = cfg.checkPassword c.crypto (typedPassword line path) := by
    refine checkPassword_congr cfg c.crypto ?_
    rw [cString_typedPassword, IoctlRequest.password, ClientCall.request, hinput]
    simpa using hpassword _
  have hmemory : (c.request op.code (clientInput line path)).path = c.pathMemory line path := by
    rw [IoctlRequest.path, ClientCall.request, hinput, List.append_assoc, List.drop_left' hfield,
      ClientCall.pathMemory]
  simp only [Config.klrmPath, Config.stateMachineEnterRecOn, hfree.downRead, Option.map_some]
  cases htoggle : m.recToggle with
  | off => exact ⟨_, m.store, 0, rfl, by omega, .refused hasks halloc hcopy rfl⟩
  | on =>
      by_cases hfails : cfg.checkPassword c.crypto (typedPassword line path) ≠ 0
      · refine ⟨_, m.store, 1, ?_, le_rfl, .rejected hasks halloc hcopy rfl hfails⟩
        simp only [reduceIte, hcheck, if_pos hfails]
      · have hserved :=
          @GuardedStep.served _ _ cfg .on m.store _ _ _ _ hasks halloc hcopy rfl (not_not.mp hfails)
        simp only [reduceIte, hcheck, if_neg hfails, hmemory]
        cases hstore : cfg.pathStore op (c.pathMemory line path) c.world m.store with
        | mk ret st =>
            rw [hstore] at hserved
            have hworld : (c.request op.code (clientInput line path)).world = c.world := rfl
            rw [hworld, hstore]
            cases ret with
            | none => exact ⟨none, st, 1, rfl, le_rfl, hserved⟩
            | some ret => exact ⟨some ret, st, 0, rfl, by omega, hserved⟩

/-! ## Sessions

The rejected requests of a session leave their holds on `rec_sem`.  No client sends a request that
takes it for writing, so that nobody ever waits for these holds. -/

/-- **One client run** does what the guarded store does, leaves the toggles, and at most one more
    read hold behind. -/
theorem ClientStep.guarded {cfg : Config σ ω} {m m' : Monitor σ}
    {l : ClientCall ω × Option (Option ℤ)} (hfree : cfg.Free m) (h : ClientStep cfg m l m') :
    GuardedStep cfg m.recToggle m.store l m'.store ∧
      ∃ n ≤ 1, m' = { m with recSem := m.recSem.held n, store := m'.store } := by
  obtain ⟨c, reply⟩ := l
  cases hrequest : (clientMain c.env).request with
  | none =>
      have hserve : cfg.serveClient c m = (none, m) := by simp only [Config.serveClient, hrequest]
      obtain ⟨rfl, rfl⟩ := Prod.mk.inj (hserve.symm.trans h)
      refine ⟨.silent fun op line path hasks => ?_, 0, by omega, rfl⟩
      have hsome := (clientMain_request_iff c.env op.code (clientInput line path)).mpr
        ⟨op, line, path, hasks, rfl, rfl⟩
      rw [hrequest] at hsome
      cases hsome
  | some sent =>
      obtain ⟨op, line, path, hasks, -, -⟩ :=
        (clientMain_request_iff c.env sent.1 sent.2).mp hrequest
      obtain ⟨reply', st, n, hserve, hn, hstep⟩ := serveClient_asks hfree hasks
      obtain ⟨rfl, rfl⟩ := Prod.mk.inj (hserve.symm.trans h)
      exact ⟨hstep, n, hn, rfl⟩

/-- **The monitor and its client are a store behind a password.**  Over any session on a monitor
    whose `rec_sem` no one writes: replies and store are those of the guarded store, so that a
    run hangs only in the store; the toggles stay as they are, and `rec_sem` has at most as many
    more read holds as there were runs. -/
theorem clientSession_guarded {cfg : Config σ ω} {m m' : Monitor σ}
    {labels : List (ClientCall ω × Option (Option ℤ))}
    (hfree : cfg.Free m) (hrun : Run (ClientStep cfg) m labels m') :
    Run (GuardedStep cfg m.recToggle) m.store labels m'.store ∧
      ∃ n ≤ labels.length, m' = { m with recSem := m.recSem.held n, store := m'.store } := by
  induction hrun with
  | nil m => exact ⟨.nil _, 0, le_rfl, rfl⟩
  | @cons m₀ m₁ m₂ l labels head tail ih =>
      obtain ⟨hstep, n, hn, heq⟩ := head.guarded hfree
      have hfree' : cfg.Free m₁ := by
        rw [heq]
        exact hfree
      obtain ⟨hrest, k, hk, heq'⟩ := ih hfree'
      have htoggle : m₁.recToggle = m₀.recToggle := by rw [heq]
      rw [htoggle] at hrest
      refine ⟨.cons hstep hrest, n + k, by rw [List.length_cons]; omega, ?_⟩
      rw [heq', heq]
      simp only [RwSem.held_held]

/-- A store that counts the additions, behind the password `s`. -/
def countingConfig : Config ℕ Unit where
  sha512 := emptyConfig.sha512
  hashCompressed := emptyConfig.hashCompressed
  pathStore := fun op _ _ st =>
    match op with
    | .add => (some 0, st + 1)
    | .rm => (some 0, st - 1)
    | .check => (some st, st)
  overtake := false

/-- `klrmctl word /a`, for which a password of one letter is typed. -/
def wordCall (word : List UInt8) (hword : ∀ b ∈ word, b ≠ 0) (password : UInt8) :
    ClientCall Unit where
  env :=
    { argv := [[107], word, [47, 97]]
      strings := by simpa using hword
      stdin := fun i => [password, 10][i]?
      mallocOk := true
      openOk := true }
  allocOk := true
  copyOk := true
  crypto := ⟨true, 0, 0, 0⟩
  world := ()
  beyond := []

/-- The module just loaded, with the counting store. -/
def loadedMonitor : Monitor ℕ where
  recSem := RwSem.initial
  setSem := RwSem.initial
  recToggle := .on
  setToggle := .on
  store := 0

/-- `add` with the password, `add` with another one, `rec`, which sends nothing, and `check`. -/
def fourCalls : List (ClientCall Unit × Option (Option ℤ)) :=
  [(wordCall [97, 100, 100] (by simp) 115, some (some 0)),
    (wordCall [97, 100, 100] (by simp) 116, some (some (-eacces))),
    (wordCall [114, 101, 99] (by simp) 115, none),
    (wordCall [99, 104, 101, 99, 107] (by simp) 115, some (some 1))]

/-- The client adds a path, is rejected, sends nothing, and checks: of the replies the last tells
    of one addition, and the rejected run has left its hold behind. -/
theorem clientSession_guarded_fourCalls :
    ∃ m', Run (ClientStep countingConfig) loadedMonitor fourCalls m' ∧
      m'.store = 1 ∧ m'.recSem.readers = 1 ∧
      Run (GuardedStep countingConfig .on) 0 fourCalls m'.store ∧
      ∃ n ≤ 4, m' = { loadedMonitor with recSem := RwSem.initial.held n, store := m'.store } := by
  obtain ⟨m₁, m₂, m₃, m₄, hadd, hrejected, hrec, hcheck, hstore, hheld⟩ : ∃ m₁ m₂ m₃ m₄,
      countingConfig.serveClient (wordCall [97, 100, 100] (by simp) 115) loadedMonitor
        = (some (some 0), m₁) ∧
      countingConfig.serveClient (wordCall [97, 100, 100] (by simp) 116) m₁
        = (some (some (-eacces)), m₂) ∧
      countingConfig.serveClient (wordCall [114, 101, 99] (by simp) 115) m₂ = (none, m₃) ∧
      countingConfig.serveClient (wordCall [99, 104, 101, 99, 107] (by simp) 115) m₃
        = (some (some 1), m₄) ∧
      m₄.store = 1 ∧ m₄.recSem.readers = 1 := ⟨_, _, _, _, rfl, rfl, rfl, rfl, rfl, rfl⟩
  have hrun : Run (ClientStep countingConfig) loadedMonitor fourCalls m₄ :=
    .cons hadd <| .cons hrejected <| .cons hrec <| .cons hcheck <| .nil _
  exact ⟨m₄, hrun, hstore, hheld, clientSession_guarded ⟨rfl, Or.inl rfl⟩ hrun⟩

end KLRM
