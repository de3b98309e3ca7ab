import FileKLRM.Core.Machine
import FileKLRM.Core.RwSemaphore

/-!
# Requests to the monitor: `api/ioctl.c`, `api/api.c`, `state_machine.c`, `check_password`

`dev_ioctl` copies a request into a buffer and dispatches on the three high bits of its code.
The three path handlers take `rec_sem` for reading, test `rec`, check the password and call the
store; `klrm_set` and `klrm_rec` check the password first and take their semaphore for writing.

A request here runs until it returns or waits on a semaphore for ever; a reply `none` is a return
value that never comes.  Requests are taken one after another, so a hold that keeps one waiting
was left by a request that is over.  The interleaved handlers are in `FileKLRM.Monitor.Gate`.
SHA-512, what the crypto calls answer and the path store are parameters.

* `Monitor` — the two semaphores, the two toggles and the store.
* `Config` — what the module is given: the digest of the password, SHA-512, and what the three
  store operations do.
* `klrmPath` — the three path handlers, which differ in the operation that they call at the end.
* `devIoctl` — the entry, with the reply and the monitor after it.
-/

namespace KLRM

variable {σ ω : Type*}

/-- `TOGGLE`. -/
inductive Toggle
  | on
  | off
deriving DecidableEq, Repr

/-- The requests that go to the path store. -/
inductive PathOp
  | add
  | rm
  | check
deriving DecidableEq, Repr

/-- What the crypto API answers during one password check. -/
structure CryptoEnv where
  allocOk : Bool
  initRet : ℤ
  updateRet : ℤ
  finalRet : ℤ

/-- What the handlers rely on: SHA-512, the stored digest, the path store's operations (for the
    memory at `input->path` and the kernel's answers `ω`, a return value that may never come and
    the new store), and whether a reader overtakes callers that wait for a semaphore. -/
structure Config (σ ω : Type*) where
  sha512 : List UInt8 → List UInt8
  hashCompressed : List UInt8
  pathStore : PathOp → List UInt8 → ω → σ → Option ℤ × σ
  overtake : Bool

/-- A request: the code word, the memory from the start of its buffer once the user's bytes are
    copied, and what the kernel answers on the way. -/
structure IoctlRequest (ω : Type*) where
  code : UInt32
  buffer : List UInt8
  allocOk : Bool
  copyOk : Bool
  crypto : CryptoEnv
  world : ω

/-- The toggles `rec` and `set` with their semaphores, and the store. -/
structure Monitor (σ : Type*) where
  recSem : RwSem
  setSem : RwSem
  recToggle : Toggle
  setToggle : Toggle
  store : σ

namespace IoctlRequest

/-- `input->password`. -/
def password (r : IoctlRequest ω) : List UInt8 := r.buffer

/-- `input->path`. -/
def path (r : IoctlRequest ω) : List UInt8 := r.buffer.drop 128

end IoctlRequest

/-- `sizeof (klrm_input)`. -/
def klrmInputSize : ℕ := 128 + 4096

/-- `CODE_MASK`. -/
def codeMask : UInt32 := 0xe0000000

/-- The words `"on"` and `"off"` that `klrm_set` and `klrm_rec` take. -/
def parseToggle (path : List UInt8) : Option Toggle :=
  if cString path = [111, 110] then some .on
  else if cString path = [111, 102, 102] then some .off
  else none

namespace Config

variable (cfg : Config σ ω)

/-- `check_password`. -/
def checkPassword (env : CryptoEnv) (password : List UInt8) : ℤ :=
  if !env.allocOk then -enomem
  else if env.initRet ≠ 0 then -1
  else if env.updateRet ≠ 0 then -1
  else if env.finalRet ≠ 0 then -1
  else if (cfg.sha512 (cString password)).take 64 ≠ cfg.hashCompressed.take 64 then 1
  else 0

/-- `state_machine_enter_rec_on`: the semaphore with the hold that stays when it returns 1. -/
def stateMachineEnterRecOn (m : Monitor σ) : Option (Bool × RwSem) :=
  (m.recSem.downRead cfg.overtake).map fun sem =>
    if m.recToggle = .on then (true, sem) else (false, sem.upRead)

/-- The body of `klrm_path_add`, `klrm_path_rm` and `klrm_path_check`. -/
def klrmPath (op : PathOp) (r : IoctlRequest ω) (m : Monitor σ) : Option ℤ × Monitor σ :=
  match cfg.stateMachineEnterRecOn m with
  | none => (none, { m with recSem := m.recSem.wait })
  | some (false, sem) => (some (-ebusy), { m with recSem := sem })
  | some (true, sem) =>
      -- the rejected request returns without `state_machine_rec_exit`
      if cfg.checkPassword r.crypto r.password ≠ 0 then (some (-eacces), { m with recSem := sem })
      else
        match cfg.pathStore op r.path r.world m.store with
        | (none, store) => (none, { m with recSem := sem, store := store })
        | (some ret, store) => (some ret, { m with recSem := sem.upRead, store := store })

/-- `klrm_path_add`. -/
def klrmPathAdd : IoctlRequest ω → Monitor σ → Option ℤ × Monitor σ := cfg.klrmPath .add

/-- `klrm_path_rm`. -/
def klrmPathRm : IoctlRequest ω → Monitor σ → Option ℤ × Monitor σ := cfg.klrmPath .rm

/-- `klrm_path_check`. -/
def klrmPathCheck : IoctlRequest ω → Monitor σ → Option ℤ × Monitor σ := cfg.klrmPath .check

/-- `klrm_set`, with `set_machine_on` and `set_machine_off`. -/
def klrmSet (r : IoctlRequest ω) (m : Monitor σ) : Option ℤ × Monitor σ :=
  if cfg.checkPassword r.crypto r.password ≠ 0 then (some (-eacces), m)
  else
    match parseToggle r.path with
    | none => (some (-einval), m)
    | some t =>
        match m.setSem.downWrite with
        | none => (none, { m with setSem := m.setSem.wait })
        | some sem => (some 0, { m with setSem := sem.upWrite, setToggle := t })

/-- `klrm_rec`, with `set_machine_rec_on` and `set_machine_rec_off`. -/
def klrmRec (r : IoctlRequest ω) (m : Monitor σ) : Option ℤ × Monitor σ :=
  if cfg.checkPassword r.crypto r.password ≠ 0 then (some (-eacces), m)
  else
    match parseToggle r.path with
    | none => (some (-einval), m)
    | some t =>
        match m.recSem.downWrite with
        | none => (none, { m with recSem := m.recSem.wait })
        | some sem => (some 0, { m with recSem := sem.upWrite, recToggle := t })

/-- `dev_ioctl`. -/
def devIoctl (r : IoctlRequest ω) (m : Monitor σ) : Option ℤ × Monitor σ :=
  if !r.allocOk then (some (-enomem), m)
  else if (r.code &&& ~~~codeMask).toNat ≠ klrmInputSize then (some 1, m)
  else if !r.copyOk then (some (-eacces), m)
  else if r.code &&& codeMask = 0x00000000 then cfg.klrmPathAdd r m
  else if r.code &&& codeMask = 0x20000000 then cfg.klrmPathRm r m
  else if r.code &&& codeMask = 0x40000000 then cfg.klrmPathCheck r m
  else if r.code &&& codeMask = 0x60000000 then cfg.klrmSet r m
  else if r.code &&& codeMask = 0x80000000 then cfg.klrmRec r m
  else (some (-eopnotsupp), m)

end Config

/-- A request with this code, password and path argument, on which nothing fails. -/
def plainRequest (code : UInt32) (password path : List UInt8) : IoctlRequest Unit where
  code := code
  buffer := password ++ List.replicate (128 - password.length) 0 ++ path ++ [0]
  allocOk := true
  copyOk := true
  crypto := ⟨true, 0, 0, 0⟩
  world := ()

/-- A monitor without a store whose password is `"s"`, told apart by the digest. -/
def emptyConfig : Config Unit Unit where
  sha512 := fun text => List.replicate 64 (if text = [115] then 1 else 0)
  hashCompressed := List.replicate 64 1
  pathStore := fun _ _ _ _ => (some 0, ())
  overtake := false

end KLRM
