import FileKLRM.Core.Transition
import FileKLRM.LogFs.PartialAppend
import FileKLRM.Monitor.AuditLog

/-!
# Deferred logging: `logger/logger.c`

`log_append` notes the ids and the executable of the calling task and schedules `do_log_work`,
which writes the line of `FileKLRM.Monitor.AuditLog` to the log file later, in a worker.  What
lies in between has to outlive the call: the payload, the buffer of the path, and the module whose
code the worker runs.

Here both are on one state, with every object that is allocated and every reference that is taken.
The calls run whole, one after the other in any order: what they share is a counter of references,
the allocator, the queue, and the log file, which is written under its mutex.  The pending works
may be run in any order.  A call that frees what is not there, gives back a reference that it does
not have, leaves a buffer or runs code of a module that is gone has no result.
-/

namespace KLRM

/-! ## The state

The heap is the multiset of the objects that are allocated, each with the number of its task;
`refs` is what the module has taken of itself with `try_module_get`.  A pending work carries
everything that its worker will read. -/

/-- What the logger allocates, by the number of the `log_append` that it belongs to. -/
inductive LogObject
  | work (n : ℕ)
  | fullpathname (n : ℕ)
  | log (n : ℕ)
  | contentbuff (n : ℕ)
deriving DecidableEq

/-- A `logging_work` that is scheduled; its path lies in a buffer of 4096 bytes, with the
    terminator. -/
structure Pending where
  number : ℕ
  payload : LoggingWork
  fits : payload.pathname.length < 4096

/-- What `d_path` returns when the buffer is long enough. -/
structure DPath where
  text : List UInt8
  no_nul : ∀ b ∈ text, b ≠ 0
  fits : text.length < 4096

/-- What the kernel answers to one `log_append`: the two allocations and `d_path`. -/
structure AppendEnv where
  workOk : Bool
  fullpathnameOk : Bool
  dPath : Option DPath

/-- What the kernel answers to one `do_log_work`; and what is in `hash_printer_buffer`. -/
structure WorkEnv extends LogEnv where
  garbage : Vector UInt8 129
  breadOk : ℕ → Bool

/-- The module, what the logger has taken, the pending work and the log file.  `holders` is what
    else holds a reference to the module: an open file of the device, or a mount. -/
structure Logger where
  live : Bool
  refs : ℕ
  holders : ℕ
  calls : ℕ
  heap : Multiset LogObject
  creds : ℕ
  paths : ℕ
  tfms : ℕ
  queue : List Pending
  fs : LogFs

/-- What becomes of an event: a task is noted, its line is written, it is given up; or bytes are
    written by a user. -/
inductive LoggerOutput
  | silent
  | scheduled (payload : LoggingWork)
  | wrote (e : LogEvent)
  | dropped (payload : LoggingWork)
  | stored (bytes : List UInt8)

/-! ## The two calls

`logAppend` runs in the context of the request and `doLogWork` in a worker.  Both are translated
with every exit, and an exit undoes what was done before it as far as the source does.  `kfree`
and `modulePut` fail on what is not there. -/

/-- `4096+2048`, the size of `log`. -/
def logSize : ℕ := 4096 + 2048

namespace Logger

variable (s : Logger)

/-- `kzalloc`. -/
def kzalloc (o : LogObject) : Logger := { s with heap := o ::ₘ s.heap }

/-- `kfree`. -/
def kfree (o : LogObject) : Option Logger :=
  if o ∈ s.heap then some { s with heap := s.heap.erase o } else none

/-- `module_put`. -/
def modulePut : Option Logger := if s.refs = 0 then none else some { s with refs := s.refs - 1 }

/-- `log_append`. -/
def logAppend (ids : TaskIds) (env : AppendEnv) : Option (Logger × LoggerOutput) :=
  -- `try_module_get`
  if !s.live then some (s, .silent)
  else
    let n := s.calls
    let s := { s with refs := s.refs + 1, calls := n + 1 }
    if !env.workOk then s.modulePut.map fun s => (s, .silent)
    else
      let s := s.kzalloc (.work n)
      if !env.fullpathnameOk then s.modulePut.bind fun s => (s.kfree (.work n)).map
        fun s => (s, .silent)
      else
        let s := s.kzalloc (.fullpathname n)
        -- `get_current_cred` twice, and `path_get`
        let s := { s with creds := s.creds + 2, paths := s.paths + 1 }
        match env.dPath with
        | none => s.modulePut.bind fun s =>
            (s.kfree (.work n)).bind fun s => (s.kfree (.fullpathname n)).map fun s => (s, .silent)
        | some pathname =>
            let payload : LoggingWork :=
              { ids with pathname := pathname.text, no_nul := pathname.no_nul }
            some ({ s with
              paths := s.paths - 1
              queue := s.queue ++ [{ number := n, payload := payload, fits := pathname.fits }] },
                .scheduled payload)

/-- `FREE_INPUT`. -/
def freeInput (n : ℕ) : Option Logger :=
  (s.kfree (.fullpathname n)).bind fun s => (s.kfree (.work n)).bind modulePut

/-- The exits of `do_log_work` on which nothing is written, once there are the two buffers. -/
def giveUp (p : Pending) : Option (Logger × LoggerOutput) :=
  (s.kfree (.contentbuff p.number)).bind fun s =>
    (s.kfree (.log p.number)).bind fun s => (s.freeInput p.number).map fun s =>
      (s, .dropped p.payload)

/-- `DO_DUMP`, with the string in `log`. -/
def dump (env : WorkEnv) (p : Pending) (log : List UInt8) (hash : Option Digest) :
    Option (Logger × LoggerOutput) :=
  if logSize ≤ log.length then none
  else
    match internalLogfilefsWrite env.breadOk (log ++ [0]) s.fs with
    | .error _ => none
    | .ok fs => ({ s with fs := fs }.kfree (.log p.number)).bind fun s =>
        (s.freeInput p.number).map fun s => (s, .wrote ⟨p.payload, hash⟩)

/-- `do_log_work`, for a work that has left the queue. -/
def doLogWork (sha512 : List UInt8 → Digest) (env : WorkEnv) (p : Pending) :
    Option (Logger × LoggerOutput) :=
  if !s.live ∨ .work p.number ∉ s.heap ∨ .fullpathname p.number ∉ s.heap then none
  else if !env.logOk then (s.freeInput p.number).map fun s => (s, .dropped p.payload)
  else
    let s := s.kzalloc (.log p.number)
    let log := logHead p.payload.toTaskIds ++ p.payload.pathname ++ hashLabel
    if logSize ≤ log.length then none
    else if !env.contentOk then (s.kfree (.log p.number)).bind fun s =>
      (s.freeInput p.number).map fun s => (s, .dropped p.payload)
    else
      let s := s.kzalloc (.contentbuff p.number)
      match env.readFile with
      -- `contentbuff` is not freed here
      | none => s.dump env p (log ++ unavailable ++ [10]) none
      | some content =>
          if !env.crypto.allocOk then s.giveUp p
          else
            let s := { s with tfms := s.tfms + 1 }
            if env.crypto.initRet ≠ 0 then { s with tfms := s.tfms - 1 }.giveUp p
            else if env.crypto.updateRet ≠ 0 then { s with tfms := s.tfms - 1 }.giveUp p
            else if env.crypto.finalRet ≠ 0 then { s with tfms := s.tfms - 1 }.giveUp p
            else ({ s with tfms := s.tfms - 1 }.kfree (.contentbuff p.number)).bind fun s =>
              s.dump env p (log ++ decompressHash env.garbage (sha512 content))
                (some (sha512 content))

end Logger

/-! ## Events

Calls of `log_append`, workers that run, and whatever else is done to the log file, in any order;
the module can be unloaded when no reference to it is left. -/

/-- A reference to the module is taken or given back elsewhere; a task that has the device open
    calls `log_append`; a worker takes the pending work number `i`; the log file is used;
    `delete_module`. -/
inductive LoggerEvent
  | hold
  | release
  | append (ids : TaskIds) (env : AppendEnv)
  | work (i : ℕ) (env : WorkEnv)
  | file (c : LogCall)
  | unload

namespace Logger

/-- The state after an event, and what has become of it. -/
def next (sha512 : List UInt8 → Digest) (sb : SuperBlock) (s : Logger) :
  LoggerEvent → Option (Logger × LoggerOutput)
  | .hold => some ({ s with refs := s.refs + 1, holders := s.holders + 1 }, .silent)
  | .release => s.modulePut.map fun s => ({ s with holders := s.holders - 1 }, .silent)
  | .append ids env => s.logAppend ids env
  | .work i env => s.queue[i]?.bind fun p =>
      { s with queue := s.queue.eraseIdx i }.doLogWork sha512 env p
  | .file c =>
      match c.run sb s.fs with
      | .error _ => none
      | .ok fs => some ({ s with fs := fs }, .stored c.appended)
  -- a module that is referenced stays
  | .unload => some (if s.refs = 0 then { s with live := false } else s, .silent)

/-- An event can happen: only a module that is loaded is opened, `log_append` runs in a write to
    the open device, and the log file is used while it is mounted.  The positions in the log stay
    below `2 ^ 63`. -/
def Enabled (s : Logger) : LoggerEvent → Prop
  | .hold => s.live = true
  | .release => 0 < s.holders
  | .append _ _ => 0 < s.holders
  | .work i _ => i < s.queue.length ∧ s.fs.circularBufferEnd + logSize ≤ 2 ^ 63
  | .file c => c.Valid ∧ s.fs.mounted ≠ 0 ∧ s.fs.circularBufferEnd + c.appended.length < 2 ^ 63
  | .unload => True

/-- One event of a run, with what has become of it. -/
def Step (sha512 : List UInt8 → Digest) (sb : SuperBlock) (s : Logger)
    (l : LoggerEvent × LoggerOutput) (s' : Logger) : Prop :=
  s.Enabled l.1 ∧ s.next sha512 sb l.1 = some (s', l.2)

end Logger

/-! ## A line fits in `log`

The buffer has 6144 bytes.  A path that `d_path` has put into 4096 bytes, four numbers of at most
eleven characters and a digest of 128 leave room to spare, so that `sprintf` stays inside. -/

lemma length_formatInt_le (x : Int32) : (formatInt x).length ≤ 11 := by
  have hdecimal : ∀ n : ℕ, n ≤ 2 ^ 31 → (decimal n).length ≤ 10 := by
    intro n hn
    rw [decimal]
    split_ifs
    · simp
    · rw [List.length_map, List.length_reverse, Nat.digits_length_le_iff (by norm_num)]
      omega
  have hlow := x.le_toInt
  have hhigh := x.toInt_lt
  rw [formatInt]
  split_ifs with hneg
  · rw [List.length_cons]
    have := hdecimal x.toInt.natAbs (by omega)
    omega
  · have := hdecimal x.toInt.natAbs (by omega)
    omega

lemma length_logHead_le (ids : TaskIds) : (logHead ids).length ≤ 70 := by
  have htgid := length_formatInt_le ids.tgid
  have hpid := length_formatInt_le ids.pid
  have huid := length_formatInt_le ids.uid.toInt32
  have heuid := length_formatInt_le ids.euid.toInt32
  simp only [logHead, List.length_append, List.length_cons, List.length_nil]
  omega

lemma length_hashText_le (hash : Option Digest) : (hashText hash).length ≤ 128 := by
  cases hash with
  | none => decide
  | some digest => exact (isDigestText_digestText digest).1.le

lemma length_auditLog_singleton (e : LogEvent) : (auditLog [e]).length =
    (logHead e.work.toTaskIds ++ e.work.pathname ++ hashLabel).length +
    (hashText e.hash).length + 1 := by
  simp [auditLog, frames, frame, LogEvent.parts, logStop]
  omega

/-- **`sprintf` stays inside `log`**: a line of a path that `d_path` returned has fewer than 6144
    bytes. -/
lemma Pending.line_lt (p : Pending) (hash : Option Digest) :
    (auditLog [⟨p.payload, hash⟩]).length < logSize := by
  have hhead := length_logHead_le p.payload.toTaskIds
  have htext := length_hashText_le hash
  have hpath := p.fits
  have hlabel : hashLabel.length = 6 := rfl
  have hsize : logSize = 6144 := rfl
  rw [length_auditLog_singleton, List.length_append, List.length_append]
  dsimp only
  omega

/-! ## What the calls do

Each of the two as one equation on a state in which the objects of the work are there: which
objects are freed, which references are given back, and what is written.  The lemmas for the
single frees come first. -/

/-- The objects of a pending work. -/
def Pending.objects (p : Pending) : Multiset LogObject := {.fullpathname p.number, .work p.number}

/-- Both allocations of a `log_append` succeed, so that it comes to the credentials. -/
def AppendEnv.Notes (env : AppendEnv) : Prop := env.workOk ∧ env.fullpathnameOk

instance decidableNotes (env : AppendEnv) : Decidable env.Notes :=
  inferInstanceAs (Decidable (_ ∧ _))

namespace Logger

variable {s : Logger} {sha512 : List UInt8 → Digest} {env : WorkEnv} {p : Pending}

lemma kfree_eq {o : LogObject} {rest : Multiset LogObject} (h : s.heap = o ::ₘ rest) :
    s.kfree o = some { s with heap := rest } := by
  rw [kfree, h, if_pos (Multiset.mem_cons_self o rest), Multiset.erase_cons_head]

lemma modulePut_eq {n : ℕ} (h : s.refs = n + 1) : s.modulePut = some { s with refs := n } := by
  rw [modulePut, h, if_neg (Nat.succ_ne_zero n), Nat.add_sub_cancel]

/-- **`log_append`, in a module that is loaded.**  The credentials stay referenced; the path only
    when `d_path` fails. -/
theorem logAppend_eq (hlive : s.live = true) (ids : TaskIds) (env : AppendEnv) :
    s.logAppend ids env = some (
      if env.Notes then
        match env.dPath with
        | none =>
            ({ s with calls := s.calls + 1, creds := s.creds + 2, paths := s.paths + 1 }, .silent)
        | some pathname =>
            ({ s with
                refs := s.refs + 1
                calls := s.calls + 1
                creds := s.creds + 2
                heap := .fullpathname s.calls ::ₘ .work s.calls ::ₘ s.heap
                queue :=
                  s.queue ++ [⟨s.calls, ⟨ids, pathname.text, pathname.no_nul⟩, pathname.fits⟩] },
              .scheduled ⟨ids, pathname.text, pathname.no_nul⟩)
      else ({ s with calls := s.calls + 1 }, .silent)) := by
  rw [logAppend, hlive, if_neg (by simp)]
  dsimp only
  cases hwork : env.workOk with
  | false =>
      rw [if_pos (by rfl), if_neg (by simp [AppendEnv.Notes, hwork]), modulePut_eq rfl]
      rfl
  | true =>
      rw [if_neg (by simp)]
      cases hname : env.fullpathnameOk with
      | false =>
          rw [if_pos (by rfl), if_neg (by simp [AppendEnv.Notes, hname]), modulePut_eq rfl,
            Option.bind_some, kfree_eq rfl]
          rfl
      | true =>
          rw [if_neg (by simp), if_pos ⟨hwork, hname⟩]
          cases env.dPath with
          | none =>
              dsimp only
              rw [modulePut_eq rfl, Option.bind_some, kfree_eq (Multiset.cons_swap _ _ _),
                Option.bind_some, kfree_eq rfl]
              rfl
          | some pathname => rfl

lemma freeInput_eq {n k : ℕ} {rest : Multiset LogObject}
    (hheap : s.heap = .fullpathname n ::ₘ .work n ::ₘ rest)
    (hrefs : s.refs = k + 1) : s.freeInput n = some { s with heap := rest, refs := k } := by
  rw [freeInput, kfree_eq hheap, Option.bind_some, kfree_eq rfl, Option.bind_some]
  exact modulePut_eq hrefs

/-- `log` is freed, and the input. -/
lemma free_log_eq {n k : ℕ} {rest : Multiset LogObject} {out : LoggerOutput}
    (hheap : s.heap = .log n ::ₘ .fullpathname n ::ₘ .work n ::ₘ rest) (hrefs : s.refs = k + 1) :
    ((s.kfree (.log n)).bind fun s => (s.freeInput n).map fun s => (s, out)) =
      some ({ s with heap := rest, refs := k }, out) := by
  rw [kfree_eq hheap, Option.bind_some]
  exact congrArg (Option.map fun s => (s, out))
    (freeInput_eq (s := { s with heap := .fullpathname n ::ₘ .work n ::ₘ rest }) rfl hrefs)

lemma dump_eq {k : ℕ} {rest : Multiset LogObject} {log : List UInt8}
    {hash : Option Digest} {fs : LogFs}
    (hheap : s.heap = .log p.number ::ₘ .fullpathname p.number ::ₘ .work p.number ::ₘ rest)
    (hrefs : s.refs = k + 1)
    (hfits : log.length < logSize)
    (hwrite : internalLogfilefsWrite env.breadOk (log ++ [0]) s.fs = .ok fs) :
    s.dump env p log hash = some ({ s with heap := rest, refs := k, fs := fs },
      .wrote ⟨p.payload, hash⟩) := by
  rw [dump, if_neg (Nat.not_le.mpr hfits), hwrite]
  exact free_log_eq hheap hrefs

lemma giveUp_eq {k : ℕ} {rest : Multiset LogObject}
    (hheap : s.heap = .contentbuff p.number ::ₘ .log p.number ::ₘ .fullpathname p.number ::ₘ
      .work p.number ::ₘ rest)
    (hrefs : s.refs = k + 1) :
    s.giveUp p = some ({ s with heap := rest, refs := k }, .dropped p.payload) := by
  rw [giveUp, kfree_eq hheap, Option.bind_some]
  exact free_log_eq
    (s := { s with heap := .log p.number ::ₘ .fullpathname p.number ::ₘ .work p.number ::ₘ rest })
    rfl hrefs

/-- `contentbuff` is freed, and the line is written. -/
lemma free_dump_eq {k : ℕ} {rest : Multiset LogObject} {log : List UInt8}
    {hash : Option Digest} {fs : LogFs}
    (hheap : s.heap = .contentbuff p.number ::ₘ .log p.number ::ₘ .fullpathname p.number ::ₘ
      .work p.number ::ₘ rest)
    (hrefs : s.refs = k + 1) (hfits : log.length < logSize)
    (hwrite : internalLogfilefsWrite env.breadOk (log ++ [0]) s.fs = .ok fs) :
    ((s.kfree (.contentbuff p.number)).bind fun s => s.dump env p log hash) =
      some ({ s with heap := rest, refs := k, fs := fs }, .wrote ⟨p.payload, hash⟩) := by
  rw [kfree_eq hheap, Option.bind_some]
  exact dump_eq
    (s := { s with heap := .log p.number ::ₘ .fullpathname p.number ::ₘ .work p.number ::ₘ rest })
    rfl hrefs hfits hwrite

/-- **`do_log_work`, on a payload that is there.**  `contentbuff` stays when the file could not
    be read. -/
theorem doLogWork_eq {k : ℕ} {rest : Multiset LogObject} {fs : LogFs} (hlive : s.live = true)
    (hheap : s.heap = .fullpathname p.number ::ₘ .work p.number ::ₘ rest) (hrefs : s.refs = k + 1)
    (hwrite : internalLogfilefsWrite env.breadOk
      (auditLog [⟨p.payload, env.readFile.map sha512⟩] ++ [0]) s.fs = .ok fs) :
    s.doLogWork sha512 env p = some (
      if env.Writes then
        ({ s with
            heap := if env.readFile = none then .contentbuff p.number ::ₘ rest else rest
            refs := k
            fs := fs }, .wrote ⟨p.payload, env.readFile.map sha512⟩)
      else ({ s with heap := rest, refs := k }, .dropped p.payload)) := by
  have hthere :
      ¬ ((!s.live) = true ∨ .work p.number ∉ s.heap ∨ .fullpathname p.number ∉ s.heap) := by
    simp [hlive, hheap]
  have hline := p.line_lt (env.readFile.map sha512)
  have htext := length_auditLog_singleton ⟨p.payload, env.readFile.map sha512⟩
  rw [Logger.doLogWork, if_neg hthere]
  dsimp only
  cases hlog : env.logOk with
  | false =>
      rw [if_pos (by rfl), if_neg (by simp [LogEnv.Writes, hlog]), freeInput_eq hheap hrefs]
      rfl
  | true =>
      rw [if_neg (by simp), if_neg (by dsimp only at htext; omega)]
      have hheap' : (s.kzalloc (.log p.number)).heap =
          .log p.number ::ₘ .fullpathname p.number ::ₘ .work p.number ::ₘ rest := congrArg _ hheap
      have hbuff : ((s.kzalloc (.log p.number)).kzalloc (.contentbuff p.number)).heap =
          .contentbuff p.number ::ₘ .log p.number ::ₘ .fullpathname p.number ::ₘ .work p.number ::ₘ
          rest := congrArg _ hheap'
      cases hcontent : env.contentOk with
      | false =>
          rw [if_pos (by rfl), if_neg (by simp [LogEnv.Writes, hcontent])]
          exact free_log_eq hheap' hrefs
      | true =>
          rw [if_neg (by simp)]
          cases hread : env.readFile with
          | none =>
              rw [hread] at hwrite hline
              have hkeep : ((s.kzalloc (.log p.number)).kzalloc (.contentbuff p.number)).heap =
                  .log p.number ::ₘ .fullpathname p.number ::ₘ .work p.number ::ₘ .contentbuff
                  p.number ::ₘ rest := by
                rw [hbuff, Multiset.cons_swap,
                  Multiset.cons_swap (LogObject.contentbuff p.number) (.fullpathname p.number),
                  Multiset.cons_swap (LogObject.contentbuff p.number) (.work p.number)]
              have hlog' : auditLog [⟨p.payload, none⟩] =
                  logHead p.payload.toTaskIds ++ p.payload.pathname ++ hashLabel ++
                  unavailable ++ [10] := by
                simp [auditLog, frames, frame, LogEvent.parts, logStop, hashText]
              rw [if_pos (by simp [LogEnv.Writes, hlog, hcontent, hread]), if_pos rfl]
              rw [Option.map_none, hlog'] at hwrite hline
              exact dump_eq hkeep hrefs hline hwrite
          | some content =>
              have hlog' : auditLog [⟨p.payload, some (sha512 content)⟩]
                  = logHead p.payload.toTaskIds ++
                  p.payload.pathname ++ hashLabel ++
                  decompressHash env.garbage (sha512 content) := by
                rw [decompressHash_eq]
                simp [auditLog, frames, frame, LogEvent.parts, logStop, hashText]
              rw [hread, Option.map_some, hlog'] at hwrite hline
              by_cases hcrypto : env.crypto.allocOk = true ∧ env.crypto.initRet = 0 ∧
                  env.crypto.updateRet = 0 ∧ env.crypto.finalRet = 0
              · rw [if_pos ⟨hlog, hcontent, fun _ => hcrypto⟩, if_neg (by simp)]
                obtain ⟨halloc, hinit, hupdate, hfinal⟩ := hcrypto
                simp only [halloc, hinit, hupdate, hfinal, Bool.not_true, Bool.false_eq_true, ne_eq,
                  not_true_eq_false, if_false, Nat.add_sub_cancel]
                exact free_dump_eq hbuff hrefs hline hwrite
              · rw [if_neg fun hwrites => hcrypto (hwrites.2.2 (by simp [hread]))]
                -- the four exits differ in what they have taken
                have hgive := giveUp_eq hbuff hrefs
                dsimp only
                split_ifs with halloc hinit hupdate hfinal
                · exact hgive
                · exact hgive
                · exact hgive
                · exact hgive
                · exact absurd ⟨by simpa using halloc, not_not.mp hinit, not_not.mp hupdate,
                    not_not.mp hfinal⟩ hcrypto

end Logger

/-! ## The log file, whatever can be read

A worker's append may find a block that cannot be read.  The log is a log of some stream then as
well, though not of the one with the line added. -/

section LogFile

variable {fs : LogFs} {sb : SuperBlock} {N : ℕ} {stream line : List UInt8}

/-- When the bounds are those of a stream, the ring is the tail of some stream. -/
lemma Mounted.exists_stream (h : Mounted fs sb N) {L : ℕ} (hstop : fs.circularBufferEnd = L)
    (hstart : fs.circularBufferStart = max 0 ((L : ℤ) - N)) :
    ∃ stream, StreamInv fs sb N stream := by
  have hlen : ((List.range L).map fun a => fs.ring sb (a % N)).length = L := by simp
  refine ⟨(List.range L).map fun a => fs.ring sb (a % N),
    h, by rw [hlen, hstop], by rw [hlen, hstart], ?_⟩
  intro a ha _
  simp

/-- **An append by the kernel returns, and leaves a log** with the line at its end if all blocks
    could be read. -/
theorem StreamInv.internalWrite (h : StreamInv fs sb N stream) (hne : line ≠ [])
    (hnul : ∀ b ∈ line, b ≠ 0)
    (htotal : stream.length + line.length < 2 ^ 63) (breadOk : ℕ → Bool) :
    ∃ fs' after, internalLogfilefsWrite breadOk (line ++ [0]) fs = .ok fs' ∧
      StreamInv fs' sb N after ∧
      ((∀ k, breadOk k = true) → after = stream ++ line) := by
  let c : Append := ⟨true, line, breadOk, fun _ => 0⟩
  have hstrlen : strlen (line ++ [0]) = line.length := by rw [strlen, cString_append_zero hnul]
  have hpos : line.length ≠ 0 := by simpa using hne
  obtain ⟨fs', hring, hrun⟩ := h.copyLoop_laid c [0] hne htotal
  have hrun : KLRM.copyLoop breadOk (fun _ => 0) (line ++ [0]) line.length fs.circularBufferEnd
      (line.length + 1) 0 0 fs
        = _ := hrun
  have hglobals : fs' = { fs with devs := fs'.devs } := copyLoop_globals hrun
  have hwrite : internalLogfilefsWrite breadOk (line ++ [0]) fs
      = .ok (if (c.fault stream.length).isNone
          then fs'.advance (c.copied stream.length (c.fault stream.length)) else fs') := by
    simp only [internalLogfilefsWrite, hstrlen, if_neg hpos, if_neg h.mounted, hrun,
      bind, Except.bind]
    split_ifs <;> rfl
  cases hfault : c.fault stream.length with
  | none =>
      rw [hfault] at hring hwrite
      have hlaid : c.laid stream.length none = line := by
        simp [Append.laid, Append.copied, Append.zeros, c]
      rw [hlaid] at hring
      exact ⟨_, stream ++ line, hwrite, h.advance hglobals hring htotal, fun _ => rfl⟩
  | some k =>
      rw [hfault] at hwrite
      have hmounted : Mounted fs' sb N := by
        rw [hglobals]
        exact ⟨h.mounted, h.singleton, h.fileSize, h.size_pos, h.size_dvd, h.size_lt⟩
      obtain ⟨after, hafter⟩ :=
        hmounted.exists_stream (L := stream.length) (by rw [hglobals]; exact h.stop)
        (by rw [hglobals]; exact h.start)
      refine ⟨fs', after, hwrite, hafter, fun hok => ?_⟩
      have hbreaks := List.find?_some hfault
      simp [Append.breaks, Append.left, c, hok] at hbreaks

end LogFile

/-! ## The invariant

The objects and the references are those of the pending works, one by one; so nothing is leaked
and nothing freed twice, whichever worker runs next.  `Logger.Inv.step` goes through the three
kinds of events. -/

/-- The references to the module, the objects and the log file between two events; `left` is in
    no pending work. -/
structure Logger.Inv (sb : SuperBlock) (N : ℕ) (s : Logger) (left : Multiset LogObject) : Prop where
  refs : s.refs = s.holders + s.queue.length
  heap : s.heap = (s.queue.map Pending.objects).sum + left
  tfms : s.tfms = 0
  gone : s.live = false → s.refs = 0
  file : s.fs.mounted = 0 ∨ ∃ stream, StreamInv s.fs sb N stream

/-- A `log_append` comes to the credentials. -/
def LoggerEvent.notes : LoggerEvent → Bool
  | append _ env => env.Notes
  | _ => false

/-- It does, and `d_path` fails. -/
def LoggerEvent.pathless : LoggerEvent → Bool
  | append _ env => env.Notes ∧ env.dPath.isNone
  | _ => false

/-- A `do_log_work` writes a line, and could not read the executable. -/
def LoggerEvent.unread : LoggerEvent → Bool
  | work _ env => env.Writes ∧ env.readFile.isNone
  | _ => false

lemma auditLog_ne_nil (e : LogEvent) : auditLog [e] ≠ [] := by
  rw [← List.length_pos_iff, length_auditLog_singleton]
  omega

/-- A line is a C string. -/
lemma auditLog_no_nul (e : LogEvent) : ∀ b ∈ auditLog [e], b ≠ 0 := by
  have hno : ∀ x : Int32, (0 : UInt8) ∉ formatInt x :=
    fun x => formatInt_notMem (by decide) (by decide)
  have hhead : (0 : UInt8) ∉ logHead e.work.toTaskIds := by simp [logHead, hno]
  have htext : (0 : UInt8) ∉ hashText e.hash := by
    cases e.hash with
    | none => decide
    | some digest =>
        intro hmem
        exact hexDigits_ne_zero (digestText_mem hmem) rfl
  rintro b hb rfl
  have hmem : (0 : UInt8) ∈ logHead e.work.toTaskIds ++
      e.work.pathname ++ (hashLabel ++ hashText e.hash ++ [10]) := by
    simpa [auditLog, frames, frame, LogEvent.parts, logStop] using hb
  simp only [List.mem_append, hhead, htext, hashLabel, false_or, or_false] at hmem
  rcases hmem with hmem | hmem | hmem
  · exact e.work.no_nul 0 hmem rfl
  · simp at hmem
  · simp at hmem

/-- All blocks that an append to the log asks for can be read. -/
def LoggerEvent.Readable : LoggerEvent → Prop
  | work _ env => ∀ k, env.breadOk k = true
  | _ => True

/-- A worker that is given what it asks for. -/
def LoggerEvent.Provided : LoggerEvent → Prop
  | work _ env => env.Writes
  | _ => True

namespace LoggerOutput

/-- The task that was noted. -/
def noted : LoggerOutput → Multiset LoggingWork
  | scheduled payload => {payload}
  | _ => 0

/-- The task that was given up. -/
def lost : LoggerOutput → Multiset LoggingWork
  | dropped payload => {payload}
  | _ => 0

/-- The event whose line was written. -/
def event : LoggerOutput → Option LogEvent
  | wrote e => some e
  | _ => none

/-- The bytes that were appended to the log. -/
def bytes : LoggerOutput → List UInt8
  | wrote e => auditLog [e]
  | stored bytes => bytes
  | _ => []

/-- The task whose line was written. -/
def written (out : LoggerOutput) : Multiset LoggingWork :=
  (out.event.map LogEvent.work).elim 0 fun work => {work}

end LoggerOutput

/-- The tasks whose works are pending. -/
def pendingWork (queue : List Pending) : Multiset LoggingWork := ↑(queue.map Pending.payload)

lemma pendingWork_concat (queue : List Pending) (p : Pending) :
    pendingWork (queue ++ [p]) = pendingWork queue + {p.payload} := by
  rw [pendingWork, List.map_append, ← Multiset.coe_add]
  rfl

/-- A work leaves the queue. -/
lemma pendingWork_eraseIdx {queue : List Pending} {i : ℕ} {p : Pending} (hp : queue[i]? = some p) :
    pendingWork queue = {p.payload} + pendingWork (queue.eraseIdx i) := by
  obtain ⟨hi, rfl⟩ := List.getElem?_eq_some_iff.mp hp
  rw [pendingWork, pendingWork, Multiset.singleton_add, Multiset.cons_coe, ← List.map_cons,
    Multiset.coe_eq_coe]
  exact ((List.getElem_cons_eraseIdx_perm hi).map _).symm

/-- A work leaves the queue. -/
lemma objects_eraseIdx {queue : List Pending} {i : ℕ} {p : Pending} (hp : queue[i]? = some p) :
    (queue.map Pending.objects).sum = p.objects + ((queue.eraseIdx i).map Pending.objects).sum := by
  obtain ⟨hi, rfl⟩ := List.getElem?_eq_some_iff.mp hp
  rw [← List.sum_cons, ← List.map_cons]
  exact ((List.getElem_cons_eraseIdx_perm hi).map _).sum_eq.symm

/-- What an event does: to the references, to the tasks, and to the log. -/
structure Logger.Outcome (sb : SuperBlock) (N : ℕ) (s : Logger) (left : Multiset LogObject)
    (ev : LoggerEvent) (s' : Logger) (out : LoggerOutput) : Prop where
  inv : ∃ more : Multiset LogObject, s'.Inv sb N (more + left) ∧
    more.card = (if ev.unread then 1 else 0) ∧ ∀ o ∈ more, ∃ n, o = .contentbuff n
  creds : s'.creds = s.creds + if ev.notes then 2 else 0
  paths : s'.paths = s.paths + if ev.pathless then 1 else 0
  tasks : pendingWork s'.queue + out.written + out.lost = pendingWork s.queue + out.noted
  given : ev.Provided → out.lost = 0
  file : ∀ stream, StreamInv s.fs sb N stream → ev.Readable →
    StreamInv s'.fs sb N (stream ++ out.bytes)
  room : ∀ stream, StreamInv s.fs sb N stream → stream.length < 2 ^ 63 →
    (stream ++ out.bytes).length < 2 ^ 63

namespace Logger.Inv

variable {sb : SuperBlock} {N : ℕ} {s : Logger} {left : Multiset LogObject}

/-- The module is there as long as anything refers to it. -/
lemma live_of_refs (h : s.Inv sb N left) (hrefs : 0 < s.refs) : s.live = true := by
  by_contra hgone
  have := h.gone (Bool.eq_false_iff.mpr hgone)
  omega

/-- The line of a work can be written. -/
lemma write (h : s.Inv sb N left) (hroom : s.fs.circularBufferEnd + logSize ≤ 2 ^ 63) (p : Pending)
    (hash : Option Digest)
    (breadOk : ℕ → Bool) :
    ∃ fs, internalLogfilefsWrite breadOk (auditLog [⟨p.payload, hash⟩] ++ [0]) s.fs = .ok fs ∧
      (fs.mounted = 0 ∨ ∃ stream, StreamInv fs sb N stream) ∧ ∀ stream, StreamInv s.fs sb N stream →
        (∀ k, breadOk k = true) → StreamInv fs sb N (stream ++ auditLog [⟨p.payload, hash⟩]) := by
  have hline := p.line_lt hash
  -- the log of any stream that the ring holds
  have hany : ∀ stream, StreamInv s.fs sb N stream → ∃ fs after,
      internalLogfilefsWrite breadOk (auditLog [⟨p.payload, hash⟩] ++ [0]) s.fs = .ok fs ∧
        StreamInv fs sb N after ∧
        ((∀ k, breadOk k = true) → after = stream ++ auditLog [⟨p.payload, hash⟩]) := by
    intro stream hstream
    have hstop := hstream.stop
    exact hstream.internalWrite (auditLog_ne_nil ⟨p.payload, hash⟩)
      (auditLog_no_nul ⟨p.payload, hash⟩) (by omega) breadOk
  rcases h.file with hunmounted | ⟨stream, hstream⟩
  · refine ⟨s.fs, ?_, Or.inl hunmounted, fun stream hstream => absurd hunmounted hstream.mounted⟩
    rw [internalLogfilefsWrite, if_pos hunmounted]
    split_ifs <;> rfl
  · obtain ⟨fs, after, hwrite, hafter, -⟩ := hany stream hstream
    refine ⟨fs, hwrite, Or.inr ⟨after, hafter⟩, fun stream' hstream' hok => ?_⟩
    obtain ⟨fs', after', hwrite', hafter', heq⟩ := hany stream' hstream'
    obtain rfl := Except.ok.inj (hwrite.symm.trans hwrite')
    exact heq hok ▸ hafter'

/-- The state after an event that does nothing to the tasks and the log. -/
lemma quiet (h : s.Inv sb N left) {ev : LoggerEvent} {s' : Logger}
    (hrefs : s'.refs = s'.holders + s'.queue.length)
    (hheap : s'.heap = s.heap) (htfms : s'.tfms = s.tfms) (hgone : s'.live = false → s'.refs = 0)
    (hfs : s'.fs = s.fs)
    (hqueue : s'.queue = s.queue) (hunread : ev.unread = false)
    (hcreds : s'.creds = s.creds + if ev.notes then 2 else 0)
    (hpaths : s'.paths = s.paths + if ev.pathless then 1 else 0) :
    Outcome sb N s left ev s' .silent where
  inv := by
    refine ⟨0, ⟨hrefs, ?_, htfms.trans h.tfms, hgone, hfs ▸ h.file⟩, by simp [hunread], by simp⟩
    rw [hheap, hqueue, zero_add, h.heap]
  creds := hcreds
  paths := hpaths
  tasks := by
    simp [hqueue, LoggerOutput.written, LoggerOutput.event, LoggerOutput.lost, LoggerOutput.noted]
  given := fun _ => rfl
  file := by
    intro stream hstream _
    simpa [hfs, LoggerOutput.bytes] using hstream
  room := by
    intro stream _ hlt
    simpa [LoggerOutput.bytes] using hlt

/-- A call of `log_append`. -/
lemma append (h : s.Inv sb N left) (hpos : 0 < s.holders) (ids : TaskIds) (env : AppendEnv) :
    ∃ s' out, s.logAppend ids env = some (s', out) ∧
    Outcome sb N s left (.append ids env) s' out := by
  have hlive := h.live_of_refs (by rw [h.refs]; omega)
  have hthere : ∀ {t : Logger}, t.live = s.live → t.live = false → t.refs = 0 := by
    intro t hsame hfalse
    rw [hsame, hlive] at hfalse
    cases hfalse
  have hrun := s.logAppend_eq hlive ids env
  by_cases hnotes : env.Notes
  · rw [if_pos hnotes] at hrun
    cases hpath : env.dPath with
    | none =>
        rw [hpath] at hrun
        exact ⟨_, _, hrun,
          h.quiet h.refs rfl rfl (hthere rfl) rfl rfl rfl (by simp [LoggerEvent.notes, hnotes])
          (by simp [LoggerEvent.pathless, hnotes, hpath])⟩
    | some pathname =>
        rw [hpath] at hrun
        refine ⟨_, _, hrun, ⟨0, ⟨?_, ?_, h.tfms, hthere rfl, h.file⟩, rfl, by simp⟩, ?_, ?_, ?_,
          fun _ => rfl, ?_, ?_⟩
        · dsimp only
          rw [h.refs, List.length_append, List.length_singleton]
          omega
        · dsimp only
          rw [h.heap, List.map_append, List.sum_append, List.map_singleton, List.sum_singleton,
            Pending.objects]
          simp only [Multiset.insert_eq_cons, ← Multiset.singleton_add]
          abel
        · simp [LoggerEvent.notes, hnotes]
        · simp [LoggerEvent.pathless, hpath]
        · simp [pendingWork_concat, LoggerOutput.written, LoggerOutput.event, LoggerOutput.lost,
            LoggerOutput.noted]
        · intro stream hstream _
          simpa [LoggerOutput.bytes] using hstream
        · intro stream _ hlt
          simpa [LoggerOutput.bytes] using hlt
  · rw [if_neg hnotes] at hrun
    exact ⟨_, _, hrun,
      h.quiet h.refs rfl rfl (hthere rfl) rfl rfl rfl (by simp [LoggerEvent.notes, hnotes])
      (by simp [LoggerEvent.pathless, hnotes])⟩

/-- A run of `do_log_work`. -/
lemma work (h : s.Inv sb N left) (sha512 : List UInt8 → Digest) {i : ℕ} (hi : i < s.queue.length)
    (hroom : s.fs.circularBufferEnd + logSize ≤ 2 ^ 63) (env : WorkEnv) :
    ∃ s' out, s.next sha512 sb (.work i env) = some (s', out) ∧
    Outcome sb N s left (.work i env) s' out := by
  have hget : s.queue[i]? = some s.queue[i] := List.getElem?_eq_getElem hi
  set p := s.queue[i] with hp
  have hlen : (s.queue.eraseIdx i).length + 1 = s.queue.length := List.length_eraseIdx_add_one hi
  have hrefs : s.refs = s.holders + (s.queue.eraseIdx i).length + 1 := by
    rw [h.refs]
    omega
  have hlive := h.live_of_refs (by omega)
  have hthere : ∀ {t : Logger}, t.live = s.live → t.live = false → t.refs = 0 := by
    intro t hsame hfalse
    rw [hsame, hlive] at hfalse
    cases hfalse
  have hheap : s.heap = .fullpathname p.number ::ₘ .work p.number ::ₘ
      (((s.queue.eraseIdx i).map Pending.objects).sum + left) := by
    rw [h.heap, objects_eraseIdx hget, Pending.objects]
    simp only [Multiset.insert_eq_cons, ← Multiset.singleton_add]
    abel
  obtain ⟨fs, hwrite, hfile, hstream⟩ := h.write hroom p (env.readFile.map sha512) env.breadOk
  have hrun := doLogWork_eq (s := { s with queue := s.queue.eraseIdx i }) hlive hheap hrefs hwrite
  have hnext : s.next sha512 sb (.work i env) = _ :=
    (congrArg (fun x => Option.bind x _) hget).trans hrun
  have htasks := pendingWork_eraseIdx hget
  by_cases hwrites : env.Writes
  · rw [if_pos hwrites] at hnext
    refine ⟨_, _, hnext, ⟨if env.readFile = none then {.contentbuff p.number} else 0, ?_, ?_, ?_⟩,
      rfl, rfl, ?_,
      fun _ => rfl, ?_, ?_⟩
    · refine ⟨rfl, ?_, h.tfms, hthere rfl, hfile⟩
      split_ifs
      · simp only [← Multiset.singleton_add]
        abel
      · simp
    · split_ifs with hread hunread hunread <;> simp_all [LoggerEvent.unread]
    · intro o ho
      split_ifs at ho
      · exact ⟨_, Multiset.mem_singleton.mp ho⟩
      · simp at ho
    · simp [htasks, LoggerOutput.written, LoggerOutput.event, LoggerOutput.lost,
        LoggerOutput.noted, add_comm]
    · exact fun stream hs hread => hstream stream hs hread
    · intro stream hs hlt
      have hline := p.line_lt (env.readFile.map sha512)
      have hstop := hs.stop
      simp only [LoggerOutput.bytes, List.length_append]
      omega
  · rw [if_neg hwrites] at hnext
    refine ⟨_, _, hnext, ⟨0, ⟨rfl, by simp, h.tfms, hthere rfl,
      h.file⟩, by simp [LoggerEvent.unread, hwrites], by simp⟩,
      rfl, rfl, ?_, fun hgiven => absurd hgiven hwrites, ?_, ?_⟩
    · simp [htasks, LoggerOutput.written, LoggerOutput.event, LoggerOutput.lost,
        LoggerOutput.noted, add_comm]
    · intro stream hs _
      simpa [LoggerOutput.bytes] using hs
    · intro stream _ hlt
      simpa [LoggerOutput.bytes] using hlt

/-- A use of the log file. -/
lemma file_call (h : s.Inv sb N left) (sha512 : List UInt8 → Digest) {c : LogCall}
    (hvalid : c.Valid)
    (hmounted : s.fs.mounted ≠ 0) (hroom : s.fs.circularBufferEnd + c.appended.length < 2 ^ 63) :
    ∃ s' out, s.next sha512 sb (.file c) = some (s', out) ∧
    Outcome sb N s left (.file c) s' out := by
  obtain ⟨stream, hstream⟩ := h.file.resolve_left hmounted
  have hstop := hstream.stop
  obtain ⟨fs, hrun, hafter⟩ := hstream.call hvalid (by omega)
  have hnext : s.next sha512 sb (.file c) = some ({ s with fs := fs }, .stored c.appended) := by
    rw [next, hrun]
  refine ⟨_, _, hnext, ⟨0, ⟨h.refs, by simpa using h.heap, h.tfms, h.gone, Or.inr ⟨_, hafter⟩⟩,
    rfl, by simp⟩, rfl, rfl,
    by simp [LoggerOutput.written, LoggerOutput.event, LoggerOutput.lost, LoggerOutput.noted],
    fun _ => rfl, ?_, ?_⟩
  · intro stream' hs _
    have hstop' := hs.stop
    obtain ⟨fs', hrun', hafter'⟩ := hs.call hvalid (by omega)
    obtain rfl := Except.ok.inj (hrun.symm.trans hrun')
    exact hafter'
  · intro stream' hs _
    have hstop' := hs.stop
    simp only [LoggerOutput.bytes, List.length_append]
    omega

/-- **One event**: it has a result. -/
theorem step (h : s.Inv sb N left) (sha512 : List UInt8 → Digest) {ev : LoggerEvent}
    (hev : s.Enabled ev) :
    ∃ s' out, s.next sha512 sb ev = some (s', out) ∧ Outcome sb N s left ev s' out := by
  cases ev with
  | hold =>
      refine ⟨_, _, rfl, h.quiet ?_ rfl rfl (fun hgone => ?_) rfl rfl rfl rfl rfl⟩
      · dsimp only
        rw [h.refs]
        omega
      · rw [show s.live = true from hev] at hgone
        cases hgone
  | release =>
      have hpos : 0 < s.holders := hev
      have hrefs : s.refs = s.holders - 1 + s.queue.length + 1 := by
        rw [h.refs]
        omega
      have hnext : s.next sha512 sb .release = some ({ s with
          refs := s.holders - 1 + s.queue.length
          holders := s.holders - 1 }, .silent) := by
        rw [next, modulePut_eq hrefs]
        rfl
      refine ⟨_, _, hnext, h.quiet rfl rfl rfl (fun hgone => ?_) rfl rfl rfl rfl rfl⟩
      rw [show s.live = true from h.live_of_refs (by omega)] at hgone
      cases hgone
  | append ids env => exact h.append hev ids env
  | work i env => exact h.work sha512 hev.1 hev.2 env
  | file c => exact h.file_call sha512 hev.1 hev.2.1 hev.2.2
  | unload =>
      by_cases hzero : s.refs = 0
      · exact ⟨_, _, congrArg (fun t => some (t, _)) (if_pos hzero),
          h.quiet h.refs rfl rfl (fun _ => hzero) rfl rfl rfl rfl rfl⟩
      · exact ⟨_, _, congrArg (fun t => some (t, _)) (if_neg hzero),
          h.quiet h.refs rfl rfl h.gone rfl rfl rfl rfl rfl⟩

end Logger.Inv

/-! ## Runs

`Logger.Accounts` is the invariant without its auxiliary parts, for every state that a run
reaches.  The run at the end notes a task whose executable cannot be read. -/

section Runs

variable {sb : SuperBlock} {N : ℕ} {s₀ s : Logger} {sha512 : List UInt8 → Digest}
  {labels : List (LoggerEvent × LoggerOutput)}

/-- Nothing is pending, taken or allocated; the log file is not mounted, or is a log. -/
structure Logger.Start (sb : SuperBlock) (N : ℕ) (s : Logger) : Prop where
  live : s.live = true
  refs : s.refs = s.holders
  heap : s.heap = 0
  creds : s.creds = 0
  paths : s.paths = 0
  tfms : s.tfms = 0
  queue : s.queue = []
  file : s.fs.mounted = 0 ∨ ∃ stream, StreamInv s.fs sb N stream

lemma Logger.Start.inv (h : s.Start sb N) : s.Inv sb N 0 where
  refs := by rw [h.refs, h.queue, List.length_nil, Nat.add_zero]
  heap := by simp [h.heap, h.queue]
  tfms := h.tfms
  gone := fun hgone => by
    rw [h.live] at hgone
    cases hgone
  file := h.file

/-- What a run leaves behind, event by event. -/
lemma Run.leaves (hrun : Run (Logger.Step sha512 sb) s₀ labels s) :
    ∀ {left : Multiset LogObject}, s₀.Inv sb N left → ∃ more : Multiset LogObject,
      s.Inv sb N (more + left) ∧
      s.creds = s₀.creds + 2 * labels.countP (fun l => l.1.notes) ∧
      s.paths = s₀.paths + labels.countP (fun l => l.1.pathless) ∧
      more.card = labels.countP (fun l => l.1.unread) ∧ ∀ o ∈ more, ∃ n, o = .contentbuff n := by
  induction hrun with
  | nil s => exact fun {left} h => ⟨0, by rwa [zero_add], rfl, rfl, rfl, by simp⟩
  | @cons s₀ s₁ s l labels head tail ih =>
      intro left h
      obtain ⟨s', out, hnext, hout⟩ := h.step sha512 head.1
      obtain ⟨rfl, rfl⟩ := Prod.mk.inj (Option.some.inj (hnext.symm.trans head.2))
      have hcreds := hout.creds
      have hpaths := hout.paths
      obtain ⟨more, hinv, hcard, hbuffers⟩ := hout.inv
      obtain ⟨rest, hend, hcreds', hpaths', hcard', hbuffers'⟩ := ih hinv
      refine ⟨rest + more, by rwa [add_assoc], ?_, ?_, ?_, fun o ho => ?_⟩
      · rw [hcreds', hcreds, List.countP_cons]
        split_ifs <;> omega
      · rw [hpaths', hpaths, List.countP_cons]
        omega
      · rw [Multiset.card_add, hcard', hcard, List.countP_cons]
      · exact (Multiset.mem_add.mp ho).elim (hbuffers' o) (hbuffers o)

/-- The logger's accounts at the end of a run.  What is never given back is two references to
    credentials for each task that was noted, a path for each that `d_path` failed on, and a
    `contentbuff` for each executable that could not be read. -/
structure Logger.Accounts (sha512 : List UInt8 → Digest) (sb : SuperBlock)
    (labels : List (LoggerEvent × LoggerOutput)) (s : Logger) : Prop where
  refs : s.refs = s.holders + s.queue.length
  gone : s.live = false → s.holders = 0 ∧ s.queue = []
  tfms : s.tfms = 0
  creds : s.creds = 2 * labels.countP fun l => l.1.notes
  paths : s.paths = labels.countP fun l => l.1.pathless
  heap : ∃ buffers : Multiset LogObject, s.heap = (s.queue.map Pending.objects).sum + buffers ∧
    buffers.card = labels.countP (fun l => l.1.unread) ∧ ∀ o ∈ buffers, ∃ n, o = .contentbuff n
  progress : ∀ ev, s.Enabled ev → (s.next sha512 sb ev).isSome

/-- **The logger keeps its accounts in every run.**  The module is referenced once for each
    pending work, so it is never gone while one is pending; the payloads in memory are those that
    are pending; and no event that can happen runs into an error of memory. -/
theorem logger_accounts (h₀ : s₀.Start sb N) (hrun : Run (Logger.Step sha512 sb) s₀ labels s) :
    s.Accounts sha512 sb labels := by
  obtain ⟨buffers, h, hcreds, hpaths, hcard, hbuffers⟩ := hrun.leaves h₀.inv
  rw [add_zero] at h
  refine ⟨h.refs, fun hgone => ?_, h.tfms, ?_, ?_, ⟨buffers, h.heap, hcard, hbuffers⟩,
    fun ev hev => ?_⟩
  · have hzero := h.gone hgone
    rw [h.refs] at hzero
    exact ⟨by omega, List.length_eq_zero_iff.mp (by omega)⟩
  · rw [hcreds, h₀.creds, Nat.zero_add]
  · rw [hpaths, h₀.paths, Nat.zero_add]
  · obtain ⟨s', out, hnext, -⟩ := h.step sha512 hev
    rw [hnext]
    rfl

end Runs

/-- A module with one open file of the device, and a log on an empty image. -/
def idleLogger : Logger where
  live := true
  refs := 1
  holders := 1
  calls := 0
  heap := 0
  creds := 0
  paths := 0
  tfms := 0
  queue := []
  fs := emptyImage

lemma idleLogger_start : idleLogger.Start ⟨0, 0⟩ 4096 :=
  ⟨rfl, rfl, rfl, rfl, rfl, rfl, rfl, Or.inr ⟨[], emptyImage_mounted.streamInv rfl rfl⟩⟩

/-- A SHA-512 for the examples. -/
def zeroDigest (_ : List UInt8) : Digest := Vector.replicate 64 0

/-- `/b`, as `d_path` returns it. -/
def pathB : DPath := ⟨[47, 98], by simp, by norm_num⟩

/-- The logger once a task whose executable is `/b` is noted. -/
def notedB : Logger :=
  { idleLogger with
    refs := 2
    calls := 1
    creds := 2
    heap := .fullpathname 0 ::ₘ .work 0 ::ₘ 0
    queue := [⟨0, ⟨⟨7, 7, 1000, 1000⟩, pathB.text, pathB.no_nul⟩, pathB.fits⟩] }

lemma step_appendB : Logger.Step zeroDigest ⟨0, 0⟩ idleLogger
    (.append ⟨7, 7, 1000, 1000⟩ ⟨true, true, some pathB⟩,
      .scheduled ⟨⟨7, 7, 1000, 1000⟩, pathB.text, pathB.no_nul⟩)
    notedB :=
  ⟨Nat.one_pos, idleLogger.logAppend_eq rfl ⟨7, 7, 1000, 1000⟩ ⟨true, true, some pathB⟩⟩

/-- A worker that cannot read the executable. -/
def unreadEnv : WorkEnv :=
  ⟨⟨true, true, none, ⟨true, 0, 0, 0⟩⟩, Vector.replicate 129 0, fun _ => true⟩

lemma step_workB : ∃ out s, Logger.Step zeroDigest ⟨0, 0⟩ notedB (.work 0 unreadEnv, out) s := by
  have hinv : ∃ left, notedB.Inv ⟨0, 0⟩ 4096 left := by
    obtain ⟨s, out, hnext, hout⟩ := idleLogger_start.inv.step zeroDigest step_appendB.1
    obtain ⟨rfl, -⟩ := Prod.mk.inj (Option.some.inj (hnext.symm.trans step_appendB.2))
    exact ⟨_, hout.inv.choose_spec.1⟩
  have henabled : notedB.Enabled (.work 0 unreadEnv) :=
    ⟨Nat.one_pos, by norm_num [notedB, idleLogger, emptyImage, logSize]⟩
  obtain ⟨left, hinv⟩ := hinv
  obtain ⟨s, out, hnext, -⟩ := hinv.step zeroDigest henabled
  exact ⟨out, s, henabled, hnext⟩

/-- The line of a task, written by a worker that could not read its executable. -/
theorem logger_accounts_unread :
    ∃ labels s, Run (Logger.Step zeroDigest ⟨0, 0⟩) idleLogger labels s ∧
      labels.length = 2 ∧ s.Accounts zeroDigest ⟨0, 0⟩ labels := by
  obtain ⟨out, s, hwork⟩ := step_workB
  have hrun := Run.cons step_appendB (.cons hwork (.nil s))
  exact ⟨_, s, hrun, rfl, logger_accounts idleLogger_start hrun⟩

end KLRM
