import FileKLRM.Core.Framing
import FileKLRM.Monitor.Digest
import FileKLRM.Monitor.Ioctl

/-!
# The audit log: `logger/logger.c`

`do_log_work` writes one line for each event: the ids of the process, the path of its executable
as `d_path` gave it, and the digest of that file, or `unavailable`.  The path is not escaped.

The rest of a line is recognisable (`log_framing`), so a log can be read back as long as no path
holds the end of a line with the beginning of another behind it (`auditLog_injective`).  A path
may hold just that, and one event is then written as two are (`auditLog_forged`).
-/

namespace KLRM

/-! ## A line

What the calls of `sprintf` put into the buffer of a work: four numbers in decimal, the path up to
its NUL, and one of two ends. -/

/-- The decimal digits of a number, as characters. -/
def decimal (n : ℕ) : List UInt8 :=
  if n = 0 then [48] else (Nat.digits 10 n).reverse.map fun d => 48 + UInt8.ofNat d

/-- `%d`. -/
def formatInt (x : Int32) : List UInt8 :=
  if x.toInt < 0 then 45 :: decimal x.toInt.natAbs else decimal x.toInt.natAbs

/-- The ids in a `logging_work`; those of the user are unsigned and are printed as `int`. -/
structure TaskIds where
  tgid : Int32
  pid : Int32
  uid : UInt32
  euid : UInt32
deriving DecidableEq

/-- `logging_work`; `pathname` is the string that `d_path` returned. -/
structure LoggingWork extends TaskIds where
  pathname : List UInt8
  no_nul : ∀ b ∈ pathname, b ≠ 0

/-- `TGID:%d;PID:%d;UID:%d;EUID:%d;exe:`. -/
def logHead (ids : TaskIds) : List UInt8 :=
  [84, 71, 73, 68, 58] ++ formatInt ids.tgid ++ [59, 80, 73, 68, 58] ++ formatInt ids.pid ++
    [59, 85, 73, 68, 58] ++ formatInt ids.uid.toInt32 ++ [59, 69, 85, 73, 68, 58] ++
    formatInt ids.euid.toInt32 ++ [59, 101, 120, 101, 58]

/-- `;hash:`. -/
def hashLabel : List UInt8 := [59, 104, 97, 115, 104, 58]

/-- `unavailable`. -/
def unavailable : List UInt8 := [117, 110, 97, 118, 97, 105, 108, 97, 98, 108, 101]

/-- What the kernel answers to one `do_log_work`: whether the two buffers are there, what
    `kernel_read_file_from_path` reads, and the crypto API. -/
structure LogEnv where
  logOk : Bool
  contentOk : Bool
  readFile : Option (List UInt8)
  crypto : CryptoEnv

/-- `do_log_work`: the line it hands to `internal_logfilefs_write`, if it gets so far. -/
def doLogWork (sha512 : List UInt8 → Digest) (garbage : Vector UInt8 129) (env : LogEnv)
    (payload : LoggingWork) : Option (List UInt8) :=
  if !env.logOk then none
  else
    let log := logHead payload.toTaskIds ++ payload.pathname ++ hashLabel
    if !env.contentOk then none
    else
      match env.readFile with
      | none => some (log ++ unavailable ++ [10])
      | some content =>
          if !env.crypto.allocOk then none
          else if env.crypto.initRet ≠ 0 then none
          else if env.crypto.updateRet ≠ 0 then none
          else if env.crypto.finalRet ≠ 0 then none
          else some (log ++ decompressHash garbage (sha512 content))

/-! ## Events

An event is a work together with the digest that the worker got, if it got one.  `doLogWork_line`
says that `do_log_work` appends the line of its event, and `writtenLog_eq` that a run of workers
writes `auditLog` of the events whose lines were not cut off by a failed append. -/

/-- What a line says; there is no digest when the file could not be read. -/
structure LogEvent where
  work : LoggingWork
  hash : Option Digest

/-- The text behind `;hash:`, without the newline. -/
def hashText (hash : Option Digest) : List UInt8 :=
  hash.elim unavailable fun digest => digestText digest.toList

/-- `;hash:` and what follows it in a line. -/
def logStop (hash : Option Digest) : List UInt8 := hashLabel ++ hashText hash ++ [10]

/-- The parts of a line. -/
def LogEvent.parts (e : LogEvent) : TaskIds × List UInt8 × Option Digest :=
  (e.work.toTaskIds, e.work.pathname, e.hash)

/-- The lines of some events, one after the other. -/
def auditLog (events : List LogEvent) : List UInt8 :=
  frames logHead logStop (events.map LogEvent.parts)

lemma LogEvent.parts_injective : Function.Injective LogEvent.parts := by
  rintro ⟨⟨ids, pathname, _⟩, hash⟩ ⟨⟨ids', pathname', _⟩, hash'⟩ h
  obtain ⟨hids, hpath, hhash⟩ : ids = ids' ∧ pathname = pathname' ∧ hash = hash' := by
    simpa [parts] using h
  subst hids hpath hhash
  rfl

/-- All allocations and crypto calls of a `do_log_work` succeed, so far as it makes them. -/
def LogEnv.Writes (env : LogEnv) : Prop :=
  env.logOk ∧ env.contentOk ∧ (env.readFile.isSome → env.crypto.allocOk ∧ env.crypto.initRet = 0 ∧
    env.crypto.updateRet = 0 ∧ env.crypto.finalRet = 0)

instance decidableWrites (env : LogEnv) : Decidable env.Writes :=
  inferInstanceAs (Decidable (_ ∧ _ ∧ _))

/-- **Whatever `do_log_work` writes is the line of an event**, with the digest of what was read
    of the file. -/
theorem doLogWork_eq {sha512 : List UInt8 → Digest} {garbage : Vector UInt8 129} {env : LogEnv}
    {payload : LoggingWork} {log : List UInt8}
    (h : doLogWork sha512 garbage env payload = some log) :
    log = auditLog [⟨payload, env.readFile.map sha512⟩] := by
  rw [doLogWork] at h
  cases hread : env.readFile with
  | none =>
      simp only [hread] at h
      split_ifs at h
      rw [← Option.some.inj h]
      simp [auditLog, frames, frame, LogEvent.parts, logStop, hashText]
  | some content =>
      simp only [hread] at h
      split_ifs at h
      rw [← Option.some.inj h, decompressHash_eq]
      simp [auditLog, frames, frame, LogEvent.parts, logStop, hashText]

/-- And it writes exactly when nothing that it asks for fails. -/
lemma doLogWork_line (sha512 : List UInt8 → Digest) (garbage : Vector UInt8 129) (env : LogEnv)
    (payload : LoggingWork) : doLogWork sha512 garbage env payload
        = if env.Writes then some (auditLog [⟨payload, env.readFile.map sha512⟩]) else none := by
  have hsome : (doLogWork sha512 garbage env payload).isSome ↔ env.Writes := by
    rw [doLogWork, LogEnv.Writes]
    cases env.readFile <;> split_ifs <;> simp_all
  by_cases hwrites : env.Writes
  · obtain ⟨log, hlog⟩ := Option.isSome_iff_exists.mp (hsome.mpr hwrites)
    rw [if_pos hwrites, hlog, doLogWork_eq hlog]
  · rw [if_neg hwrites]
    exact Option.not_isSome_iff_eq_none.mp fun h => hwrites (hsome.mp h)

/-- A work that a worker takes: the payload, what is in `hash_printer_buffer`, and what the
    kernel answers. -/
structure LogTask where
  payload : LoggingWork
  garbage : Vector UInt8 129
  env : LogEnv

/-- What `do_log_work` writes for some works, one after the other. -/
def writtenLog (sha512 : List UInt8 → Digest) (tasks : List LogTask) : List UInt8 :=
  tasks.flatMap fun task => (doLogWork sha512 task.garbage task.env task.payload).getD []

/-- The events of which it writes. -/
def loggedEvents (sha512 : List UInt8 → Digest) (tasks : List LogTask) : List LogEvent :=
  tasks.flatMap fun task =>
    if task.env.Writes then [⟨task.payload, task.env.readFile.map sha512⟩] else []

/-- **The log is the lines of these events.** -/
theorem writtenLog_eq (sha512 : List UInt8 → Digest) (tasks : List LogTask) :
    writtenLog sha512 tasks = auditLog (loggedEvents sha512 tasks) := by
  induction tasks with
  | nil => rfl
  | cons task tasks ih =>
      rw [writtenLog, loggedEvents, List.flatMap_cons, List.flatMap_cons, doLogWork_line,
        ← writtenLog, ih, ← loggedEvents]
      split_ifs
      · simp [auditLog, frames]
      · rfl

/-! ## Reading a line

Decimal numbers end at the first character that is not a digit, and none of them is empty; so the
four numbers of a line can be read back from its beginning. -/

/-- What stands before the first separator. -/
lemma append_cons_inj {α : Type*} {sep : α} : ∀ {x x' y y' : List α}, sep ∉ x → sep ∉ x' →
    x ++ sep :: y = x' ++ sep :: y' → x = x' ∧ y = y'
  | [], [], _, _, _, _, h => ⟨rfl, (List.cons.inj h).2⟩
  | [], a :: x', _, _, _, hx', h => (hx' (List.mem_cons.mpr (Or.inl (List.cons.inj h).1))).elim
  | a :: x, [], _, _, hx, _, h => (hx (List.mem_cons.mpr (Or.inl (List.cons.inj h).1.symm))).elim
  | a :: x, b :: x', _, _, hx, hx', h => by
      obtain ⟨hab, hrest⟩ := List.cons.inj h
      obtain ⟨hxx', hy⟩ := append_cons_inj (fun hm => hx (List.mem_cons_of_mem _ hm))
        (fun hm => hx' (List.mem_cons_of_mem _ hm)) hrest
      exact ⟨by rw [hab, hxx'], hy⟩

/-- The value of some decimal digits. -/
def readDecimal (text : List UInt8) : ℕ :=
  Nat.ofDigits 10 (text.reverse.map fun c => (c - 48).toNat)

lemma readDecimal_decimal (n : ℕ) : readDecimal (decimal n) = n := by
  rw [decimal]
  split_ifs with hn
  · simp [hn, readDecimal]
  · have hdigits : (Nat.digits 10 n).map (fun d => (48 + UInt8.ofNat d - 48).toNat)
        = Nat.digits 10 n := by
      rw [List.map_congr_left, List.map_id]
      intro d hd
      have hlt := Nat.digits_lt_base (by norm_num) hd
      interval_cases d <;> rfl
    rw [readDecimal, ← List.map_reverse, List.reverse_reverse, List.map_map]
    exact (congrArg (Nat.ofDigits 10) hdigits).trans (Nat.ofDigits_digits 10 n)

/-- Only digits are printed. -/
lemma decimal_mem {n : ℕ} {c : UInt8} (hc : c ∈ decimal n) : 48 ≤ c ∧ c ≤ 57 := by
  rw [decimal] at hc
  split_ifs at hc
  · rw [List.mem_singleton.mp hc]
    decide
  · obtain ⟨d, hd, rfl⟩ := List.mem_map.mp hc
    have hlt := Nat.digits_lt_base (by norm_num) (List.mem_reverse.mp hd)
    interval_cases d <;> decide

/-- A sign or a digit. -/
lemma formatInt_mem {x : Int32} {c : UInt8} (hc : c ∈ formatInt x) : c = 45 ∨ 48 ≤ c ∧ c ≤ 57 := by
  rw [formatInt] at hc
  split_ifs at hc
  · exact (List.mem_cons.mp hc).imp id decimal_mem
  · exact Or.inr (decimal_mem hc)

lemma formatInt_injective : Function.Injective formatInt := by
  have hsign : ∀ n m, 45 :: decimal n ≠ decimal m := by
    intro n m h
    have hmem : (45 : UInt8) ∈ decimal m := h ▸ List.mem_cons_self
    exact absurd (decimal_mem hmem).1 (by decide)
  intro x y h
  have habs : ∀ {n m : ℕ}, decimal n = decimal m → n = m := fun {n m} h => by
    rw [← readDecimal_decimal n, h, readDecimal_decimal]
  rw [formatInt, formatInt] at h
  apply Int32.toInt_inj.mp
  split_ifs at h with hx hy hy
  · have := habs (List.cons.inj h).2
    omega
  · exact (hsign _ _ h).elim
  · exact (hsign _ _ h.symm).elim
  · have := habs h
    omega

lemma formatInt_notMem {x : Int32} {c : UInt8} (hsign : c ≠ 45) (hdigit : c < 48 ∨ 57 < c) :
    c ∉ formatInt x := by
  intro hc
  rcases formatInt_mem hc with rfl | ⟨hlow, hhigh⟩
  · exact hsign rfl
  · rcases hdigit with h | h
    · exact absurd hlow (UInt8.not_le.mpr h)
    · exact absurd hhigh (UInt8.not_le.mpr h)

/-! ## The frame around a path

What stands before and behind a path is a `Framing` in the sense of `FileKLRM.Core.Framing`: the
head ends with a label that no number contains, and the two ends cannot be mistaken for one
another. -/

/-- The label has the only semicolon and the newline comes last. -/
lemma hashText_mem {hash : Option Digest} {c : UInt8} (hc : c ∈ hashText hash) :
    c ≠ 59 ∧ c ≠ 10 := by
  cases hash with
  | none =>
      have hall : ∀ c ∈ unavailable, c ≠ 59 ∧ c ≠ 10 := by simp [unavailable]
      exact hall c hc
  | some digest =>
      have hall : ∀ c ∈ hexDigits, c ≠ 59 ∧ c ≠ 10 := by simp [hexDigits]
      exact hall c (digestText_mem hc)

lemma hashText_injective {hash hash' : Option Digest} (h : hashText hash = hashText hash') :
    hash = hash' := by
  have hlen : ∀ digest : Digest, unavailable ≠ digestText digest.toList := by
    intro digest heq
    have hcount := congrArg List.length heq
    rw [(isDigestText_digestText digest).1] at hcount
    exact absurd hcount (by decide)
  cases hash with
  | none =>
      cases hash' with
      | none => rfl
      | some digest => exact (hlen digest h).elim
  | some digest =>
      cases hash' with
      | none => exact (hlen digest h.symm).elim
      | some digest' => rw [digestText_injective h]

lemma logHead_inj {ids ids' : TaskIds} {u v : List UInt8}
    (h : logHead ids ++ u = logHead ids' ++ v) : ids = ids' ∧ u = v := by
  have hno : ∀ x : Int32, (59 : UInt8) ∉ formatInt x :=
    fun x => formatInt_notMem (by decide) (by decide)
  simp only [logHead, List.append_assoc, List.cons_append, List.nil_append, List.cons.injEq,
    true_and] at h
  obtain ⟨htgid, h⟩ := append_cons_inj (hno _) (hno _) h
  simp only [List.cons.injEq, true_and] at h
  obtain ⟨hpid, h⟩ := append_cons_inj (hno _) (hno _) h
  simp only [List.cons.injEq, true_and] at h
  obtain ⟨huid, h⟩ := append_cons_inj (hno _) (hno _) h
  simp only [List.cons.injEq, true_and] at h
  obtain ⟨heuid, h⟩ := append_cons_inj (hno _) (hno _) h
  simp only [List.cons.injEq, true_and] at h
  have huser : ∀ {x y : UInt32}, formatInt x.toInt32 = formatInt y.toInt32 → x = y :=
    fun hxy => congrArg Int32.toUInt32 (formatInt_injective hxy)
  refine ⟨?_, h⟩
  cases ids
  cases ids'
  simp only [TaskIds.mk.injEq]
  exact ⟨formatInt_injective htgid, formatInt_injective hpid, huser huid, huser heuid⟩

lemma logHead_last (ids : TaskIds) : ∃ start, logHead ids = start ++ [58] :=
  ⟨_, (List.append_assoc _ [59, 101, 120, 101] [58]).symm⟩

/-- The head holds no `h`, and no semicolon at its end. -/
lemma logHead_notMem (ids : TaskIds) : (104 : UInt8) ∉ logHead ids := by
  have hno : ∀ x : Int32, (104 : UInt8) ∉ formatInt x :=
    fun x => formatInt_notMem (by decide) (by decide)
  simp [logHead, hno]

/-- **A line can be taken apart around its path.** -/
theorem log_framing : Framing logHead logStop where
  head_inj := fun _ _ _ _ => logHead_inj
  stop_inj := by
    intro s t u v h
    have hno : ∀ hash, (10 : UInt8) ∉ hashLabel ++ hashText hash := by
      intro hash hmem
      rcases List.mem_append.mp hmem with hmem | hmem
      · exact absurd hmem (by decide)
      · exact (hashText_mem hmem).2 rfl
    rw [logStop, logStop, ← List.append_cons, ← List.append_cons] at h
    obtain ⟨htext, huv⟩ := append_cons_inj (hno s) (hno t) h
    exact ⟨hashText_injective (List.append_cancel_left htext), huv⟩
  stop_apart := by
    intro s t q u v hq h
    rw [List.append_assoc] at h
    rcases List.append_eq_append_iff.mp h with ⟨more, hmore, -⟩ | ⟨more, hmore, hrest⟩
    · exact ⟨more, hmore.symm⟩
    · cases more with
      | nil => exact ⟨[], by simpa using hmore⟩
      | cons b more =>
          -- a second semicolon in one end
          obtain ⟨a, q, rfl⟩ := List.exists_cons_of_ne_nil hq
          simp only [logStop, hashLabel, List.cons_append, List.cons.injEq] at hrest hmore
          have hmem : (59 : UInt8) ∈ q ++ b :: more := by simp [hrest.1]
          rw [← hmore.2] at hmem
          have hmem' : (59 : UInt8) ∈ hashText s := by simpa using hmem
          exact ((hashText_mem hmem').1 rfl).elim
  head_apart := by
    intro ids t q u v h
    rw [List.append_assoc] at h
    rcases List.append_eq_append_iff.mp h with ⟨more, hmore, -⟩ | ⟨more, hmore, hrest⟩
    · exact ⟨more, hmore.symm⟩
    · cases more with
      | nil => exact ⟨[], by simpa using hmore⟩
      | cons b more =>
          simp only [logStop, hashLabel, List.cons_append, List.cons.injEq] at hrest
          cases more with
          | nil =>
              obtain ⟨start, hstart⟩ := logHead_last ids
              have hlast := congrArg List.getLast? (hstart.symm.trans hmore)
              simp [← hrest.1] at hlast
          | cons c more =>
              have hmem : (104 : UInt8) ∈ logHead ids := by
                rw [hmore]
                simp only [List.cons_append, List.cons.injEq] at hrest
                simp [hrest.2.1]
              exact (logHead_notMem ids hmem).elim
  stop_ne_nil := by
    intro s h
    simp [logStop] at h

/-! ## Reading the log

`ForgesLine` is the path that the format does not survive.  Every other path is read back,
whatever else it contains, newlines included. -/

/-- A path that holds the end of a line and behind it the beginning of another. -/
def ForgesLine (pathname : List UInt8) : Prop := Forges logHead logStop pathname

/-- Such a path has a newline. -/
lemma not_forgesLine {pathname : List UInt8} (h : (10 : UInt8) ∉ pathname) :
    ¬ ForgesLine pathname := by
  rintro ⟨s, ids, hin⟩
  exact h (hin.subset (by simp [logStop]))

/-- Nor does a path that is too short for the end of a line. -/
lemma not_forgesLine_of_short {pathname : List UInt8} (h : pathname.length < 7) :
    ¬ ForgesLine pathname := by
  rintro ⟨s, ids, hin⟩
  have hle := hin.length_le
  simp only [logStop, hashLabel, List.length_append, List.length_cons, List.length_nil] at hle
  omega

/-- The lines tell events apart whose paths forge none. -/
lemma auditLog_injOn :
    Set.InjOn auditLog {events | ∀ e ∈ events, ¬ ForgesLine e.work.pathname} := by
  intro events hevents events' hevents' h
  have hparts : ∀ {es : List LogEvent}, (∀ e ∈ es, ¬ ForgesLine e.work.pathname) →
      ∀ r ∈ es.map LogEvent.parts, ¬ Forges logHead logStop r.2.1 := by
    intro es hes r hr
    obtain ⟨e, he, rfl⟩ := List.mem_map.mp hr
    exact hes e he
  exact LogEvent.parts_injective.list_map
    (log_framing.frames_injective (hparts hevents) (hparts hevents') h)

/-- **What `do_log_work` has written for two sequences of works tells which events it has written
    of**, if no path forges a line. -/
theorem writtenLog_injective {sha512 : List UInt8 → Digest} {tasks tasks' : List LogTask}
    (htasks : ∀ task ∈ tasks, ¬ ForgesLine task.payload.pathname)
    (htasks' : ∀ task ∈ tasks', ¬ ForgesLine task.payload.pathname)
    (h : writtenLog sha512 tasks = writtenLog sha512 tasks') :
    loggedEvents sha512 tasks = loggedEvents sha512 tasks' := by
  have hevents : ∀ {ts : List LogTask}, (∀ task ∈ ts, ¬ ForgesLine task.payload.pathname) →
      ∀ e ∈ loggedEvents sha512 ts, ¬ ForgesLine e.work.pathname := by
    intro ts hts e he
    obtain ⟨task, htask, heq⟩ := List.mem_flatMap.mp he
    split_ifs at heq
    · rw [List.mem_singleton.mp heq]
      exact hts task htask
    · cases heq
  rw [writtenLog_eq, writtenLog_eq] at h
  exact auditLog_injOn (hevents htasks) (hevents htasks') h

/-- **A log whose paths forge no line can be read back.** -/
theorem auditLog_injective {events events' : List LogEvent}
    (hevents : ∀ e ∈ events, ¬ ForgesLine e.work.pathname)
    (hevents' : ∀ e ∈ events', ¬ ForgesLine e.work.pathname)
    (h : auditLog events = auditLog events') : events = events' :=
  auditLog_injOn hevents hevents' h

/-- An event with a path of one letter. -/
def plainEvent (ids : TaskIds) (name : UInt8) (hname : name ≠ 0) : LogEvent where
  work := { ids with pathname := [47, name], no_nul := by simp [hname] }
  hash := none

/-- Two events: the path `/b`, a newline, and no digest; and the path `/c` with a digest. -/
def twoEvents (digest : Digest) : List LogEvent :=
  [⟨{ tgid := 1, pid := 1, uid := 0, euid := 0, pathname := [47, 98, 10], no_nul := by simp },
    none⟩,
    ⟨{ tgid := 1, pid := 2, uid := 0, euid := 5, pathname := [47, 99], no_nul := by simp },
    some digest⟩]

lemma not_forgesLine_twoEvents (digest : Digest) :
    ∀ e ∈ twoEvents digest, ¬ ForgesLine e.work.pathname := by
  intro e he
  rcases List.mem_pair.mp he with rfl | rfl
  · exact not_forgesLine_of_short (by norm_num)
  · exact not_forgesLine (by simp)

/-- The log of the two is read back, from the same log written the other way, and differs from
    the one with another digest. -/
theorem auditLog_injective_two :
    twoEvents (Vector.replicate 64 0) = (twoEvents (Vector.replicate 64 0)).reverse.reverse ∧
      auditLog (twoEvents (Vector.replicate 64 0)) ≠
        auditLog (twoEvents (Vector.replicate 64 1)) := by
  refine ⟨auditLog_injective (not_forgesLine_twoEvents _) (not_forgesLine_twoEvents _) rfl,
    fun h => ?_⟩
  have hsame := auditLog_injective (not_forgesLine_twoEvents _) (not_forgesLine_twoEvents _) h
  simp only [twoEvents, List.cons.injEq, LogEvent.mk.injEq, Option.some.injEq, and_true,
    true_and] at hsame
  exact absurd (congrArg (fun v : Digest => v[0]) hsame) (by decide)

/-- **Any path that forges a line makes one event read as two.** -/
theorem auditLog_ambiguous {e : LogEvent} (h : ForgesLine e.work.pathname) :
    ∃ e₁ e₂, auditLog [e] = auditLog [e₁, e₂] := by
  obtain ⟨before, s, ids, after, hpath, hframes⟩ := h.split e.work.toTaskIds e.hash
  have hnul := e.work.no_nul
  rw [hpath] at hnul
  refine ⟨⟨⟨e.work.toTaskIds, before, fun b hb => hnul b (by simp [hb])⟩, s⟩,
    ⟨⟨ids, after, fun b hb => hnul b (by simp [hb])⟩, e.hash⟩, ?_⟩
  simpa [auditLog, LogEvent.parts] using hframes

/-- An event whose path is `/a;hash:unavailable`, a newline, `TGID:1;PID:1;UID:0;EUID:0;exe:/b`. -/
def forgedEvent : LogEvent where
  work :=
    { tgid := 7, pid := 7, uid := 1000, euid := 1000
      pathname := [47, 97] ++ logStop none ++ logHead ⟨1, 1, 0, 0⟩ ++ [47, 98]
      no_nul := @of_decide_eq_true _ (List.decidableBAll _ _) rfl }
  hash := none

/-- One event is written as two are. -/
theorem auditLog_forged :
    auditLog [forgedEvent]
        = auditLog [plainEvent ⟨7, 7, 1000, 1000⟩ 97 (by decide),
            plainEvent ⟨1, 1, 0, 0⟩ 98 (by decide)] ∧
      [forgedEvent]
        ≠ [plainEvent ⟨7, 7, 1000, 1000⟩ 97 (by decide),
            plainEvent ⟨1, 1, 0, 0⟩ 98 (by decide)] := by
  refine ⟨?_, fun h => by simpa using congrArg List.length h⟩
  simp [auditLog, frames, frame, LogEvent.parts, forgedEvent, plainEvent]

end KLRM
