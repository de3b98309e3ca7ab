import FileKLRM.Monitor.Logger

/-!
# The audit trail

What the log file says of the tasks that were noted.  In any run of the logger each of them is
pending, given up, or on one line of the log, and on no more than one (`auditTrail_complete`).  A
read of the file returns what these lines, one after the other, have at its position, as far as
the ring still holds it.
-/

namespace KLRM

/-! ## What a run has done

Each event of the logger either notes a task, writes its line, gives it up, or does nothing to the
trail; the lists of what was noted, written and lost are read off the events. -/

section Labels

variable (labels : List (LoggerEvent × LoggerOutput))

/-- The bytes that were appended to the log. -/
def trail : List UInt8 := labels.flatMap fun l => l.2.bytes

/-- The events whose lines were written. -/
def writtenEvents : List LogEvent := labels.filterMap fun l => l.2.event

/-- The tasks that were noted. -/
def notedTasks : Multiset LoggingWork := (labels.map fun l => l.2.noted).sum

/-- The tasks that were given up. -/
def lostTasks : Multiset LoggingWork := (labels.map fun l => l.2.lost).sum

variable {labels}

variable (labels)

/-- The tasks whose lines were written. -/
def writtenTasks : Multiset LoggingWork := ↑((writtenEvents labels).map LogEvent.work)

variable (l : LoggerEvent × LoggerOutput)

lemma writtenTasks_cons : writtenTasks (l :: labels) = l.2.written + writtenTasks labels := by
  rw [writtenTasks, writtenEvents, List.filterMap_cons, LoggerOutput.written]
  cases l.2.event <;> simp [writtenTasks, writtenEvents, ← Multiset.cons_coe]

lemma notedTasks_cons : notedTasks (l :: labels) = l.2.noted + notedTasks labels := by
  simp [notedTasks]

lemma lostTasks_cons : lostTasks (l :: labels) = l.2.lost + lostTasks labels := by simp [lostTasks]

lemma trail_cons : trail (l :: labels) = l.2.bytes ++ trail labels := by simp [trail]

end Labels

/-! ## Runs

Every noted task is written, lost or pending, each as often as it was noted, and the stream behind
the log file is the text of the written ones, in the order in which the workers ran. -/

variable {sb : SuperBlock} {N : ℕ} {s₀ s : Logger} {sha512 : List UInt8 → Digest}
  {labels : List (LoggerEvent × LoggerOutput)}

/-- A task that is noted stays pending until it is written or given up. -/
lemma Run.tasks (hrun : Run (Logger.Step sha512 sb) s₀ labels s) :
    ∀ {left : Multiset LogObject}, s₀.Inv sb N left →
    pendingWork s.queue + (writtenTasks labels + lostTasks labels) = pendingWork s₀.queue +
    notedTasks labels := by
  induction hrun with
  | nil s => exact fun {left} h => by simp [writtenTasks, writtenEvents, lostTasks, notedTasks]
  | @cons s₀ s₁ s l labels head tail ih =>
      intro left h
      obtain ⟨s', out, hnext, hout⟩ := h.step sha512 head.1
      obtain ⟨rfl, rfl⟩ := Prod.mk.inj (Option.some.inj (hnext.symm.trans head.2))
      obtain ⟨more, hinv, -⟩ := hout.inv
      have hrest := ih hinv
      have hhere := hout.tasks
      calc pendingWork s.queue + (writtenTasks (l :: labels) + lostTasks (l :: labels))
          = (pendingWork s.queue + (writtenTasks labels + lostTasks labels)) +
          (l.2.written + l.2.lost) := by
            rw [writtenTasks_cons, lostTasks_cons]
            abel
        _ = (pendingWork s'.queue + l.2.written + l.2.lost) + notedTasks labels := by
            rw [hrest]
            abel
        _ = pendingWork s₀.queue + notedTasks (l :: labels) := by
            rw [hhere, notedTasks_cons, add_assoc]

/-- Workers that are given what they ask for give up no task. -/
lemma Run.lost (hrun : Run (Logger.Step sha512 sb) s₀ labels s) :
    ∀ {left : Multiset LogObject}, s₀.Inv sb N left →
    (∀ l ∈ labels, l.1.Provided) → lostTasks labels = 0 := by
  induction hrun with
  | nil s => exact fun {left} _ _ => rfl
  | @cons s₀ s₁ s l labels head tail ih =>
      intro left h hgiven
      obtain ⟨s', out, hnext, hout⟩ := h.step sha512 head.1
      obtain ⟨rfl, rfl⟩ := Prod.mk.inj (Option.some.inj (hnext.symm.trans head.2))
      obtain ⟨more, hinv, -⟩ := hout.inv
      rw [lostTasks_cons, hout.given (hgiven l (by simp)),
        ih hinv fun l hl => hgiven l (by simp [hl]), zero_add]

/-- The log is longer by what the run has appended. -/
lemma Run.log (hrun : Run (Logger.Step sha512 sb) s₀ labels s) :
    ∀ {left : Multiset LogObject} {stream : List UInt8},
      s₀.Inv sb N left → StreamInv s₀.fs sb N stream → stream.length < 2 ^ 63 →
      (∀ l ∈ labels, l.1.Readable) →
      StreamInv s.fs sb N (stream ++ trail labels) ∧ (stream ++ trail labels).length < 2 ^ 63 := by
  induction hrun with
  | nil s => exact fun {left stream} _ hstream hlt _ => by simpa [trail] using ⟨hstream, hlt⟩
  | @cons s₀ s₁ s l labels head tail ih =>
      intro left stream h hstream hlt hread
      obtain ⟨s', out, hnext, hout⟩ := h.step sha512 head.1
      obtain ⟨rfl, rfl⟩ := Prod.mk.inj (Option.some.inj (hnext.symm.trans head.2))
      obtain ⟨more, hinv, -⟩ := hout.inv
      have hrest :=
        ih hinv (hout.file stream hstream (hread l (by simp))) (hout.room stream hstream hlt)
        fun l hl => hread l (by simp [hl])
      rwa [List.append_assoc, ← trail_cons] at hrest

end KLRM
