import FileKLRM.Monitor.Ioctl

/-!
# What rejected requests do to the others

Two runs from one state: all the requests, and the requests without those whose password check
fails.  The first state is always the second with some more read holds on `rec_sem`
(`RwSem.held`): the three path handlers return `-EACCES` with the hold they took.  A reader does not
notice, a writer waits for ever.

`Interferes` says when that happens: a request that passes its check and switches `rec` finds on
`rec_sem` nothing but holds that rejected requests of this run left.  `noninterference_iff` is the
exact result, for every run from every state.
-/

namespace KLRM

variable {σ ω : Type*}

/-! ## Dispatch

`command` is what the three high bits of a code ask for, before any handler is called, and
`handle` the handler that is. -/

/-- The handlers `dev_ioctl` dispatches to. -/
inductive Command
  | path (op : PathOp)
  | set
  | switchRec
deriving DecidableEq

namespace IoctlRequest

/-- The handler that gets the request, if any does. -/
def command (r : IoctlRequest ω) : Option Command :=
  if !r.allocOk then none
  else if (r.code &&& ~~~codeMask).toNat ≠ klrmInputSize then none
  else if !r.copyOk then none
  else if r.code &&& codeMask = 0x00000000 then some (.path .add)
  else if r.code &&& codeMask = 0x20000000 then some (.path .rm)
  else if r.code &&& codeMask = 0x40000000 then some (.path .check)
  else if r.code &&& codeMask = 0x60000000 then some .set
  else if r.code &&& codeMask = 0x80000000 then some .switchRec
  else none

end IoctlRequest

namespace Config

variable (cfg : Config σ ω)

/-- The handler's body. -/
def handle (r : IoctlRequest ω) (m : Monitor σ) : Command → Option ℤ × Monitor σ
  | .path op => cfg.klrmPath op r m
  | .set => cfg.klrmSet r m
  | .switchRec => cfg.klrmRec r m

/-- What `dev_ioctl` can do, whatever it has copied: return without a handler, the state as it
    was, or run one. -/
lemma devIoctl_buffer_cases (r : IoctlRequest ω) :
    (r.command = none ∧ ∃ ret, ∀ buffer m,
      cfg.devIoctl { r with buffer := buffer } m = (some ret, m)) ∨ ∃ c, r.command = some c ∧
        ∀ buffer m, cfg.devIoctl { r with buffer := buffer } m
          = cfg.handle { r with buffer := buffer } m c := by
  unfold IoctlRequest.command devIoctl
  by_cases halloc : (!r.allocOk) = true
  · simp only [if_pos halloc]
    exact Or.inl ⟨trivial, _, fun _ _ => rfl⟩
  by_cases hsize : (r.code &&& ~~~codeMask).toNat ≠ klrmInputSize
  · simp only [if_neg halloc, if_pos hsize]
    exact Or.inl ⟨trivial, _, fun _ _ => rfl⟩
  by_cases hcopy : (!r.copyOk) = true
  · simp only [if_neg halloc, if_neg hsize, if_pos hcopy]
    exact Or.inl ⟨trivial, _, fun _ _ => rfl⟩
  simp only [if_neg halloc, if_neg hsize, if_neg hcopy]
  by_cases hadd : r.code &&& codeMask = 0x00000000
  · simp only [if_pos hadd]
    exact Or.inr ⟨_, rfl, fun _ _ => rfl⟩
  by_cases hrm : r.code &&& codeMask = 0x20000000
  · simp only [if_neg hadd, if_pos hrm]
    exact Or.inr ⟨_, rfl, fun _ _ => rfl⟩
  by_cases hcheck : r.code &&& codeMask = 0x40000000
  · simp only [if_neg hadd, if_neg hrm, if_pos hcheck]
    exact Or.inr ⟨_, rfl, fun _ _ => rfl⟩
  by_cases hset : r.code &&& codeMask = 0x60000000
  · simp only [if_neg hadd, if_neg hrm, if_neg hcheck, if_pos hset]
    exact Or.inr ⟨_, rfl, fun _ _ => rfl⟩
  by_cases hrec : r.code &&& codeMask = 0x80000000
  · simp only [if_neg hadd, if_neg hrm, if_neg hcheck, if_neg hset, if_pos hrec]
    exact Or.inr ⟨_, rfl, fun _ _ => rfl⟩
  · simp only [if_neg hadd, if_neg hrm, if_neg hcheck, if_neg hset, if_neg hrec]
    exact Or.inl ⟨trivial, _, fun _ _ => rfl⟩

lemma devIoctl_cases (r : IoctlRequest ω) :
    (r.command = none ∧ ∃ ret, ∀ m, cfg.devIoctl r m = (some ret, m)) ∨
      ∃ c, r.command = some c ∧ ∀ m, cfg.devIoctl r m = cfg.handle r m c := by
  rcases cfg.devIoctl_buffer_cases r with ⟨hnone, ret, hrun⟩ | ⟨c, hc, hrun⟩
  · exact Or.inl ⟨hnone, ret, fun m => hrun r.buffer m⟩
  · exact Or.inr ⟨c, hc, fun m => hrun r.buffer m⟩

/-! ## The two runs

The requests that remain are picked out by what the password check answers them, which is the same
in both runs, and the replies are compared one by one. -/

/-- The request's password does not pass. -/
def passwordFails (r : IoctlRequest ω) : Bool := cfg.checkPassword r.crypto r.password ≠ 0

/-- The request is let through to its path operation's password check. -/
def admitted (m : Monitor σ) : Bool :=
  match cfg.stateMachineEnterRecOn m with
  | some (true, _) => true
  | some (false, _) | none => false

/-- In this state the request's password is checked and fails. -/
def rejects (r : IoctlRequest ω) (m : Monitor σ) : Bool :=
  match r.command with
  | none => false
  | some (.path _) => cfg.admitted m && cfg.passwordFails r
  | some .set | some .switchRec => cfg.passwordFails r

/-- A rejected request that leaves a read hold on `rec_sem`. -/
def leavesHold (r : IoctlRequest ω) (m : Monitor σ) : Bool :=
  match r.command with
  | some (.path _) => cfg.rejects r m
  | none | some .set | some .switchRec => false

/-- A run: the replies and the last state. -/
def run : List (IoctlRequest ω) → Monitor σ → List (Option ℤ) × Monitor σ
  | [], m => ([], m)
  | r :: rs, m =>
      let (reply, m') := cfg.devIoctl r m
      let (replies, last) := run rs m'
      (reply :: replies, last)

/-- The requests of a run that are not rejected in it. -/
def remaining : List (IoctlRequest ω) → Monitor σ → List (IoctlRequest ω)
  | [], _ => []
  | r :: rs, m =>
      let rest := remaining rs (cfg.devIoctl r m).2
      if cfg.rejects r m then rest else r :: rest

/-- Their replies in the run. -/
def remainingReplies : List (IoctlRequest ω) → Monitor σ → List (Option ℤ)
  | [], _ => []
  | r :: rs, m =>
      let rest := remainingReplies rs (cfg.devIoctl r m).2
      if cfg.rejects r m then rest else (cfg.devIoctl r m).1 :: rest

/-- The run of all requests from `m` and the run of those that remain from `d`: the same replies to
    these, a reply that never comes included, and the same store and toggles in the end. -/
structure Agree (rs : List (IoctlRequest ω)) (m d : Monitor σ) : Prop where
  replies : (cfg.run (cfg.remaining rs m) d).1 = cfg.remainingReplies rs m
  store : (cfg.run (cfg.remaining rs m) d).2.store = (cfg.run rs m).2.store
  recToggle : (cfg.run (cfg.remaining rs m) d).2.recToggle = (cfg.run rs m).2.recToggle
  setToggle : (cfg.run (cfg.remaining rs m) d).2.setToggle = (cfg.run rs m).2.setToggle

/-- The request passes its check and asks `klrm_rec` for `"on"` or `"off"`. -/
def switchesRec (r : IoctlRequest ω) : Prop :=
  r.command = some .switchRec ∧ cfg.passwordFails r = false ∧ parseToggle r.path ≠ none

/-- Some request of the run switches `rec` when `rec_sem` is held, by no writer and by exactly
    the readers that rejected requests left: `n` of them before the run, and one for each that it
    has rejected since. -/
def Interferes (n : ℕ) : List (IoctlRequest ω) → Monitor σ → Prop
  | [], _ => False
  | r :: rs, m =>
      (cfg.switchesRec r ∧ 0 < n ∧ m.recSem.readers = n ∧ m.recSem.writer = false) ∨
        Interferes (if cfg.leavesHold r m then n + 1 else n) rs (cfg.devIoctl r m).2

end Config

/-! ## The simulation

One lemma for each handler on a monitor with additional holds: it replies the same and leaves the
same holds, or it is a writer that now waits for ever. -/

/-- The state with `n` more read holds on `rec_sem`. -/
def Monitor.held (n : ℕ) (m : Monitor σ) : Monitor σ := { m with recSem := m.recSem.held n }

namespace Config

variable (cfg : Config σ ω)

lemma enterRecOn_held (n : ℕ) (m : Monitor σ) :
    cfg.stateMachineEnterRecOn (m.held n)
      = (cfg.stateMachineEnterRecOn m).map fun e => (e.1, e.2.held n) := by
  unfold stateMachineEnterRecOn Monitor.held
  simp only [RwSem.downRead_held]
  cases hsem : m.recSem.downRead cfg.overtake with
  | none => rfl
  | some sem =>
      obtain ⟨rfl, -⟩ := RwSem.downRead_eq_some hsem
      simp only [Option.map_some]
      split_ifs
      · rfl
      · rw [RwSem.upRead_held_one, RwSem.upRead_held]

/-- Entering takes one hold, which is given back unless `rec` is on. -/
lemma enterRecOn_eq_some {m : Monitor σ} {b : Bool} {sem : RwSem}
    (h : cfg.stateMachineEnterRecOn m = some (b, sem)) :
    sem = if b then m.recSem.held 1 else m.recSem := by
  unfold stateMachineEnterRecOn at h
  cases hsem : m.recSem.downRead cfg.overtake with
  | none => simp [hsem] at h
  | some s =>
      obtain ⟨rfl, -⟩ := RwSem.downRead_eq_some hsem
      simp only [hsem, Option.map_some] at h
      split_ifs at h
      · cases h
        rfl
      · cases h
        rfl

/-- A rejected request leaves everything as it was, but for the hold it may keep. -/
lemma devIoctl_of_rejects {r : IoctlRequest ω} {m : Monitor σ} (h : cfg.rejects r m = true) :
    (cfg.devIoctl r m).2 = m.held (if cfg.leavesHold r m then 1 else 0) := by
  rcases cfg.devIoctl_cases r with ⟨hnone, -⟩ | ⟨c, hc, hrun⟩
  · simp [rejects, hnone] at h
  · rw [hrun]
    cases c with
    | path op =>
        have hleaves : cfg.leavesHold r m = true := by simpa [leavesHold, hc] using h
        simp only [rejects, hc, Bool.and_eq_true, admitted, passwordFails] at h
        rw [hleaves, if_pos rfl]
        unfold handle klrmPath
        cases henter : cfg.stateMachineEnterRecOn m with
        | none => simp [henter] at h
        | some e =>
            obtain ⟨b, sem⟩ := e
            cases b with
            | false => simp [henter] at h
            | true =>
                have hsem := cfg.enterRecOn_eq_some henter
                simp only [hsem]
                rw [if_pos (by simpa using h.2)]
                rfl
    | set =>
        have hleaves : cfg.leavesHold r m = false := by simp [leavesHold, hc]
        simp only [rejects, hc, passwordFails, decide_eq_true_eq] at h
        rw [hleaves]
        simp only [handle, klrmSet, if_pos h]
        rfl
    | switchRec =>
        have hleaves : cfg.leavesHold r m = false := by simp [leavesHold, hc]
        simp only [rejects, hc, passwordFails, decide_eq_true_eq] at h
        rw [hleaves]
        simp only [handle, klrmRec, if_pos h]
        rfl

/-- A path request that is not rejected does not see the other read holds. -/
lemma klrmPath_held {op : PathOp} {r : IoctlRequest ω} {n : ℕ} {m : Monitor σ}
    (h : (cfg.admitted (m.held n) && cfg.passwordFails r) = false) :
    cfg.klrmPath op r (m.held n)
      = ((cfg.klrmPath op r m).1, (cfg.klrmPath op r m).2.held n) := by
  unfold klrmPath
  rw [cfg.enterRecOn_held]
  cases henter : cfg.stateMachineEnterRecOn m with
  | none => rfl
  | some e =>
      obtain ⟨b, sem⟩ := e
      have hsem := cfg.enterRecOn_eq_some henter
      cases b with
      | false => rfl
      | true =>
          simp only [admitted, cfg.enterRecOn_held, henter, Option.map_some, Bool.true_and,
            passwordFails, decide_eq_false_iff_not] at h
          simp only [Option.map_some, if_neg h, if_true] at hsem ⊢
          cases hstore : cfg.pathStore op r.path r.world m.store with
          | mk ret store =>
              cases ret with
              | none => simp only [Monitor.held, hstore]
              | some ret =>
                  rw [hsem]
                  simp only [Monitor.held, hstore, RwSem.upRead_held_one, RwSem.upRead_held]

lemma klrmSet_held (r : IoctlRequest ω) (n : ℕ) (m : Monitor σ) :
    cfg.klrmSet r (m.held n) = ((cfg.klrmSet r m).1, (cfg.klrmSet r m).2.held n) := by
  unfold klrmSet
  split_ifs
  · rfl
  · cases parseToggle r.path with
    | none => rfl
    | some t =>
        simp only [Monitor.held]
        cases m.setSem.downWrite <;> rfl

/-- Switching `rec` does not see the other read holds, unless they alone keep it waiting. -/
lemma klrmRec_held {r : IoctlRequest ω} {n : ℕ} {m : Monitor σ}
    (h : cfg.passwordFails r = false → parseToggle r.path ≠ none →
      ¬ (0 < n ∧ m.recSem.readers = 0 ∧ m.recSem.writer = false)) :
    cfg.klrmRec r (m.held n) = ((cfg.klrmRec r m).1, (cfg.klrmRec r m).2.held n) := by
  unfold klrmRec
  by_cases hpass : cfg.checkPassword r.crypto r.password ≠ 0
  · rw [if_pos hpass, if_pos hpass]
  · rw [if_neg hpass, if_neg hpass]
    cases ht : parseToggle r.path with
    | none => rfl
    | some t =>
        have hheld := RwSem.downWrite_held (h (by simpa [passwordFails] using hpass) (by simp [ht]))
        simp only [Monitor.held] at hheld ⊢
        cases hdown : m.recSem.downWrite with
        | none =>
            rw [hdown] at hheld
            rw [Option.map_eq_none_iff.mp hheld]
            rfl
        | some sem =>
            rw [hdown] at hheld
            obtain ⟨sem', hsem', hup⟩ := Option.map_eq_some_iff.mp hheld
            rw [hsem']
            simp only [hup]

/-- A request that is not rejected gets the same reply and leaves the same state, the other read
    holds apart, unless it switches `rec` and they alone keep it waiting. -/
lemma devIoctl_held {r : IoctlRequest ω} {n : ℕ} {m : Monitor σ}
    (hrej : cfg.rejects r (m.held n) = false)
    (hfree : ¬ (cfg.switchesRec r ∧ 0 < n ∧ (m.held n).recSem.readers = n ∧
      (m.held n).recSem.writer = false)) :
    cfg.devIoctl r (m.held n) = ((cfg.devIoctl r m).1, (cfg.devIoctl r m).2.held n) := by
  rcases cfg.devIoctl_cases r with ⟨-, ret, hrun⟩ | ⟨c, hc, hrun⟩
  · rw [hrun, hrun]
  · rw [hrun, hrun]
    cases c with
    | path op => exact cfg.klrmPath_held (by simpa [rejects, hc] using hrej)
    | set => exact cfg.klrmSet_held r n m
    | switchRec =>
        refine cfg.klrmRec_held fun hpass hparse hblock => hfree ⟨⟨hc, hpass, hparse⟩,
          hblock.1, ?_, ?_⟩
        · show m.recSem.readers + n = n
          rw [hblock.2.1, Nat.zero_add]
        · exact hblock.2.2

/-- A request that switches `rec` and finds only other requests' read holds waits for ever, and
    returns 0 without them. -/
lemma devIoctl_blocked {r : IoctlRequest ω} {n : ℕ} {m : Monitor σ}
    (h : cfg.switchesRec r ∧ 0 < n ∧ (m.held n).recSem.readers = n ∧
      (m.held n).recSem.writer = false) :
    (cfg.devIoctl r (m.held n)).1 = none ∧ (cfg.devIoctl r m).1 = some 0 := by
  obtain ⟨⟨hc, hpass, hparse⟩, hn, hreaders, hwriter⟩ := h
  have hreaders0 : m.recSem.readers = 0 := by
    have : m.recSem.readers + n = n := hreaders
    omega
  obtain ⟨t, ht⟩ := Option.ne_none_iff_exists'.mp hparse
  have hok : ¬ cfg.checkPassword r.crypto r.password ≠ 0 := by simpa [passwordFails] using hpass
  rcases cfg.devIoctl_cases r with ⟨hnone, -⟩ | ⟨c, hc', hrun⟩
  · rw [hc] at hnone
    cases hnone
  · rw [hc] at hc'
    cases hc'
    rw [hrun, hrun]
    constructor
    · have hdown : (m.held n).recSem.downWrite = none :=
        if_neg fun hfree => absurd (hreaders.symm.trans hfree.2) hn.ne'
      simp only [handle, klrmRec, if_neg hok, ht, hdown]
    · have hdown : m.recSem.downWrite = some { m.recSem with writer := true } :=
        if_pos ⟨hwriter, hreaders0⟩
      simp only [handle, klrmRec, if_neg hok, ht, hdown]

/-- A request that switches `rec` is not rejected. -/
lemma not_switchesRec_of_rejects {r : IoctlRequest ω} {m : Monitor σ} (h : cfg.rejects r m = true) :
    ¬ cfg.switchesRec r := by
  rintro ⟨hc, hpass, -⟩
  simp [rejects, hc, hpass] at h

lemma not_leavesHold {r : IoctlRequest ω} {m : Monitor σ} (h : cfg.rejects r m = false) :
    cfg.leavesHold r m = false := by
  unfold leavesHold
  split
  · exact h
  · rfl
  · rfl
  · rfl

lemma agree_def {rs : List (IoctlRequest ω)} {m d : Monitor σ} :
    cfg.Agree rs m d ↔ (cfg.run (cfg.remaining rs m) d).1 = cfg.remainingReplies rs m ∧
      (cfg.run (cfg.remaining rs m) d).2.store = (cfg.run rs m).2.store ∧
      (cfg.run (cfg.remaining rs m) d).2.recToggle = (cfg.run rs m).2.recToggle ∧
      (cfg.run (cfg.remaining rs m) d).2.setToggle = (cfg.run rs m).2.setToggle :=
  ⟨fun ⟨h₁, h₂, h₃, h₄⟩ => ⟨h₁, h₂, h₃, h₄⟩, fun ⟨h₁, h₂, h₃, h₄⟩ => ⟨h₁, h₂, h₃, h₄⟩⟩

/-- With `n` read holds more at the start, the run of all requests agrees with the run of the
    remaining ones unless a request that switches `rec` comes to wait. -/
lemma agree_iff (rs : List (IoctlRequest ω)) : ∀ (n : ℕ) (m : Monitor σ),
    cfg.Agree rs (m.held n) m ↔ ¬ cfg.Interferes n rs (m.held n) := by
  induction rs with
  | nil => exact fun _ _ => ⟨fun _ h => h, fun _ => ⟨rfl, rfl, rfl, rfl⟩⟩
  | cons r rs ih =>
      intro n m
      simp only [agree_def] at ih ⊢
      simp only [remaining, remainingReplies, Interferes, run]
      cases hrej : cfg.rejects r (m.held n) with
      | true =>
          -- deleted: the other run stays where it is
          have hnot := cfg.not_switchesRec_of_rejects hrej
          have hnext : (cfg.devIoctl r (m.held n)).2
              = m.held (if cfg.leavesHold r (m.held n) then n + 1 else n) := by
            rw [cfg.devIoctl_of_rejects hrej]
            split_ifs
            · simp only [Monitor.held, RwSem.held_held]
            · rfl
          simp only [if_true, hnext, ih, hnot, false_and, false_or]
      | false =>
          simp only [Bool.false_eq_true, if_false, run, cfg.not_leavesHold hrej]
          by_cases hblock : cfg.switchesRec r ∧ 0 < n ∧ (m.held n).recSem.readers = n ∧
              (m.held n).recSem.writer = false
          · obtain ⟨hnone, hzero⟩ := cfg.devIoctl_blocked hblock
            simp [hnone, hzero, hblock]
          · have hnext := cfg.devIoctl_held hrej hblock
            simp only [hnext, List.cons.injEq, true_and, hblock, false_or]
            exact ih n (cfg.devIoctl r m).2

end Config

/-- **Rejected requests and the others.**  Deleting the requests whose password check fails changes
    neither the store, nor the toggles, nor what any remaining request gets, if and only if no
    request that switches `rec` comes when only their holds are on `rec_sem`. -/
theorem noninterference_iff (cfg : Config σ ω) (rs : List (IoctlRequest ω)) (m : Monitor σ) :
    cfg.Agree rs m m ↔ ¬ cfg.Interferes 0 rs m := cfg.agree_iff rs 0 m

/-- **One wrong password locks `rec`.**  An add with a wrong password is rejected, and a `rec off`
    with the right one waits for ever; without the add it returns 0. -/
theorem interference_wrong_password :
    ¬ emptyConfig.Agree
      [plainRequest 0x00001080 [120] [47], plainRequest 0x80001080 [115] [111, 102, 102]]
      ⟨RwSem.initial, RwSem.initial, .on, .on, ()⟩
      ⟨RwSem.initial, RwSem.initial, .on, .on, ()⟩ := by
  intro h
  refine (emptyConfig.agree_iff _ 0 ⟨RwSem.initial, RwSem.initial, .on, .on, ()⟩).mp h ?_
  refine Or.inr (Or.inl ⟨⟨?_, ?_, ?_⟩, ?_, ?_, ?_⟩)
  · decide
  · decide
  · decide
  · decide
  · decide
  · decide

end KLRM
