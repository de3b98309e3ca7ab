import FileKLRM.Core.Transition
import FileKLRM.Monitor.Ioctl

/-!
# The reconfiguration gate

Any number of threads in `klrm_path_add`, `klrm_path_rm`, `klrm_path_check` and `klrm_rec`, step
by step.  A path handler enters the store only while it holds `rec_sem` for reading and after it
has seen `rec` on; `klrm_rec` writes `rec` only while it holds `rec_sem` for writing.  What a
thread does to the store is left open: while it is inside it may change it in any way, any number
of times.

`GateInv` ties the program points to the semaphore: `readers` counts at least the threads that
hold it (a rejected request leaves its hold behind), a thread that writes `rec` is the only
holder, and whoever is past the test has `rec` on.  `gate_holds` draws the consequences for every
run.
-/

namespace KLRM

variable {σ ω : Type*}

/-! ## Threads

The program points of the four handlers, with the branch that a thread at a point may take.  The
store step is a step of its own, and leaves open what is done to the store. -/

/-- Where a thread is in a handler.  `refused`, `exiting` and `switched` are before the release. -/
inductive Handler (ω : Type*)
  | outside
  | entering (op : PathOp) (r : IoctlRequest ω)
  | testing (op : PathOp) (r : IoctlRequest ω)
  | refused
  | checking (op : PathOp) (r : IoctlRequest ω)
  | inStore (op : PathOp) (r : IoctlRequest ω)
  | exiting (ret : ℤ)
  | checkingRec (r : IoctlRequest ω)
  | enteringRec (value : Toggle)
  | switching (value : Toggle)
  | switched (value : Toggle)

/-- What a step does, as far as the properties below speak of it. -/
inductive GateEvent
  | internal
  | storeStep
  | switch (value : Toggle)
  | recReturns (value : Toggle)
deriving DecidableEq

/-- A thread and what its step does. -/
structure GateLabel where
  thread : ℕ
  event : GateEvent

/-- The semaphore, the toggle, the store and the threads. -/
structure Gate (σ ω : Type*) where
  recSem : RwSem
  recToggle : Toggle
  store : σ
  threads : ℕ → Handler ω

namespace Gate

/-- Thread `t` is now at `pc`. -/
def goto (g : Gate σ ω) (t : ℕ) (pc : Handler ω) : Gate σ ω :=
  { g with threads := Function.update g.threads t pc }

/-- The module just loaded. -/
def start (store : σ) : Gate σ ω where
  recSem := RwSem.initial
  recToggle := .on
  store := store
  threads := fun _ => .outside

/-- A thread that is in a class which `pc` is not in is another one, and was in it before. -/
lemma of_goto (p : Handler ω → Bool) {g : Gate σ ω} {t u : ℕ} {pc : Handler ω} (hpc : p pc = false)
    (hu : p ((g.goto t pc).threads u) = true) : u ≠ t ∧ p (g.threads u) = true := by
  by_cases hut : u = t
  · subst hut
    simp [goto, hpc] at hu
  · exact ⟨hut, by simpa [goto, hut] using hu⟩

end Gate

/-- One step of one thread.  Waiting for the semaphore is not having the step. -/
inductive GateStep (cfg : Config σ ω) : Gate σ ω → GateLabel → Gate σ ω → Prop
  | callPath {g : Gate σ ω} {t : ℕ} (op : PathOp) (r : IoctlRequest ω)
      (pc : g.threads t = .outside) : GateStep cfg g ⟨t, .internal⟩ (g.goto t (.entering op r))
  | downRead {g : Gate σ ω} {t : ℕ} {op : PathOp} {r : IoctlRequest ω} {sem : RwSem}
      (pc : g.threads t = .entering op r) (down : g.recSem.downRead true = some sem) :
      GateStep cfg g ⟨t, .internal⟩ ({ g with recSem := sem }.goto t (.testing op r))
  | testOn {g : Gate σ ω} {t : ℕ} {op : PathOp} {r : IoctlRequest ω}
      (pc : g.threads t = .testing op r) (isOn : g.recToggle = .on) :
      GateStep cfg g ⟨t, .internal⟩ (g.goto t (.checking op r))
  | testOff {g : Gate σ ω} {t : ℕ} {op : PathOp} {r : IoctlRequest ω}
      (pc : g.threads t = .testing op r) (isOff : g.recToggle = .off) :
      GateStep cfg g ⟨t, .internal⟩ (g.goto t .refused)
  | refuse {g : Gate σ ω} {t : ℕ} (pc : g.threads t = .refused) :
      GateStep cfg g ⟨t, .internal⟩ ({ g with recSem := g.recSem.upRead }.goto t .outside)
  | reject {g : Gate σ ω} {t : ℕ} {op : PathOp} {r : IoctlRequest ω}
      (pc : g.threads t = .checking op r) (fails : cfg.checkPassword r.crypto r.password ≠ 0) :
      GateStep cfg g ⟨t, .internal⟩ (g.goto t .outside)
  | accept {g : Gate σ ω} {t : ℕ} {op : PathOp} {r : IoctlRequest ω}
      (pc : g.threads t = .checking op r) (passes : cfg.checkPassword r.crypto r.password = 0) :
      GateStep cfg g ⟨t, .internal⟩ (g.goto t (.inStore op r))
  | storeStep {g : Gate σ ω} {t : ℕ} {op : PathOp} {r : IoctlRequest ω} (store : σ)
      (pc : g.threads t = .inStore op r) :
      GateStep cfg g ⟨t, .storeStep⟩ { g with store := store }
  | leaveStore {g : Gate σ ω} {t : ℕ} {op : PathOp} {r : IoctlRequest ω} (ret : ℤ)
      (pc : g.threads t = .inStore op r) :
      GateStep cfg g ⟨t, .internal⟩ (g.goto t (.exiting ret))
  | exit {g : Gate σ ω} {t : ℕ} {ret : ℤ} (pc : g.threads t = .exiting ret) :
      GateStep cfg g ⟨t, .internal⟩ ({ g with recSem := g.recSem.upRead }.goto t .outside)
  | callRec {g : Gate σ ω} {t : ℕ} (r : IoctlRequest ω) (pc : g.threads t = .outside) :
      GateStep cfg g ⟨t, .internal⟩ (g.goto t (.checkingRec r))
  | rejectRec {g : Gate σ ω} {t : ℕ} {r : IoctlRequest ω} (pc : g.threads t = .checkingRec r)
      (fails : cfg.checkPassword r.crypto r.password ≠ 0 ∨ parseToggle r.path = none) :
      GateStep cfg g ⟨t, .internal⟩ (g.goto t .outside)
  | acceptRec {g : Gate σ ω} {t : ℕ} {r : IoctlRequest ω} {value : Toggle}
      (pc : g.threads t = .checkingRec r) (passes : cfg.checkPassword r.crypto r.password = 0)
      (parse : parseToggle r.path = some value) :
      GateStep cfg g ⟨t, .internal⟩ (g.goto t (.enteringRec value))
  | downWrite {g : Gate σ ω} {t : ℕ} {value : Toggle} {sem : RwSem}
      (pc : g.threads t = .enteringRec value) (down : g.recSem.downWrite = some sem) :
      GateStep cfg g ⟨t, .internal⟩ ({ g with recSem := sem }.goto t (.switching value))
  | switch {g : Gate σ ω} {t : ℕ} {value : Toggle} (pc : g.threads t = .switching value) :
      GateStep cfg g ⟨t, .switch value⟩ ({ g with recToggle := value }.goto t (.switched value))
  | recReturns {g : Gate σ ω} {t : ℕ} {value : Toggle} (pc : g.threads t = .switched value) :
      GateStep cfg g ⟨t, .recReturns value⟩
        ({ g with recSem := g.recSem.upWrite }.goto t .outside)

/-! ## The invariant

`readers` is a bound, not a count: a rejected request leaves a hold that belongs to no thread any
more.  That is enough, since a writer asks for no readers at all. -/

namespace Handler

/-- The thread holds `rec_sem` for reading. -/
def reads : Handler ω → Bool
  | testing .. | refused | checking .. | inStore .. | exiting _ => true
  | outside | entering .. | checkingRec _ | enteringRec _ | switching _ | switched _ => false

/-- The thread holds `rec_sem` for writing. -/
def writes : Handler ω → Bool
  | switching _ | switched _ => true
  | outside | entering .. | testing .. | refused | checking .. | inStore .. | exiting _
  | checkingRec _ | enteringRec _ => false

/-- The thread has seen `rec` on and still relies on it. -/
def past : Handler ω → Bool
  | checking .. | inStore .. | exiting _ => true
  | outside | entering .. | testing .. | refused | checkingRec _ | enteringRec _ | switching _
  | switched _ => false

lemma reads_of_past {pc : Handler ω} (h : pc.past = true) : pc.reads = true := by
  cases pc <;> first | rfl | exact Bool.noConfusion h

end Handler

/-- What every step keeps. -/
structure GateInv (g : Gate σ ω) : Prop where
  readers : AtMost Handler.reads g.threads g.recSem.readers
  excluded : g.recSem.writer = true → g.recSem.readers = 0
  writer : ∀ t, (g.threads t).writes = true → g.recSem.writer = true
  single : ∀ t u, (g.threads t).writes = true → (g.threads u).writes = true → t = u
  past : ∀ t, (g.threads t).past = true → g.recToggle = .on

namespace GateInv

variable {g g' : Gate σ ω} {cfg : Config σ ω} {label : GateLabel}

lemma start (store : σ) : GateInv (Gate.start (ω := ω) store) where
  readers := ⟨∅, le_rfl, fun _ h => Bool.noConfusion h⟩
  excluded _ := rfl
  writer _ h := Bool.noConfusion h
  single _ _ h := Bool.noConfusion h
  past _ h := Bool.noConfusion h

/-- While someone reads, no one writes. -/
lemma not_writes (h : GateInv g) {t u : ℕ} (ht : (g.threads t).reads = true) :
    (g.threads u).writes = false := by
  by_contra hu
  have hzero := h.excluded (h.writer u (Bool.eq_true_of_not_eq_false hu))
  have hpos := h.readers.pos ht
  omega

/-- A thread moves on without touching the semaphore. -/
lemma goto (h : GateInv g) (t : ℕ) {pc : Handler ω}
    (hreads : pc.reads = true → (g.threads t).reads = true)
    (hwrites : pc.writes = true → (g.threads t).writes = true)
    (hpast : pc.past = true → g.recToggle = .on) : GateInv (g.goto t pc) := by
  have hback : ∀ u, ((g.goto t pc).threads u).writes = true → (g.threads u).writes = true := by
    intro u hu
    by_cases hut : u = t
    · subst hut
      exact hwrites (by simpa [Gate.goto] using hu)
    · simpa [Gate.goto, hut] using hu
  refine ⟨h.readers.move hreads, h.excluded, fun u hu => h.writer u (hback u hu),
    fun u v hu hv => h.single u v (hback u hu) (hback v hv), fun u hu => ?_⟩
  by_cases hut : u = t
  · subst hut
    exact hpast (by simpa [Gate.goto] using hu)
  · exact h.past u (by simpa [Gate.goto, hut] using hu)

lemma downRead (h : GateInv g) {t : ℕ} {op : PathOp} {r : IoctlRequest ω} {sem : RwSem}
    (hdown : g.recSem.downRead true = some sem) :
    GateInv ({ g with recSem := sem }.goto t (.testing op r)) := by
  obtain ⟨rfl, hwriter⟩ := RwSem.downRead_eq_some hdown
  refine ⟨h.readers.enter, fun hw => ?_, fun u hu => h.writer u (Gate.of_goto _ rfl hu).2,
    fun u v hu hv => h.single u v (Gate.of_goto _ rfl hu).2 (Gate.of_goto _ rfl hv).2,
    fun u hu => h.past u (Gate.of_goto _ rfl hu).2⟩
  rw [show g.recSem.writer = true from hw] at hwriter
  exact Bool.noConfusion hwriter

lemma upRead (h : GateInv g) {t : ℕ} (ht : (g.threads t).reads = true) :
    GateInv ({ g with recSem := g.recSem.upRead }.goto t .outside) := by
  refine ⟨h.readers.leave ht rfl, fun hw => ?_, fun u hu => h.writer u (Gate.of_goto _ rfl hu).2,
    fun u v hu hv => h.single u v (Gate.of_goto _ rfl hu).2 (Gate.of_goto _ rfl hv).2,
    fun u hu => h.past u (Gate.of_goto _ rfl hu).2⟩
  show g.recSem.readers - 1 = 0
  rw [h.excluded hw]

lemma downWrite (h : GateInv g) {t : ℕ} {value : Toggle} {sem : RwSem}
    (hdown : g.recSem.downWrite = some sem) :
    GateInv ({ g with recSem := sem }.goto t (.switching value)) := by
  obtain ⟨rfl, hwriter, hzero⟩ := RwSem.downWrite_eq_some hdown
  -- no one else writes, the semaphore was free
  have honly : ∀ u, ((g.goto t (.switching value)).threads u).writes = true → u = t := by
    intro u hu
    by_contra hut
    have hheld := h.writer u (by simpa [Gate.goto, hut] using hu)
    rw [hwriter] at hheld
    exact Bool.noConfusion hheld
  exact ⟨h.readers.move Bool.noConfusion, fun _ => hzero, fun _ _ => rfl,
    fun u v hu hv => (honly u hu).trans (honly v hv).symm,
    fun u hu => h.past u (Gate.of_goto _ rfl hu).2⟩

/-- The only holder writes `rec`: no one is past the test. -/
lemma switch (h : GateInv g) {t : ℕ} {value : Toggle} (ht : g.threads t = .switching value) :
    GateInv ({ g with recToggle := value }.goto t (.switched value)) := by
  have hwrites : (g.threads t).writes = true := by rw [ht]; rfl
  have honly : ∀ u, ((g.goto t (.switched value)).threads u).writes = true → u = t := by
    intro u hu
    by_contra hut
    exact hut (h.single u t (by simpa [Gate.goto, hut] using hu) hwrites)
  refine ⟨h.readers.move Bool.noConfusion, h.excluded, fun _ _ => h.writer t hwrites,
    fun u v hu hv => (honly u hu).trans (honly v hv).symm, fun u hu => ?_⟩
  have hpast := (Gate.of_goto _ rfl hu).2
  rw [h.not_writes (u := t) (Handler.reads_of_past hpast)] at hwrites
  exact Bool.noConfusion hwrites

/-- The writer that leaves was the only one. -/
lemma upWrite (h : GateInv g) {t : ℕ} (ht : (g.threads t).writes = true) :
    GateInv ({ g with recSem := g.recSem.upWrite }.goto t .outside) := by
  refine ⟨h.readers.move Bool.noConfusion, fun hw => Bool.noConfusion hw, fun u hu => ?_,
    fun u v hu hv => h.single u v (Gate.of_goto _ rfl hu).2 (Gate.of_goto _ rfl hv).2,
    fun u hu => h.past u (Gate.of_goto _ rfl hu).2⟩
  obtain ⟨hut, hwrites⟩ := Gate.of_goto _ rfl hu
  exact absurd (h.single u t hwrites ht) hut

/-- **Every step keeps the invariant.** -/
lemma step (h : GateInv g) (hstep : GateStep cfg g label g') : GateInv g' := by
  cases hstep with
  | callPath op r pc => exact h.goto _ Bool.noConfusion Bool.noConfusion Bool.noConfusion
  | downRead pc down => exact h.downRead down
  | testOn pc isOn => exact h.goto _ (fun _ => by rw [pc]; rfl) Bool.noConfusion fun _ => isOn
  | testOff pc isOff => exact h.goto _ (fun _ => by rw [pc]; rfl) Bool.noConfusion Bool.noConfusion
  | refuse pc => exact h.upRead (by rw [pc]; rfl)
  | reject pc fails => exact h.goto _ Bool.noConfusion Bool.noConfusion Bool.noConfusion
  | @accept t _ _ pc passes =>
      exact h.goto _ (fun _ => by rw [pc]; rfl) Bool.noConfusion fun _ => h.past t (by rw [pc]; rfl)
  | storeStep store pc => exact ⟨h.readers, h.excluded, h.writer, h.single, h.past⟩
  | @leaveStore t _ _ ret pc =>
      exact h.goto _ (fun _ => by rw [pc]; rfl) Bool.noConfusion fun _ => h.past t (by rw [pc]; rfl)
  | exit pc => exact h.upRead (by rw [pc]; rfl)
  | callRec r pc => exact h.goto _ Bool.noConfusion Bool.noConfusion Bool.noConfusion
  | rejectRec pc fails => exact h.goto _ Bool.noConfusion Bool.noConfusion Bool.noConfusion
  | acceptRec pc passes parse => exact h.goto _ Bool.noConfusion Bool.noConfusion Bool.noConfusion
  | downWrite pc down => exact h.downWrite down
  | switch pc => exact h.switch pc
  | recReturns pc => exact h.upWrite (by rw [pc]; rfl)

end GateInv

/-! ## Runs

The invariant says what holds between two steps.  What the gate is for speaks of steps that lie
apart, and needs the history: `SwitchHolds` says of a run that whoever is in the store has seen a
switch to on with no switch to off behind it. -/

variable {cfg : Config σ ω} {g g' : Gate σ ω} {labels : List GateLabel}

lemma GateInv.run (hrun : Run (GateStep cfg) g labels g') (h : GateInv g) : GateInv g' :=
  hrun.invariant (fun _ _ _ h hs => h.step hs) h

/-- A step inside the store finds `rec` on. -/
lemma GateInv.on_of_storeStep (h : GateInv g) {t : ℕ}
    (hstep : GateStep cfg g ⟨t, .storeStep⟩ g') : g.recToggle = .on := by
  cases hstep with
  | storeStep store pc => exact h.past t (by rw [pc]; rfl)

/-- While a thread is inside the store, no step changes `rec`. -/
lemma GateInv.not_switch (h : GateInv g) {t : ℕ} {op : PathOp} {r : IoctlRequest ω}
    (ht : g.threads t = .inStore op r) {label : GateLabel} (hstep : GateStep cfg g label g') :
    g'.recToggle = g.recToggle ∧ ∀ value, label.event ≠ .switch value := by
  cases hstep with
  | @switch u value pc =>
      have hwrites := h.not_writes (t := t) (u := u) (by rw [ht]; rfl)
      rw [pc] at hwrites
      exact Bool.noConfusion hwrites
  | _ => exact ⟨rfl, fun value => GateEvent.noConfusion⟩

/-- As long as no one switches `rec` on, it stays off. -/
lemma off_of_no_switch_on (hrun : Run (GateStep cfg) g labels g') (hoff : g.recToggle = .off)
    (hno : ∀ label ∈ labels, label.event ≠ .switch .on) : g'.recToggle = .off := by
  induction hrun with
  | nil g => exact hoff
  | @cons g g₁ g' label labels head tail ih =>
      refine ih ?_ fun l hl => hno l (List.mem_cons_of_mem _ hl)
      have hlabel := hno label List.mem_cons_self
      cases head with
      | @switch t value pc =>
          cases value with
          | on => exact absurd rfl hlabel
          | off => rfl
      | _ => exact hoff

/-- The step that brings a thread behind its switch is that switch. -/
lemma switch_of_switched {label : GateLabel} (hstep : GateStep cfg g label g') {t : ℕ}
    {value : Toggle}
    (hbefore : g.threads t ≠ .switched value) (hafter : g'.threads t = .switched value) :
    label = ⟨t, .switch value⟩ := by
  have hother : ∀ {u : ℕ} {pc : Handler ω}, (g.goto u pc).threads t = .switched value →
      u = t ∧ pc = .switched value := by
    intro u pc h
    by_cases hut : u = t
    · subst hut
      exact ⟨rfl, by simpa [Gate.goto] using h⟩
    · exact absurd (by simpa [Gate.goto, Ne.symm hut] using h) hbefore
  cases hstep with
  | storeStep store pc => exact absurd hafter hbefore
  | switch pc =>
      obtain ⟨rfl, hvalue⟩ := hother hafter
      cases hvalue
      rfl
  | _ => exact absurd (hother hafter).2 (by simp)

/-- A thread about to return from `klrm_rec` has switched `rec` before. -/
lemma switched_before (hrun : Run (GateStep cfg) g labels g') {t : ℕ} {value : Toggle}
    (hstart : g.threads t ≠ .switched value) (hend : g'.threads t = .switched value) :
    ∃ as bs, labels = as ++ ⟨t, .switch value⟩ :: bs := by
  induction hrun with
  | nil g => exact absurd hend hstart
  | @cons g g₁ g' label labels head tail ih =>
      by_cases hmid : g₁.threads t = .switched value
      · exact ⟨[], labels, by rw [switch_of_switched head hstart hmid]; rfl⟩
      · obtain ⟨as, bs, rfl⟩ := ih hmid hend
        exact ⟨label :: as, bs, rfl⟩

/-- Between its switch and its return a thread keeps `rec` as it has set it: no one else holds
    `rec_sem`. -/
def SwitchHolds (g : Gate σ ω) : Prop := ∀ t value, g.threads t = .switched value →
    g.recToggle = value

/-- One step. -/
lemma SwitchHolds.step (h : SwitchHolds g) (hinv : GateInv g) {label : GateLabel}
    (hstep : GateStep cfg g label g') : SwitchHolds g' := by
  intro u value hafter
  by_cases hbefore : g.threads u = .switched value
  · cases hstep with
    | @switch t _ pc =>
        have hut : u = t := hinv.single u t (by rw [hbefore]; rfl) (by rw [pc]; rfl)
        rw [hut, pc] at hbefore
        cases hbefore
    | _ => exact h u value hbefore
  · -- the thread has just switched
    obtain rfl := switch_of_switched hstep hbefore hafter
    cases hstep with
    | switch pc => rfl

/-- A run. -/
lemma SwitchHolds.run (hrun : Run (GateStep cfg) g labels g') (h : SwitchHolds g)
    (hinv : GateInv g) : SwitchHolds g' :=
  (hrun.invariant (P := fun g => SwitchHolds g ∧ GateInv g)
    (fun _ _ _ h hstep => ⟨h.1.step h.2 hstep, h.2.step hstep⟩) ⟨h, hinv⟩).1

/-- From a moment at which `rec` is off, a step inside the store comes only after it was switched
    on. -/
lemma switch_on_between (hinv : GateInv g) (hoff : g.recToggle = .off) {t : ℕ} {bs : List GateLabel}
    (hrun : Run (GateStep cfg) g (bs ++ [⟨t, .storeStep⟩]) g') :
    ∃ v, (⟨v, .switch .on⟩ : GateLabel) ∈ bs := by
  obtain ⟨g₁, hbs, hlast⟩ := Run.append_iff.mp hrun
  by_contra hno
  have hoff₁ :=
    off_of_no_switch_on hbs hoff fun label hl hev => hno ⟨label.thread, by rw [← hev]; exact hl⟩
  have hinv₁ : GateInv g₁ := GateInv.run hbs hinv
  cases hlast with
  | cons hstore _ =>
      have hon := hinv₁.on_of_storeStep hstore
      rw [hoff₁] at hon
      exact Toggle.noConfusion hon

/-- **The reconfiguration gate.**  In every run from the module's start: a thread inside the
    store has `rec` on, and no step changes `rec` meanwhile; and once a `klrm_rec ("off")` has
    returned 0, which it does after it has switched `rec` off, a step inside the store comes only
    after some `klrm_rec ("on")` has switched `rec` since that return. -/
theorem gate_holds (cfg : Config σ ω) (store : σ) (labels : List GateLabel) (g : Gate σ ω)
    (hrun : Run (GateStep cfg) (Gate.start store) labels g) :
    (∀ t op r, g.threads t = .inStore op r → g.recToggle = .on) ∧
      (∀ t op r label g', g.threads t = .inStore op r → GateStep cfg g label g' →
        g'.recToggle = g.recToggle ∧ ∀ value, label.event ≠ .switch value) ∧
      (∀ t u as bs cs, labels = as ++ ⟨u, .recReturns .off⟩ :: bs ++ ⟨t, .storeStep⟩ :: cs →
        ⟨u, .switch .off⟩ ∈ as ∧ ∃ v, (⟨v, .switch .on⟩ : GateLabel) ∈ bs) := by
  have hinv := GateInv.run hrun (GateInv.start store)
  refine ⟨fun t op r ht => hinv.past t (by rw [ht]; rfl),
    fun t op r label g' ht hstep => hinv.not_switch ht hstep, ?_⟩
  rintro t u as bs cs rfl
  -- the run up to the return, and from there to the store step
  have hrun' : Run (GateStep cfg) (Gate.start store)
      (as ++ (⟨u, .recReturns .off⟩ :: (bs ++ [⟨t, .storeStep⟩]) ++ cs)) g := by simpa using hrun
  obtain ⟨g₁, has, hrest⟩ := Run.append_iff.mp hrun'
  obtain ⟨g₂, hmid, -⟩ := Run.append_iff.mp hrest
  have hinv₁ : GateInv g₁ := GateInv.run has (GateInv.start store)
  have hholds : SwitchHolds g₁ :=
    SwitchHolds.run has (fun t value ht => by simp [Gate.start] at ht) (GateInv.start store)
  cases hmid with
  | cons head tail =>
      have hinv₂ := hinv₁.step head
      cases head with
      | recReturns pc =>
          obtain ⟨as₁, as₂, rfl⟩ := switched_before has (by simp [Gate.start]) pc
          exact ⟨by simp, switch_on_between hinv₂ (hholds u .off pc) tail⟩

/-- The steps by which a thread calls `klrm_rec` and switches `rec`. -/
def switchLabels (t : ℕ) (value : Toggle) : List GateLabel :=
  [⟨t, .internal⟩, ⟨t, .internal⟩, ⟨t, .internal⟩, ⟨t, .switch value⟩]

/-- The steps by which a thread calls a path handler and gets into the store. -/
def enterLabels (t : ℕ) : List GateLabel :=
  [⟨t, .internal⟩, ⟨t, .internal⟩, ⟨t, .internal⟩, ⟨t, .internal⟩]

/-- A thread that calls `klrm_rec` with the password while nobody holds `rec_sem` switches `rec`
    and returns. -/
lemma run_switches {t : ℕ} {r : IoctlRequest ω} {value : Toggle}
    (hidle : ∀ u, g.threads u = .outside)
    (hsem : g.recSem = RwSem.initial) (hpass : cfg.checkPassword r.crypto r.password = 0)
    (hparse : parseToggle r.path = some value) :
    ∃ g', Run (GateStep cfg) g (switchLabels t value ++ [⟨t, .recReturns value⟩]) g' ∧
      (∀ u, g'.threads u = .outside) ∧ g'.recSem = RwSem.initial ∧ g'.recToggle = value := by
  have hdown : g.recSem.downWrite = some { RwSem.initial with writer := true } := by rw [hsem]; rfl
  refine ⟨_, .cons (.callRec r (hidle t)) <|
    .cons (.acceptRec (Function.update_self ..) hpass hparse) <|
    .cons (.downWrite (Function.update_self ..) hdown) <|
    .cons (.switch (Function.update_self ..)) <|
    .cons (.recReturns (Function.update_self ..)) <| .nil _, fun u => ?_, rfl, rfl⟩
  by_cases hu : u = t
  · simp [Gate.goto, hu]
  · simp [Gate.goto, hu, hidle u]

/-- A thread that calls a path handler while `rec` is on gets into the store. -/
lemma run_enters {t : ℕ} {r : IoctlRequest ω} (op : PathOp) (store : σ)
    (ht : g.threads t = .outside) (hsem : g.recSem = RwSem.initial) (hon : g.recToggle = .on)
    (hpass : cfg.checkPassword r.crypto r.password = 0) :
    ∃ g', Run (GateStep cfg) g (enterLabels t ++ [⟨t, .storeStep⟩]) g' ∧
    g'.threads t = .inStore op r := by
  have hdown : g.recSem.downRead true = some (RwSem.initial.held 1) := by rw [hsem]; rfl
  exact ⟨_, .cons (.callPath op r ht) <| .cons (.downRead (Function.update_self ..) hdown) <|
    .cons (.testOn (Function.update_self ..) hon) <|
    .cons (.accept (Function.update_self ..) hpass) <|
    .cons (.storeStep store (Function.update_self ..)) <| .nil _, Function.update_self ..⟩

/-- Thread `0` switches `rec` off twice, thread `1` on again each time, and thread `2` gets into
    the store: after the second return `rec` was switched on once more. -/
theorem gate_off_on_store :
    ∃ g, Run (GateStep emptyConfig) (Gate.start ())
        ((switchLabels 0 .off ++ ⟨0, .recReturns .off⟩ ::
          (switchLabels 1 .on ++ ⟨1, .recReturns .on⟩ ::
            switchLabels 0 .off)) ++ ⟨0, .recReturns .off⟩ ::
          (switchLabels 1 .on ++ ⟨1, .recReturns .on⟩ :: enterLabels 2) ++
            ⟨2, .storeStep⟩ :: []) g ∧
      (∃ op r, g.threads 2 = .inStore op r) ∧ g.recToggle = .on ∧
      (⟨0, .switch .off⟩ : GateLabel) ∈ switchLabels 0 .off ++ ⟨0, .recReturns .off⟩ ::
        (switchLabels 1 .on ++ ⟨1, .recReturns .on⟩ :: switchLabels 0 .off) ∧
      ∃ v, (⟨v, .switch .on⟩ : GateLabel) ∈
        switchLabels 1 .on ++ ⟨1, .recReturns .on⟩ :: enterLabels 2 := by
  set off := plainRequest 0x80001080 [115] [111, 102, 102]
  set on := plainRequest 0x80001080 [115] [111, 110]
  have hpass : emptyConfig.checkPassword off.crypto off.password = 0 := by decide
  have hpass' : emptyConfig.checkPassword on.crypto on.password = 0 := by decide
  have hparse : parseToggle off.path = some .off := by decide
  have hparse' : parseToggle on.path = some .on := by decide
  obtain ⟨g₁, hrun₁, hidle₁, hsem₁, -⟩ :=
    run_switches (g := Gate.start ()) (t := 0) (fun _ => rfl) rfl hpass hparse
  obtain ⟨g₂, hrun₂, hidle₂, hsem₂, -⟩ := run_switches (t := 1) hidle₁ hsem₁ hpass' hparse'
  obtain ⟨g₃, hrun₃, hidle₃, hsem₃, -⟩ := run_switches (t := 0) hidle₂ hsem₂ hpass hparse
  obtain ⟨g₄, hrun₄, hidle₄, hsem₄, htoggle₄⟩ := run_switches (t := 1) hidle₃ hsem₃ hpass' hparse'
  obtain ⟨g, hstore, hin⟩ := run_enters .add () (hidle₄ 2) hsem₄ htoggle₄ hpass'
  have hrun := Run.append_iff.mpr ⟨g₁, hrun₁, Run.append_iff.mpr ⟨g₂, hrun₂, Run.append_iff.mpr
    ⟨g₃, hrun₃, Run.append_iff.mpr ⟨g₄, hrun₄, hstore⟩⟩⟩⟩
  obtain ⟨hinStore, -, hgate⟩ := gate_holds emptyConfig () _ g hrun
  exact ⟨g, hrun, ⟨_, _, hin⟩, hinStore 2 _ _ hin, hgate 2 0 _ _ [] rfl⟩

end KLRM
