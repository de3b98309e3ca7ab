import FileKLRM.Core.Pool
import FileKLRM.Core.Transition

/-!
# Loading and unloading the module: `mod_main.c`

`klrm_init` creates three caches for the path store and one for requests, registers the device and
the file system, and undoes the caches when one of them cannot be had.  It then returns 1: a
negative value would make the kernel drop the module, a positive one is warned about and the
module stays loaded, so that `klrm_exit` runs for it too.  What registering the device and the
file system returns is not looked at.  `klrm_exit` leaves the requests' cache.

The calls are steps: the device can be opened as soon as it is registered, and a request allocates
from all four caches.  The module is not unloaded while a file is open.
-/

namespace KLRM

/-! ## The module

The caches are objects of a `Pool`, so that a cache destroyed twice is a failure.  The phase says
how far `klrm_init` has come and whether requests can be made. -/

/-- The caches, by their names. -/
inductive CacheName
  | fs
  | ino
  | dirs
  | paths
deriving DecidableEq, Repr

/-- How far `klrm_init` or `klrm_exit` has come. -/
inductive LoadPhase
  | unloaded
  | storeUp
  | apiUp
  | live
  | storeDown
  | apiDown
deriving DecidableEq, Repr

/-- The kernel's caches, the registrations of this module, its pointers, and the open files of
    its device. -/
structure ModuleState where
  caches : Pool CacheName
  chrdev : Bool
  filesystem : Bool
  fsCache : Option ℕ
  inodesCache : Option ℕ
  dirCache : Option ℕ
  inputCache : Option ℕ
  openFiles : ℕ
  phase : LoadPhase

namespace ModuleState

variable (s : ModuleState)

/-- `kmem_cache_create`. -/
def create (ok : Bool) (name : CacheName) : Option ℕ × ModuleState :=
  if ok then (some s.caches.next, { s with caches := s.caches.create name }) else (none, s)

/-- `kmem_cache_destroy`, which takes `NULL`; a cache that is gone is gone for good. -/
def destroy (cache : Option ℕ) : Option ModuleState :=
  match cache with
  | none => some s
  | some n => (s.caches.destroy n).map fun caches => { s with caches := caches }

/-- `setup_inode_store`: whether it returns 0. -/
def setupInodeStore (fsOk inodesOk : Bool) : Option (Bool × ModuleState) :=
  let (fs, s) := s.create fsOk .fs
  let s := { s with fsCache := fs }
  if fs.isNone then some (false, s)
  else
    let (ino, s) := s.create inodesOk .ino
    let s := { s with inodesCache := ino }
    if ino.isNone then (s.destroy s.fsCache).map fun s => (false, s) else some (true, s)

/-- `cleanup_inode_store` behind its loops (`FileKLRM.PathStore.TableCleanup`). -/
def cleanupInodeStore : Option ModuleState :=
  (s.destroy s.fsCache).bind fun s => s.destroy s.inodesCache

/-- `setup_path_store`: whether it returns 0. -/
def setupPathStore (fsOk inodesOk dirOk rootOk : Bool) : Option (Bool × ModuleState) :=
  (s.setupInodeStore fsOk inodesOk).bind fun (up, s) =>
    if !up then some (false, s)
    else
      let (dir, s) := s.create dirOk .dirs
      let s := { s with dirCache := dir }
      if dir.isNone then s.cleanupInodeStore.map fun s => (false, s)
      else if !rootOk then (s.destroy s.dirCache).bind fun s => s.cleanupInodeStore.map
        fun s => (false, s)
      else some (true, s)

/-- `cleanup_path_store` around its loop; when it gets `store_lock` is in
    `FileKLRM.PathStore.TrieRefinement`. -/
def cleanupPathStore : Option ModuleState := s.cleanupInodeStore.bind fun s => s.destroy s.dirCache

/-- `setup_api`: whether it returns 0. -/
def setupApi (cacheOk chrdevOk : Bool) : Bool × ModuleState :=
  let (input, s) := s.create cacheOk .paths
  let s := { s with inputCache := input }
  if input.isNone then (false, s) else (true, { s with chrdev := chrdevOk })

/-- The pointers as the module's data has them when it is loaded. -/
def fresh : ModuleState :=
  { s with fsCache := none, inodesCache := none, dirCache := none, inputCache := none }

/-- The memory behind a pointer is a live cache of this name. -/
def Has (cache : Option ℕ) (name : CacheName) : Prop := ∃ n, cache = some n ∧ s.caches.Alive n name

instance decidableHas (cache : Option ℕ) (name : CacheName) : Decidable (s.Has cache name) :=
  match cache with
  | none => isFalse (by rintro ⟨n, h, -⟩; cases h)
  | some n => decidable_of_iff ((n, name) ∈ s.caches.live) (by simp [Has, Pool.Alive])

end ModuleState

/-- What happens: the calls of `klrm_init`, those of `klrm_exit`, and what a program does with
    the device. -/
inductive ModuleEvent
  | setupPathStore (fsOk inodesOk dirOk rootOk : Bool)
  | setupApi (cacheOk chrdevOk : Bool)
  | singlefilefsInit (registered : Bool)
  | openDevice
  | request
  | closeDevice
  | cleanupPathStore
  | cleanupApi
  | singlefilefsExit

namespace ModuleState

/-- The event can happen. -/
def Enabled (s : ModuleState) : ModuleEvent → Prop
  | .setupPathStore .. => s.phase = .unloaded
  | .setupApi .. => s.phase = .storeUp
  | .singlefilefsInit _ => s.phase = .apiUp
  | .openDevice => s.chrdev = true ∧ s.phase ≠ .storeDown ∧ s.phase ≠ .apiDown
  | .request | .closeDevice => 0 < s.openFiles
  | .cleanupPathStore => s.phase = .live ∧ s.openFiles = 0
  | .cleanupApi => s.phase = .storeDown
  | .singlefilefsExit => s.phase = .apiDown

/-- The state after an event; `none` when a cache is used that is not there. -/
def next (s : ModuleState) : ModuleEvent → Option ModuleState
  | .setupPathStore fsOk inodesOk dirOk rootOk =>
      (s.fresh.setupPathStore fsOk inodesOk dirOk rootOk).map fun (up, s) =>
        { s with phase := if up then .storeUp else .live }
  | .setupApi cacheOk chrdevOk =>
      let (up, s) := s.setupApi cacheOk chrdevOk
      if up then some { s with phase := .apiUp }
      else s.cleanupPathStore.map fun s => { s with phase := .live }
  | .singlefilefsInit registered => some { s with filesystem := registered, phase := .live }
  | .openDevice => some { s with openFiles := s.openFiles + 1 }
  | .request =>
      if s.Has s.inputCache .paths ∧ s.Has s.dirCache .dirs ∧ s.Has s.fsCache .fs ∧
          s.Has s.inodesCache .ino then
        some s
      else none
  | .closeDevice => some { s with openFiles := s.openFiles - 1 }
  | .cleanupPathStore => s.cleanupPathStore.map fun s => { s with phase := .storeDown }
  | .cleanupApi => some { s with chrdev := false, phase := .apiDown }
  | .singlefilefsExit => some { s with filesystem := false, phase := .unloaded }

/-- The step relation. -/
def Step (s : ModuleState) (ev : ModuleEvent) (s' : ModuleState) : Prop :=
  s.Enabled ev ∧ s.next ev = some s'

/-- Before the module is loaded for the first time. -/
def boot : ModuleState where
  caches := .empty
  chrdev := false
  filesystem := false
  fsCache := none
  inodesCache := none
  dirCache := none
  inputCache := none
  openFiles := 0
  phase := .unloaded

end ModuleState

/-! ## What the functions do

The setup of the two stores creates the caches one after the other and destroys those it has
created when the next one cannot be had.  What other loads have left in the pool is not touched. -/

namespace ModuleState

variable {s s' : ModuleState} {rest : Multiset CacheName}

/-- What the functions of the store leave alone. -/
structure SameOutside (s s' : ModuleState) : Prop where
  chrdev : s'.chrdev = s.chrdev
  filesystem : s'.filesystem = s.filesystem
  openFiles : s'.openFiles = s.openFiles
  phase : s'.phase = s.phase
  inputCache : s'.inputCache = s.inputCache

/-- The store has its caches, and beside them there are `rest`. -/
structure StoreHeld (s : ModuleState) (rest : Multiset CacheName) : Prop where
  fs : s.Has s.fsCache .fs
  ino : s.Has s.inodesCache .ino
  dirs : s.Has s.dirCache .dirs
  kinds : s.caches.kinds = .fs ::ₘ .ino ::ₘ .dirs ::ₘ rest

/-- The store's caches were destroyed, and there are `rest`. -/
structure StoreGone (s : ModuleState) (rest : Multiset CacheName) : Prop where
  fs : ∃ n, s.fsCache = some n ∧ s.caches.Dead n
  kinds : s.caches.kinds = rest

/-- A request that finds its caches. -/
lemma next_request (h : s.Has s.inputCache .paths ∧ s.Has s.dirCache .dirs ∧ s.Has s.fsCache .fs ∧
    s.Has s.inodesCache .ino) : s.next .request = some s := if_pos h

/-- A live cache can be destroyed. -/
lemma Has.destroy {cache : Option ℕ} {name : CacheName} (h : s.Has cache name) :
    ∃ n caches, cache = some n ∧ s.destroy cache = some { s with caches := caches } ∧
      s.caches.kinds = name ::ₘ caches.kinds ∧ caches.Dead n ∧
      (∀ m, s.caches.Dead m → caches.Dead m) ∧
      ∀ m name', name' ≠ name → s.caches.Alive m name' → caches.Alive m name' := by
  obtain ⟨n, rfl, halive⟩ := h
  obtain ⟨caches, hdestroy, hkinds, hdead, -, hothers⟩ := halive.destroy
  refine ⟨n, caches, rfl, by simp [ModuleState.destroy, hdestroy], hkinds, hdead,
    fun m hm => hm.of_destroy hdestroy, fun m name' hne hm => (hothers m name').mpr ⟨hm, ?_⟩⟩
  exact hm.ne halive hne

/-- `cleanup_inode_store` on a store that has its caches. -/
lemma cleanupInodeStore_held (hfs : s.Has s.fsCache .fs) (hino : s.Has s.inodesCache .ino)
    (hkinds : s.caches.kinds = .fs ::ₘ .ino ::ₘ rest) :
    ∃ caches, s.cleanupInodeStore = some { s with caches := caches } ∧ caches.kinds = rest ∧
      (∃ f, s.fsCache = some f ∧ caches.Dead f) ∧
      ∀ d, s.caches.Alive d .dirs → caches.Alive d .dirs := by
  obtain ⟨i, hi, hino⟩ := hino
  obtain ⟨f, caches₁, hf, hdestroy₁, hkinds₁, hdead₁, -, hkeep₁⟩ := hfs.destroy
  have hino₁ : ({ s with caches := caches₁ } : ModuleState).Has (some i) .ino :=
    ⟨i, rfl, hkeep₁ i .ino (by decide) hino⟩
  obtain ⟨-, caches₂, -, hdestroy₂, hkinds₂, -, hstays₂, hkeep₂⟩ := hino₁.destroy
  refine ⟨caches₂, ?_, ?_, ⟨f, hf, hstays₂ f hdead₁⟩,
    fun d hd => hkeep₂ d .dirs (by decide) (hkeep₁ d .dirs (by decide) hd)⟩
  · rw [← hi] at hdestroy₂
    simp only [cleanupInodeStore, hdestroy₁, Option.bind_some, hdestroy₂]
  · simp only at hkinds₂
    rw [hkinds₁, hkinds₂] at hkinds
    exact (Multiset.cons_inj_right _).mp ((Multiset.cons_inj_right _).mp hkinds)

/-- `cleanup_path_store` on a store that has its caches. -/
lemma StoreHeld.cleanup (h : s.StoreHeld rest) :
    ∃ s', s.cleanupPathStore = some s' ∧ SameOutside s s' ∧ s'.StoreGone rest := by
  obtain ⟨d, hd, hdirs⟩ := h.dirs
  obtain ⟨caches, hcleanup, hkinds, ⟨f, hf, hdead⟩, hkeep⟩ :=
    cleanupInodeStore_held h.fs h.ino h.kinds
  have hdirs' : ({ s with caches := caches } : ModuleState).Has (some d) .dirs :=
    ⟨d, rfl, hkeep d hdirs⟩
  obtain ⟨-, caches', -, hdestroy, hkinds', -, hstays, -⟩ := hdirs'.destroy
  refine ⟨{ s with caches := caches' }, ?_, ⟨rfl, rfl, rfl, rfl, rfl⟩, ⟨f, hf, hstays f hdead⟩, ?_⟩
  · rw [← hd] at hdestroy
    simp only [cleanupPathStore, hcleanup, Option.bind_some, hdestroy]
  · exact (Multiset.cons_inj_right _).mp (hkinds'.symm.trans hkinds)

/-- And on one whose caches were destroyed before. -/
lemma StoreGone.cleanup (h : s.StoreGone rest) : s.cleanupPathStore = none := by
  obtain ⟨n, hn, hdead⟩ := h.fs
  simp [cleanupPathStore, cleanupInodeStore, hn, ModuleState.destroy, hdead.destroy]

/-- The first cache of the store. -/
def withFsCache (s : ModuleState) : ModuleState :=
  { s with caches := s.caches.create .fs, fsCache := some s.caches.next }

/-- The first two. -/
def withInodeStore (s : ModuleState) : ModuleState :=
  { s with caches := (s.caches.create .fs).create .ino
           fsCache := some s.caches.next
           inodesCache := some (s.caches.next + 1) }

/-- All three. -/
def withPathStore (s : ModuleState) : ModuleState :=
  { s.withInodeStore with caches := s.withInodeStore.caches.create .dirs
                          dirCache := some (s.caches.next + 2) }

lemma withInodeStore_has (s : ModuleState) : s.withInodeStore.Has s.withInodeStore.fsCache .fs ∧
    s.withInodeStore.Has s.withInodeStore.inodesCache .ino :=
  ⟨⟨_, rfl, (Pool.alive_create s.caches .fs).create .ino⟩,
    ⟨_, rfl, Pool.alive_create (s.caches.create .fs) .ino⟩⟩

lemma kinds_withInodeStore (s : ModuleState) :
    s.withInodeStore.caches.kinds = CacheName.fs ::ₘ .ino ::ₘ s.caches.kinds :=
  Multiset.cons_swap CacheName.ino .fs s.caches.kinds

lemma kinds_withPathStore (s : ModuleState) :
    s.withPathStore.caches.kinds = CacheName.dirs ::ₘ .fs ::ₘ .ino ::ₘ s.caches.kinds :=
  congrArg (CacheName.dirs ::ₘ ·) s.kinds_withInodeStore

lemma withPathStore_held (s : ModuleState) : s.withPathStore.StoreHeld s.caches.kinds where
  fs := ⟨_, rfl, ((Pool.alive_create s.caches .fs).create .ino).create .dirs⟩
  ino := ⟨_, rfl, (Pool.alive_create (s.caches.create .fs) .ino).create .dirs⟩
  dirs := ⟨_, rfl, Pool.alive_create ((s.caches.create .fs).create .ino) .dirs⟩
  kinds := by
    rw [kinds_withPathStore, Multiset.cons_swap CacheName.dirs .fs,
      Multiset.cons_swap CacheName.dirs .ino]

/-- `setup_path_store`, from the pointers of a module that was just loaded. -/
lemma setupPathStore_cases (hfs : s.fsCache = none) (hino : s.inodesCache = none)
    (hdirs : s.dirCache = none) (fsOk inodesOk dirOk rootOk : Bool) :
    ∃ up s', s.setupPathStore fsOk inodesOk dirOk rootOk = some (up, s') ∧ SameOutside s s' ∧
      (up = (fsOk && inodesOk && dirOk && rootOk)) ∧ (up = true → s'.StoreHeld s.caches.kinds) ∧
      (fsOk = false → s' = s) ∧ (fsOk = true → up = false → s'.StoreGone s.caches.kinds) := by
  cases fsOk with
  | false =>
      refine ⟨false, s, ?_, ⟨rfl, rfl, rfl, rfl, rfl⟩, by simp, by simp, by simp, by simp⟩
      simp only [setupPathStore, setupInodeStore, create]
      simp [← hfs]
  | true =>
  cases inodesOk with
  | false =>
      have hhas : s.withFsCache.Has s.withFsCache.fsCache .fs :=
        ⟨_, rfl, Pool.alive_create s.caches .fs⟩
      obtain ⟨f, caches, hf, hdestroy, hkinds, hdead, -, -⟩ := hhas.destroy
      have hstore : ({ s.withFsCache with inodesCache := none } : ModuleState) = s.withFsCache := by
        rw [← hino]
        rfl
      have hset : s.setupInodeStore true false
          = some (false, { s.withFsCache with caches := caches }) := by
        calc s.setupInodeStore true false
            = (({ s.withFsCache with inodesCache := none } : ModuleState).destroy
              s.withFsCache.fsCache).map
                fun s => (false, s) := rfl
          _ = some (false, { s.withFsCache with caches := caches }) := by rw [hstore, hdestroy]; rfl
      refine ⟨false, { s.withFsCache with caches := caches }, ?_, ⟨rfl, rfl, rfl, rfl, rfl⟩,
        rfl, by simp, by simp,
        fun _ _ => ⟨⟨f, hf, hdead⟩, ?_⟩⟩
      · simp only [setupPathStore, hset, Option.bind_some, Bool.not_false, if_true]
      · exact
          ((Multiset.cons_inj_right _).mp ((Pool.kinds_create s.caches .fs).symm.trans hkinds)).symm
  | true =>
  have hset : s.setupInodeStore true true = some (true, s.withInodeStore) := rfl
  cases dirOk with
  | false =>
      have hstore : ({ s.withInodeStore with dirCache := none } : ModuleState)
          = s.withInodeStore := by
        rw [← hdirs]
        rfl
      obtain ⟨caches, hcleanup, hkinds, hdead, -⟩ := cleanupInodeStore_held s.withInodeStore_has.1
        s.withInodeStore_has.2 s.kinds_withInodeStore
      refine ⟨false, { s.withInodeStore with caches := caches }, ?_, ⟨rfl, rfl, rfl, rfl, rfl⟩,
        rfl, by simp, by simp,
        fun _ _ => ⟨hdead, hkinds⟩⟩
      simp only [setupPathStore, hset, create, Option.bind_some, Bool.not_true, Bool.false_eq_true,
        if_false, hstore, Option.isNone_none, if_true, hcleanup, Option.map_some]
  | true =>
  cases rootOk with
  | false =>
      have hheld := s.withPathStore_held
      obtain ⟨d, caches, hd, hdestroy, hkinds, -, -, hkeep⟩ := hheld.dirs.destroy
      obtain ⟨f, hf, hfs⟩ := hheld.fs
      obtain ⟨i, hi, hinodes⟩ := hheld.ino
      obtain ⟨caches', hcleanup, hkinds', hdead, -⟩ := @cleanupInodeStore_held
        { s.withPathStore with caches := caches } s.caches.kinds
        ⟨f, hf, hkeep f .fs (by decide) hfs⟩ ⟨i, hi, hkeep i .ino (by decide) hinodes⟩
        ((Multiset.cons_inj_right _).mp (hkinds.symm.trans s.kinds_withPathStore))
      refine ⟨false, { s.withPathStore with caches := caches' }, ?_, ⟨rfl, rfl, rfl, rfl, rfl⟩,
        rfl, by simp, by simp,
        fun _ _ => ⟨hdead, hkinds'⟩⟩
      calc s.setupPathStore true true true false
          = (s.withPathStore.destroy s.withPathStore.dirCache).bind
              fun s => s.cleanupInodeStore.map fun s => (false, s) := rfl
        _ = ({ s.withPathStore with caches := caches } : ModuleState).cleanupInodeStore.map fun s =>
            (false, s) := by
            rw [hdestroy]
            rfl
        _ = some (false, { s.withPathStore with caches := caches' }) :=
            congrArg (Option.map fun s => (false, s)) hcleanup
  | true =>
      exact ⟨true, s.withPathStore, rfl, ⟨rfl, rfl, rfl, rfl, rfl⟩, rfl,
        fun _ => s.withPathStore_held, by simp, by simp⟩

end ModuleState

/-! ## The invariant

By phase: which of the four caches are alive.  A load that failed half-way is told apart from one
that succeeded by `LoadStatus`, since `klrm_exit` runs for both. -/

/-- How the last load went: all was set up, nothing was, or what was has been undone. -/
inductive LoadStatus
  | up
  | untouched
  | undone
deriving DecidableEq, Repr

namespace ModuleEvent

/-- How the last load has gone after an event. -/
def status (before : LoadStatus) : ModuleEvent → LoadStatus
  | setupPathStore fsOk inodesOk dirOk rootOk =>
      if !fsOk then .untouched else if inodesOk && dirOk && rootOk then .up else .undone
  | setupApi cacheOk _ => if cacheOk then .up else .undone
  | singlefilefsInit _ | openDevice | request | closeDevice | cleanupPathStore | cleanupApi
  | singlefilefsExit => before

/-- The event creates a cache for requests. -/
def inputCache : ModuleEvent → ℕ
  | setupApi true _ => 1
  | setupApi false _ | setupPathStore .. | singlefilefsInit _ | openDevice | request | closeDevice
  | cleanupPathStore | cleanupApi | singlefilefsExit => 0

end ModuleEvent

/-- How the last load of a run went. -/
def lastLoad (status : LoadStatus) (events : List ModuleEvent) : LoadStatus :=
  events.foldl (fun before ev => ev.status before) status

/-- The caches for requests that a run has created. -/
def inputCaches (events : List ModuleEvent) : ℕ := (events.map ModuleEvent.inputCache).sum

/-- Nothing is registered and no file is open. -/
structure ModuleState.Closed (s : ModuleState) : Prop where
  chrdev : s.chrdev = false
  filesystem : s.filesystem = false
  openFiles : s.openFiles = 0

/-- A file is open only on a device that is registered, and the module has all its caches. -/
structure ModuleState.Serving (s : ModuleState) (rest : Multiset CacheName) : Prop where
  held : s.StoreHeld rest
  input : s.Has s.inputCache .paths
  device : s.chrdev = false → s.openFiles = 0

/-- The states that are reached, by how far the calls have come and how the last load went.  Of
    the caches for requests none is ever destroyed. -/
inductive ModuleInv (inputs : ℕ) : LoadStatus → ModuleState → Prop
  | unloaded {status : LoadStatus} {s : ModuleState} (phase : s.phase = .unloaded)
      (kinds : s.caches.kinds = Multiset.replicate inputs .paths) (closed : s.Closed) :
      ModuleInv inputs status s
  | storeUp {s : ModuleState} (phase : s.phase = .storeUp)
      (held : s.StoreHeld (Multiset.replicate inputs .paths))
      (closed : s.Closed) : ModuleInv inputs .up s
  | apiUp {s : ModuleState} (phase : s.phase = .apiUp)
      (serving : s.Serving (Multiset.replicate inputs .paths)) : ModuleInv inputs .up s
  | live {s : ModuleState} (phase : s.phase = .live)
      (serving : s.Serving (Multiset.replicate inputs .paths)) : ModuleInv inputs .up s
  | untouched {s : ModuleState} (phase : s.phase = .live)
      (kinds : s.caches.kinds = Multiset.replicate inputs .paths)
      (fsCache : s.fsCache = none) (inodesCache : s.inodesCache = none)
      (dirCache : s.dirCache = none) (closed : s.Closed) : ModuleInv inputs .untouched s
  | undone {s : ModuleState} (phase : s.phase = .live)
      (gone : s.StoreGone (Multiset.replicate inputs .paths))
      (closed : s.Closed) : ModuleInv inputs .undone s
  | storeDown {status : LoadStatus} {s : ModuleState} (phase : s.phase = .storeDown)
      (kinds : s.caches.kinds = Multiset.replicate inputs .paths) (openFiles : s.openFiles = 0) :
      ModuleInv inputs status s
  | apiDown {status : LoadStatus} {s : ModuleState} (phase : s.phase = .apiDown)
      (kinds : s.caches.kinds = Multiset.replicate inputs .paths) (openFiles : s.openFiles = 0)
      (chrdev : s.chrdev = false) : ModuleInv inputs status s

namespace ModuleInv

open ModuleState

variable {inputs : ℕ} {status : LoadStatus} {s s' : ModuleState} {ev : ModuleEvent}

/-- A file is open only while requests can be served. -/
lemma serving (h : ModuleInv inputs status s) (hopen : 0 < s.openFiles) :
    status = .up ∧ (s.phase = .apiUp ∨ s.phase = .live) ∧
    s.Serving (Multiset.replicate inputs .paths) := by
  cases h with
  | apiUp phase serving => exact ⟨rfl, Or.inl phase, serving⟩
  | live phase serving => exact ⟨rfl, Or.inr phase, serving⟩
  | unloaded _ _ closed | storeUp _ _ closed | untouched _ _ _ _ _ closed | undone _ _ closed =>
      exact absurd closed.openFiles hopen.ne'
  | storeDown _ _ openFiles => exact absurd openFiles hopen.ne'
  | apiDown _ _ openFiles => exact absurd openFiles hopen.ne'

/-- So is the device registered, but for the time between the two halves of `klrm_exit`. -/
lemma serving_of_device (h : ModuleInv inputs status s) (hchrdev : s.chrdev = true)
    (hdown : s.phase ≠ .storeDown) :
    status = .up ∧ (s.phase = .apiUp ∨ s.phase = .live) ∧
    s.Serving (Multiset.replicate inputs .paths) := by
  cases h with
  | apiUp phase serving => exact ⟨rfl, Or.inl phase, serving⟩
  | live phase serving => exact ⟨rfl, Or.inr phase, serving⟩
  | unloaded _ _ closed | storeUp _ _ closed | untouched _ _ _ _ _ closed | undone _ _ closed =>
      exact absurd (hchrdev.symm.trans closed.chrdev) (by decide)
  | storeDown phase => exact absurd phase hdown
  | apiDown _ _ _ chrdev => exact absurd (hchrdev.symm.trans chrdev) (by decide)

lemma of_serving (hphase : s.phase = .apiUp ∨ s.phase = .live)
    (hserving : s.Serving (Multiset.replicate inputs .paths)) : ModuleInv inputs .up s := by
  rcases hphase with hphase | hphase
  · exact .apiUp hphase hserving
  · exact .live hphase hserving

lemma setupPathStore (h : ModuleInv inputs status s) (hphase : s.phase = .unloaded)
    (fsOk inodesOk dirOk rootOk : Bool) :
    ∃ s', s.next (.setupPathStore fsOk inodesOk dirOk rootOk) = some s' ∧
      ModuleInv inputs
        ((ModuleEvent.setupPathStore fsOk inodesOk dirOk rootOk).status status) s' := by
  obtain ⟨hkinds, hclosed⟩ : s.caches.kinds = Multiset.replicate inputs .paths ∧ s.Closed := by
    cases h <;> simp_all
  obtain ⟨up, t, hset, hsame, hup, hheld, hnothing, hgone⟩ :=
    @setupPathStore_cases s.fresh rfl rfl rfl fsOk inodesOk dirOk rootOk
  have hclosed' : ∀ phase, ({ t with phase := phase } : ModuleState).Closed := fun _ =>
    ⟨hsame.chrdev.trans hclosed.chrdev, hsame.filesystem.trans hclosed.filesystem,
      hsame.openFiles.trans hclosed.openFiles⟩
  have hfresh : s.fresh.caches.kinds = Multiset.replicate inputs .paths := hkinds
  rw [hfresh] at hheld hgone
  refine ⟨{ t with phase := if up then .storeUp else .live },
    by simp only [next, hset, Option.map_some], ?_⟩
  cases fsOk with
  | false =>
      obtain rfl := hnothing rfl
      rw [hup]
      exact .untouched rfl hkinds rfl rfl rfl (hclosed' _)
  | true =>
      cases up with
      | false =>
          have hstatus :
              (ModuleEvent.setupPathStore true inodesOk dirOk rootOk).status status = .undone := by
            rw [Bool.true_and] at hup
            simp [ModuleEvent.status, ← hup]
          rw [hstatus]
          exact .undone rfl ⟨(hgone rfl rfl).fs, (hgone rfl rfl).kinds⟩ (hclosed' _)
      | true =>
          have hstatus :
              (ModuleEvent.setupPathStore true inodesOk dirOk rootOk).status status = .up := by
            rw [Bool.true_and] at hup
            simp [ModuleEvent.status, ← hup]
          rw [hstatus]
          exact .storeUp rfl ⟨(hheld rfl).fs, (hheld rfl).ino, (hheld rfl).dirs, (hheld rfl).kinds⟩
            (hclosed' _)

lemma setupApi (h : ModuleInv inputs status s) (hphase : s.phase = .storeUp)
    (cacheOk chrdevOk : Bool) : ∃ s', s.next (.setupApi cacheOk chrdevOk) = some s' ∧
      ModuleInv (inputs + (ModuleEvent.setupApi cacheOk chrdevOk).inputCache)
        ((ModuleEvent.setupApi cacheOk chrdevOk).status status) s' := by
  obtain ⟨hheld, hclosed⟩ : s.StoreHeld (Multiset.replicate inputs .paths) ∧ s.Closed := by
    cases h <;> simp_all
  cases cacheOk with
  | false =>
      have hheld' : ({ s with inputCache := none } : ModuleState).StoreHeld
          (Multiset.replicate inputs .paths) :=
        ⟨hheld.fs, hheld.ino, hheld.dirs, hheld.kinds⟩
      obtain ⟨t, hcleanup, hsame, hgone⟩ := hheld'.cleanup
      refine ⟨{ t with phase := .live }, ?_, .undone rfl ⟨hgone.fs, hgone.kinds⟩
        ⟨hsame.chrdev.trans hclosed.chrdev, hsame.filesystem.trans hclosed.filesystem,
          hsame.openFiles.trans hclosed.openFiles⟩⟩
      exact congrArg (Option.map fun s : ModuleState => { s with phase := .live }) hcleanup
  | true =>
      have hkeeps : ∀ {cache : Option ℕ} {name : CacheName}, s.Has cache name →
          ∃ n, cache = some n ∧ (s.caches.create .paths).Alive n name := by
        rintro cache name ⟨n, hn, halive⟩
        exact ⟨n, hn, halive.create .paths⟩
      refine ⟨_, rfl, .apiUp rfl ⟨⟨hkeeps hheld.fs, hkeeps hheld.ino, hkeeps hheld.dirs, ?_⟩,
        ⟨_, rfl, Pool.alive_create s.caches .paths⟩, fun _ => hclosed.openFiles⟩⟩
      show CacheName.paths ::ₘ s.caches.kinds = _
      rw [hheld.kinds, Multiset.cons_swap CacheName.paths .fs,
        Multiset.cons_swap CacheName.paths .ino, Multiset.cons_swap CacheName.paths .dirs]
      rfl

lemma cleanupPathStore (h : ModuleInv inputs status s) (hphase : s.phase = .live)
    (hopen : s.openFiles = 0)
    (hstatus : status ≠ .undone) : ∃ s', s.next .cleanupPathStore = some s' ∧
    ModuleInv inputs status s' := by
  cases h with
  | live _ serving =>
      obtain ⟨t, hcleanup, hsame, hgone⟩ := serving.held.cleanup
      exact ⟨{ t with phase := .storeDown }, by simp only [next, hcleanup, Option.map_some],
        .storeDown rfl hgone.kinds (hsame.openFiles.trans hopen)⟩
  | untouched _ kinds fsCache inodesCache dirCache =>
      have hcleanup : s.cleanupPathStore = some s := by
        simp [ModuleState.cleanupPathStore, cleanupInodeStore, fsCache, inodesCache, dirCache,
          ModuleState.destroy]
      exact ⟨{ s with phase := .storeDown }, by simp only [next, hcleanup, Option.map_some],
        .storeDown rfl kinds hopen⟩
  | undone => exact absurd rfl hstatus
  | unloaded phase | storeUp phase | apiUp phase | storeDown phase | apiDown phase =>
      simp [hphase] at phase

/-- **The step lemma.**  `klrm_exit` fails behind a load that was undone, and nothing else ever
    does. -/
theorem step (h : ModuleInv inputs status s) (henabled : s.Enabled ev) :
    (ev = .cleanupPathStore ∧ status = .undone ∧ s.next ev = none) ∨
      ¬ (ev = .cleanupPathStore ∧ status = .undone) ∧
        ∃ s', s.next ev = some s' ∧ ModuleInv (inputs + ev.inputCache) (ev.status status) s' := by
  cases ev with
  | setupPathStore fsOk inodesOk dirOk rootOk =>
      exact Or.inr ⟨by simp, h.setupPathStore henabled fsOk inodesOk dirOk rootOk⟩
  | setupApi cacheOk chrdevOk => exact Or.inr ⟨by simp, h.setupApi henabled cacheOk chrdevOk⟩
  | singlefilefsInit registered =>
      refine Or.inr ⟨by simp, _, rfl, ?_⟩
      cases h with
      | apiUp _ serving =>
          exact .live rfl ⟨⟨serving.held.fs, serving.held.ino, serving.held.dirs,
            serving.held.kinds⟩, serving.input, serving.device⟩
      | unloaded phase | storeUp phase | live phase | untouched phase | undone phase
      | storeDown phase
      | apiDown phase => exact absurd (phase.symm.trans henabled) (by decide)
  | openDevice =>
      refine Or.inr ⟨by simp, _, rfl, ?_⟩
      obtain ⟨hchrdev, hdown, -⟩ := henabled
      obtain ⟨rfl, hphase, hserving⟩ := h.serving_of_device hchrdev hdown
      refine of_serving hphase ⟨⟨hserving.held.fs, hserving.held.ino, hserving.held.dirs,
        hserving.held.kinds⟩, hserving.input, fun hoff => ?_⟩
      exact absurd (hchrdev.symm.trans hoff) (by decide)
  | request =>
      obtain ⟨rfl, hphase, hserving⟩ := h.serving henabled
      refine Or.inr ⟨by simp, s, ?_, of_serving hphase hserving⟩
      exact next_request ⟨hserving.input, hserving.held.dirs, hserving.held.fs, hserving.held.ino⟩
  | closeDevice =>
      obtain ⟨rfl, hphase, hserving⟩ := h.serving henabled
      refine Or.inr ⟨by simp, _, rfl,
        of_serving hphase ⟨⟨hserving.held.fs, hserving.held.ino, hserving.held.dirs,
        hserving.held.kinds⟩, hserving.input, fun hoff => ?_⟩⟩
      show s.openFiles - 1 = 0
      rw [hserving.device hoff]
  | cleanupPathStore =>
      obtain ⟨hphase, hopen⟩ := henabled
      by_cases hstatus : status = .undone
      · refine Or.inl ⟨rfl, hstatus, ?_⟩
        subst hstatus
        cases h with
        | undone _ gone => simp only [next, gone.cleanup, Option.map_none]
        | unloaded phase | storeDown phase | apiDown phase =>
            exact absurd (phase.symm.trans hphase) (by decide)
      · exact Or.inr ⟨fun hboth => hstatus hboth.2, h.cleanupPathStore hphase hopen hstatus⟩
  | cleanupApi =>
      refine Or.inr ⟨by simp, _, rfl, ?_⟩
      cases h with
      | storeDown _ kinds openFiles => exact .apiDown rfl kinds openFiles rfl
      | unloaded phase | storeUp phase | apiUp phase | live phase | untouched phase | undone phase
      | apiDown phase =>
          exact absurd (phase.symm.trans henabled) (by decide)
  | singlefilefsExit =>
      refine Or.inr ⟨by simp, _, rfl, ?_⟩
      cases h with
      | apiDown _ kinds openFiles chrdev => exact .unloaded rfl kinds ⟨chrdev, rfl, openFiles⟩
      | unloaded phase | storeUp phase | apiUp phase | live phase | untouched phase | undone phase
      | storeDown phase => exact absurd (phase.symm.trans henabled) (by decide)

/-- **The run lemma.** -/
theorem run {events : List ModuleEvent} (hrun : Run ModuleState.Step s events s') :
    ∀ {inputs : ℕ} {status : LoadStatus}, ModuleInv inputs status s →
      ModuleInv (inputs + inputCaches events) (lastLoad status events) s' := by
  induction hrun with
  | nil s => exact fun h => h
  | @cons s t u ev events head tail ih =>
      intro inputs status h
      rcases h.step head.1 with ⟨-, -, hnone⟩ | ⟨-, t', hnext, hinv⟩
      · exact absurd (head.2.symm.trans hnone) (by simp)
      · obtain rfl := Option.some.inj (head.2.symm.trans hnext)
        have hrest := ih hinv
        rwa [Nat.add_assoc] at hrest

lemma boot : ModuleInv 0 .untouched ModuleState.boot := .unloaded rfl rfl ⟨rfl, rfl, rfl⟩

end ModuleInv

/-! ## What holds over all loads

`klrm_exit` never destroys the cache of the requests, so that each load leaves one behind; and
after a load that could not have its caches it destroys one that is gone already. -/

/-- The store's caches, while the module has them. -/
def storeCaches (status : LoadStatus) : LoadPhase → Multiset CacheName
  | .storeUp | .apiUp => {.fs, .ino, .dirs}
  | .live => if status = .up then {.fs, .ino, .dirs} else 0
  | .unloaded | .storeDown | .apiDown => 0

/-- The caches that there are, and where a request or a lookup of the module's name can lead. -/
structure ModuleSound (events : List ModuleEvent) (s : ModuleState) : Prop where
  caches : s.caches.kinds
    = Multiset.replicate (inputCaches events) .paths +
    storeCaches (lastLoad .untouched events) s.phase
  device : s.chrdev = true → s.phase ≠ .storeDown →
    s.Has s.inputCache .paths ∧ s.Has s.dirCache .dirs ∧ s.Has s.fsCache .fs ∧
    s.Has s.inodesCache .ino
  files : 0 < s.openFiles → s.chrdev = true ∧ s.phase ≠ .storeDown
  gone : s.phase = .unloaded → s.chrdev = false ∧ s.filesystem = false

/-- The store's three caches, beside the others. -/
lemma ModuleState.StoreHeld.kinds_eq {s : ModuleState} {rest : Multiset CacheName}
    (h : s.StoreHeld rest) : s.caches.kinds = rest + {.fs, .ino, .dirs} := by
  rw [h.kinds, add_comm rest, Multiset.insert_eq_cons, Multiset.insert_eq_cons, Multiset.cons_add,
    Multiset.cons_add, Multiset.singleton_add]

/-- Every reached state has the caches that its phase and its load say. -/
lemma ModuleInv.kinds {inputs : ℕ} {status : LoadStatus} {s : ModuleState}
    (h : ModuleInv inputs status s) :
    s.caches.kinds = Multiset.replicate inputs .paths + storeCaches status s.phase := by
  cases h with
  | storeUp phase held => rw [phase, held.kinds_eq, storeCaches]
  | apiUp phase serving => rw [phase, serving.held.kinds_eq, storeCaches]
  | live phase serving => rw [phase, serving.held.kinds_eq, storeCaches, if_pos rfl]
  | untouched phase kinds => rw [phase, kinds, storeCaches, if_neg (by decide), add_zero]
  | undone phase gone => rw [phase, gone.kinds, storeCaches, if_neg (by decide), add_zero]
  | unloaded phase kinds | storeDown phase kinds | apiDown phase kinds =>
      rw [phase, kinds, storeCaches, add_zero]

lemma ModuleInv.closed {inputs : ℕ} {status : LoadStatus} {s : ModuleState}
    (h : ModuleInv inputs status s) (hphase : s.phase = .unloaded) : s.Closed := by
  cases h with
  | unloaded _ _ closed => exact closed
  | storeUp phase | apiUp phase | live phase | untouched phase | undone phase | storeDown phase
  | apiDown phase =>
      exact absurd (phase.symm.trans hphase) (by decide)

/-- **Loading and unloading leaves the requests' caches behind and nothing else.**  After any
    calls that have not failed: the caches are the store's, while the module has them, and one
    for each `setup_api` that got as far; a device that can be used stands before live caches;
    and an unloaded module has nothing registered. -/
theorem moduleLife_sound {events : List ModuleEvent} {s : ModuleState}
    (hrun : Run ModuleState.Step ModuleState.boot events s) : ModuleSound events s := by
  have h := ModuleInv.boot.run hrun
  rw [Nat.zero_add] at h
  refine ⟨h.kinds, fun hchrdev hdown => ?_, fun hopen => ?_, fun hphase => ?_⟩
  · obtain ⟨-, -, hserving⟩ := h.serving_of_device hchrdev hdown
    exact ⟨hserving.input, hserving.held.dirs, hserving.held.fs, hserving.held.ino⟩
  · obtain ⟨-, hphase, hserving⟩ := h.serving hopen
    refine ⟨?_, by rcases hphase with hphase | hphase <;> simp [hphase]⟩
    cases hchrdev : s.chrdev with
    | true => rfl
    | false => exact absurd (hserving.device hchrdev) hopen.ne'
  · have hclosed := h.closed hphase
    exact ⟨hclosed.chrdev, hclosed.filesystem⟩

/-- A load, a request, an unload, and a second load. -/
theorem moduleLife_sound_reload : ∃ s, ModuleSound
    [.setupPathStore true true true true, .setupApi true true, .singlefilefsInit true, .openDevice,
      .request, .closeDevice, .cleanupPathStore, .cleanupApi, .singlefilefsExit,
      .setupPathStore true true true true] s ∧ s.caches.kinds = {.paths, .fs, .ino, .dirs} :=
  ⟨_, moduleLife_sound
    (.cons ⟨rfl, rfl⟩ (.cons ⟨rfl, rfl⟩ (.cons ⟨rfl, rfl⟩ (.cons ⟨⟨rfl, by decide, by decide⟩, rfl⟩
    (.cons ⟨Nat.one_pos, ModuleState.next_request (by decide)⟩
      (.cons ⟨Nat.one_pos, rfl⟩ (.cons ⟨⟨rfl, rfl⟩, rfl⟩
      (.cons ⟨rfl, rfl⟩ (.cons ⟨rfl, rfl⟩ (.cons ⟨rfl, rfl⟩ (.nil _))))))))))), by decide⟩

/-- **When unloading fails.**  After any calls: an event that can happen uses a cache that is not
    there exactly when it is `klrm_exit` and the last `klrm_init` has undone what it had set up. -/
theorem moduleLife_fails_iff {events : List ModuleEvent} {s : ModuleState}
    (hrun : Run ModuleState.Step ModuleState.boot events s) {ev : ModuleEvent}
    (henabled : s.Enabled ev) :
    s.next ev = none ↔ ev = .cleanupPathStore ∧ lastLoad .untouched events = .undone := by
  rcases (ModuleInv.boot.run hrun).step henabled with ⟨hev, hstatus, hnone⟩ | ⟨hnot, s', hsome, -⟩
  · exact iff_of_true hnone ⟨hev, hstatus⟩
  · exact iff_of_false (by rw [hsome]; simp) hnot

/-- The second cache cannot be had, and the module is unloaded. -/
theorem moduleLife_fails_iff_inodes : ∃ s, s.next .cleanupPathStore = none ∧
    Run ModuleState.Step ModuleState.boot [.setupPathStore true false true true] s := by
  obtain ⟨s, hrun, henabled⟩ : ∃ s,
      Run ModuleState.Step ModuleState.boot [.setupPathStore true false true true] s ∧
      s.Enabled .cleanupPathStore := ⟨_, .cons ⟨rfl, rfl⟩ (.nil _), rfl, rfl⟩
  exact ⟨s, (moduleLife_fails_iff hrun henabled).mpr ⟨rfl, rfl⟩, hrun⟩

end KLRM
