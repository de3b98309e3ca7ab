import FileKLRM.LogFs.CopyLoop
import FileKLRM.LogFs.SuperBlock

/-!
# The mount lifecycle

Mount attempts on any devices, unmounts and appends, in any order, from the module's start.  A
superblock is live from the mount that succeeded to its unmount.  `LifecycleOk` is what the
globals should say about the live superblocks, `SameVisible` what a failed attempt should leave
alone.

Both fail: `kill_superblock` runs for every superblock that `fill_super` rejected, and it clears
`mounted` and `singleton_sb`, stores the current bounds in the rejected device and, when it cannot
read that device, keeps `sb_lock`.  `EventOk` is the condition on an attempt or an unmount, in the
state before it, under which nothing of this shows, and `lifecycle_exact` says that a run keeps to
the intended lifecycle exactly when each of its events meets that condition.
-/

namespace KLRM

open LogFs

/-! ## What the state shows

`LogFs.contents` is the contents of a block through the cache, and the bounds, the size and
`mounted` are globals.  A failed mount should leave all of it alone (`SameVisible`), but may well
have filled the cache. -/

/-- The blocks of every device, as `sb_bread` returns them. -/
def LogFs.contents (s : LogFs) : ℕ → ℕ → Block := fun dev => (s.devs dev).content

@[simp] lemma contents_bread (s : LogFs) (sb : SuperBlock) (b : ℕ) :
    (s.bread sb b).contents = s.contents := by
  funext dev
  by_cases h : dev = sb.sDev
  · subst h
    simp [contents, bread]
  · simp [contents, bread, h]

@[simp] lemma contents_store (s : LogFs) (sb : SuperBlock) (b : ℕ) (data : Block) :
    (s.store sb b data).contents
      = Function.update s.contents sb.sDev (Function.update (s.contents sb.sDev) b data) := by
  funext dev
  by_cases h : dev = sb.sDev
  · subst h
    simp [contents, store]
  · simp [contents, store, h]

@[simp] lemma contents_syncFilesystem (s : LogFs) (sb : SuperBlock) :
    (s.syncFilesystem sb).contents = s.contents := by
  funext dev
  by_cases h : dev = sb.sDev
  · subst h
    simp [contents, LogFs.syncFilesystem]
  · simp [contents, LogFs.syncFilesystem, h]

@[simp] lemma contents_load (s : LogFs) (inode : Block) :
    (s.load inode).contents = s.contents := rfl

@[simp] lemma bounds_load (s : LogFs) (inode : Block) :
    (s.load inode).bounds = boundsOf inode := rfl

@[simp] lemma fileSize_load (s : LogFs) (inode : Block) :
    (s.load inode).fileSize = fileSizeOf inode := rfl

lemma block_eq_contents (s : LogFs) (sb : SuperBlock) : s.block sb = s.contents sb.sDev := rfl

/-- What a failed mount attempt must not change. -/
structure SameVisible (s s' : LogFs) : Prop where
  mounted : s'.mounted = s.mounted
  singletonSb : s'.singletonSb = s.singletonSb
  fileSize : s'.fileSize = s.fileSize
  bounds : s'.bounds = s.bounds
  contents : s'.contents = s.contents

/-! ## What the two operations do

One lemma for each outcome: `fill_super` that succeeds or fails, `kill_superblock` that can or
cannot read the inode block.  Later proofs cite these and unfold neither function. -/

/-- `fill_super` gets as far as decoding the inode block. -/
def Decodes (s : LogFs) (dev : ℕ) (env : MountEnv) : Prop :=
  magicOf (s.contents dev 0) = logMagic ∧ env.breadInode = true

/-- The attempt meets none of the error exits. -/
def MountSucceeds (s : LogFs) (dev : ℕ) (env : MountEnv) : Prop :=
  s.mounted = 0 ∧ env.breadSb = true ∧ Decodes s dev env ∧ env.igetLocked = true ∧
    env.dMakeRoot = true

/-- A successful `fill_super` loads the globals from the device and publishes the superblock. -/
lemma fillSuper_succeeds {s : LogFs} (env : MountEnv) (sb : SuperBlock) (hlock : s.sbLock = false)
    (h : MountSucceeds s sb.sDev env) :
    ∃ s', singlefilefsFillSuper env sb s = .ok (0, s') ∧ s'.mounted = 1 ∧
      s'.singletonSb = some sb ∧ s'.sbLock = false ∧ s'.contents = s.contents ∧
      s'.bounds = boundsOf (s.contents sb.sDev 1) ∧
      s'.fileSize = fileSizeOf (s.contents sb.sDev 1) := by
  obtain ⟨hm, hsb, ⟨hmagic, hinode⟩, higet, hroot⟩ := h
  rw [← block_eq_contents] at hmagic
  set f := ((s.bread sb 0).bread sb 1).load (s.block sb 1) with hf
  have hl : f.sbLock = false := hlock
  have hc : f.contents = s.contents := by rw [hf, contents_load, contents_bread, contents_bread]
  have hb : f.bounds = boundsOf (s.contents sb.sDev 1) := bounds_load _ _
  have hsz : f.fileSize = fileSizeOf (s.contents sb.sDev 1) := fileSize_load _ _
  refine ⟨{ f with singletonSb := some sb, mounted := 1 }, ?_, rfl, rfl, hl, hc, hb, hsz⟩
  simp only [singlefilefsFillSuper, hm, hsb, hmagic, hinode, higet, hroot, hl, block_bread, ← hf,
    ne_eq, not_true_eq_false, if_false, Bool.not_true, Bool.false_eq_true]

/-- A failed `fill_super` publishes nothing, but past the decoding the globals are those of the
    rejected device. -/
lemma fillSuper_fails {s : LogFs} {env : MountEnv} (sb : SuperBlock)
    (h : ¬ MountSucceeds s sb.sDev env) (hsb : s.mounted = 0 → env.breadSb = true) :
    ∃ ret f, singlefilefsFillSuper env sb s = .ok (ret, f) ∧ ret ≠ 0 ∧
      f.mounted = s.mounted ∧ f.singletonSb = s.singletonSb ∧ f.sbLock = s.sbLock ∧
      f.contents = s.contents ∧
      ((f.bounds = s.bounds ∧ f.fileSize = s.fileSize ∧
          (s.mounted = 0 → ¬ Decodes s sb.sDev env)) ∨
        (Decodes s sb.sDev env ∧ f.bounds = boundsOf (s.contents sb.sDev 1) ∧
          f.fileSize = fileSizeOf (s.contents sb.sDev 1))) := by
  unfold singlefilefsFillSuper
  by_cases hm : s.mounted = 0
  · rw [if_neg (by simpa using hm), if_neg (by simp [hsb hm])]
    by_cases hmagic : magicOf (s.contents sb.sDev 0) = logMagic
    · rw [if_neg (by simpa [block_eq_contents] using hmagic)]
      cases hinode : env.breadInode with
      | false =>
          refine ⟨-eio, s.bread sb 0, by simp, by decide, rfl, rfl, rfl, by simp,
            Or.inl ⟨rfl, rfl, fun _ hd => ?_⟩⟩
          rw [hd.2] at hinode
          exact Bool.noConfusion hinode
      | true =>
          set f := ((s.bread sb 0).bread sb 1).load (s.block sb 1) with hf
          have hc : f.contents = s.contents := by
            rw [hf, contents_load, contents_bread, contents_bread]
          refine ⟨-enomem, f, ?_, by decide, rfl, rfl, rfl, hc,
            Or.inr ⟨⟨hmagic, hinode⟩, bounds_load _ _, fileSize_load _ _⟩⟩
          simp only [block_bread, ← hf, Bool.not_true, Bool.false_eq_true, if_false]
          cases higet : env.igetLocked with
          | false => simp
          | true =>
              cases hroot : env.dMakeRoot with
              | false => simp
              | true => exact absurd ⟨hm, hsb hm, ⟨hmagic, hinode⟩, higet, hroot⟩ h
    · rw [if_pos (by simpa [block_eq_contents] using hmagic)]
      exact ⟨-ebadf, _, rfl, by decide, rfl, rfl, rfl, by simp,
        Or.inl ⟨rfl, rfl, fun _ hd => hmagic hd.1⟩⟩
  · rw [if_pos (by simpa using hm)]
    exact ⟨-ebusy, s, rfl, by decide, rfl, rfl, rfl, rfl, Or.inl ⟨rfl, rfl, fun h0 => absurd h0 hm⟩⟩

/-- `kill_superblock`, once it has read the inode block, stores the bounds there and forgets the
    mount, whichever superblock it was called for. -/
lemma killSuperblock_reads {s : LogFs} (sb : SuperBlock) (hlock : s.sbLock = false) :
    ∃ s', singlefilefsKillSuperblock true sb s = .ok s' ∧ s'.mounted = 0 ∧
      s'.singletonSb = none ∧ s'.sbLock = false ∧ s'.bounds = s.bounds ∧
      s'.fileSize = s.fileSize ∧
      s'.contents = Function.update s.contents sb.sDev
        (Function.update (s.contents sb.sDev) 1 (storeBounds (s.contents sb.sDev 1) s.bounds)) := by
  refine ⟨{ ((s.bread sb 1).store sb 1 (storeBounds (s.block sb 1) s.bounds)).syncFilesystem sb with
      singletonSb := none, mounted := 0 }, ?_, rfl, rfl, hlock, rfl, rfl, ?_⟩
  · simp only [singlefilefsKillSuperblock, hlock, Bool.false_eq_true, if_false, Bool.not_true,
      block_bread]
    rfl
  · show (((s.bread sb 1).store sb 1 (storeBounds (s.block sb 1) s.bounds)).syncFilesystem
      sb).contents = _
    rw [contents_syncFilesystem, contents_store, contents_bread, block_eq_contents]

/-- When it cannot read the inode block it keeps the lock. -/
lemma killSuperblock_fails {s : LogFs} (sb : SuperBlock) (hlock : s.sbLock = false) :
    singlefilefsKillSuperblock false sb s = .ok { s with sbLock := true } := by
  simp [singlefilefsKillSuperblock, hlock]

/-! ## Runs of mounts, unmounts and appends

The state of a run has, beside the file system, the live superblock, what was loaded for it, and a
ghost list of the amounts that the run has appended since.  The bounds should be the loaded ones
moved by exactly these amounts. -/

/-- The file system with the superblocks that are live and the identity of the next superblock;
    and, as the history of the run, the bounds and the size that the last successful mount read
    from its device, with how many bytes each append since has written. -/
structure Lifecycle where
  fs : LogFs
  live : List SuperBlock
  fresh : ℕ
  loadedBounds : ℤ × ℤ
  loadedSize : ℕ
  appended : List ℕ

/-- What can happen: a mount attempt on a device, the unmount of a live superblock, an append by
    the kernel, and an append through the file of a mounted log. -/
inductive LifeEvent
  | mount (dev : ℕ) (env : MountEnv) (killBread : Bool)
  | unmount (sb : SuperBlock) (breadOk : Bool)
  | internalWrite (breadOk : ℕ → Bool) (payload : List UInt8)
  | write (breadOk : ℕ → Bool) (uncopied : ℕ → ℕ) (buf : List UInt8)

/-- The event is an append. -/
def LifeEvent.isAppend : LifeEvent → Bool
  | mount .. | unmount .. => false
  | internalWrite .. | write .. => true

/-- What an append by the kernel has written, if anything: the whole payload, unless a block
    could not be read. -/
def kernelAppended (breadOk : ℕ → Bool) (payload : List UInt8) (s : LogFs) : List ℕ :=
  let len := strlen payload
  if len = 0 ∨ s.mounted = 0 then []
  else
    match copyLoop breadOk (fun _ => 0) payload len s.circularBufferEnd (len + 1) 0 0 s with
    | .ok e => if e.complete then [len] else []
    | .error _ => []

namespace Lifecycle

/-- One event: its return value, `0` for all but a failed mount attempt, and the next state. -/
def step (st : Lifecycle) : LifeEvent → Except Stop (ℤ × Lifecycle)
  | .mount dev env killBread => do
      let sb : SuperBlock := ⟨st.fresh, dev⟩
      let (ret, fs) ← singlefilefsMount env killBread sb st.fs
      if ret = 0 then
        .ok (0, { fs := fs, live := sb :: st.live, fresh := st.fresh + 1
                  loadedBounds := boundsOf (st.fs.contents dev 1)
                  loadedSize := fileSizeOf (st.fs.contents dev 1)
                  appended := [] })
      else .ok (ret, { st with fs := fs, fresh := st.fresh + 1 })
  | .unmount sb breadOk =>
      if sb ∈ st.live then do
        let fs ← singlefilefsKillSuperblock breadOk sb st.fs
        .ok (0, { st with fs := fs, live := st.live.erase sb })
      else .ok (0, st)
  | .internalWrite breadOk payload => do
      let fs ← internalLogfilefsWrite breadOk payload st.fs
      .ok (0, { st with fs := fs, appended := st.appended ++ kernelAppended breadOk payload st.fs })
  | .write breadOk uncopied buf =>
      if st.live = [] then .ok (0, st)
      else do
        let r ← logfilefsWrite breadOk uncopied buf st.fs
        .ok (0, { st with fs := r.fs, appended := st.appended ++ [toU64 r.ret] })

/-- The module just loaded: nothing mounted, every global zero, any devices. -/
def start (devs : ℕ → BlockDev) : Lifecycle where
  fs := { mounted := 0, singletonSb := none, sbLock := false, fileSize := 0
          circularBufferStart := 0, circularBufferEnd := 0, devs := devs }
  live := []
  fresh := 0
  loadedBounds := (0, 0)
  loadedSize := 0
  appended := []

end Lifecycle

/-- What should hold between calls: `mounted` is `1` exactly while a superblock is live, which is
    then `singleton_sb`; size and bounds are those loaded from its device, the bounds moved by
    the appends that were made since and by nothing else; `sb_lock` is free. -/
structure LifecycleOk (st : Lifecycle) : Prop where
  mounted_iff : st.fs.mounted = 1 ↔ st.live ≠ []
  singleton : ∀ sb ∈ st.live, st.fs.singletonSb = some sb
  loaded : st.live ≠ [] → st.fs.fileSize = st.loadedSize ∧
    st.fs.bounds = st.appended.foldl (advanceBounds st.loadedSize) st.loadedBounds
  unlocked : st.fs.sbLock = false

/-- A run keeps to the lifecycle: it is as it should be in every state, every mount attempt and
    unmount returns, and a failed attempt leaves what it should. -/
def KeepsLifecycle : Lifecycle → List LifeEvent → Prop
  | st, [] => LifecycleOk st
  | st, ev :: evs => LifecycleOk st ∧
      match st.step ev with
      | .ok (ret, st') => (ret ≠ 0 → SameVisible st.fs st'.fs) ∧ KeepsLifecycle st' evs
      | .error _ => ev.isAppend = true

/-- The attempt fails without showing: nothing is mounted, the superblock and, for `kill_sb`, the
    inode block can be read, and the device already holds the current bounds and, if the attempt
    gets as far as loading it, the current size. -/
def MountHarmless (s : LogFs) (dev : ℕ) (env : MountEnv) (killBread : Bool) : Prop :=
  s.mounted = 0 ∧ env.breadSb = true ∧ killBread = true ∧
    boundsOf (s.contents dev 1) = s.bounds ∧
    (Decodes s dev env → fileSizeOf (s.contents dev 1) = s.fileSize)

/-- The condition on one event, in the state before it. -/
def EventOk (st : Lifecycle) : LifeEvent → Prop
  | .mount dev env killBread => MountSucceeds st.fs dev env ∨ MountHarmless st.fs dev env killBread
  | .unmount sb breadOk => sb ∈ st.live → breadOk = true
  | .internalWrite .. | .write .. => True

/-- Every event of the run meets the condition in the state it finds. -/
def EventsOk : Lifecycle → List LifeEvent → Prop
  | _, [] => True
  | st, ev :: evs => EventOk st ev ∧
      match st.step ev with
      | .ok (_, st') => EventsOk st' evs
      | .error _ => True

/-! ### The invariant of the runs that meet the condition

`LifecycleOk` is what should hold between calls; a step needs a little more of the state before it,
so the induction over a run carries `LifecycleInv`. -/

/-- The lifecycle with what the proof carries besides: at most one superblock is live, no superblock
    is published while none is, and the bounds are in the range of a `long long`. -/
structure LifecycleInv (st : Lifecycle) : Prop extends LifecycleOk st where
  mounted_le : st.fs.mounted ≤ 1
  live_le : st.live.length ≤ 1
  singleton_none : st.live = [] → st.fs.singletonSb = none
  range₁ : -2 ^ 63 ≤ st.fs.bounds.1 ∧ st.fs.bounds.1 < 2 ^ 63
  range₂ : -2 ^ 63 ≤ st.fs.bounds.2 ∧ st.fs.bounds.2 < 2 ^ 63

namespace LifecycleInv

variable {st : Lifecycle}

lemma live_nil (h : LifecycleInv st) (hm : st.fs.mounted = 0) : st.live = [] := by
  by_contra hne
  have := h.mounted_iff.mpr hne
  omega

lemma start (devs : ℕ → BlockDev) : LifecycleInv (Lifecycle.start devs) :=
  ⟨⟨by simp [Lifecycle.start], by simp [Lifecycle.start], by simp [Lifecycle.start], rfl⟩,
    by simp [Lifecycle.start], by simp [Lifecycle.start], fun _ => rfl,
    by simp [Lifecycle.start, bounds], by simp [Lifecycle.start, bounds]⟩

end LifecycleInv

lemma boundsOf_range (inode : Block) :
    (-2 ^ 63 ≤ (boundsOf inode).1 ∧ (boundsOf inode).1 < 2 ^ 63) ∧
      (-2 ^ 63 ≤ (boundsOf inode).2 ∧ (boundsOf inode).2 < 2 ^ 63) := by
  unfold boundsOf
  exact ⟨readS64_range _ _, readS64_range _ _⟩

lemma advanceBounds_range (N : ℕ) {b : ℤ × ℤ} (h : -2 ^ 63 ≤ b.1 ∧ b.1 < 2 ^ 63) (m : ℕ) :
    (-2 ^ 63 ≤ (advanceBounds N b m).1 ∧ (advanceBounds N b m).1 < 2 ^ 63) ∧
      (-2 ^ 63 ≤ (advanceBounds N b m).2 ∧ (advanceBounds N b m).2 < 2 ^ 63) := by
  refine ⟨?_, toS64_range _⟩
  simp only [advanceBounds]
  split_ifs
  · exact toS64_range _
  · exact toS64_range _
  · exact h

lemma foldl_advanceBounds_range (N : ℕ) : ∀ (amounts : List ℕ) {b : ℤ × ℤ},
    -2 ^ 63 ≤ b.1 ∧ b.1 < 2 ^ 63 → -2 ^ 63 ≤ b.2 ∧ b.2 < 2 ^ 63 →
      (-2 ^ 63 ≤ (amounts.foldl (advanceBounds N) b).1 ∧
        (amounts.foldl (advanceBounds N) b).1 < 2 ^ 63) ∧
        (-2 ^ 63 ≤ (amounts.foldl (advanceBounds N) b).2 ∧
          (amounts.foldl (advanceBounds N) b).2 < 2 ^ 63)
  | [], _, h₁, h₂ => ⟨h₁, h₂⟩
  | m :: amounts, b, h₁, _ => by
      have hstep := advanceBounds_range N h₁ m
      exact foldl_advanceBounds_range N amounts hstep.1 hstep.2

/-! ### Appends

An append changes the bounds by `advanceBounds`, with the number of bytes that it has written; this
is the amount that the history of the run gets. -/

/-- What an append does to the globals: a step of the bounds for each amount that it has written. -/
def AppendsBy (amounts : List ℕ) (s s' : LogFs) : Prop :=
  s' = { s with
    circularBufferStart := (amounts.foldl (advanceBounds s.fileSize) s.bounds).1
    circularBufferEnd := (amounts.foldl (advanceBounds s.fileSize) s.bounds).2
    devs := s'.devs }

/-- The step of the bounds depends on the amount modulo `2 ^ 64` only. -/
lemma advanceBounds_congr (N : ℕ) (b : ℤ × ℤ) {m n : ℕ} (h : (m : ℤ) % 2 ^ 64 = (n : ℤ) % 2 ^ 64) :
    advanceBounds N b m = advanceBounds N b n := by
  have hto : ∀ x : ℤ, toS64 (x + m) = toS64 (x + n) := by
    intro x
    unfold toS64
    omega
  have hun : toU64 (b.2 + m) = toU64 (b.2 + n) := by
    unfold toU64
    omega
  have hwrap : toS64 (b.1 + (b.2 + m - N)) = toS64 (b.1 + (b.2 + n - N)) := by
    unfold toS64
    omega
  simp only [advanceBounds, hto, hun, hwrap]

/-- What is reported is what was copied, as far as it fits in a `ssize_t`. -/
lemma advanceBounds_reported (N : ℕ) (b : ℤ × ℤ) (copied : ℕ) :
    advanceBounds N b (toU64 (toS64 copied)) = advanceBounds N b copied := by
  refine advanceBounds_congr N b ?_
  unfold toS64 toU64
  omega

/-- A block loop that is complete has copied everything. -/
lemma copyLoop_complete {breadOk : ℕ → Bool} {uncopied : ℕ → ℕ} {src : List UInt8} {len : ℕ}
    {origEnd : ℤ} : ∀ {fuel i copied : ℕ} {s : LogFs} {e : CopyEnd},
      copyLoop breadOk uncopied src len origEnd fuel i copied s = .ok e → e.complete = true →
      e.copied = len := by
  intro fuel i copied s e h hc
  fun_induction copyLoop breadOk uncopied src len origEnd fuel i copied s with grind

lemma internalLogfilefsWrite_appendsBy {breadOk : ℕ → Bool} {payload : List UInt8} {s s' : LogFs}
    (h : internalLogfilefsWrite breadOk payload s = .ok s') :
    AppendsBy (kernelAppended breadOk payload s) s s' := by
  unfold internalLogfilefsWrite at h
  unfold kernelAppended
  dsimp only at h ⊢
  split_ifs at h with hlen hm
  · rw [if_pos (Or.inl hlen)]
    cases h
    rfl
  · rw [if_pos (Or.inr hm)]
    cases h
    rfl
  · rw [if_neg (not_or.mpr ⟨hlen, hm⟩)]
    cases hrun : copyLoop breadOk (fun _ => 0) payload (strlen payload) s.circularBufferEnd
        (strlen payload + 1) 0 0 s with
    | error e => simp [hrun, bind, Except.bind] at h
    | ok e =>
        have hg := copyLoop_globals hrun
        simp only [hrun, bind, Except.bind] at h
        split_ifs at h with hc
        · cases h
          dsimp only
          rw [if_pos hc, AppendsBy, hg, copyLoop_complete hrun hc]
          rfl
        · cases h
          dsimp only
          rw [if_neg hc]
          exact hg

lemma logfilefsWrite_appendsBy {breadOk : ℕ → Bool} {uncopied : ℕ → ℕ} {buf : List UInt8}
    {s : LogFs} {r : WriteResult} (h : logfilefsWrite breadOk uncopied buf s = .ok r) :
    AppendsBy [toU64 r.ret] s r.fs := by
  unfold logfilefsWrite at h
  cases hrun :
      copyLoop breadOk uncopied buf buf.length s.circularBufferEnd (buf.length + 1) 0 0 s with
  | error e => simp [hrun, bind, Except.bind] at h
  | ok e =>
      have hg := copyLoop_globals hrun
      simp only [hrun, bind, Except.bind] at h
      have hfs : r.fs = e.fs.advance e.copied := by rw [← Except.ok.inj h]
      have hret : r.ret = toS64 e.copied := by rw [← Except.ok.inj h]
      rw [AppendsBy, List.foldl_cons, List.foldl_nil, hret, advanceBounds_reported, hfs, hg]
      rfl

lemma LifecycleInv.append {st : Lifecycle} (h : LifecycleInv st) {s' : LogFs} {amounts : List ℕ}
    (hs : AppendsBy amounts st.fs s') :
    LifecycleInv { st with fs := s', appended := st.appended ++ amounts } := by
  have hr := foldl_advanceBounds_range st.fs.fileSize amounts h.range₁ h.range₂
  rw [AppendsBy] at hs
  rw [hs]
  refine ⟨⟨h.mounted_iff, h.singleton, fun hlive => ?_, h.unlocked⟩, h.mounted_le, h.live_le,
    h.singleton_none, hr.1, hr.2⟩
  obtain ⟨hsize, hb⟩ := h.loaded hlive
  refine ⟨hsize, ?_⟩
  rw [List.foldl_append, ← hb, ← hsize]
  rfl

/-! ### One event

An event that meets the condition keeps the invariant, and one that does not breaks what should
hold: the two directions are proved event by event. -/

/-- What the run asks of one event, `P` standing for what it asks of the next state. -/
def StepKeeps (st : Lifecycle) (ev : LifeEvent) (P : Lifecycle → Prop) : Prop :=
  match st.step ev with
  | .ok (ret, st') => (ret ≠ 0 → SameVisible st.fs st'.fs) ∧ P st'
  | .error _ => ev.isAppend = true

namespace LifecycleInv

variable {st : Lifecycle}

lemma step_mount_succeeds (h : LifecycleInv st) {dev : ℕ} {env : MountEnv} (killBread : Bool)
    (hmount : MountSucceeds st.fs dev env) :
    StepKeeps st (.mount dev env killBread) LifecycleInv := by
  have hnil := h.live_nil hmount.1
  obtain ⟨s', hfill, hm, hs, hl, -, hb, hz⟩ :=
    fillSuper_succeeds env ⟨st.fresh, dev⟩ h.unlocked hmount
  have hrange := boundsOf_range (st.fs.contents dev 1)
  simp only [StepKeeps, Lifecycle.step, singlefilefsMount, hfill, bind, Except.bind, if_true]
  refine ⟨fun hne => absurd rfl hne, ⟨⟨?_, ?_, fun _ => ⟨hz, hb⟩, hl⟩, hm.le, ?_, ?_, ?_, ?_⟩⟩
  · simp [hm]
  · simp [hnil, hs]
  · simp [hnil]
  · simp
  · rw [hb]
    exact hrange.1
  · rw [hb]
    exact hrange.2

lemma step_mount_harmless (h : LifecycleInv st) {dev : ℕ} {env : MountEnv} {killBread : Bool}
    (hfail : ¬ MountSucceeds st.fs dev env) (hharm : MountHarmless st.fs dev env killBread) :
    StepKeeps st (.mount dev env killBread) LifecycleInv := by
  obtain ⟨hm, hsb, rfl, hdev, hsize⟩ := hharm
  have hnil := h.live_nil hm
  obtain ⟨ret, f, hfill, hret, hfm, -, hfl, hfc, hfb⟩ :=
    fillSuper_fails ⟨st.fresh, dev⟩ hfail fun _ => hsb
  obtain ⟨s', hkill, hm', hs', hl', hb', hz', hc'⟩ :=
    killSuperblock_reads (s := f) ⟨st.fresh, dev⟩ (hfl.trans h.unlocked)
  -- the bounds and the size that `fill_super` leaves are the current ones
  have hbz : f.bounds = st.fs.bounds ∧ f.fileSize = st.fs.fileSize := by
    rcases hfb with ⟨hb, hz, -⟩ | ⟨hd, hb, hz⟩
    · exact ⟨hb, hz⟩
    · exact ⟨hb.trans hdev, hz.trans (hsize hd)⟩
  have hsame : SameVisible st.fs s' := by
    refine ⟨hm'.trans hm.symm, hs'.trans (h.singleton_none hnil).symm, hz'.trans hbz.2,
      hb'.trans hbz.1, ?_⟩
    rw [hc', hfc, hbz.1, ← hdev, storeBounds_boundsOf, Function.update_eq_self,
      Function.update_eq_self]
  simp only [StepKeeps, Lifecycle.step, singlefilefsMount, hfill, bind, Except.bind,
    if_neg hret, hkill]
  refine ⟨fun _ => hsame, ⟨⟨?_, ?_, ?_, hl'⟩, ?_, h.live_le, fun _ => hs', ?_, ?_⟩⟩
  · simp [hm', hnil]
  · simp [hnil]
  · simp [hnil]
  · simp [hm']
  · rw [hsame.bounds]
    exact h.range₁
  · rw [hsame.bounds]
    exact h.range₂

lemma step_unmount (h : LifecycleInv st) {sb : SuperBlock} {breadOk : Bool}
    (hread : sb ∈ st.live → breadOk = true) : StepKeeps st (.unmount sb breadOk) LifecycleInv := by
  by_cases hlive : sb ∈ st.live
  · rw [hread hlive]
    obtain ⟨s', hkill, hm', hs', hl', hb', hz', -⟩ := killSuperblock_reads sb h.unlocked
    -- only one superblock was live
    have hnil : st.live.erase sb = [] := by
      have hlen := List.length_erase_of_mem hlive
      have hle := h.live_le
      exact List.eq_nil_of_length_eq_zero (by omega)
    simp only [StepKeeps, Lifecycle.step, if_pos hlive, hkill, bind, Except.bind]
    refine ⟨fun hne => absurd rfl hne,
      ⟨⟨?_, ?_, ?_, hl'⟩, ?_, ?_, fun _ => hs', ?_, ?_⟩⟩
    · simp [hm', hnil]
    · simp [hnil]
    · simp [hnil]
    · simp [hm']
    · simp [hnil]
    · rw [hb']
      exact h.range₁
    · rw [hb']
      exact h.range₂
  · simp only [StepKeeps, Lifecycle.step, if_neg hlive]
    exact ⟨fun hne => absurd rfl hne, h⟩

lemma step_internalWrite (h : LifecycleInv st) (breadOk : ℕ → Bool) (payload : List UInt8) :
    StepKeeps st (.internalWrite breadOk payload) LifecycleInv := by
  cases hw : internalLogfilefsWrite breadOk payload st.fs with
  | error e => simp [StepKeeps, Lifecycle.step, hw, bind, Except.bind, LifeEvent.isAppend]
  | ok s' =>
      simp only [StepKeeps, Lifecycle.step, hw, bind, Except.bind]
      exact ⟨fun hne => absurd rfl hne, h.append (internalLogfilefsWrite_appendsBy hw)⟩

lemma step_write (h : LifecycleInv st) (breadOk : ℕ → Bool) (uncopied : ℕ → ℕ) (buf : List UInt8) :
    StepKeeps st (.write breadOk uncopied buf) LifecycleInv := by
  by_cases hnil : st.live = []
  · simp only [StepKeeps, Lifecycle.step, if_pos hnil]
    exact ⟨fun hne => absurd rfl hne, h⟩
  · cases hw : logfilefsWrite breadOk uncopied buf st.fs with
    | error e => simp [StepKeeps, Lifecycle.step, hnil, hw, bind, Except.bind, LifeEvent.isAppend]
    | ok r =>
        simp only [StepKeeps, Lifecycle.step, if_neg hnil, hw, bind, Except.bind]
        exact ⟨fun hne => absurd rfl hne, h.append (logfilefsWrite_appendsBy hw)⟩

/-- An event that meets the condition keeps the lifecycle. -/
lemma step (h : LifecycleInv st) {ev : LifeEvent} (hev : EventOk st ev) :
    StepKeeps st ev LifecycleInv := by
  cases ev with
  | mount dev env killBread =>
      by_cases hmount : MountSucceeds st.fs dev env
      · exact h.step_mount_succeeds killBread hmount
      · exact h.step_mount_harmless hmount (hev.resolve_left hmount)
  | unmount sb breadOk => exact h.step_unmount hev
  | internalWrite breadOk payload => exact h.step_internalWrite breadOk payload
  | write breadOk uncopied buf => exact h.step_write breadOk uncopied buf

/-- A failed attempt that shows nothing was harmless. -/
lemma harmless_of_keeps (h : LifecycleInv st) {dev : ℕ} {env : MountEnv} {killBread : Bool}
    (hfail : ¬ MountSucceeds st.fs dev env)
    (hkeeps : StepKeeps st (.mount dev env killBread) LifecycleOk) :
    MountHarmless st.fs dev env killBread := by
  by_cases hsb : st.fs.mounted = 0 → env.breadSb = true
  · obtain ⟨ret, f, hfill, hret, hfm, -, hfl, hfc, hfb⟩ :=
      fillSuper_fails ⟨st.fresh, dev⟩ hfail hsb
    cases killBread with
    | false =>
        simp only [StepKeeps, Lifecycle.step, singlefilefsMount, hfill, bind, Except.bind,
          if_neg hret, killSuperblock_fails _ (hfl.trans h.unlocked)] at hkeeps
        exact absurd hkeeps.2.unlocked (by simp)
    | true =>
        obtain ⟨s', hkill, hm', -, -, hb', hz', hc'⟩ :=
          killSuperblock_reads (s := f) ⟨st.fresh, dev⟩ (hfl.trans h.unlocked)
        simp only [StepKeeps, Lifecycle.step, singlefilefsMount, hfill, bind, Except.bind,
          if_neg hret, hkill] at hkeeps
        have hsame := hkeeps.1 hret
        have hm : st.fs.mounted = 0 := hsame.mounted.symm.trans hm'
        have hfs : f.bounds = st.fs.bounds := hb'.symm.trans hsame.bounds
        -- the stored bounds did not change the inode block, so it held them before
        have hinode : storeBounds (st.fs.contents dev 1) st.fs.bounds = st.fs.contents dev 1 := by
          have hc := congrFun (congrFun (hc'.symm.trans hsame.contents) dev) 1
          rw [hfs, hfc] at hc
          simpa using hc
        refine ⟨hm, hsb hm, rfl, ?_, fun hd => ?_⟩
        · rw [← hinode]
          exact boundsOf_storeBounds _ h.range₁ h.range₂
        · rcases hfb with ⟨-, -, hnd⟩ | ⟨-, -, hz⟩
          · exact absurd hd (hnd hm)
          · exact hz.symm.trans (hz'.symm.trans hsame.fileSize)
  · push Not at hsb
    have hfill : singlefilefsFillSuper env ⟨st.fresh, dev⟩ st.fs = .error .nullPointer := by
      simp [singlefilefsFillSuper, hsb.1, hsb.2]
    simp [StepKeeps, Lifecycle.step, singlefilefsMount, hfill, bind, Except.bind,
      LifeEvent.isAppend] at hkeeps

/-- An event after which the lifecycle is as it should be met the condition. -/
lemma eventOk_of_keeps (h : LifecycleInv st) {ev : LifeEvent}
    (hkeeps : StepKeeps st ev LifecycleOk) : EventOk st ev := by
  cases ev with
  | mount dev env killBread =>
      by_cases hmount : MountSucceeds st.fs dev env
      · exact Or.inl hmount
      · exact Or.inr (h.harmless_of_keeps hmount hkeeps)
  | unmount sb breadOk =>
      intro hlive
      cases breadOk with
      | true => rfl
      | false =>
          simp only [StepKeeps, Lifecycle.step, if_pos hlive,
            killSuperblock_fails _ h.unlocked, bind, Except.bind] at hkeeps
          exact absurd hkeeps.2.unlocked (by simp)
  | internalWrite breadOk payload => trivial
  | write breadOk uncopied buf => trivial

/-! ### Runs

A run keeps to the intended lifecycle exactly when each of its events meets the condition in the
state it finds, by induction on the events. -/

/-- **From a state in order, a run keeps to the lifecycle exactly when its events meet the
    condition.** -/
lemma keepsLifecycle_iff (events : List LifeEvent) :
    ∀ {st : Lifecycle}, LifecycleInv st → (KeepsLifecycle st events ↔ EventsOk st events) := by
  induction events with
  | nil => exact fun h => ⟨fun _ => trivial, fun _ => h.toLifecycleOk⟩
  | cons ev evs ih =>
      intro st h
      constructor
      · rintro ⟨-, hstep⟩
        have hkeeps : StepKeeps st ev LifecycleOk := by
          unfold StepKeeps
          cases hres : st.step ev with
          | error e => simpa [hres] using hstep
          | ok r =>
              simp only [hres] at hstep
              refine ⟨hstep.1, ?_⟩
              cases evs with
              | nil => exact hstep.2
              | cons ev' evs' => exact hstep.2.1
        have hev := h.eventOk_of_keeps hkeeps
        refine ⟨hev, ?_⟩
        have hinv := h.step hev
        unfold StepKeeps at hinv
        cases hres : st.step ev with
        | error e => trivial
        | ok r =>
            simp only [hres] at hstep hinv
            exact (ih hinv.2).mp hstep.2
      · rintro ⟨hev, hrest⟩
        refine ⟨h.toLifecycleOk, ?_⟩
        have hinv := h.step hev
        unfold StepKeeps at hinv
        cases hres : st.step ev with
        | error e => simpa [hres] using hinv
        | ok r =>
            simp only [hres] at hrest hinv
            exact ⟨hinv.1, (ih hinv.2).mpr hrest⟩

end LifecycleInv

/-- **The mount lifecycle.**  A run of mount attempts, unmounts and appends from the module's start
    keeps to the lifecycle exactly when each attempt succeeds or is harmless and each unmount can
    read the inode block. -/
theorem lifecycle_exact (devs : ℕ → BlockDev) (events : List LifeEvent) :
    KeepsLifecycle (Lifecycle.start devs) events ↔ EventsOk (Lifecycle.start devs) events :=
  (LifecycleInv.start devs).keepsLifecycle_iff events

/-- A device whose superblock carries the magic number, and otherwise empty. -/
def emptyLogDevice : BlockDev where
  disk := Function.update (fun _ _ => 0) 0 (writeLE (fun _ => 0) 8 8 logMagic)
  cache := fun _ => none

/-- **A second mount attempt forgets the first.**  Device `0` is mounted, then `-EBUSY` is returned
    for device `1` and its `kill_sb` clears `mounted` while the superblock of device `0` is live. -/
theorem lifecycle_second_mount :
    ¬ KeepsLifecycle (Lifecycle.start fun _ => emptyLogDevice)
      [.mount 0 ⟨true, true, true, true⟩ true, .mount 1 ⟨true, true, true, true⟩ true] := by
  rw [(LifecycleInv.start _).keepsLifecycle_iff]
  have hmagic : magicOf ((Lifecycle.start fun _ => emptyLogDevice).fs.contents 0 0) = logMagic := by
    unfold magicOf
    exact (readLE_writeLE _ 8 8 logMagic).trans (by decide)
  obtain ⟨s', hfill, hm, -⟩ :=
    fillSuper_succeeds (s := (Lifecycle.start fun _ => emptyLogDevice).fs) ⟨true, true, true, true⟩
      ⟨0, 0⟩ rfl ⟨rfl, rfl, ⟨hmagic, rfl⟩, rfl, rfl⟩
  rintro ⟨-, hrest⟩
  have hstep : singlefilefsMount ⟨true, true, true, true⟩ true ⟨0, 0⟩
      (Lifecycle.start fun _ => emptyLogDevice).fs = .ok (0, s') := by
    simp only [singlefilefsMount, hfill, bind, Except.bind, if_true]
  simp only [Lifecycle.step, show (Lifecycle.start fun _ => emptyLogDevice).fresh
      = 0 from rfl, hstep, bind, Except.bind, if_true] at hrest
  rcases hrest.1 with hok | hok
  · exact absurd (hm.symm.trans hok.1) one_ne_zero
  · exact absurd (hm.symm.trans hok.1) one_ne_zero

end KLRM
