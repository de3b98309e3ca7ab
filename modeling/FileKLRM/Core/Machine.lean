import Mathlib.Tactic
import Mathlib.Data.List.TakeWhile

/-!
# Fixed-width integers, faults and C strings

The module mixes `long long`, `size_t`, `uint64_t` and `int` in one expression, so the
conversions C inserts are written out.  A machine integer is an `ℕ` or a `ℤ` in the range of
its type, and `toU64`, `toS64` and `toS32` are the conversions: on values already in range they
are the identity (`toU64_of_range`, `toS64_of_range`, `toS32_of_range`), which is how every
later proof removes them.

A `char *` is the list of the bytes from the pointer to the end of its buffer; `cString` is the
string a C function sees there.
-/

namespace KLRM

/-! ## Integers

`toU64_of_range` and its siblings are the lemmas that later proofs use: they take a conversion
away where the value is in range. -/

/-- Conversion to `uint64_t`, `size_t`, `unsigned long` or `sector_t`. -/
def toU64 (x : ℤ) : ℕ := (x % 2 ^ 64).toNat

/-- Conversion to `long long`, `loff_t` or `ssize_t`. -/
def toS64 (x : ℤ) : ℤ := (x + 2 ^ 63) % 2 ^ 64 - 2 ^ 63

/-- Conversion to `int`. -/
def toS32 (x : ℤ) : ℤ := (x + 2 ^ 31) % 2 ^ 32 - 2 ^ 31

/-- `ULLONG_MAX` and `ULONG_MAX`. -/
def ullongMax : ℕ := 2 ^ 64 - 1

lemma toU64_of_range {x : ℤ} (h0 : 0 ≤ x) (h1 : x < 2 ^ 64) : toU64 x = x.toNat := by
  unfold toU64
  rw [Int.emod_eq_of_lt h0 h1]

lemma toU64_natCast {n : ℕ} (h : n < 2 ^ 64) : toU64 n = n := by
  rw [toU64_of_range (by omega) (by exact_mod_cast h)]
  simp

lemma toS64_of_range {x : ℤ} (h0 : -2 ^ 63 ≤ x) (h1 : x < 2 ^ 63) : toS64 x = x := by
  unfold toS64
  rw [Int.emod_eq_of_lt (by omega) (by omega)]
  omega

lemma toS32_of_range {x : ℤ} (h0 : -2 ^ 31 ≤ x) (h1 : x < 2 ^ 31) : toS32 x = x := by
  unfold toS32
  rw [Int.emod_eq_of_lt (by omega) (by omega)]
  omega

lemma toU64_lt (x : ℤ) : toU64 x < 2 ^ 64 := by
  unfold toU64
  omega

lemma toS64_range (x : ℤ) : -2 ^ 63 ≤ toS64 x ∧ toS64 x < 2 ^ 63 := by
  unfold toS64
  omega

/-- Storing a `long long` in eight bytes and reading it back as one changes nothing. -/
lemma toS64_toU64 {x : ℤ} (h0 : -2 ^ 63 ≤ x) (h1 : x < 2 ^ 63) : toS64 (toU64 x) = x := by
  unfold toS64 toU64
  omega

lemma toU64_toS64 {n : ℕ} (h : n < 2 ^ 64) : toU64 (toS64 n) = n := by
  unfold toS64 toU64
  omega

/-! ## Error numbers

The kernel returns them negated.  `Stop` is not one of them: it says why a call never returns. -/

/-- `EIO`, `EBADF`, `ENOMEM`, `EACCES`, `EBUSY`, `EINVAL` and `EOPNOTSUPP`. -/
def eio : ℤ := 5
@[inherit_doc eio] def ebadf : ℤ := 9
@[inherit_doc eio] def enomem : ℤ := 12
@[inherit_doc eio] def eacces : ℤ := 13
@[inherit_doc eio] def ebusy : ℤ := 16
@[inherit_doc eio] def einval : ℤ := 22
@[inherit_doc eio] def eopnotsupp : ℤ := 95

/-- Why a call does not return: it dereferences `NULL` or a pointer that was never set, divides
    by zero, leaves an array, spins on a lock that is never released, follows freed memory or a
    list cursor that is not on its list, or needs more rounds of a loop than the model was given. -/
inductive Stop
  | nullPointer
  | wildPointer
  | divideError
  | outOfBounds
  | spinForever
  | useAfterFree
  | wildCursor
  | outOfFuel
deriving DecidableEq, Repr

/-- What every round of a loop keeps, the loop keeps, if it comes to its end. -/
lemma foldlM_keeps {σ α : Type*} {body : σ → α → Except Stop σ} {P : σ → Prop}
    (hbody : ∀ {s s' : σ} {a : α}, P s → body s a = .ok s' → P s') :
    ∀ (as : List α) {s s' : σ}, P s → as.foldlM body s = .ok s' → P s'
  | [], _, _, h, hrun => Except.ok.inj hrun ▸ h
  | a :: as, s, s', h, hrun => by
      rw [List.foldlM_cons] at hrun
      cases ha : body s a with
      | error stop =>
          rw [ha] at hrun
          cases hrun
      | ok s₁ =>
          rw [ha] at hrun
          exact foldlM_keeps hbody as (hbody h ha) hrun

/-! ## Strings

`cString` ends at the first NUL, or at the end of the buffer where there is none; a function that
reads on behind a buffer is given the longer list. -/

/-- The C string that starts at a pointer: the bytes before the first NUL. -/
def cString (buf : List UInt8) : List UInt8 := buf.takeWhile (· ≠ 0)

/-- `strlen`. -/
def strlen (buf : List UInt8) : ℕ := (cString buf).length

@[simp] lemma cString_nil : cString [] = [] := rfl

@[simp] lemma cString_zero (rest : List UInt8) : cString (0 :: rest) = [] := rfl

lemma cString_cons {b : UInt8} (hb : b ≠ 0) (rest : List UInt8) :
    cString (b :: rest) = b :: cString rest := by
  simp [cString, hb]

lemma cString_append {s : List UInt8} (hs : ∀ b ∈ s, b ≠ 0) (rest : List UInt8) :
    cString (s ++ rest) = s ++ cString rest := by
  induction s with
  | nil => rfl
  | cons b s ih =>
      rw [List.cons_append, cString_cons (hs b (by simp)), ih fun c hc => hs c (by simp [hc])]
      rfl

/-- A NUL-free text followed by its terminator reads back as that text, whatever follows. -/
lemma cString_append_zero {s : List UInt8} (hs : ∀ b ∈ s, b ≠ 0) (rest : List UInt8) :
    cString (s ++ 0 :: rest) = s := by
  rw [cString_append hs, cString_zero, List.append_nil]

/-- A string ends at the end of its buffer as it does at a NUL. -/
lemma cString_concat_zero (buf : List UInt8) : cString (buf ++ [0]) = cString buf := by
  induction buf with
  | nil => rfl
  | cons b buf ih =>
      by_cases hb : b = 0
      · subst hb
        rfl
      · rw [List.cons_append, cString_cons hb, cString_cons hb, ih]

lemma cString_ne_zero {buf : List UInt8} : ∀ b ∈ cString buf, b ≠ 0 := by
  intro b hb
  simpa using List.mem_takeWhile_imp hb

lemma exists_terminator {buf : List UInt8} (h : 0 ∈ buf) :
    ∃ rest, buf = cString buf ++ 0 :: rest := by
  induction buf with
  | nil => cases h
  | cons b buf ih =>
      by_cases hb : b = 0
      · subst hb
        exact ⟨buf, rfl⟩
      · obtain ⟨rest, hrest⟩ := ih ((List.mem_cons.mp h).resolve_left fun heq => hb heq.symm)
        refine ⟨rest, ?_⟩
        rw [cString_cons hb, List.cons_append, ← hrest]

/-- Behind a buffer with a NUL nothing is read. -/
lemma cString_append_of_mem {buf : List UInt8} (h : 0 ∈ buf) (rest : List UInt8) :
    cString (buf ++ rest) = cString buf := by
  obtain ⟨beyond, hbuf⟩ := exists_terminator h
  conv_lhs => rw [hbuf, List.append_assoc, List.cons_append]
  exact cString_append_zero cString_ne_zero _

end KLRM
