import FileKLRM.Core.Machine
import FileKLRM.Core.RingTail

/-!
# Integer fields of a byte array

An x86 structure kept in a byte array stores its integers little-endian.  `readLE` reads such a
field and `writeLE` stores one; the two laws a user needs are that a stored field reads back
(`readLE_writeLE`, modulo its width) and that a disjoint field is untouched
(`readLE_writeLE_disjoint`).

* `bytesLE`, `valueLE` — a value as bytes and back.
* `readLE`, `writeLE` — the same at an offset of a larger array; `readS64` and `writeS64` for a
  signed field.
-/

namespace KLRM

/-- The number whose little-endian digits are the given bytes. -/
def valueLE : List UInt8 → ℕ
  | [] => 0
  | b :: bs => b.toNat + 256 * valueLE bs

/-- The `w` low bytes of a number, least significant first. -/
def bytesLE : (w : ℕ) → ℕ → List UInt8
  | 0, _ => []
  | w + 1, n => UInt8.ofNat n :: bytesLE w (n / 256)

@[simp] lemma length_bytesLE : ∀ w n : ℕ, (bytesLE w n).length = w
  | 0, _ => rfl
  | w + 1, n => by rw [bytesLE, List.length_cons, length_bytesLE w]

lemma valueLE_bytesLE : ∀ w n : ℕ, valueLE (bytesLE w n) = n % 256 ^ w
  | 0, n => by simp [bytesLE, valueLE, Nat.mod_one]
  | w + 1, n => by
      have hdigit : (UInt8.ofNat n).toNat = n % 256 := by simp
      rw [bytesLE, valueLE, valueLE_bytesLE w, hdigit, pow_succ', Nat.mod_mul]

lemma bytesLE_valueLE : ∀ bs : List UInt8, bytesLE bs.length (valueLE bs) = bs
  | [] => rfl
  | b :: bs => by
      have hdigit : UInt8.ofNat (b.toNat + 256 * valueLE bs) = b := by
        refine UInt8.toNat_inj.mp ?_
        rw [UInt8.toNat_ofNat', Nat.add_mul_mod_self_left]
        exact Nat.mod_eq_of_lt b.toNat_lt
      have hrest : (b.toNat + 256 * valueLE bs) / 256 = valueLE bs := by
        have hb : b.toNat < 256 := b.toNat_lt
        omega
      rw [List.length_cons, valueLE, bytesLE, hdigit, hrest, bytesLE_valueLE bs]

lemma valueLE_lt : ∀ bs : List UInt8, valueLE bs < 256 ^ bs.length
  | [] => by simp [valueLE]
  | b :: bs => by
      have ih := valueLE_lt bs
      have hb : b.toNat < 256 := b.toNat_lt
      rw [valueLE, List.length_cons, pow_succ']
      omega

/-- Reads the `w`-byte field at `off`. -/
def readLE (cells : ℕ → UInt8) (off w : ℕ) : ℕ := valueLE (cellsAt cells off w)

/-- Stores `n` in the `w`-byte field at `off`. -/
def writeLE (cells : ℕ → UInt8) (off w n : ℕ) : ℕ → UInt8 := overlay cells off (bytesLE w n)

lemma readLE_writeLE (cells : ℕ → UInt8) (off w n : ℕ) :
    readLE (writeLE cells off w n) off w = n % 256 ^ w := by
  have h := cellsAt_overlay cells off (bytesLE w n)
  rw [length_bytesLE] at h
  rw [readLE, writeLE, h, valueLE_bytesLE]

lemma readLE_writeLE_disjoint (cells : ℕ → UInt8) {off w p v : ℕ} (n : ℕ)
    (h : p + v ≤ off ∨ off + w ≤ p) :
    readLE (writeLE cells off w n) p v = readLE cells p v := by
  rw [readLE, writeLE, cellsAt_overlay_disjoint cells (by simpa using h)]
  rfl

/-- A field depends on its own cells only. -/
lemma readLE_congr {cells cells' : ℕ → UInt8} {off w : ℕ}
    (h : ∀ i < w, cells (off + i) = cells' (off + i)) :
    readLE cells off w = readLE cells' off w := by
  refine congrArg valueLE (List.map_congr_left fun i hi => h i ?_)
  rwa [List.mem_range] at hi

lemma overlay_cellsAt (cells : ℕ → UInt8) (off n : ℕ) :
    overlay cells off (cellsAt cells off n) = cells := by
  funext p
  by_cases h : off ≤ p ∧ p - off < n
  · have hp : p = off + (p - off) := by omega
    rw [hp, overlay_inside cells off (by simpa using h.2)]
    simp [cellsAt]
  · exact overlay_outside cells (by rw [length_cellsAt]; omega)

/-- Storing in a field the value it holds changes nothing. -/
lemma writeLE_readLE (cells : ℕ → UInt8) (off w : ℕ) :
    writeLE cells off w (readLE cells off w) = cells := by
  have h := bytesLE_valueLE (cellsAt cells off w)
  rw [length_cellsAt] at h
  rw [writeLE, readLE, h, overlay_cellsAt]

lemma readLE_lt (cells : ℕ → UInt8) (off w : ℕ) : readLE cells off w < 256 ^ w := by
  have h := valueLE_lt (cellsAt cells off w)
  rwa [length_cellsAt] at h

/-- Reads the eight-byte field at `off` as a `long long`. -/
def readS64 (cells : ℕ → UInt8) (off : ℕ) : ℤ := toS64 (readLE cells off 8)

/-- Stores a `long long` in the eight-byte field at `off`. -/
def writeS64 (cells : ℕ → UInt8) (off : ℕ) (x : ℤ) : ℕ → UInt8 := writeLE cells off 8 (toU64 x)

/-- A `long long` field reads back exactly what was stored in it. -/
lemma readS64_writeS64 (cells : ℕ → UInt8) (off : ℕ) {x : ℤ} (h0 : -2 ^ 63 ≤ x)
    (h1 : x < 2 ^ 63) : readS64 (writeS64 cells off x) off = x := by
  have hlt : toU64 x < 256 ^ 8 := lt_of_lt_of_eq (toU64_lt x) (by norm_num)
  rw [readS64, writeS64, readLE_writeLE, Nat.mod_eq_of_lt hlt, toS64_toU64 h0 h1]

lemma writeS64_readS64 (cells : ℕ → UInt8) (off : ℕ) :
    writeS64 cells off (readS64 cells off) = cells := by
  have hlt := readLE_lt cells off 8
  have hback : toU64 (toS64 (readLE cells off 8)) = readLE cells off 8 := toU64_toS64 (by omega)
  rw [writeS64, readS64, hback, writeLE_readLE]

lemma readS64_writeS64_disjoint (cells : ℕ → UInt8) {off p : ℕ} (x : ℤ)
    (h : p + 8 ≤ off ∨ off + 8 ≤ p) : readS64 (writeS64 cells off x) p = readS64 cells p := by
  rw [readS64, writeS64, readLE_writeLE_disjoint cells _ h]
  rfl

lemma readS64_range (cells : ℕ → UInt8) (off : ℕ) :
    -2 ^ 63 ≤ readS64 cells off ∧ readS64 cells off < 2 ^ 63 := toS64_range _

end KLRM
