import FileKLRM.Core.Machine

/-!
# Digests and their text: `password_setup.c`, `decompress_hash`

The logger and the password module each write a SHA-512 digest as 128 characters, and
`setup_password` reads such a text into `hash_compressed`.  All three are loops over two indexes,
one of which moves twice as fast.

The encoders write what `sha512sum` prints (`digestText`), and the decoder gives back its bytes
(`digest_text_inverse`).  Of a text the decoder checks only that it has 128 characters: everything
that is not a decimal digit counts as a letter from `a` on, so `setup_password` does what it
should exactly on the texts of another length and on those of 128 hexadecimal digits
(`setupPassword_accepts_iff`).
-/

namespace KLRM

/-- A SHA-512 digest. -/
abbrev Digest := Vector UInt8 64

/-! ## The encoders

The same loop twice: `decompress_hash` fills a buffer on its stack and adds a newline, and the
printer of the password module fills a global one. -/

/-- The character of one half of a byte. -/
def hexChar (half : UInt8) : UInt8 := if half ≤ 9 then half + 48 else half + 87

/-- The loop of both encoders, at the index `j` of the characters. -/
def encodeLoop : (bytes : List UInt8) → (j : ℕ) → (buffer : List UInt8) → List UInt8
  | [], _, buffer => buffer
  | b :: bytes, j, buffer =>
      encodeLoop bytes (j + 2)
        ((buffer.set j (hexChar (b >>> 4))).set (j + 1) (hexChar (b &&& 0x0f)))

/-- `hash_printer_buffer`: the logger puts the terminator there, the password module has it from
    the start. -/
structure PrinterBuffer where
  chars : List UInt8
  length_chars : chars.length = 129
  terminated : chars.getD 128 0 = 0

/-! ## The decoder

`charToTransform` takes everything that is not a decimal digit for a letter, and subtracts in
eight bits. -/

/-- `charToTransform`. -/
def charToTransform (c : UInt8) : UInt8 := if 48 ≤ c ∧ c ≤ 57 then c - 48 else c - 97 + 10

/-- The loop of `setup_password`, with the rounds that are left. -/
def decodeLoop (hashedPassword : List UInt8) : (rest i j : ℕ) → (hashCompressed : Digest) → Digest
  | 0, _, _, hashCompressed => hashCompressed
  | rest + 1, i, j, hashCompressed =>
      let hashChunk := charToTransform (hashedPassword.getD i 0) <<< 4 |||
        charToTransform (hashedPassword.getD (i + 1) 0)
      decodeLoop hashedPassword rest (i + 2) (j + 1) (hashCompressed.setIfInBounds j hashChunk)

/-- `setup_password`, for the memory at `hashed_password`: the return value and
    `hash_compressed`. -/
def setupPassword (hashedPassword : List UInt8) (hashCompressed : Digest) : ℤ × Digest :=
  if strlen hashedPassword ≠ 128 then (1, hashCompressed)
  else (0, decodeLoop hashedPassword 64 0 0 hashCompressed)

/-! ## The text of a digest

What `sha512sum` prints, as the specification: two lower-case digits for each byte, the high one
first. -/

/-- The hexadecimal digits, lower case. -/
def hexDigits : List UInt8 := [48, 49, 50, 51, 52, 53, 54, 55, 56, 57, 97, 98, 99, 100, 101, 102]

/-- The two digits of a byte. -/
def byteText (b : UInt8) : List UInt8 :=
  [hexDigits.getD (b.toNat / 16) 0, hexDigits.getD (b.toNat % 16) 0]

/-- The text that `sha512sum` prints for some bytes. -/
def digestText (bytes : List UInt8) : List UInt8 := bytes.flatMap byteText

/-- 128 hexadecimal digits. -/
def IsDigestText (text : List UInt8) : Prop := text.length = 128 ∧ ∀ c ∈ text, c ∈ hexDigits

lemma length_digestText (bytes : List UInt8) : (digestText bytes).length = 2 * bytes.length := by
  induction bytes with
  | nil => rfl
  | cons b bytes ih =>
      rw [digestText, List.flatMap_cons, List.length_append, ← digestText, ih, byteText]
      simp only [List.length_cons, List.length_nil]
      omega

lemma digestText_mem {bytes : List UInt8} {c : UInt8} (hc : c ∈ digestText bytes) :
    c ∈ hexDigits := by
  obtain ⟨b, -, hb⟩ := List.mem_flatMap.mp hc
  have hlt := b.toNat_lt
  have hget : ∀ n < 16, hexDigits.getD n 0 ∈ hexDigits := by decide
  rcases List.mem_pair.mp hb with rfl | rfl
  · exact hget _ (by omega)
  · exact hget _ (by omega)

lemma hexDigits_ne_zero {c : UInt8} (hc : c ∈ hexDigits) : c ≠ 0 := by
  rintro rfl
  exact absurd hc (by decide)

/-- What an encoder writes for a byte. -/
lemma hexChars_eq_byteText (b : UInt8) :
    [hexChar (b >>> 4), hexChar (b &&& 0x0f)] = byteText b := by
  have hall : ∀ n : Fin 256, [hexChar (UInt8.ofNat n >>> 4), hexChar (UInt8.ofNat n &&& 0x0f)]
      = byteText (UInt8.ofNat n) := by decide +kernel
  simpa using hall ⟨b.toNat, b.toNat_lt⟩

/-- What the decoder reads from it. -/
lemma charToTransform_byteText (b : UInt8) :
    charToTransform (hexDigits.getD (b.toNat / 16) 0) <<< 4 |||
    charToTransform (hexDigits.getD (b.toNat % 16) 0)
      = b := by
  have hall : ∀ n : Fin 256,
      charToTransform (hexDigits.getD ((UInt8.ofNat n).toNat / 16) 0) <<< 4 |||
      charToTransform (hexDigits.getD ((UInt8.ofNat n).toNat % 16) 0)
        = UInt8.ofNat n := by decide +kernel
  simpa using hall ⟨b.toNat, b.toNat_lt⟩

/-- Two digits are the text of a byte. -/
lemma exists_byteText {c d : UInt8} (hc : c ∈ hexDigits) (hd : d ∈ hexDigits) :
    ∃ b, byteText b = [c, d] := by
  have hall : ∀ c ∈ hexDigits, ∀ d ∈ hexDigits,
      byteText (charToTransform c <<< 4 ||| charToTransform d) = [c, d] := by decide +kernel
  exact ⟨_, hall c hc d hd⟩

/-- An even number of digits is the text of half as many bytes. -/
lemma exists_digestText : ∀ (n : ℕ) (text : List UInt8), text.length = 2 * n →
    (∀ c ∈ text, c ∈ hexDigits) → ∃ bytes : List UInt8, bytes.length = n ∧ digestText bytes = text
  | 0, text, hlen, _ => ⟨[], rfl, (List.length_eq_zero_iff.mp (by simpa using hlen)).symm⟩
  | n + 1, [], hlen, _ => by simp at hlen
  | n + 1, [_], hlen, _ => by
      simp only [List.length_singleton] at hlen
      omega
  | n + 1, c :: d :: text, hlen, hall => by
      obtain ⟨b, hb⟩ := exists_byteText (hall c (by simp)) (hall d (by simp))
      obtain ⟨bytes, hbytes, htext⟩ := exists_digestText n text
        (by simp only [List.length_cons] at hlen; omega) fun x hx => hall x (by simp [hx])
      refine ⟨b :: bytes, by simp [hbytes], ?_⟩
      rw [digestText, List.flatMap_cons, ← digestText, hb, htext]
      rfl

/-- A text of 128 digits is the text of one digest. -/
lemma IsDigestText.exists_digest {text : List UInt8} (h : IsDigestText text) :
    ∃ digest : Digest, digestText digest.toList = text := by
  obtain ⟨bytes, hlen, htext⟩ := exists_digestText 64 text h.1 h.2
  exact ⟨⟨bytes.toArray, by simpa using hlen⟩, by simpa using htext⟩

lemma isDigestText_digestText (digest : Digest) : IsDigestText (digestText digest.toList) :=
  ⟨by simp [length_digestText], fun _ => digestText_mem⟩

/-! ## The encoders write it

By induction on the bytes that have been written, the index into the text being twice that into
the digest. -/

lemma encodeLoop_eq : ∀ (bytes before middle after : List UInt8), middle.length = 2 * bytes.length →
    encodeLoop bytes before.length (before ++ middle ++ after) = before ++ digestText bytes ++ after
  | [], before, middle, after, hlen => by
      obtain rfl := List.length_eq_zero_iff.mp (by simpa using hlen)
      rfl
  | b :: bytes, before, [], after, hlen => by simp at hlen
  | b :: bytes, before, [_], after, hlen => by
      simp only [List.length_cons, List.length_nil] at hlen
      omega
  | b :: bytes, before, x :: y :: middle, after, hlen => by
      have hset : ((before ++ x :: y :: middle ++ after).set before.length (hexChar (b >>> 4))).set
          (before.length + 1) (hexChar (b &&& 0x0f)) = before ++ byteText b ++ middle ++ after := by
        rw [← hexChars_eq_byteText]
        simp
      have hih := encodeLoop_eq bytes (before ++ byteText b) middle after
        (by simp only [List.length_cons] at hlen; omega)
      rw [show (before ++ byteText b).length = before.length + 2 by simp [byteText]] at hih
      rw [encodeLoop, hset, hih, digestText, digestText, List.flatMap_cons,
        List.append_assoc before]

namespace PrinterBuffer

/-- 128 characters and a NUL. -/
lemma exists_append (b : PrinterBuffer) : ∃ chars, chars.length = 128 ∧ b.chars = chars ++ [0] := by
  have hlen := b.length_chars
  refine ⟨b.chars.take 128, by simp [hlen], ?_⟩
  have hlast : b.chars.drop 128 = [0] := by
    have hterm := b.terminated
    rw [List.getD_eq_getElem?_getD, List.getElem?_eq_getElem (by omega), Option.getD_some] at hterm
    rw [List.drop_eq_getElem_cons (by omega), hterm, List.drop_of_length_le (by omega)]
  rw [← hlast, List.take_append_drop]

/-- What an encoder leaves in the buffer. -/
lemma encodeLoop_chars (b : PrinterBuffer) (digest : Digest) :
    encodeLoop digest.toList 0 b.chars = digestText digest.toList ++ [0] := by
  obtain ⟨chars, hlen, hchars⟩ := b.exists_append
  simpa [hchars] using encodeLoop_eq digest.toList [] chars [0] (by simpa using hlen)

/-- The loop of `decompress_hash` and of `print_decompressed_hash`. -/
def encode (b : PrinterBuffer) (digest : Digest) : PrinterBuffer where
  chars := encodeLoop digest.toList 0 b.chars
  length_chars := by simp [b.encodeLoop_chars, length_digestText]
  terminated := by simp [b.encodeLoop_chars, length_digestText]

/-- The string in the buffer. -/
def text (b : PrinterBuffer) : List UInt8 := cString b.chars

@[simp] lemma text_encode (b : PrinterBuffer) (digest : Digest) :
    (b.encode digest).text = digestText digest.toList := by
  have hchars : (b.encode digest).chars = digestText digest.toList ++ [0] :=
    b.encodeLoop_chars digest
  rw [text, hchars]
  exact cString_append_zero (fun c hc => hexDigits_ne_zero (digestText_mem hc)) []

end PrinterBuffer

/-- A local array of the logger, with its terminator. -/
def PrinterBuffer.onStack (garbage : Vector UInt8 129) : PrinterBuffer where
  chars := garbage.toList.set 128 0
  length_chars := by simp
  terminated := by simp

/-- `decompress_hash`: the string it prints into `buffer`. -/
def decompressHash (garbage : Vector UInt8 129) (compressedHash : Digest) : List UInt8 :=
  ((PrinterBuffer.onStack garbage).encode compressedHash).text ++ [10]

/-- `print_decompressed_hash`: what it leaves in the global buffer, which is then printed. -/
def printDecompressedHash (hashPrinterBuffer : PrinterBuffer) (compressedHash : Digest) :
    PrinterBuffer :=
  hashPrinterBuffer.encode compressedHash

@[simp] lemma decompressHash_eq (garbage : Vector UInt8 129) (compressedHash : Digest) :
    decompressHash garbage compressedHash = digestText compressedHash.toList ++ [10] := by
  rw [decompressHash, PrinterBuffer.text_encode]

@[simp] lemma text_printDecompressedHash (b : PrinterBuffer) (compressedHash : Digest) :
    (printDecompressedHash b compressedHash).text = digestText compressedHash.toList :=
  b.text_encode compressedHash

/-! ## The decoder reads it

Two characters of a text are one byte again; other text of the right length also gives a digest,
only not one that was ever written. -/

lemma digestText_cons (b : UInt8) (bytes : List UInt8) :
    digestText (b :: bytes) = byteText b ++ digestText bytes :=
  List.flatMap_cons

lemma decodeLoop_eq (after : List UInt8) :
    ∀ (bytes before done rest : List UInt8) (hashCompressed : Digest),
    hashCompressed.toList = done ++ rest → rest.length = bytes.length →
    (decodeLoop (before ++ digestText bytes ++ after) bytes.length before.length done.length
      hashCompressed).toList = done ++ bytes
  | [], before, done, rest, hashCompressed, hdone, hrest => by
      obtain rfl := List.length_eq_zero_iff.mp hrest
      exact hdone
  | b :: bytes, before, done, [], hashCompressed, hdone, hrest => by simp at hrest
  | b :: bytes, before, done, x :: rest, hashCompressed, hdone, hrest => by
      have htext : before ++ digestText (b :: bytes) ++ after
          = (before ++ byteText b) ++ digestText bytes ++ after := by
        simp [digestText_cons]
      -- the two digits at the index stand for the byte
      have hchunk : charToTransform
          ((before ++ digestText (b :: bytes) ++ after).getD before.length 0) <<< 4 |||
          charToTransform
            ((before ++ digestText (b :: bytes) ++ after).getD (before.length + 1) 0) = b := by
        rw [htext]
        simpa [byteText] using charToTransform_byteText b
      have hih := decodeLoop_eq after bytes (before ++ byteText b) (done ++ [b]) rest
        (hashCompressed.setIfInBounds done.length b) (by simp [hdone]) (by simpa using hrest)
      rw [show (before ++ byteText b).length = before.length + 2 by simp [byteText],
        List.length_append, List.length_singleton, ← htext] at hih
      rw [List.length_cons, decodeLoop, hchunk, hih, List.append_assoc]
      rfl

/-- **The text of a digest is decoded to it**, whatever follows in memory. -/
theorem setupPassword_digestText {hashedPassword : List UInt8} {digest : Digest}
    (htext : cString hashedPassword = digestText digest.toList) (hashCompressed : Digest) :
    setupPassword hashedPassword hashCompressed = (0, digest) := by
  have hlen : strlen hashedPassword = 128 := by
    rw [strlen, htext, (isDigestText_digestText digest).1]
  have hmem : hashedPassword = digestText digest.toList ++ hashedPassword.dropWhile (· ≠ 0) := by
    rw [← htext, cString, List.takeWhile_append_dropWhile]
  have hloop :=
    decodeLoop_eq (hashedPassword.dropWhile (· ≠ 0)) digest.toList [] [] hashCompressed.toList
    hashCompressed rfl (by simp)
  rw [List.nil_append, ← hmem] at hloop
  rw [setupPassword, if_neg (not_not.mpr hlen)]
  refine Prod.ext rfl ?_
  exact Vector.toList_inj.mp (by simpa using hloop)

lemma cString_digestText (digest : Digest) (beyond : List UInt8) :
    cString (digestText digest.toList ++ 0 :: beyond) = digestText digest.toList :=
  cString_append_zero (fun _ hc => hexDigits_ne_zero (digestText_mem hc)) beyond

lemma digestText_injective {digest digest' : Digest}
    (h : digestText digest.toList = digestText digest'.toList) : digest = digest' := by
  have hread := setupPassword_digestText ((cString_digestText digest []).trans h) digest
  rw [setupPassword_digestText (cString_digestText digest []) digest] at hread
  exact (Prod.mk.inj hread).2

/-! ## Both together

Encoding and decoding are inverse to one another, on digests and on their texts. -/

/-- **Texts and digests are inverse to each other**: the two encoders write the same 128
    characters, `setup_password` reads them back, and what it reads from any 128 hexadecimal
    digits is written as these digits again. -/
theorem digest_text_inverse (garbage : Vector UInt8 129) (buffer : PrinterBuffer)
    (beyond : List UInt8) (hashCompressed : Digest) :
    (∀ digest : Digest, ∃ text, text.length = 128 ∧ decompressHash garbage digest = text ++ [10] ∧
        (printDecompressedHash buffer digest).text = text ∧
        setupPassword (text ++ 0 :: beyond) hashCompressed = (0, digest)) ∧
      ∀ text, IsDigestText text → ∃ digest,
        setupPassword (text ++ 0 :: beyond) hashCompressed = (0, digest) ∧
        decompressHash garbage digest = text ++ [10] ∧
        (printDecompressedHash buffer digest).text = text := by
  constructor
  · intro digest
    exact ⟨digestText digest.toList, (isDigestText_digestText digest).1, decompressHash_eq _ _,
      text_printDecompressedHash _ _, setupPassword_digestText (cString_digestText digest beyond) _⟩
  · intro text htext
    obtain ⟨digest, rfl⟩ := htext.exists_digest
    exact ⟨digest, setupPassword_digestText (cString_digestText digest beyond) _,
      decompressHash_eq _ _, text_printDecompressedHash _ _⟩

/-! ## What is accepted

Only the length is checked.  `setupPassword_takes_g` is a text of the right length that is no
digest. -/

/-- What `setup_password` should do: take the texts of digests, and nothing else. -/
structure AcceptsDigests (hashedPassword : List UInt8) (hashCompressed : Digest) : Prop where
  accepts_iff : (setupPassword hashedPassword hashCompressed).1 = 0 ↔
    IsDigestText (cString hashedPassword)
  stored : (setupPassword hashedPassword hashCompressed).1 = 0 →
    digestText (setupPassword hashedPassword hashCompressed).2.toList = cString hashedPassword
  refused : ¬ IsDigestText (cString hashedPassword) →
    setupPassword hashedPassword hashCompressed = (1, hashCompressed)

/-- A string of another length is refused. -/
lemma setupPassword_of_length {hashedPassword : List UInt8} (hlen : strlen hashedPassword ≠ 128)
    (hashCompressed : Digest) :
    setupPassword hashedPassword hashCompressed = (1, hashCompressed) := if_pos hlen

/-- **`setup_password` does what it should exactly when its string has another length than 128 or
    nothing but hexadecimal digits.** -/
theorem setupPassword_accepts_iff (hashedPassword : List UInt8) (hashCompressed : Digest) :
    AcceptsDigests hashedPassword hashCompressed ↔
      (strlen hashedPassword = 128 → ∀ c ∈ cString hashedPassword, c ∈ hexDigits) := by
  constructor
  · intro h hlen
    have hret : (setupPassword hashedPassword hashCompressed).1 = 0 := by
      rw [setupPassword, if_neg (not_not.mpr hlen)]
    exact (h.accepts_iff.mp hret).2
  · intro h
    by_cases hlen : strlen hashedPassword = 128
    · have htext : IsDigestText (cString hashedPassword) := ⟨hlen, h hlen⟩
      obtain ⟨digest, hdigest⟩ := htext.exists_digest
      have haccepted := setupPassword_digestText hdigest.symm hashCompressed
      refine ⟨?_, ?_, fun hnot => absurd htext hnot⟩
      · simp [haccepted, htext]
      · simp [haccepted, hdigest]
    · have hnot : ¬ IsDigestText (cString hashedPassword) := fun htext => hlen htext.1
      have hrefused := setupPassword_of_length hlen hashCompressed
      refine ⟨?_, ?_, fun _ => hrefused⟩
      · simp [hrefused, hnot]
      · simp [hrefused]

/-- 128 times the letter `g`. -/
theorem setupPassword_takes_g :
    (setupPassword (List.replicate 128 103) (Vector.replicate 64 0)).1 = 0 ∧
      ¬ AcceptsDigests (List.replicate 128 103) (Vector.replicate 64 0) := by
  have hstring : cString (List.replicate 128 103) = List.replicate 128 103 := by decide +kernel
  have hlen : strlen (List.replicate 128 103) = 128 := by
    rw [strlen, hstring, List.length_replicate]
  have hret : (setupPassword (List.replicate 128 103) (Vector.replicate 64 0)).1 = 0 := by
    rw [setupPassword, if_neg (not_not.mpr hlen)]
  refine ⟨hret, fun h => ?_⟩
  have hhex := (h.accepts_iff.mp hret).2 103
  rw [hstring] at hhex
  exact absurd (hhex (by simp)) (by decide)

end KLRM
