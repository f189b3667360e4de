import Mathlib.Tactic.Ring
import MojoHttp.Http.ChunkedGrammar

/-!
# What the encoder writes, the decoder reads back

A stream's chunks are framed by `encode_chunk` and ended by `chunked_terminator`. What they write
is a body of the decoder's grammar, so decoding it is `decode_complete_iff`.

* **`hexValue_sizeDigits`** — the digits of a size are read back as the size.
* **`chunked_round_trip`** — the payloads come back, whatever bytes follow the terminator.
-/

namespace MojoHttp

open BytesConstant
open CrlfText (crlf)

/-! ## The size line -/

theorem decodeHex_hexDigits : ∀ n < 16, decodeHex (hexDigits.getD n 0) = some n := by
  decide

/-- The nibble at `4 * k` is a base-16 digit. -/
theorem nibble_eq (size k : Nat) : (size >>> (4 * k)) &&& 0xF = size / 16 ^ k % 16 := by
  rw [Nat.shiftRight_eq_div_pow, show 0xF = 2 ^ 4 - 1 from rfl, Nat.and_two_pow_sub_one_eq_mod,
    Nat.pow_mul]

/-- The nibbles written are hex digits. -/
theorem isHexDigit_emitNibbles (size k : Nat) :
    ∀ b ∈ emitNibbles size k, isHexDigit b = true := by
  induction k with
  | zero => simp [emitNibbles]
  | succ k ih =>
    intro b hb
    rw [emitNibbles, nibble_eq] at hb
    rcases List.mem_cons.mp hb with rfl | hb
    · rw [isHexDigit, decodeHex_hexDigits _ (Nat.mod_lt _ (by decide))]
      rfl
    · exact ih b hb

/-- Read back, `k` nibbles are the size modulo `16 ^ k`. -/
theorem hexValue_emitNibbles (value size k : Nat) :
    hexValue value (emitNibbles size k) = value * 16 ^ k + size % 16 ^ k := by
  induction k generalizing value with
  | zero => simp [emitNibbles, hexValue, Nat.mod_one]
  | succ k ih =>
    rw [emitNibbles, hexValue_cons, nibble_eq,
      decodeHex_hexDigits _ (Nat.mod_lt _ (by decide)), Option.getD_some, ih]
    have hsplit : size % 16 ^ (k + 1) = size % 16 ^ k + 16 ^ k * (size / 16 ^ k % 16) := by
      rw [Nat.pow_succ, Nat.mod_mul]
    rw [hsplit, Nat.pow_succ]
    ring

/-- The top nibble found: nothing of the size stands above it. -/
theorem topShift_spec {fuel probe s : Nat} (h : probe < 16 ^ (fuel + 1)) :
    ∃ j, topShift fuel probe s = s + 4 * j ∧ probe < 16 ^ (j + 1) := by
  induction fuel generalizing probe s with
  | zero => exact ⟨0, rfl, h⟩
  | succ fuel ih =>
    rw [topShift]
    by_cases hge : probe ≥ 16
    · rw [if_pos hge]
      have hdiv : probe >>> 4 = probe / 16 := Nat.shiftRight_eq_div_pow probe 4
      have hlt : probe / 16 < 16 ^ (fuel + 1) := by
        rw [Nat.div_lt_iff_lt_mul (by decide), ← Nat.pow_succ]
        exact h
      obtain ⟨j, hj, hprobe⟩ := ih (s := s + 4) (hdiv ▸ hlt)
      refine ⟨j + 1, by omega, ?_⟩
      rw [hdiv, Nat.div_lt_iff_lt_mul (by decide), ← Nat.pow_succ] at hprobe
      exact hprobe
    · rw [if_neg hge]
      exact ⟨0, rfl, by omega⟩

/-- The digits `append_chunk_size` writes. -/
def sizeDigitsOf (size : Nat) : Bytes :=
  if size = 0 then [ZERO] else emitNibbles size (topShift 16 size 0 / 4 + 1)

theorem chunkSizeLine_eq (size : Nat) : chunkSizeLine size = sizeDigitsOf size ++ crlf := rfl

/-- **The digits of a size are read back as the size.** -/
theorem hexValue_sizeDigitsOf {size : Nat} (h : size ≤ maxChunkSize) :
    hexValue 0 (sizeDigitsOf size) = size := by
  unfold sizeDigitsOf
  by_cases h0 : size = 0
  · rw [if_pos h0, h0]
    decide
  · have hlt : size < 16 ^ 17 := by
      unfold maxChunkSize at h
      omega
    obtain ⟨j, hj, hsize⟩ := topShift_spec (s := 0) hlt
    rw [if_neg h0, hj, hexValue_emitNibbles, show (0 + 4 * j) / 4 + 1 = j + 1 from by omega,
      Nat.mod_eq_of_lt hsize]
    omega

/-- What the encoder writes before the CRLF is a size line of the grammar. -/
theorem sizeLine_sizeDigitsOf {extByte : UInt8 → Bool} {size : Nat} (h : size ≤ maxChunkSize) :
    SizeLine extByte size (sizeDigitsOf size) where
  parts := by
    refine ⟨sizeDigitsOf size, [], [], by simp, ⟨?_, ?_, hexValue_sizeDigitsOf h⟩, by simp,
      Or.inl rfl⟩
    · unfold sizeDigitsOf
      by_cases h0 : size = 0
      · rw [if_pos h0]
        exact List.cons_ne_nil _ _
      · rw [if_neg h0, emitNibbles]
        exact List.cons_ne_nil _ _
    · unfold sizeDigitsOf
      by_cases h0 : size = 0
      · rw [if_pos h0]
        decide
      · rw [if_neg h0]
        exact isHexDigit_emitNibbles _ _
  le := h

/-! ## The stream -/

/-- Payloads framed one after another, the terminator, then `rest`. -/
def encodeStream (payloads : List Bytes) (rest : Bytes) : Bytes :=
  payloads.flatMap encodeChunk ++ chunkedTerminator ++ rest

/-- A stream is a body of the grammar. -/
theorem chunkedText_encodeStream {extByte valueByte : UInt8 → Bool} {payloads : List Bytes}
    (hne : ∀ p ∈ payloads, p ≠ []) (hlen : ∀ p ∈ payloads, p.length ≤ maxChunkSize)
    (rest : Bytes) :
    ChunkedText extByte valueByte (encodeStream payloads rest) payloads.flatten rest := by
  refine ⟨payloads.map fun p => (sizeDigitsOf p.length, p), sizeDigitsOf 0, [], fun c hc => ?_,
    sizeLine_sizeDigitsOf (by decide), by simp, ?_, ?_⟩
  · obtain ⟨p, hp, rfl⟩ := List.mem_map.mp hc
    exact ⟨sizeLine_sizeDigitsOf (hlen p hp), hne p hp⟩
  · have hchunk : ∀ p, chunkText (sizeDigitsOf p.length, p) = encodeChunk p := fun p => rfl
    rw [encodeStream, List.flatMap_map, chunkedTerminator, chunkSizeLine_eq]
    simp only [hchunk, List.flatMap_nil, List.append_nil, List.append_assoc]
    rfl
  · rw [List.flatMap_map]
    exact List.flatMap_id.symm

/-- **Decoding undoes encoding.** Non-empty payloads, each of a length an `Int` holds, come back
from a fresh decoder as they were written; the bytes behind the terminator are left over. -/
theorem chunked_round_trip (payloads : List Bytes) (rest : Bytes) (hne : ∀ p ∈ payloads, p ≠ [])
    (hlen : ∀ p ∈ payloads, p.length ≤ maxChunkSize) :
    ((HTTPChunkedDecoder.fresh true).decode (encodeStream payloads rest)).IsComplete
      payloads.flatten rest :=
  decode_complete_iff.mpr (chunkedText_encodeStream hne hlen rest)

/-- Two chunks and the next request. -/
theorem chunked_round_trip_two :
    ((HTTPChunkedDecoder.fresh true).decode
      (encodeStream [ascii "seventeen bytes!!", ascii "x"] (ascii "GET /"))).IsComplete
      (ascii "seventeen bytes!!x") (ascii "GET /") :=
  chunked_round_trip [ascii "seventeen bytes!!", ascii "x"] (ascii "GET /") (by decide) (by decide)

end MojoHttp
