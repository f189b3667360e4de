import MojoHttp.Bytes
import MojoHttp.Lib.Swar

/-!
# Hex digits and word loads (`hashing.mojo`)

* **`hexDigest`** — two lowercase digits for each byte.
* **`lane_loadU64`** — the lanes of a load are the bytes behind its offset.
-/

namespace MojoHttp

open BytesConstant

/-- `hex_nibble`. -/
def hexNibble (val : Nat) : UInt8 :=
  if val < 10 then UInt8.ofNat (0x30 + val) else UInt8.ofNat (0x61 + val - 10)

/-- `hex_digest`. -/
def hexDigest (digest : Bytes) : Bytes :=
  digest.flatMap fun b => [hexNibble (b.toNat >>> 4), hexNibble (b.toNat &&& 0xF)]

/-- `_load_u64`. -/
def loadU64 (bytes : Bytes) (offset : Nat) : UInt64 := Swar.load ((bytes.drop offset).take 8)

theorem hexNibble_ne_dot (b : UInt8) :
    hexNibble (b.toNat >>> 4) ≠ DOT ∧ hexNibble (b.toNat &&& 0xF) ≠ DOT :=
  forall_byte (P := fun b => hexNibble (b.toNat >>> 4) ≠ DOT ∧ hexNibble (b.toNat &&& 0xF) ≠ DOT)
    (by decide) b

theorem dot_notMem_hexDigest (digest : Bytes) : DOT ∉ hexDigest digest := by
  intro hdot
  obtain ⟨b, -, hb⟩ := List.mem_flatMap.mp hdot
  obtain ⟨hhigh, hlow⟩ := hexNibble_ne_dot b
  rcases List.mem_cons.mp hb with heq | hb
  · exact hhigh heq.symm
  · exact hlow (List.mem_singleton.mp hb).symm

theorem hexDigest_lt (digest : Bytes) : ∀ b ∈ hexDigest digest, b < 0x80 := by
  intro b hb
  obtain ⟨x, -, hx⟩ := List.mem_flatMap.mp hb
  have hpair : ∀ x : UInt8, hexNibble (x.toNat >>> 4) < 0x80 ∧ hexNibble (x.toNat &&& 0xF) < 0x80 :=
    forall_byte (P := fun x => hexNibble (x.toNat >>> 4) < 0x80 ∧ hexNibble (x.toNat &&& 0xF) < 0x80)
      (by decide)
  rcases List.mem_cons.mp hx with rfl | hx
  · exact (hpair x).1
  · rw [List.mem_singleton.mp hx]
    exact (hpair x).2

theorem length_hexDigest (digest : Bytes) : (hexDigest digest).length = 2 * digest.length := by
  induction digest with
  | nil => rfl
  | cons b rest ih =>
    unfold hexDigest at ih ⊢
    rw [List.flatMap_cons, List.length_append, ih, List.length_cons, List.length_cons, List.length_cons]
    simp only [List.length_nil]
    omega

theorem lane_loadU64 {bytes : Bytes} {offset k : Nat} (h : offset + 8 ≤ bytes.length) (hk : k < 8) :
    Swar.lane (loadU64 bytes offset) k = bytes.getD (offset + k) 0 := by
  have hlen : ((bytes.drop offset).take 8).length = 8 := by
    rw [List.length_take, List.length_drop]
    omega
  rw [loadU64, Swar.lane_load hlen, List.getD_eq_getElem?_getD, List.getD_eq_getElem?_getD,
    List.getElem?_take_of_lt hk, List.getElem?_drop]

end MojoHttp
