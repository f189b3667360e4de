import MojoHttp.Lib.Hmac
import MojoHttp.Sha256

/-!
# HMAC-SHA256 (`hmac.mojo`)

The key is padded and absorbed once, into an inner and an outer state. A message continues from copies of both.

* **`key_eq`** — the lanes of the key are the one-block key of the construction.
* **`mac_new`** — the tag of a message is the construction's.
* **`fed_and_signed`** — the hash however it is fed, and the tag for any number of messages.
-/

namespace MojoHttp

structure HmacSha256 where
  inner : Sha256
  outer : Sha256
  deriving Repr, DecidableEq

namespace HmacSha256

/-- `for i in range(n): k[i] = bytes[i]`. -/
def fillKey (bytes : Bytes) (n : Nat) : Bytes :=
  (List.range n).foldl (fun k i => k.set i (bytes.getD i 0)) (List.replicate 64 0)

/-- The 64 lanes `k`. -/
def lanes (key : Bytes) : Bytes :=
  if key.length > 64 then fillKey (sha256 key) 32 else fillKey key key.length

/-- `HmacSha256(key)`. -/
def new (key : Bytes) : HmacSha256 :=
  let ipad := (List.range 64).map fun i => (lanes key).getD i 0 ^^^ 0x36
  let opad := (List.range 64).map fun i => (lanes key).getD i 0 ^^^ 0x5C
  ⟨Sha256.new.update ipad, Sha256.new.update opad⟩

/-- `mac_into`: what it appends. -/
def mac (k : HmacSha256) (message : Bytes) : Bytes :=
  (k.outer.update (k.inner.update message).digest).digest

/-! ## The key -/

theorem fillKey_eq (bytes : Bytes) (h : bytes.length ≤ 64) :
    fillKey bytes bytes.length = bytes ++ List.replicate (64 - bytes.length) 0 := by
  have hset := Sha256.foldl_set_eq (fun i => bytes.getD i 0) 0 bytes.length (List.replicate 64 0)
    (by rw [List.length_replicate]; omega)
  have hbytes : (List.range bytes.length).map (fun i => bytes.getD i 0) = bytes := by
    apply List.ext_getElem
    · rw [List.length_map, List.length_range]
    · intro i hi hlt
      rw [List.getElem_map, List.getElem_range, List.getD_eq_getElem _ _ hlt]
  rw [hbytes, List.take_zero, List.nil_append, Nat.zero_add, List.drop_replicate] at hset
  rw [← hset]
  unfold fillKey
  congr 1
  funext k i
  rw [Nat.zero_add]

/-- **The lanes** are the key of one block. -/
theorem lanes_eq (key : Bytes) : lanes key = Rfc2104.blockKey Fips180.hash 64 key := by
  unfold lanes Rfc2104.blockKey
  dsimp only
  split
  · have hlen : (sha256 key).length = 32 := by rw [sha256_eq, Fips180.length_hash]
    have hfill := fillKey_eq (sha256 key) (by rw [hlen]; decide)
    rw [hlen, sha256_eq] at hfill
    rw [sha256_eq, hfill, Fips180.length_hash]
  · next hshort => exact fillKey_eq key (by omega)

theorem length_lanes (key : Bytes) : (lanes key).length = 64 := by
  rw [lanes_eq, Rfc2104.blockKey]
  rw [List.length_append, List.length_replicate]
  split
  · rw [Fips180.length_hash]
  · omega

/-- A pad, lane by lane. -/
theorem pad_eq (key : Bytes) (pad : UInt8) :
    ((List.range 64).map fun i => (lanes key).getD i 0 ^^^ pad) =
      (Rfc2104.blockKey Fips180.hash 64 key).map (· ^^^ pad) := by
  rw [← lanes_eq]
  apply List.ext_getElem
  · rw [List.length_map, List.length_range, List.length_map, length_lanes]
  · intro i _ hlt
    rw [List.length_map] at hlt
    rw [List.getElem_map, List.getElem_map, List.getElem_range, List.getD_eq_getElem _ _ hlt]

/-! ## The tag -/

/-- A state that has absorbed a pad. -/
theorem absorbed_pad (key : Bytes) (pad : UInt8) :
    (Sha256.new.update ((List.range 64).map fun i => (lanes key).getD i 0 ^^^ pad)).Absorbed
      ((List.range 64).map fun i => (lanes key).getD i 0 ^^^ pad) :=
  Sha256.absorbed_new.update _

/-- **The tag of a message** is the construction's. -/
theorem mac_new (key message : Bytes) : (new key).mac message = Rfc2104.hmac Fips180.hash 64 key message := by
  have hinner : (new key).inner.Absorbed ((Rfc2104.blockKey Fips180.hash 64 key).map (· ^^^ 0x36)) := by
    rw [← pad_eq]
    exact absorbed_pad key 0x36
  have houter : (new key).outer.Absorbed ((Rfc2104.blockKey Fips180.hash 64 key).map (· ^^^ 0x5C)) := by
    rw [← pad_eq]
    exact absorbed_pad key 0x5C
  rw [mac, (hinner.update message).digest_eq, (houter.update _).digest_eq]
  rfl

end HmacSha256

/-- `hmac_sha256`. -/
def hmacSha256 (key message : Bytes) : Bytes := (HmacSha256.new key).mac message

/-- **The hash however it is fed, and the tag of any number of messages.** A digest hashes all that was fed in
front of it, in whatever pieces and past whatever digests; a prepared key signs as the construction does. -/
theorem fed_and_signed :
    (∀ pieces : List Bytes, (pieces.foldl Sha256.update Sha256.new).digest = Fips180.hash pieces.flatten) ∧
    (∀ calls, Sha256.digests calls Sha256.new = (fedBefore calls []).map Fips180.hash) ∧
    (∀ (key : Bytes) (messages : List Bytes), messages.map (HmacSha256.new key).mac =
      messages.map (Rfc2104.hmac Fips180.hash 64 key)) := by
  refine ⟨?_, ?_, ?_⟩
  · intro pieces
    exact (Sha256.absorbed_new.updates pieces).digest_eq
  · intro calls
    exact Sha256.absorbed_new.digests_eq calls
  · intro key messages
    exact List.map_congr_left fun message _ => HmacSha256.mac_new key message

end MojoHttp
