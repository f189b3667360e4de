import MojoHttp.Wsgi.Handler
import Mathlib.Tactic.Ring

/-!
# The names that address a slot (`broadcast.mojo`, `handler.mojo`)

A producer on a connection slot names it in its channel name, which the handler reads back.

* **`parseStreamSlot_reservedStreamUrl`** — the slot the handler reads is the slot that was named.
* **`parse_reservedUrl`**, **`parse_poolStreamUrl`** — so are the lane, where one is named, and the
  ack descriptor.
* **`WSGIHandler.ssePeerFrame_reservedStreamUrl`** — so each kind of frame reaches the slot its
  producer meant.
-/

namespace MojoHttp

open BytesConstant

/-- `reserved_stream_url`: `\x01<kind>/<slot>[/<lane>]`. -/
def reservedStreamUrl (kind : UInt8) (slot lane : Int) : Bytes :=
  [ASGI_URL_CONTROL, kind, SLASH] ++ intText slot ++
    if lane ≥ 0 then SLASH :: intText lane else []

/-- The same for a kind of any length. -/
def reservedUrl (kind : Bytes) (slot lane : Int) : Bytes :=
  ASGI_URL_CONTROL :: kind ++ SLASH :: intText slot ++
    if lane ≥ 0 then SLASH :: intText lane else []

/-- `pool_stream_url`: `\x01P/<slot>/<lane>/<ack_fd>`, with the lane written even where it is -1. -/
def poolStreamUrl (slot lane ackFd : Int) : Bytes :=
  [ASGI_URL_CONTROL, 0x50, SLASH] ++ intText slot ++ SLASH :: intText lane ++ SLASH :: intText ackFd

/-! ## Numbers read back -/

/-- Digits in front of `rest`, the lowest first in `ds`. -/
theorem parseDigits_digits (ds : List Nat) (hlt : ∀ d ∈ ds, d < 10) (rest : Bytes) (value : Int) :
    parseDigits ((ds.map fun d => UInt8.ofNat (0x30 + d)).reverse ++ rest) value =
      parseDigits rest (value * 10 ^ ds.length + (Nat.ofDigits 10 ds : Nat)) := by
  induction ds generalizing rest value with
  | nil => simp
  | cons d ds ih =>
    have hd : d < 10 := hlt d List.mem_cons_self
    -- the lowest digit is the last one read
    have hread : ∀ v, parseDigits (UInt8.ofNat (0x30 + d) :: rest) v =
        parseDigits rest (v * 10 + d) := by
      intro v
      have hdigit : ∀ d < 10, (UInt8.ofNat (0x30 + d) == SLASH) = false ∧
          (UInt8.ofNat (0x30 + d) < 0x30 || UInt8.ofNat (0x30 + d) > 0x39) = false ∧
          (UInt8.ofNat (0x30 + d)).toNat - 0x30 = d := by decide
      have ⟨hslash, hrange, hval⟩ := hdigit d hd
      simp only [Bool.or_eq_false_iff, decide_eq_false_iff_not] at hrange
      show (if _ then _ else _) = _
      rw [hslash, if_neg Bool.false_ne_true, if_neg (by simpa using hrange), hval]
    rw [List.map_cons, List.reverse_cons, List.append_assoc, List.singleton_append,
      ih (fun e he => hlt e (List.mem_cons_of_mem _ he)), hread, Nat.ofDigits_cons,
      List.length_cons, pow_succ]
    congr 1
    push_cast
    ring

/-- A number reads back, whatever stands behind its end. -/
theorem parseDigits_decimal (n : Nat) (rest : Bytes) :
    parseDigits (decimal n ++ rest) 0 = parseDigits rest n := by
  unfold decimal
  split
  · next h =>
    subst h
    rfl
  · rw [parseDigits_digits _ (fun d hd => Nat.digits_lt_base (by decide) hd), Nat.ofDigits_digits]
    simp

theorem intText_of_nonneg {x : Int} (hx : 0 ≤ x) : intText x = decimal x.toNat := by
  unfold intText
  rw [if_neg (by omega), ← Int.toNat_of_nonneg hx, Int.natAbs_natCast, Int.toNat_natCast]

theorem slash_notMem_decimal (n : Nat) : SLASH ∉ decimal n := by
  intro hmem
  exact absurd (decimal_digits n SLASH hmem) (by decide)

theorem slash_notMem_intText (x : Int) : SLASH ∉ intText x := by
  unfold intText
  split
  · intro hmem
    rcases List.mem_cons.mp hmem with hminus | hdigits
    · exact absurd hminus (by decide)
    · exact slash_notMem_decimal _ hdigits
  · exact slash_notMem_decimal _

/-- A field without a slash is passed over with the slash behind it. -/
theorem afterSlash_field {field : Bytes} (hfield : SLASH ∉ field) (rest : Bytes) (which : Nat) :
    afterSlash (field ++ SLASH :: rest) which =
      match which with
      | 0 => some rest
      | which + 1 => afterSlash rest which := by
  induction field with
  | nil => rfl
  | cons c field ih =>
    have hc : (c == SLASH) = false := by
      rw [beq_eq_false_iff_ne]
      exact fun heq => hfield (heq ▸ List.mem_cons_self)
    rw [← ih fun hmem => hfield (List.mem_cons_of_mem _ hmem)]
    show (if c == SLASH then _ else _) = _
    rw [hc]
    rfl

/-- The last field has no slash behind it. -/
theorem afterSlash_last {field : Bytes} (hfield : SLASH ∉ field) (which : Nat) :
    afterSlash field which = none := by
  induction field with
  | nil => rfl
  | cons c field ih =>
    have hc : (c == SLASH) = false := by
      rw [beq_eq_false_iff_ne]
      exact fun heq => hfield (heq ▸ List.mem_cons_self)
    refine Eq.trans ?_ (ih fun hmem => hfield (List.mem_cons_of_mem _ hmem))
    show (if c == SLASH then _ else _) = _
    rw [hc]
    rfl

/-- What stands behind a number in a name: nothing, or another field. -/
def FieldEnd (rest : Bytes) : Prop := rest = [] ∨ ∃ tail, rest = SLASH :: tail

theorem parseDigits_fieldEnd {rest : Bytes} (hend : FieldEnd rest) (value : Int) :
    parseDigits rest value = value := by
  obtain rfl | ⟨tail, rfl⟩ := hend
  · rfl
  · rfl

/-- The number of a field: a negative one is no number. -/
theorem parseUrlNumber_field {url rest : Bytes} {which : Nat} {x : Int} (hend : FieldEnd rest)
    (hafter : afterSlash url which = some (intText x ++ rest)) :
    parseUrlNumber url which = if 0 ≤ x then x else -1 := by
  obtain ⟨c, cs, hcons⟩ : ∃ c cs, intText x ++ rest = c :: cs := by
    refine List.exists_cons_of_ne_nil fun hnil => ?_
    unfold intText at hnil
    split at hnil
    · cases hnil
    · exact decimal_ne_nil _ (List.append_eq_nil_iff.mp hnil).1
  have hparse : parseUrlNumber url which = parseDigits (intText x ++ rest) 0 := by
    unfold parseUrlNumber
    rw [hafter, hcons]
  rw [hparse]
  split
  · next hx =>
    rw [intText_of_nonneg hx, parseDigits_decimal, parseDigits_fieldEnd hend]
    exact Int.toNat_of_nonneg hx
  · next hx =>
    unfold intText
    rw [if_pos (by omega)]
    rfl

/-! ## Names read back -/

/-- **The slot that was named, and the lane where one was.** -/
theorem parse_reservedUrl {kind : Bytes} (hkind : SLASH ∉ kind) {slot : Int} (hslot : 0 ≤ slot)
    (lane : Int) :
    parseStreamSlot (reservedUrl kind slot lane) = slot ∧
      parseStreamLane (reservedUrl kind slot lane) = if 0 ≤ lane then lane else -1 := by
  have hhead : SLASH ∉ ASGI_URL_CONTROL :: kind := by
    intro hmem
    rcases List.mem_cons.mp hmem with hcontrol | hkinds
    · exact absurd hcontrol (by decide)
    · exact hkind hkinds
  have hurl : reservedUrl kind slot lane = (ASGI_URL_CONTROL :: kind) ++ SLASH ::
      (intText slot ++ if lane ≥ 0 then SLASH :: intText lane else []) := by
    unfold reservedUrl
    rw [List.append_assoc]
    rfl
  have hbehind : FieldEnd (if lane ≥ 0 then SLASH :: intText lane else []) := by
    split
    · exact .inr ⟨intText lane, rfl⟩
    · exact .inl rfl
  have hslotField : afterSlash (reservedUrl kind slot lane) 0 =
      some (intText slot ++ if lane ≥ 0 then SLASH :: intText lane else []) := by
    rw [hurl, afterSlash_field hhead]
  refine ⟨(parseUrlNumber_field hbehind hslotField).trans (if_pos hslot), ?_⟩
  split
  · next hlane =>
    have hlaneField : afterSlash (reservedUrl kind slot lane) 1 = some (intText lane ++ []) := by
      rw [hurl, afterSlash_field hhead, if_pos hlane]
      dsimp only
      rw [afterSlash_field (slash_notMem_intText slot), List.append_nil]
    exact (parseUrlNumber_field (.inl rfl) hlaneField).trans (if_pos hlane)
  · next hlane =>
    have hnone : afterSlash (reservedUrl kind slot lane) 1 = none := by
      rw [hurl, afterSlash_field hhead, if_neg hlane, List.append_nil]
      exact afterSlash_last (slash_notMem_intText slot) 0
    unfold parseStreamLane parseUrlNumber
    rw [hnone]

/-- **So are those of a pool thread's name, and its ack descriptor.** -/
theorem parse_poolStreamUrl {slot ackFd : Int} (hslot : 0 ≤ slot) (hackFd : 0 ≤ ackFd) (lane : Int) :
    parseStreamSlot (poolStreamUrl slot lane ackFd) = slot ∧
      parseStreamLane (poolStreamUrl slot lane ackFd) = (if 0 ≤ lane then lane else -1) ∧
      poolStreamAckFd (poolStreamUrl slot lane ackFd) = ackFd := by
  have hhead : SLASH ∉ [ASGI_URL_CONTROL, 0x50] := by decide
  have hurl : poolStreamUrl slot lane ackFd = [ASGI_URL_CONTROL, 0x50] ++ SLASH ::
      (intText slot ++ SLASH :: (intText lane ++ SLASH :: intText ackFd)) := by
    unfold poolStreamUrl
    rw [List.append_assoc, List.append_assoc]
    rfl
  have hslotField : afterSlash (poolStreamUrl slot lane ackFd) 0 =
      some (intText slot ++ SLASH :: (intText lane ++ SLASH :: intText ackFd)) := by
    rw [hurl, afterSlash_field hhead]
  have hlaneField : afterSlash (poolStreamUrl slot lane ackFd) 1 =
      some (intText lane ++ SLASH :: intText ackFd) := by
    rw [hurl, afterSlash_field hhead]
    dsimp only
    rw [afterSlash_field (slash_notMem_intText slot)]
  have hackField : afterSlash (poolStreamUrl slot lane ackFd) 2 = some (intText ackFd ++ []) := by
    rw [hurl, afterSlash_field hhead]
    dsimp only
    rw [afterSlash_field (slash_notMem_intText slot)]
    dsimp only
    rw [afterSlash_field (slash_notMem_intText lane), List.append_nil]
  have hreserved : (!isReserved (poolStreamUrl slot lane ackFd) ||
      (poolStreamUrl slot lane ackFd).getD 1 0 != 0x50) = false := by
    simp [isReserved, poolStreamUrl]
  refine ⟨(parseUrlNumber_field (.inr ⟨_, rfl⟩) hslotField).trans (if_pos hslot),
    parseUrlNumber_field (.inr ⟨_, rfl⟩) hlaneField, ?_⟩
  unfold poolStreamAckFd
  rw [hreserved]
  exact (parseUrlNumber_field (.inl rfl) hackField).trans (if_pos hackFd)

variable {kind : UInt8}

theorem isReserved_reservedStreamUrl (slot lane : Int) :
    isReserved (reservedStreamUrl kind slot lane) = true := by
  simp [isReserved, reservedStreamUrl]

/-- **The slot that was named.** -/
theorem parseStreamSlot_reservedStreamUrl (hkind : kind ≠ SLASH) (slot : Nat) (lane : Int) :
    parseStreamSlot (reservedStreamUrl kind slot lane) = slot := by
  have hint : intText (slot : Int) = decimal slot := by simp [intText]
  have hafter : ∀ tail, afterSlash ([ASGI_URL_CONTROL, kind, SLASH] ++ tail) 0 = some tail := by
    intro tail
    have hk : (kind == SLASH) = false := by simpa using hkind
    show (if kind == SLASH then _ else _) = _
    rw [hk]
    rfl
  unfold parseStreamSlot parseUrlNumber reservedStreamUrl
  rw [List.append_assoc, hafter, hint]
  obtain ⟨d, ds, hd⟩ := List.exists_cons_of_ne_nil (decimal_ne_nil slot)
  have hparse := parseDigits_decimal slot
  rw [hd] at hparse ⊢
  refine (hparse _).trans ?_
  split
  · rfl
  · rfl

/-- What a frame under such a name does, by its kind. -/
theorem WSGIHandler.ssePeerFrame_reservedStreamUrl (hkind : kind ≠ SLASH) (h : WSGIHandler)
    (slot : Nat) (lane eventId : Int) (frame : Bytes) (counter : Int) (answers : List Bool) :
    h.ssePeerFrame (reservedStreamUrl kind slot lane) eventId frame counter answers =
      match frameKind [ASGI_URL_CONTROL, kind] with
      | some .begin => h.beginStream slot (reservedStreamUrl kind slot lane) eventId true
      | some .poolBegin => h.beginStream slot (reservedStreamUrl kind slot lane) eventId false
      | some .chunk => h.chunk slot eventId frame
      | some .finish => h.finish slot eventId
      | some .hold => h.hold slot frame eventId counter
      | some .socketHold => h.socketHold slot (reservedStreamUrl kind slot lane) frame eventId counter
      | some .socketBegin => h.beginSocket slot (reservedStreamUrl kind slot lane) eventId
      | some .socketFrame => h.socketFrame slot eventId frame
      | some .socketFinish => h.socketFinish slot eventId frame
      | some .consumed => h.consumed slot eventId frame answers
      | none => h := by
  unfold ssePeerFrame
  rw [isReserved_reservedStreamUrl, if_pos rfl]
  dsimp only
  rw [parseStreamSlot_reservedStreamUrl hkind]
  exact if_neg (by omega)

end MojoHttp
