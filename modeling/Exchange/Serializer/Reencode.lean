import Exchange.Serializer.RoundTrip

/-!
# Encoding undoes decoding

A payload of the size of its kind that is decoded and encoded again comes back byte for
byte, whatever its bytes are.  So no two payloads are decoded to the same value.

## Main definitions

* `EncodesBack` — the encoder of a kind undoes its decoder.

## Main results

* `EncodesBack.of_frame` — it does when the decoder returns values whose frame has the
  payload it was given.
* `encoding_undoes_decoding` — the six kinds.
-/

namespace Exchange

open Bytes

section EncodesBack

variable {α : Type} {type : MessageType} {isKind : List UInt8 → Prop}
  {deserialize : Timestamp → List UInt8 → Except Fault α}
  {serialize : α → List UInt8 → List UInt8} {untimed : α → α}

/-- On the payloads of a kind, the encoder undoes the decoder: a decoded value is encoded to
a header with the type and the length, high byte first, and the payload; and different
payloads are decoded to values that differ in more than the time of decoding. -/
structure EncodesBack (type : MessageType) (isKind : List UInt8 → Prop)
    (deserialize : Timestamp → List UInt8 → Except Fault α)
    (serialize : α → List UInt8 → List UInt8) (untimed : α → α) : Prop where
  encode : ∀ now payload x, isKind payload → deserialize now payload = .ok x →
    serialize x [] = [type.byte] ++ beBytes 4 payload.length ++ payload
  distinct : ∀ now now' payload payload' x x', isKind payload → isKind payload' →
    deserialize now payload = .ok x → deserialize now' payload' = .ok x' →
    payload ≠ payload' → untimed x ≠ untimed x'

/-- A decoder whose values have frames with the payloads they come from is undone by the
encoder that writes these frames. -/
theorem EncodesBack.of_frame (frame : α → Frame) (htype : ∀ x, (frame x).type = type.byte)
    (hframe : ∀ x x', untimed x = untimed x' → (frame x).payload = (frame x').payload)
    (hread : ∀ now payload x, isKind payload → deserialize now payload = .ok x →
      (frame x).payload = payload ∧ serialize x [] = [] ++ (frame x).bytes) :
    EncodesBack type isKind deserialize serialize untimed := by
  refine ⟨fun now payload x hk hx => ?_, fun now now' payload payload' x x' hk hk' hx hx' => ?_⟩
  · obtain ⟨hpayload, hwrite⟩ := hread now payload x hk hx
    rw [hwrite, Frame.bytes, hpayload, htype]
    rfl
  · obtain ⟨hpayload, -⟩ := hread now payload x hk hx
    obtain ⟨hpayload', -⟩ := hread now' payload' x' hk' hx'
    intro hne hsame
    exact hne (by rw [← hpayload, ← hpayload', hframe x x' hsame])

end EncodesBack

/-! ### The six kinds -/

/-- The length of the reason that a rejection payload claims to have. -/
def payloadReasonLength (payload : List UInt8) : ℕ := ofLeBytes ((payload.drop 8).take 4)

/-- The reason that is decoded has the length that the payload claims. -/
theorem length_reason_eq {payload : List UInt8} (hlen : 12 ≤ payload.length)
    {rejection : Rejection} (h : deserializeRejection payload = .ok rejection) :
    rejection.reason.length = payloadReasonLength payload := by
  have hfour : ((payload.drop 8).take 4).length = 4 := by
    rw [List.length_take, List.length_drop]
    omega
  have hlt := ofLeBytes_lt ((payload.drop 8).take 4)
  rw [hfour] at hlt
  simp only [deserializeRejection, bind_eq_ok_iff, readU32_of_le hlen] at h
  obtain ⟨id, -, n, hn, hok⟩ := h
  obtain rfl := Except.ok.inj hn
  rw [UInt32.toNat_ofNat_of_lt' hlt] at hok
  cases hread : readAt payload 12 (ofLeBytes ((payload.drop 8).take 4)) with
  | none => rw [hread] at hok; exact absurd hok (by simp)
  | some reason =>
    rw [hread] at hok
    obtain rfl := Except.ok.inj hok
    exact ((readAt_eq_some_iff hlen).mp hread).1

/-- A frame payload at the front of a payload of its own length is this payload. -/
theorem EncodesBack.of_length {α : Type} {type : MessageType} {size : ℕ}
    {deserialize : Timestamp → List UInt8 → Except Fault α}
    {serialize : α → List UInt8 → List UInt8} (frame : α → Frame)
    (htype : ∀ x, (frame x).type = type.byte) (hsize : ∀ x, (frame x).payload.length = size)
    (hread : ∀ now payload x, deserialize now payload = .ok x → (frame x).payload <+: payload)
    (hwrite : ∀ x buffer, serialize x buffer = buffer ++ (frame x).bytes) :
    EncodesBack type (fun payload => payload.length = size) deserialize serialize id := by
  refine .of_frame frame htype (fun x x' h => congrArg (fun x => (frame x).payload) h) ?_
  intro now payload x hlen hx
  exact ⟨(hread now payload x hx).eq_of_length ((hsize x).trans hlen.symm), hwrite x []⟩

theorem encodesBack_order :
    EncodesBack .NEW_ORDER (fun payload => payload.length = 22) deserializeOrder serializeOrder
      Order.untimed := by
  refine .of_frame orderFrame (fun _ => rfl) (fun x x' h => ?_) fun now payload order hlen hx => ?_
  · have hframe : ∀ o : Order, (orderFrame o).payload = (orderFrame o.untimed).payload :=
      fun _ => rfl
    rw [hframe x, hframe x', h]
  · -- the constructor has accepted the order, and given it the time of decoding
    obtain ⟨htime, hc⟩ := deserializeOrder_eq_ok (Nat.le_of_eq hlen.symm) hx
    have hnow : order = { order with timestamp := now } := by rw [htime]
    have hpre := (deserializeOrder_eq_ok_iff now hc).mp (hnow ▸ hx)
    exact ⟨hpre.eq_of_length (by rw [hlen]; simp [orderFrame]), serializeOrder_eq _ []⟩

theorem encodesBack_rejection :
    EncodesBack .REJECT (fun payload => payloadReasonLength payload < 2 ^ 32 - 12 ∧
        payload.length = 12 + payloadReasonLength payload)
      (fun _ => deserializeRejection) serializeRejection id := by
  refine .of_frame (fun r => rejectFrame r.id r.reason) (fun _ => rfl) (fun x x' h => ?_)
    fun now payload r hkind hx => ?_
  · rw [show x = x' from h]
  · have hreason := length_reason_eq (by omega) hx
    have hshort : r.reason.length < 2 ^ 32 - 12 := by omega
    have hpre := (deserializeRejection_eq_ok_iff hshort).mp hx
    refine ⟨hpre.eq_of_length ?_, serializeRejection_eq r.id hshort []⟩
    simp only [rejectFrame, List.length_append, length_u64Bytes, length_leBytes]
    omega

/-- **Encoding undoes decoding**, for every payload of the exact size of its kind and every
pattern of its bytes. -/
theorem encoding_undoes_decoding :
    EncodesBack .NEW_ORDER (fun payload => payload.length = 22) deserializeOrder serializeOrder
      Order.untimed ∧
    EncodesBack .CANCEL_ORDER (fun payload => payload.length = 8) (fun _ => deserializeCancel)
      serializeCancel id ∧
    EncodesBack .ORDER_ACK (fun payload => payload.length = 8)
      (fun _ => deserializeAcknowledgement) serializeAcknowledgement id ∧
    EncodesBack .REJECT (fun payload => payloadReasonLength payload < 2 ^ 32 - 12 ∧
        payload.length = 12 + payloadReasonLength payload)
      (fun _ => deserializeRejection) serializeRejection id ∧
    EncodesBack .TRADE (fun payload => payload.length = 36) (fun _ => deserializeTrade)
      serializeTrade id ∧
    EncodesBack .CANCEL_ACK (fun payload => payload.length = 8) (fun _ => deserializeCancelAck)
      serializeCancelAck id := by
  refine ⟨encodesBack_order, ?_, ?_, encodesBack_rejection, ?_, ?_⟩
  · exact .of_length cancelFrame (fun _ => rfl) (fun x => length_u64Bytes x)
      (fun _ _ _ h => deserializeCancel_eq_ok_iff.mp h) serializeCancel_eq
  · exact .of_length (fun a => ackFrame a.id) (fun _ => rfl) (fun a => length_u64Bytes a.id)
      (fun _ _ _ h => deserializeAcknowledgement_eq_ok_iff.mp h)
      (fun a => serializeAcknowledgement_eq a.id)
  · exact .of_length tradeFrame (fun _ => rfl) (fun t => by simp [tradeFrame])
      (fun _ _ _ h => deserializeTrade_eq_ok_iff.mp h) serializeTrade_eq
  · exact .of_length (fun a => cancelAckFrame a.id) (fun _ => rfl) (fun a => length_u64Bytes a.id)
      (fun _ _ _ h => deserializeCancelAck_eq_ok_iff.mp h) (fun a => serializeCancelAck_eq a.id)

end Exchange
