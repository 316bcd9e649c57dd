import Exchange.Lib.Framing
import Exchange.Order

/-!
# Messages and their wire format

`message.hpp`, `acknowledgement.hpp`, `rejection.hpp`, `inbound_message.hpp`,
`outbound_message.hpp` and `binary_serializer.cpp`.  A value is written by growing the
buffer by the size of its frame and copying the header and the fields into the new
space, one after another; it is read by copying the fields out of a payload, where a
copy beyond the payload's end is undefined behaviour.  The host is little-endian.

## Main definitions

* `MessageType`, `Acknowledgement`, `Rejection`, `InboundMessage`, `OutboundMessage`.
* `serializeFrame` — the shape the six `serialize_*` functions share.
* `serializeOrder`, …, `deserializeOrder`, … — `BinarySerializer`.

## Main results

* `serializeFrame_eq` — a `serialize_*` function appends one frame to its buffer.
* `deserializeOrder_of_le`, `deserializeCancel_of_le` — decoding a payload that is long
  enough.
-/

namespace Exchange

open Bytes

/-! ### Messages -/

/-- The type byte of a message, `enum class MessageType : uint8_t`. -/
structure MessageType where
  byte : UInt8
  deriving DecidableEq, Repr

namespace MessageType

def NEW_ORDER : MessageType := ⟨1⟩
def CANCEL_ORDER : MessageType := ⟨2⟩
def ORDER_ACK : MessageType := ⟨3⟩
def REJECT : MessageType := ⟨4⟩
def TRADE : MessageType := ⟨5⟩
def CANCEL_ACK : MessageType := ⟨6⟩

end MessageType

/-- The answer to a request that was carried out. -/
structure Acknowledgement where
  id : OrderId
  deriving DecidableEq, Repr

/-- The answer to a request that was refused, with the bytes of the reason. -/
structure Rejection where
  id : OrderId
  reason : List UInt8
  deriving DecidableEq, Repr

/-- A file descriptor. -/
abbrev Fd := ℕ

/-- A request on its way to the processor. -/
structure InboundMessage where
  fd : Fd
  type : MessageType
  payload : List UInt8
  deriving DecidableEq, Repr

/-- Bytes on their way to a client. -/
structure OutboundMessage where
  fd : Fd
  payload : List UInt8
  deriving DecidableEq, Repr

/-! ### Fields -/

/-- A 64-bit value in memory. -/
def u64Bytes (x : UInt64) : List UInt8 := leBytes 8 x.toNat

/-- A 32-bit value in memory. -/
def u32Bytes (x : UInt32) : List UInt8 := leBytes 4 x.toNat

/-- `htonl` on a little-endian host: the four bytes in reverse order. -/
def htonl (x : UInt32) : UInt32 := UInt32.ofNat (ofLeBytes (u32Bytes x).reverse)

/-- `ntohl` on a little-endian host. -/
def ntohl (x : UInt32) : UInt32 := htonl x

@[simp] theorem length_u64Bytes (x : UInt64) : (u64Bytes x).length = 8 := length_leBytes 8 _

@[simp] theorem length_u32Bytes (x : UInt32) : (u32Bytes x).length = 4 := length_leBytes 4 _

theorem u64Bytes_ofNat {bs : List UInt8} (h : bs.length = 8) :
    u64Bytes (UInt64.ofNat (ofLeBytes bs)) = bs := by
  have hlt := ofLeBytes_lt bs
  rw [h] at hlt
  rw [u64Bytes, UInt64.toNat_ofNat_of_lt' hlt, ← h]
  exact leBytes_ofLeBytes bs

theorem u32Bytes_ofNat {bs : List UInt8} (h : bs.length = 4) :
    u32Bytes (UInt32.ofNat (ofLeBytes bs)) = bs := by
  have hlt := ofLeBytes_lt bs
  rw [h] at hlt
  rw [u32Bytes, UInt32.toNat_ofNat_of_lt' hlt, ← h]
  exact leBytes_ofLeBytes bs

/-- What `htonl` leaves in memory is the value with its high byte first. -/
theorem u32Bytes_htonl (x : UInt32) : u32Bytes (htonl x) = beBytes 4 x.toNat := by
  rw [htonl, u32Bytes_ofNat (by simp)]
  rfl

/-- `ntohl` of four bytes in memory is the number they are with the high byte first. -/
theorem toNat_ntohl {bs : List UInt8} (h : bs.length = 4) :
    (ntohl (UInt32.ofNat (ofLeBytes bs))).toNat = ofBeBytes bs := by
  have hlt := ofBeBytes_lt bs
  rw [h] at hlt
  rw [ntohl, htonl, u32Bytes_ofNat h]
  exact UInt32.toNat_ofNat_of_lt' hlt

/-! ### Writing -/

/-- The shape of the six `serialize_*` functions: grow the buffer by a header and the
payload, then copy the type, the length in network order and the fields to the old end
of the buffer, one after another. -/
def serializeFrame (type : MessageType) (payloadSize : ℕ) (fields : List (List UInt8))
    (buffer : List UInt8) : List UInt8 :=
  writeFrom (resize buffer (buffer.length + (5 + payloadSize))) buffer.length
    ([type.byte] :: u32Bytes (htonl (UInt32.ofNat payloadSize)) :: fields)

/-- **A `serialize_*` function appends one frame**, the fields being its payload. -/
theorem serializeFrame_eq (type : MessageType) {payloadSize : ℕ} {fields : List (List UInt8)}
    (h : fields.flatten.length = payloadSize) (hlt : payloadSize < 2 ^ 32)
    (buffer : List UInt8) :
    serializeFrame type payloadSize fields buffer
      = buffer ++ Frame.bytes ⟨type.byte, fields.flatten⟩ := by
  rw [serializeFrame, writeFrom_resize]
  · rw [List.flatten_cons, List.flatten_cons, u32Bytes_htonl, UInt32.toNat_ofNat_of_lt' hlt, ← h]
    rfl
  · rw [List.flatten_cons, List.flatten_cons, List.length_append, List.length_append, h,
      length_u32Bytes, List.length_singleton]
    omega

/-- `serialize_order`. -/
def serializeOrder (order : Order) : List UInt8 → List UInt8 :=
  serializeFrame .NEW_ORDER (8 + 8 + 4 + 1 + 1)
    [u64Bytes order.id, u64Bytes order.price, u32Bytes order.quantity, [order.side.byte],
      [order.orderType.byte]]

/-- `serialize_cancel`. -/
def serializeCancel (id : OrderId) : List UInt8 → List UInt8 :=
  serializeFrame .CANCEL_ORDER 8 [u64Bytes id]

/-- `serialize_acknowledgement`. -/
def serializeAcknowledgement (acknowledgement : Acknowledgement) : List UInt8 → List UInt8 :=
  serializeFrame .ORDER_ACK 8 [u64Bytes acknowledgement.id]

/-- `serialize_rejection`.  Of the 64-bit `reason_length` the first four bytes in memory
are copied. -/
def serializeRejection (rejection : Rejection) : List UInt8 → List UInt8 :=
  serializeFrame .REJECT (8 + 4 + rejection.reason.length)
    [u64Bytes rejection.id, leBytes 4 rejection.reason.length, rejection.reason]

/-- `serialize_trade`. -/
def serializeTrade (trade : Trade) : List UInt8 → List UInt8 :=
  serializeFrame .TRADE (8 + 8 + 8 + 4 + 8)
    [u64Bytes trade.price, u64Bytes trade.buyerOrderId, u64Bytes trade.sellerOrderId,
      u32Bytes trade.quantity, u64Bytes trade.timestamp]

/-- `serialize_cancel_ack`. -/
def serializeCancelAck (acknowledgement : Acknowledgement) : List UInt8 → List UInt8 :=
  serializeFrame .CANCEL_ACK 8 [u64Bytes acknowledgement.id]

/-! ### The frames of the answers -/

/-- The frame of an `ORDER_ACK`. -/
def ackFrame (id : OrderId) : Frame := ⟨MessageType.ORDER_ACK.byte, u64Bytes id⟩

/-- The frame of a `CANCEL_ACK`. -/
def cancelAckFrame (id : OrderId) : Frame := ⟨MessageType.CANCEL_ACK.byte, u64Bytes id⟩

/-- The frame of a `REJECT`. -/
def rejectFrame (id : OrderId) (reason : List UInt8) : Frame :=
  ⟨MessageType.REJECT.byte, u64Bytes id ++ (leBytes 4 reason.length ++ reason)⟩

/-- The frame of a `TRADE`. -/
def tradeFrame (trade : Trade) : Frame :=
  ⟨MessageType.TRADE.byte, u64Bytes trade.price ++ (u64Bytes trade.buyerOrderId
    ++ (u64Bytes trade.sellerOrderId ++ (u32Bytes trade.quantity ++ u64Bytes trade.timestamp)))⟩

theorem serializeAcknowledgement_eq (id : OrderId) (buffer : List UInt8) :
    serializeAcknowledgement ⟨id⟩ buffer = buffer ++ (ackFrame id).bytes := by
  rw [serializeAcknowledgement, serializeFrame_eq _ (by simp) (by omega)]
  simp [ackFrame]

theorem serializeCancelAck_eq (id : OrderId) (buffer : List UInt8) :
    serializeCancelAck ⟨id⟩ buffer = buffer ++ (cancelAckFrame id).bytes := by
  rw [serializeCancelAck, serializeFrame_eq _ (by simp) (by omega)]
  simp [cancelAckFrame]

theorem serializeRejection_eq (id : OrderId) {reason : List UInt8}
    (h : reason.length < 2 ^ 32 - 12) (buffer : List UInt8) :
    serializeRejection ⟨id, reason⟩ buffer = buffer ++ (rejectFrame id reason).bytes := by
  rw [serializeRejection, serializeFrame_eq _ (by simp; omega) (by simp only; omega)]
  simp [rejectFrame]

theorem serializeTrade_eq (trade : Trade) (buffer : List UInt8) :
    serializeTrade trade buffer = buffer ++ (tradeFrame trade).bytes := by
  rw [serializeTrade, serializeFrame_eq _ (by simp) (by omega)]
  simp [tradeFrame]

theorem short_ackFrame (id : OrderId) : (ackFrame id).Short := by
  simp [Frame.Short, ackFrame]

theorem short_cancelAckFrame (id : OrderId) : (cancelAckFrame id).Short := by
  simp [Frame.Short, cancelAckFrame]

theorem short_tradeFrame (trade : Trade) : (tradeFrame trade).Short := by
  simp [Frame.Short, tradeFrame]

theorem short_rejectFrame (id : OrderId) {reason : List UInt8} (h : reason.length < 2 ^ 32 - 12) :
    (rejectFrame id reason).Short := by
  simp only [Frame.Short, rejectFrame, List.length_append, length_u64Bytes, length_leBytes]
  omega

/-! ### Reading -/

/-- `memcpy` of a 64-bit value out of a payload. -/
def readU64 (payload : List UInt8) (offset : ℕ) : Except Fault UInt64 :=
  match readAt payload offset 8 with
  | some bs => .ok (UInt64.ofNat (ofLeBytes bs))
  | none => .error .undefinedBehaviour

/-- `memcpy` of a 32-bit value out of a payload. -/
def readU32 (payload : List UInt8) (offset : ℕ) : Except Fault UInt32 :=
  match readAt payload offset 4 with
  | some bs => .ok (UInt32.ofNat (ofLeBytes bs))
  | none => .error .undefinedBehaviour

/-- `memcpy` of a byte out of a payload. -/
def readU8 (payload : List UInt8) (offset : ℕ) : Except Fault UInt8 :=
  match readAt payload offset 1 with
  | some bs => .ok (UInt8.ofNat (ofLeBytes bs))
  | none => .error .undefinedBehaviour

/-- `deserialize_order`; `now` is the reading of the clock in the constructor. -/
def deserializeOrder (now : Timestamp) (payload : List UInt8) : Except Fault Order := do
  let id ← readU64 payload 0
  let price ← readU64 payload 8
  let quantity ← readU32 payload 16
  let side ← readU8 payload 20
  let orderType ← readU8 payload 21
  (Order.create now id price quantity ⟨side⟩ ⟨orderType⟩).mapError .exception

/-- `deserialize_cancel`. -/
def deserializeCancel (payload : List UInt8) : Except Fault OrderId := readU64 payload 0

/-- `deserialize_acknowledgement`. -/
def deserializeAcknowledgement (payload : List UInt8) : Except Fault Acknowledgement := do
  let id ← readU64 payload 0
  pure ⟨id⟩

/-- `deserialize_rejection`. -/
def deserializeRejection (payload : List UInt8) : Except Fault Rejection := do
  let id ← readU64 payload 0
  let reasonLength ← readU32 payload 8
  match readAt payload 12 reasonLength.toNat with
  | some reason => pure ⟨id, reason⟩
  | none => .error .undefinedBehaviour

/-- `deserialize_trade`. -/
def deserializeTrade (payload : List UInt8) : Except Fault Trade := do
  let price ← readU64 payload 0
  let buyerOrderId ← readU64 payload 8
  let sellerOrderId ← readU64 payload 16
  let quantity ← readU32 payload 24
  let timestamp ← readU64 payload 28
  pure ⟨price, buyerOrderId, sellerOrderId, quantity, timestamp⟩

/-- `deserialize_cancel_ack`. -/
def deserializeCancelAck (payload : List UInt8) : Except Fault Acknowledgement := do
  let id ← readU64 payload 0
  pure ⟨id⟩

/-- The id at the front of a request's payload. -/
def payloadId (payload : List UInt8) : OrderId := UInt64.ofNat (ofLeBytes (payload.take 8))

/-- The price of an order payload. -/
def payloadPrice (payload : List UInt8) : Price :=
  UInt64.ofNat (ofLeBytes ((payload.drop 8).take 8))

/-- The quantity of an order payload. -/
def payloadQuantity (payload : List UInt8) : Quantity :=
  UInt32.ofNat (ofLeBytes ((payload.drop 16).take 4))

/-- The side byte of an order payload. -/
def payloadSide (payload : List UInt8) : Side :=
  ⟨UInt8.ofNat (ofLeBytes ((payload.drop 20).take 1))⟩

/-- The type byte of an order payload. -/
def payloadOrderType (payload : List UInt8) : OrderType :=
  ⟨UInt8.ofNat (ofLeBytes ((payload.drop 21).take 1))⟩

theorem u64Bytes_payloadId {payload : List UInt8} (h : 8 ≤ payload.length) :
    u64Bytes (payloadId payload) = payload.take 8 :=
  u64Bytes_ofNat (by rw [List.length_take]; omega)

theorem readU64_of_le {payload : List UInt8} {offset : ℕ} (h : offset + 8 ≤ payload.length) :
    readU64 payload offset = .ok (UInt64.ofNat (ofLeBytes ((payload.drop offset).take 8))) := by
  rw [readU64, readAt_of_le h]

theorem readU32_of_le {payload : List UInt8} {offset : ℕ} (h : offset + 4 ≤ payload.length) :
    readU32 payload offset = .ok (UInt32.ofNat (ofLeBytes ((payload.drop offset).take 4))) := by
  rw [readU32, readAt_of_le h]

theorem readU8_of_le {payload : List UInt8} {offset : ℕ} (h : offset + 1 ≤ payload.length) :
    readU8 payload offset = .ok (UInt8.ofNat (ofLeBytes ((payload.drop offset).take 1))) := by
  rw [readU8, readAt_of_le h]

/-- The raw id of a request. -/
theorem readU64_zero {payload : List UInt8} (h : 8 ≤ payload.length) :
    readU64 payload 0 = .ok (payloadId payload) := by
  rw [readU64_of_le (by omega), List.drop_zero]
  rfl

theorem deserializeCancel_of_le {payload : List UInt8} (h : 8 ≤ payload.length) :
    deserializeCancel payload = .ok (payloadId payload) := readU64_zero h

/-- **Decoding an order payload that is long enough**: the constructor decides, on the
fields as they stand in the payload. -/
theorem deserializeOrder_of_le (now : Timestamp) {payload : List UInt8} (h : 22 ≤ payload.length) :
    deserializeOrder now payload
      = (Order.create now (payloadId payload) (payloadPrice payload) (payloadQuantity payload)
        (payloadSide payload) (payloadOrderType payload)).mapError .exception := by
  unfold deserializeOrder
  rw [readU64_zero (by omega), readU64_of_le (by omega), readU32_of_le (by omega),
    readU8_of_le (by omega), readU8_of_le (by omega)]
  rfl

/-- What is decoded from an order payload: its fields, and the time of decoding. -/
theorem deserializeOrder_eq_ok {now : Timestamp} {payload : List UInt8} {order : Order}
    (hlen : 22 ≤ payload.length) (h : deserializeOrder now payload = .ok order) :
    order = ⟨now, payloadId payload, payloadPrice payload, payloadQuantity payload,
        payloadSide payload, payloadOrderType payload⟩ ∧ order.Constructed := by
  rw [deserializeOrder_of_le now hlen] at h
  cases hc : Order.create now (payloadId payload) (payloadPrice payload)
      (payloadQuantity payload) (payloadSide payload) (payloadOrderType payload) with
  | error e => rw [hc] at h; exact absurd h (by simp [Except.mapError])
  | ok order' =>
    rw [hc] at h
    obtain rfl := Except.ok.inj h
    obtain ⟨rfl, hchecks⟩ := Order.create_eq_ok hc
    exact ⟨rfl, Order.constructed_iff.mpr hchecks⟩

/-- An order payload that is long enough is decoded to an order of its id that the
constructor accepts, or is refused by the constructor. -/
theorem deserializeOrder_cases (now : Timestamp) {payload : List UInt8}
    (hlen : 22 ≤ payload.length) :
    (∃ order, deserializeOrder now payload = .ok order ∧ order.Constructed ∧
        order.id = payloadId payload) ∨
      ∃ e, deserializeOrder now payload = .error (.exception e) := by
  rw [deserializeOrder_of_le now hlen]
  cases hc : Order.create now (payloadId payload) (payloadPrice payload)
      (payloadQuantity payload) (payloadSide payload) (payloadOrderType payload) with
  | error e => exact Or.inr ⟨e, rfl⟩
  | ok order =>
    obtain rfl := (Order.create_eq_ok hc).1
    exact Or.inl ⟨_, rfl, hc, rfl⟩

/-- A read outside the payload is the only way in which a read fails. -/
theorem readU64_error {payload : List UInt8} {offset : ℕ} {f : Fault}
    (h : readU64 payload offset = .error f) : f = .undefinedBehaviour := by
  unfold readU64 at h
  split at h
  · exact absurd h (by simp)
  · exact (Except.error.inj h).symm

theorem readU32_error {payload : List UInt8} {offset : ℕ} {f : Fault}
    (h : readU32 payload offset = .error f) : f = .undefinedBehaviour := by
  unfold readU32 at h
  split at h
  · exact absurd h (by simp)
  · exact (Except.error.inj h).symm

theorem readU8_error {payload : List UInt8} {offset : ℕ} {f : Fault}
    (h : readU8 payload offset = .error f) : f = .undefinedBehaviour := by
  unfold readU8 at h
  split at h
  · exact absurd h (by simp)
  · exact (Except.error.inj h).symm

/-- The raw id is read from outside a payload that is too short for it. -/
theorem readU64_zero_of_lt {payload : List UInt8} (h : payload.length < 8) :
    readU64 payload 0 = .error .undefinedBehaviour := by
  rw [readU64, readAt, if_neg (by omega)]

/-- **A payload that is too short for an order** is read outside its bounds. -/
theorem deserializeOrder_of_lt (now : Timestamp) {payload : List UInt8}
    (h : payload.length < 22) : deserializeOrder now payload = .error .undefinedBehaviour := by
  have hlast : readU8 payload 21 = .error .undefinedBehaviour := by
    rw [readU8, readAt, if_neg (by omega)]
  unfold deserializeOrder
  -- the reads before the last one succeed, or fail in the same way
  cases hid : readU64 payload 0 with
  | error f => rw [readU64_error hid]; rfl
  | ok id =>
    cases hprice : readU64 payload 8 with
    | error f => rw [readU64_error hprice]; rfl
    | ok price =>
      cases hquantity : readU32 payload 16 with
      | error f => rw [readU32_error hquantity]; rfl
      | ok quantity =>
        cases hside : readU8 payload 20 with
        | error f => rw [readU8_error hside]; rfl
        | ok side => rw [hlast]; rfl

end Exchange
