import Exchange.Serializer
import Mathlib.Data.List.Forall2

/-!
# The wire format, there and back

Messages of the six kinds are written one after another into one buffer, and the bytes
that were appended are cut into frames and decoded.

What a decoder reads is told by its results: it returns a value exactly on the payloads
that begin with the bytes of this value.  A byte that it did not read could be changed
without changing the result, and a byte that it read beyond them could not.

## Main definitions

* `WireMessage` — a message of one of the six kinds, with the checks its sender made.
* `serializeAll` — write messages into a buffer, one after another.
* `WireMessage.ReadFrom` — the matching `deserialize_*` returns the message.

## Main results

* `WireMessage.readFrom_iff` — a decoder reads exactly the bytes of its value.
* `wire_round_trip` — a stream of messages is read back, frame by frame.
-/

namespace Exchange

open Bytes

/-! ### What a read returns -/

theorem bind_eq_ok_iff {ε α β : Type} {x : Except ε α} {f : α → Except ε β} {b : β} :
    (x >>= f) = .ok b ↔ ∃ a, x = .ok a ∧ f a = .ok b := by
  cases x with
  | error e => exact ⟨fun h => absurd h (by simp [bind, Except.bind]), fun ⟨a, h, _⟩ => nomatch h⟩
  | ok a => exact ⟨fun h => ⟨a, rfl, h⟩, fun ⟨a', h, hf⟩ => Except.ok.inj h ▸ hf⟩

section Codec

variable {α : Type} {enc : α → List UInt8} {dec : List UInt8 → α} {n : ℕ}

/-- A fixed-width field is read exactly where its bytes stand. -/
theorem read_eq_ok_iff (hpos : 0 < n) (hlen : ∀ x, (enc x).length = n)
    (hdec : ∀ x, dec (enc x) = x) (henc : ∀ bs, bs.length = n → enc (dec bs) = bs)
    {payload : List UInt8} {offset : ℕ} {x : α} :
    (match readAt payload offset n with
      | some bs => Except.ok (dec bs)
      | none => Except.error Fault.undefinedBehaviour) = .ok x ↔ enc x <+: payload.drop offset := by
  by_cases hle : offset ≤ payload.length
  · constructor
    · intro h
      cases hread : readAt payload offset n with
      | none => rw [hread] at h; exact absurd h (by simp)
      | some bs =>
        obtain ⟨hbs, hpre⟩ := (readAt_eq_some_iff hle).mp hread
        rw [hread] at h
        rw [← Except.ok.inj h, henc bs hbs]
        exact hpre
    · intro hpre
      rw [(readAt_eq_some_iff hle).mpr ⟨hlen x, hpre⟩]
      exact congrArg Except.ok (hdec x)
  · -- behind the end there is nothing to read
    have hnone : readAt payload offset n = none := if_neg (by omega)
    rw [hnone, List.drop_eq_nil_of_le (by omega), List.prefix_nil]
    constructor
    · exact fun h => absurd h (by simp)
    · intro h
      have := hlen x
      rw [h, List.length_nil] at this
      omega

end Codec

theorem readU64_eq_ok_iff {payload : List UInt8} {offset : ℕ} {x : UInt64} :
    readU64 payload offset = .ok x ↔ u64Bytes x <+: payload.drop offset := by
  apply read_eq_ok_iff (by omega) length_u64Bytes
  · intro x
    rw [u64Bytes, ofLeBytes_leBytes x.toNat_lt, UInt64.ofNat_toNat]
  · exact fun bs h => u64Bytes_ofNat h

theorem readU32_eq_ok_iff {payload : List UInt8} {offset : ℕ} {x : UInt32} :
    readU32 payload offset = .ok x ↔ u32Bytes x <+: payload.drop offset := by
  apply read_eq_ok_iff (by omega) length_u32Bytes
  · intro x
    rw [u32Bytes, ofLeBytes_leBytes x.toNat_lt, UInt32.ofNat_toNat]
  · exact fun bs h => u32Bytes_ofNat h

theorem ofNat_ofLeBytes_singleton (x : UInt8) : UInt8.ofNat (ofLeBytes [x]) = x :=
  UInt8.ofNat_toNat

theorem readU8_eq_ok_iff {payload : List UInt8} {offset : ℕ} {x : UInt8} :
    readU8 payload offset = .ok x ↔ [x] <+: payload.drop offset := by
  have hlen : ∀ x : UInt8, [x].length = 1 := fun _ => rfl
  apply read_eq_ok_iff (by omega) hlen ofNat_ofLeBytes_singleton
  intro bs h
  obtain ⟨b, rfl⟩ := List.length_eq_one_iff.mp h
  rw [ofNat_ofLeBytes_singleton]

/-! ### What a decoder reads -/

/-- The frame of a `NEW_ORDER`. -/
def orderFrame (order : Order) : Frame :=
  ⟨MessageType.NEW_ORDER.byte, u64Bytes order.id ++ (u64Bytes order.price
    ++ (u32Bytes order.quantity ++ ([order.side.byte] ++ [order.orderType.byte])))⟩

/-- The frame of a `CANCEL_ORDER`. -/
def cancelFrame (id : OrderId) : Frame := ⟨MessageType.CANCEL_ORDER.byte, u64Bytes id⟩

theorem serializeOrder_eq (order : Order) (buffer : List UInt8) :
    serializeOrder order buffer = buffer ++ (orderFrame order).bytes := by
  rw [serializeOrder, serializeFrame_eq _ (by simp) (by omega)]
  simp [orderFrame]

theorem serializeCancel_eq (id : OrderId) (buffer : List UInt8) :
    serializeCancel id buffer = buffer ++ (cancelFrame id).bytes := by
  rw [serializeCancel, serializeFrame_eq _ (by simp) (by omega)]
  simp [cancelFrame]

theorem deserializeCancel_eq_ok_iff {payload : List UInt8} {id : OrderId} :
    deserializeCancel payload = .ok id ↔ (cancelFrame id).payload <+: payload :=
  readU64_eq_ok_iff

/-- The id of a payload that begins with one. -/
theorem payloadId_of_prefix {payload : List UInt8} {id : OrderId} (h : u64Bytes id <+: payload) :
    payloadId payload = id := by
  have hlen : 8 ≤ payload.length := by
    rw [← length_u64Bytes id]
    exact h.length_le
  exact Except.ok.inj ((readU64_zero hlen).symm.trans (readU64_eq_ok_iff.mpr h))

theorem deserializeAcknowledgement_eq_ok_iff {payload : List UInt8} {ack : Acknowledgement} :
    deserializeAcknowledgement payload = .ok ack ↔ (ackFrame ack.id).payload <+: payload := by
  simp only [deserializeAcknowledgement, bind_eq_ok_iff, readU64_eq_ok_iff, List.drop_zero]
  constructor
  · rintro ⟨id, hid, hok⟩
    obtain rfl := Except.ok.inj hok
    exact hid
  · exact fun h => ⟨ack.id, h, rfl⟩

theorem deserializeCancelAck_eq_ok_iff {payload : List UInt8} {ack : Acknowledgement} :
    deserializeCancelAck payload = .ok ack ↔ (cancelAckFrame ack.id).payload <+: payload :=
  deserializeAcknowledgement_eq_ok_iff

theorem deserializeTrade_eq_ok_iff {payload : List UInt8} {trade : Trade} :
    deserializeTrade payload = .ok trade ↔ (tradeFrame trade).payload <+: payload := by
  simp only [deserializeTrade, tradeFrame, bind_eq_ok_iff, readU64_eq_ok_iff, readU32_eq_ok_iff,
    append_prefix_iff, length_u64Bytes, length_u32Bytes, List.drop_drop, List.drop_zero]
  constructor
  · rintro ⟨price, hprice, buyer, hbuyer, seller, hseller, quantity, hquantity, timestamp,
      htimestamp, hok⟩
    obtain rfl := Except.ok.inj hok
    exact ⟨hprice, hbuyer, hseller, hquantity, htimestamp⟩
  · rintro ⟨hprice, hbuyer, hseller, hquantity, htimestamp⟩
    exact ⟨_, hprice, _, hbuyer, _, hseller, _, hquantity, _, htimestamp, rfl⟩

theorem deserializeOrder_eq_ok_iff (now : Timestamp) {payload : List UInt8} {order : Order}
    (h : order.Constructed) :
    deserializeOrder now payload = .ok { order with timestamp := now }
      ↔ (orderFrame order).payload <+: payload := by
  simp only [deserializeOrder, orderFrame, bind_eq_ok_iff, readU64_eq_ok_iff, readU32_eq_ok_iff,
    readU8_eq_ok_iff, append_prefix_iff, length_u64Bytes, length_u32Bytes, List.length_singleton,
    List.drop_drop, List.drop_zero]
  constructor
  · rintro ⟨id, hid, price, hprice, quantity, hquantity, side, hside, orderType, htype, hok⟩
    cases hc : Order.create now id price quantity ⟨side⟩ ⟨orderType⟩ with
    | error e => rw [hc] at hok; exact absurd hok (by simp [Except.mapError])
    | ok order' =>
      -- the constructor returns its arguments
      rw [hc] at hok
      obtain rfl := Except.ok.inj hok
      obtain ⟨hfields, -⟩ := Order.create_eq_ok hc
      simp only [Order.mk.injEq, true_and] at hfields
      obtain ⟨hid', hprice', hquantity', hside', htype'⟩ := hfields
      rw [hid', hprice', hquantity', hside', htype']
      exact ⟨hid, hprice, hquantity, hside, htype⟩
  · rintro ⟨hid, hprice, hquantity, hside, htype⟩
    refine ⟨_, hid, _, hprice, _, hquantity, _, hside, _, htype, ?_⟩
    -- the checks do not look at the time
    have hchecks := Order.constructed_iff.mp h
    have hnow : Order.Constructed { order with timestamp := now } :=
      Order.constructed_iff.mpr hchecks
    unfold Order.Constructed at hnow
    rw [hnow]
    rfl

/-- The length of the reason is written into the payload a second time, and decides how
much of it is read. -/
theorem deserializeRejection_eq_ok_iff {payload : List UInt8} {rejection : Rejection}
    (h : rejection.reason.length < 2 ^ 32 - 12) :
    deserializeRejection payload = .ok rejection
      ↔ (rejectFrame rejection.id rejection.reason).payload <+: payload := by
  have hlen : u32Bytes (UInt32.ofNat rejection.reason.length)
      = leBytes 4 rejection.reason.length := by
    rw [u32Bytes, UInt32.toNat_ofNat_of_lt' (by simp only [UInt32.size]; omega)]
  simp only [deserializeRejection, rejectFrame, bind_eq_ok_iff, readU64_eq_ok_iff,
    readU32_eq_ok_iff, append_prefix_iff, length_u64Bytes, length_leBytes, List.drop_drop,
    List.drop_zero]
  -- the two reads in front of the reason are inside, so that the reason begins inside
  have hinside : ∀ n : UInt32, u32Bytes n <+: payload.drop 8 → 12 ≤ payload.length := by
    intro n hpre
    have hle := hpre.length_le
    rw [length_u32Bytes, List.length_drop] at hle
    omega
  constructor
  · rintro ⟨id, hid, n, hn, hok⟩
    cases hread : readAt payload 12 n.toNat with
    | none => rw [hread] at hok; exact absurd hok (by simp)
    | some reason =>
      rw [hread] at hok
      obtain rfl := Except.ok.inj hok
      obtain ⟨hreason, hpre⟩ := (readAt_eq_some_iff (hinside n hn)).mp hread
      refine ⟨hid, ?_, hpre⟩
      rw [hreason]
      exact hn
  · rintro ⟨hid, hn, hpre⟩
    rw [← hlen] at hn
    refine ⟨_, hid, _, hn, ?_⟩
    rw [(readAt_eq_some_iff (hinside _ hn)).mpr ⟨?_, hpre⟩]
    · rfl
    · rw [UInt32.toNat_ofNat_of_lt' (by simp only [UInt32.size]; omega)]

/-! ### Streams of messages -/

/-- A message of one of the six kinds that are written: orders are such that the
constructor accepts, and a reason is short enough for its frame. -/
inductive WireMessage
  | order (order : Order) (constructed : order.Constructed)
  | cancel (id : OrderId)
  | acknowledgement (acknowledgement : Acknowledgement)
  | rejection (rejection : Rejection) (short : rejection.reason.length < 2 ^ 32 - 12)
  | trade (trade : Trade)
  | cancelAck (acknowledgement : Acknowledgement)

namespace WireMessage

/-- The type of the message. -/
def type : WireMessage → MessageType
  | .order _ _ => .NEW_ORDER
  | .cancel _ => .CANCEL_ORDER
  | .acknowledgement _ => .ORDER_ACK
  | .rejection _ _ => .REJECT
  | .trade _ => .TRADE
  | .cancelAck _ => .CANCEL_ACK

/-- Write the message with the function for its kind. -/
def serialize : WireMessage → List UInt8 → List UInt8
  | .order o _ => serializeOrder o
  | .cancel id => serializeCancel id
  | .acknowledgement a => serializeAcknowledgement a
  | .rejection r _ => serializeRejection r
  | .trade t => serializeTrade t
  | .cancelAck a => serializeCancelAck a

/-- The decoder for its kind returns the message from a payload.  An order is given the
time `now` at which it is decoded. -/
def ReadFrom (now : Timestamp) (payload : List UInt8) : WireMessage → Prop
  | .order o _ => deserializeOrder now payload = .ok { o with timestamp := now }
  | .cancel id => deserializeCancel payload = .ok id
  | .acknowledgement a => deserializeAcknowledgement payload = .ok a
  | .rejection r _ => deserializeRejection payload = .ok r
  | .trade t => deserializeTrade payload = .ok t
  | .cancelAck a => deserializeCancelAck payload = .ok a

/-- The frame of the message. -/
def frame : WireMessage → Frame
  | .order o _ => orderFrame o
  | .cancel id => cancelFrame id
  | .acknowledgement a => ackFrame a.id
  | .rejection r _ => rejectFrame r.id r.reason
  | .trade t => tradeFrame t
  | .cancelAck a => cancelAckFrame a.id

theorem type_frame (m : WireMessage) : m.frame.type = m.type.byte := by
  cases m <;> rfl

theorem short_frame (m : WireMessage) : m.frame.Short := by
  cases m with
  | order o h => simp [frame, Frame.Short, orderFrame]
  | cancel id => simp [frame, Frame.Short, cancelFrame]
  | acknowledgement a => exact short_ackFrame a.id
  | rejection r h => exact short_rejectFrame r.id h
  | trade t => exact short_tradeFrame t
  | cancelAck a => exact short_cancelAckFrame a.id

/-- **A message is written as one frame behind the buffer.** -/
theorem serialize_eq (m : WireMessage) (buffer : List UInt8) :
    m.serialize buffer = buffer ++ m.frame.bytes := by
  cases m with
  | order o h => exact serializeOrder_eq o buffer
  | cancel id => exact serializeCancel_eq id buffer
  | acknowledgement a => exact serializeAcknowledgement_eq a.id buffer
  | rejection r h => exact serializeRejection_eq r.id h buffer
  | trade t => exact serializeTrade_eq t buffer
  | cancelAck a => exact serializeCancelAck_eq a.id buffer

/-- **A decoder reads exactly the bytes of its value.** -/
theorem readFrom_iff (m : WireMessage) (now : Timestamp) (payload : List UInt8) :
    m.ReadFrom now payload ↔ m.frame.payload <+: payload := by
  cases m with
  | order o h => exact deserializeOrder_eq_ok_iff now h
  | cancel id => exact deserializeCancel_eq_ok_iff
  | acknowledgement a => exact deserializeAcknowledgement_eq_ok_iff
  | rejection r h => exact deserializeRejection_eq_ok_iff h
  | trade t => exact deserializeTrade_eq_ok_iff
  | cancelAck a => exact deserializeCancelAck_eq_ok_iff

end WireMessage

/-- Write messages into a buffer, one after another. -/
def serializeAll (ms : List WireMessage) (buffer : List UInt8) : List UInt8 :=
  ms.foldl (fun buffer m => m.serialize buffer) buffer

theorem serializeAll_eq (ms : List WireMessage) (buffer : List UInt8) :
    serializeAll ms buffer = buffer ++ ((ms.map WireMessage.frame).map Frame.bytes).flatten := by
  induction ms generalizing buffer with
  | nil => exact (List.append_nil buffer).symm
  | cons m ms ih =>
    rw [serializeAll, List.foldl_cons, ← serializeAll, ih, m.serialize_eq, List.append_assoc]
    rfl

/-- **A stream of messages is read back.**  The buffer keeps what it held, and what was
appended is cut into one frame for each message, with its type and with a payload that
the decoder of its kind reads, all of it and nothing else, and returns the message. -/
theorem wire_round_trip (ms : List WireMessage) (buffer : List UInt8) :
    ∃ (appended : List UInt8) (frames : List Frame),
      serializeAll ms buffer = buffer ++ appended ∧ splitFrames appended = (frames, []) ∧
      List.Forall₂ (fun m f => f.type = m.type.byte ∧
        (∀ now, m.ReadFrom now f.payload) ∧
        ∀ now payload, m.ReadFrom now payload ↔ f.payload <+: payload) ms frames := by
  refine ⟨_, ms.map WireMessage.frame, serializeAll_eq ms buffer, ?_, ?_⟩
  · apply splitFrames_flatten
    intro f hf
    obtain ⟨m, -, rfl⟩ := List.mem_map.mp hf
    exact m.short_frame
  · rw [List.forall₂_map_right_iff, List.forall₂_same]
    intro m _
    exact ⟨m.type_frame, fun now => (m.readFrom_iff now _).mpr List.prefix_rfl, m.readFrom_iff⟩

end Exchange
