import Exchange.Lib.Transducer
import Exchange.Serializer.RoundTrip

/-!
# The client

`order_simulator.cpp`, `exchange_client.cpp` and `client_main.cpp`.  A thread of the client
draws orders at random, numbers them from an id of its own, and sends them in batches
without waiting for answers.  It does not look at the result of `send`.

What comes from outside is a parameter: the numbers that the distributions return, the
readings of the clock, and how many bytes the kernel takes of each `send`.  The price is
drawn from a normal distribution around the centre price and rounded, so that it may be any
`long long`; the centre price has no other use.

## Main definitions

* `Draw`, `OrderSimulator.generateOrder` — random orders.
* `ExchangeClient.run`, `runClientThread` — what a thread sends.
* `ClientWorld.Blocking` — `send` waits until the kernel has taken all bytes, and a
  connection on which it has failed stays broken.
* `ordersOf` — the orders that a thread generates.

## Main results

* `generateOrder_eq` — every order that is drawn passes the checks of the constructor.
* `runClientThread_spec` — a thread sends the frames of its orders, or the beginning of them.
* `id_inj` — no id is used twice, in one thread or in two.
-/

namespace Exchange

open Bytes

/-! ### Random orders -/

/-- The numbers drawn for one order, within the bounds of their distributions. -/
structure Draw where
  side : Fin 2
  orderType : Fin 2
  rounded : Int64
  quantity : Quantity
  one_le : 1 ≤ quantity
  le_thousand : quantity ≤ 1000

namespace Draw

/-- The side that is drawn. -/
def toSide (draw : Draw) : Side := if draw.side = 0 then .BID else .ASK

/-- The order type that is drawn. -/
def toOrderType (draw : Draw) : OrderType := if draw.orderType = 0 then .LIMIT else .MARKET

/-- The price, clamped to at least 1 for limit orders. -/
def toPrice (draw : Draw) : Price :=
  if draw.toOrderType = .LIMIT then
    (if draw.rounded < 1 then (1 : Int64) else draw.rounded).toUInt64
  else 0

/-- The order that is drawn. -/
def order (draw : Draw) (now : Timestamp) (id : OrderId) : Order :=
  ⟨now, id, draw.toPrice, draw.quantity, draw.toSide, draw.toOrderType⟩

end Draw

/-- `OrderSimulator`, with the id of its next order. -/
structure OrderSimulator where
  idCounter : OrderId

/-- `generate_order`: what the constructor of `Order` returns, and the counter behind it. -/
def OrderSimulator.generateOrder (simulator : OrderSimulator) (now : Timestamp) (draw : Draw) :
    Except Exn Order × OrderSimulator :=
  (Order.create now simulator.idCounter draw.toPrice draw.quantity draw.toSide draw.toOrderType,
    ⟨simulator.idCounter + 1⟩)

/-! ### The client -/

/-- What a thread of the client meets when it generates and sends its order number `k`: the
numbers that are drawn, the reading of the clock, and how many bytes the kernel takes. -/
structure ClientWorld where
  draw : ℕ → Draw
  now : ℕ → Timestamp
  taken : ℕ → ℕ

/-- The client, with the bytes that the kernel has taken as a ghost. -/
structure ExchangeClient where
  orderSimulator : OrderSimulator
  msgBuffer : List UInt8
  sent : List UInt8

namespace ExchangeClient

def NUM_ORDERS : ℕ := 1000000
def BATCH_SIZE : ℕ := 10000

/-- One order is generated, serialized and sent. -/
def sendOrder (world : ClientWorld) (client : ExchangeClient) (k : ℕ) :
    Except Exn ExchangeClient :=
  let (order, orderSimulator) :=
    client.orderSimulator.generateOrder (world.now k) (world.draw k)
  order.map fun order =>
    let msgBuffer := serializeOrder order []
    { orderSimulator, msgBuffer, sent := client.sent ++ msgBuffer.take (world.taken k) }

/-- `run`, up to the printing of its times. -/
def run (world : ClientWorld) (client : ExchangeClient) : Except Exn ExchangeClient :=
  (List.range (NUM_ORDERS / BATCH_SIZE)).foldlM (fun client batch =>
    (List.range BATCH_SIZE).foldlM (fun client i =>
      client.sendOrder world (batch * BATCH_SIZE + i)) client) client

end ExchangeClient

/-- The first id of a thread. -/
def startingId (threadId : ℕ) : OrderId := UInt64.ofNat (threadId + 1) * 100000000

/-- `run_client_thread`, once it has connected. -/
def runClientThread (world : ClientWorld) (threadId : ℕ) : Except Exn ExchangeClient :=
  ExchangeClient.run world ⟨⟨startingId threadId⟩, [], []⟩

/-- The order number `k` of a client whose first id is `start`. -/
def ClientWorld.orderAt (world : ClientWorld) (start : OrderId) (k : ℕ) : Order :=
  (world.draw k).order (world.now k) (start + UInt64.ofNat k)

/-- The orders that a thread generates. -/
def ordersOf (world : ClientWorld) (threadId : ℕ) : List Order :=
  (List.range ExchangeClient.NUM_ORDERS).map (world.orderAt (startingId threadId))

/-- The size of the frame of an order. -/
def ORDER_FRAME_SIZE : ℕ := 27

/-- The socket is a blocking one: `send` waits until the kernel has taken all bytes.  When
it takes less the connection is broken, and takes no more. -/
def ClientWorld.Blocking (world : ClientWorld) : Prop :=
  ∀ k, world.taken k < ORDER_FRAME_SIZE → ∀ j, k < j → world.taken j = 0

/-! ### What is generated -/

namespace Draw

variable (draw : Draw)

theorem toPrice_pos (h : draw.toOrderType = .LIMIT) : 0 < draw.toPrice := by
  rw [toPrice, if_pos h]
  have hge : 1 ≤ (if draw.rounded < 1 then (1 : Int64) else draw.rounded) := by
    split
    · exact Int64.le_refl 1
    · next hlt => exact Int64.not_lt.mp hlt
  generalize (if draw.rounded < 1 then (1 : Int64) else draw.rounded) = rounded at hge
  rw [UInt64.pos_iff_ne_zero]
  intro hzero
  have hint : rounded = 0 := congrArg Int64.ofUInt64 hzero
  rw [hint] at hge
  exact absurd hge (by decide)

/-- Every order that is drawn passes the checks. -/
theorem constructed_order (now : Timestamp) (id : OrderId) :
    (draw.order now id).Constructed := by
  rw [Order.constructed_iff]
  refine ⟨draw.toPrice_pos, fun hm => ?_, ?_⟩
  · refine if_neg fun hl => ?_
    exact OrderType.LIMIT_ne_MARKET (hl.symm.trans hm)
  · exact UInt32.lt_of_lt_of_le (by decide) draw.one_le

theorem proper_order (now : Timestamp) (id : OrderId) : (draw.order now id).Proper := by
  constructor
  · show draw.toSide = .BID ∨ draw.toSide = .ASK
    rw [toSide]
    split
    · exact Or.inl rfl
    · exact Or.inr rfl
  · show draw.toOrderType = .LIMIT ∨ draw.toOrderType = .MARKET
    rw [toOrderType]
    split
    · exact Or.inl rfl
    · exact Or.inr rfl

end Draw

/-- `generate_order` does not throw. -/
theorem generateOrder_eq (simulator : OrderSimulator) (now : Timestamp) (draw : Draw) :
    simulator.generateOrder now draw
      = (.ok (draw.order now simulator.idCounter), ⟨simulator.idCounter + 1⟩) :=
  congrArg (·, _) (draw.constructed_order now simulator.idCounter)

/-! ### What is sent -/

/-- What the kernel has taken after `n` calls of `send`. -/
def ClientWorld.sentAfter (world : ClientWorld) (start : OrderId) (n : ℕ) : List UInt8 :=
  ((List.range n).map fun k => (orderFrame (world.orderAt start k)).bytes.take
    (world.taken k)).flatten

/-- The frames of the first `n` orders. -/
def ClientWorld.framesOf (world : ClientWorld) (start : OrderId) (n : ℕ) : List UInt8 :=
  (((List.range n).map (world.orderAt start)).map fun o => (orderFrame o).bytes).flatten

section Sending

variable (world : ClientWorld) (start : OrderId)

theorem sentAfter_succ (n : ℕ) : world.sentAfter start (n + 1)
    = world.sentAfter start n ++ (orderFrame (world.orderAt start n)).bytes.take
      (world.taken n) := by
  simp [ClientWorld.sentAfter, List.range_succ]

theorem framesOf_succ (n : ℕ) : world.framesOf start (n + 1)
    = world.framesOf start n ++ (orderFrame (world.orderAt start n)).bytes := by
  simp [ClientWorld.framesOf, List.range_succ]

theorem sentAfter_prefix {m n : ℕ} (h : m ≤ n) :
    world.sentAfter start m <+: world.sentAfter start n := by
  induction n, h using Nat.le_induction with
  | base => exact List.prefix_rfl
  | succ n _ ih =>
    rw [sentAfter_succ]
    exact ih.trans (List.prefix_append _ _)

/-- The loop of `run`, after any number of rounds. -/
theorem foldlM_sendOrder (n : ℕ) : ∃ msgBuffer,
    (List.range n).foldlM (ExchangeClient.sendOrder world) ⟨⟨start⟩, [], []⟩
      = .ok ⟨⟨start + UInt64.ofNat n⟩, msgBuffer, world.sentAfter start n⟩ := by
  induction n with
  | zero => exact ⟨[], by simp [ClientWorld.sentAfter]; rfl⟩
  | succ n ih =>
    obtain ⟨msgBuffer, hrun⟩ := ih
    refine ⟨serializeOrder (world.orderAt start n) [], ?_⟩
    rw [List.range_succ, List.foldlM_append, hrun]
    show ((ExchangeClient.sendOrder world _ n) >>= pure : Except Exn ExchangeClient) = _
    rw [bind_pure, ExchangeClient.sendOrder, generateOrder_eq, sentAfter_succ]
    have hid : start + UInt64.ofNat n + 1 = start + UInt64.ofNat (n + 1) := by
      rw [UInt64.add_assoc, UInt64.ofNat_add]
      rfl
    simp [Except.map, ClientWorld.orderAt, serializeOrder_eq, hid]

variable {world}

/-- On a blocking socket the kernel takes the frames one after another, until the connection
is broken. -/
theorem sentAfter_blocking (hblocking : world.Blocking) (n : ℕ) :
    world.sentAfter start n = world.framesOf start n ∨
      (world.sentAfter start n <+: world.framesOf start n ∧ ∀ k, n ≤ k → world.taken k = 0) := by
  induction n with
  | zero => exact Or.inl rfl
  | succ n ih =>
    rw [sentAfter_succ, framesOf_succ]
    have hsize : (orderFrame (world.orderAt start n)).bytes.length = ORDER_FRAME_SIZE := by
      simp [orderFrame, ORDER_FRAME_SIZE, Frame.bytes]
    rcases ih with hall | ⟨hpart, hnone⟩
    · rw [hall]
      by_cases hwhole : ORDER_FRAME_SIZE ≤ world.taken n
      · rw [List.take_of_length_le (by rw [hsize]; exact hwhole)]
        exact Or.inl rfl
      · refine Or.inr ⟨(List.prefix_append_right_inj _).mpr (List.take_prefix _ _), ?_⟩
        exact fun k hk => hblocking n (Nat.lt_of_not_le hwhole) k hk
    · rw [hnone n (Nat.le_refl n), List.take_zero, List.append_nil]
      exact Or.inr ⟨hpart.trans (List.prefix_append _ _),
        fun k hk => hnone k (Nat.le_of_succ_le hk)⟩

end Sending

/-- The batches make no difference. -/
theorem runClientThread_eq (world : ClientWorld) (threadId : ℕ) :
    runClientThread world threadId = (List.range ExchangeClient.NUM_ORDERS).foldlM
      (ExchangeClient.sendOrder world) ⟨⟨startingId threadId⟩, [], []⟩ :=
  foldlM_range_mul (ExchangeClient.sendOrder world) 100 10000 _

theorem runClientThread_sent (world : ClientWorld) (threadId : ℕ) :
    ∃ client, runClientThread world threadId = .ok client ∧
      client.sent = world.sentAfter (startingId threadId) ExchangeClient.NUM_ORDERS := by
  rw [runClientThread_eq]
  generalize ExchangeClient.NUM_ORDERS = n
  obtain ⟨msgBuffer, hrun⟩ := foldlM_sendOrder world (startingId threadId) n
  exact ⟨_, hrun, rfl⟩

/-- **A thread sends the frames of its orders**, or the beginning of them. -/
theorem runClientThread_spec (world : ClientWorld) (threadId : ℕ) :
    ∃ client, runClientThread world threadId = .ok client ∧
      (world.Blocking →
        client.sent <+: ((ordersOf world threadId).map fun o => (orderFrame o).bytes).flatten) := by
  obtain ⟨client, hrun, hsent⟩ := runClientThread_sent world threadId
  refine ⟨client, hrun, fun hblocking => ?_⟩
  rw [hsent, ordersOf, ← ClientWorld.framesOf]
  rcases sentAfter_blocking (startingId threadId) hblocking ExchangeClient.NUM_ORDERS
    with hall | ⟨hpart, -⟩
  · exact ⟨[], (List.append_nil _).trans hall⟩
  · exact hpart

/-! ### Ids -/

/-- The id of order number `k` of a thread, as a number. -/
theorem toNat_id {threadId k : ℕ} (hthread : threadId < 2 ^ 31 - 1)
    (hk : k < ExchangeClient.NUM_ORDERS) :
    (startingId threadId + UInt64.ofNat k).toNat = (threadId + 1) * 100000000 + k := by
  rw [ExchangeClient.NUM_ORDERS] at hk
  have hnat : startingId threadId + UInt64.ofNat k
      = UInt64.ofNat ((threadId + 1) * 100000000 + k) := by
    rw [UInt64.ofNat_add, UInt64.ofNat_mul]
    rfl
  rw [hnat, UInt64.toNat_ofNat']
  omega

/-- **No id is used twice**, in one thread or in two. -/
theorem id_inj {threadId threadId' k k' : ℕ} (hthread : threadId < 2 ^ 31 - 1)
    (hthread' : threadId' < 2 ^ 31 - 1) (hk : k < ExchangeClient.NUM_ORDERS)
    (hk' : k' < ExchangeClient.NUM_ORDERS)
    (h : startingId threadId + UInt64.ofNat k = startingId threadId' + UInt64.ofNat k') :
    threadId = threadId' ∧ k = k' := by
  have hnat := congrArg UInt64.toNat h
  rw [toNat_id hthread hk, toNat_id hthread' hk'] at hnat
  rw [ExchangeClient.NUM_ORDERS] at hk hk'
  omega

end Exchange
