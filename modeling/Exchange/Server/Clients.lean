import Exchange.ExchangeClient
import Exchange.Processor.Routing
import Exchange.Server.Connections
import Exchange.Server.Consistency

/-!
# The exchange and its clients

The results about routing suppose that the accepted orders of a run have distinct ids.  The
exchange does not see to that; its clients do.  Every thread of the client numbers its orders
from an id of its own, far enough from those of the other threads.  So whatever part of their
orders has arrived, however it was cut into pieces and however connections came and went, no
id arrives twice, every order that is processed is accepted, and the routing table is right.

## Main definitions

* `ClientThreads` — every connection of a run belongs to one thread of the client.

## Main results

* `client_ids_distinct` — no id is accepted twice.
-/

namespace Exchange

open Bytes

/-- The payloads of the requests that a thread sends. -/
def payloadsOf (world : ClientWorld) (threadId : ℕ) : List (List UInt8) :=
  (ordersOf world threadId).map fun o => (orderFrame o).payload

/-- Every connection of a run was made by a thread of the client, a different one for each,
and what has been received on it are bytes that the thread sends.  Thread ids are less than
the number of threads, which is an `int`. -/
structure ClientThreads (worlds : ℕ → ClientWorld) (thread : Conn → ℕ) (reserved : Fd → Bool)
    (events : List Event) (numConns : ℕ) : Prop where
  blocking : ∀ threadId, (worlds threadId).Blocking
  threadId_lt : ∀ conn < numConns, thread conn < INT_MAX
  once : ∀ conn < numConns, ∀ conn' < numConns, thread conn = thread conn' → conn = conn'
  sent : ∀ conn < numConns, ∃ client,
    runClientThread (worlds (thread conn)) (thread conn) = .ok client ∧
      System.receivedOn conn (.start reserved) events <+: client.sent

/-! ### The requests of a thread -/

theorem requestStream_orders (orders : List Order) :
    requestStream (orders.map fun o => (orderFrame o).payload)
      = (orders.map fun o => (orderFrame o).bytes).flatten := by
  rw [requestStream, List.map_map]
  rfl

theorem length_payload_orderFrame (order : Order) : (orderFrame order).payload.length = 22 := by
  simp [orderFrame]

@[simp] theorem payloadId_orderFrame (order : Order) :
    payloadId (orderFrame order).payload = order.id :=
  payloadId_of_prefix (List.prefix_append _ _)

/-- A request with the frame of an order is accepted as this order. -/
theorem accepted_orderFrame {i : Input} {order : Order} (hc : order.Constructed)
    (ht : i.message.type = .NEW_ORDER) (hp : i.message.payload = (orderFrame order).payload) :
    i.accepted = some { order with timestamp := i.times.received } := by
  have hread := (deserializeOrder_eq_ok_iff i.times.received hc).mpr List.prefix_rfl
  rw [Input.accepted, if_pos ht, hp, hread]
  rfl

theorem mem_payloadsOf {world : ClientWorld} {threadId : ℕ} {payload : List UInt8}
    (h : payload ∈ payloadsOf world threadId) :
    ∃ k < ExchangeClient.NUM_ORDERS,
      payload = (orderFrame (world.orderAt (startingId threadId) k)).payload := by
  obtain ⟨order, horder, rfl⟩ := List.mem_map.mp h
  obtain ⟨k, hk, rfl⟩ := List.mem_map.mp horder
  exact ⟨k, List.mem_range.mp hk, rfl⟩

/-- The ids of a thread are distinct. -/
theorem nodup_payloadsOf (world : ClientWorld) {threadId : ℕ} (h : threadId < INT_MAX) :
    ((payloadsOf world threadId).map payloadId).Nodup := by
  rw [payloadsOf, ordersOf, List.map_map, List.map_map]
  refine List.Nodup.map_on ?_ List.nodup_range
  intro k hk k' hk' heq
  simp only [Function.comp_apply, payloadId_orderFrame] at heq
  exact (id_inj h h (List.mem_range.mp hk) (List.mem_range.mp hk') heq).2

/-! ### All threads together -/

namespace ClientThreads

variable {worlds : ℕ → ClientWorld} {thread : Conn → ℕ} {reserved : Fd → Bool}
  {events : List Event} {sys : System}

/-- What is pushed for a connection are the first orders of its thread. -/
theorem requests_of (h : ClientThreads worlds thread reserved events sys.numConns)
    (hrun : System.run reserved events = some sys) {conn : Conn} (hconn : conn < sys.numConns) :
    ∃ fd, fromConn conn (System.incoming (.start reserved) events)
      <+: requestsFrom fd (payloadsOf (worlds (thread conn)) (thread conn)) := by
  obtain ⟨client, hclient, hreceived⟩ := h.sent conn hconn
  obtain ⟨client', hclient', hsent⟩ := runClientThread_spec (worlds (thread conn)) (thread conn)
  obtain rfl := Except.ok.inj (hclient.symm.trans hclient')
  have hlen : ∀ payload ∈ payloadsOf (worlds (thread conn)) (thread conn),
      payload.length = 22 := by
    intro payload hmem
    obtain ⟨k, -, rfl⟩ := mem_payloadsOf hmem
    exact length_payload_orderFrame _
  refine (System.Heard.run hrun).requests_of hlen (hreceived.trans ?_)
  rw [payloadsOf, requestStream_orders]
  exact hsent (h.blocking _)

/-- A request that has been pushed is for an order of the thread of its connection. -/
theorem order_of_mem (h : ClientThreads worlds thread reserved events sys.numConns)
    (hrun : System.run reserved events = some sys) {q : Incoming}
    (hq : q ∈ System.incoming (.start reserved) events) :
    q.message.type = .NEW_ORDER ∧ ∃ k < ExchangeClient.NUM_ORDERS, q.message.payload
      = (orderFrame ((worlds (thread q.conn)).orderAt (startingId (thread q.conn)) k)).payload := by
  obtain ⟨fd, hpart⟩ := h.requests_of hrun ((System.Heard.run hrun).conn_lt hq)
  have hmem : q.message ∈ fromConn q.conn (System.incoming (.start reserved) events) :=
    List.mem_map_of_mem (List.mem_filter.mpr ⟨hq, decide_eq_true rfl⟩)
  obtain ⟨payload, hpayload, heq⟩ := List.mem_map.mp (hpart.subset hmem)
  rw [← heq]
  exact ⟨rfl, mem_payloadsOf hpayload⟩

/-- No two requests that have been pushed have one id. -/
theorem nodup_incoming (h : ClientThreads worlds thread reserved events sys.numConns)
    (hrun : System.run reserved events = some sys) :
    (((System.incoming (.start reserved) events).map Incoming.message).map
      fun m => payloadId m.payload).Nodup := by
  have hheard := System.Heard.run hrun
  apply nodup_of_fromConn
  · intro conn
    by_cases hconn : conn < sys.numConns
    · obtain ⟨fd, hpart⟩ := h.requests_of hrun hconn
      have hmap := hpart.map fun m => payloadId m.payload
      rw [requestsFrom, List.map_map] at hmap
      exact hmap.sublist.nodup (nodup_payloadsOf _ (h.threadId_lt conn hconn))
    · rw [(hheard.fresh conn (Nat.le_of_not_lt hconn)).2]
      exact List.nodup_nil
  · intro q hq q' hq' heq
    obtain ⟨-, k, hk, hp⟩ := h.order_of_mem hrun hq
    obtain ⟨-, k', hk', hp'⟩ := h.order_of_mem hrun hq'
    rw [hp, hp', payloadId_orderFrame, payloadId_orderFrame] at heq
    have hlt := hheard.conn_lt hq
    have hlt' := hheard.conn_lt hq'
    exact h.once _ hlt _ hlt'
      (id_inj (h.threadId_lt _ hlt) (h.threadId_lt _ hlt') hk hk' heq).1

/-- Every request that is processed is for an order that passes the checks. -/
theorem order_of_processed (h : ClientThreads worlds thread reserved events sys.numConns)
    (hrun : System.run reserved events = some sys) {i : Input} (hi : i ∈ sys.processed) :
    i.message.type = .NEW_ORDER ∧ ∃ order : Order, order.Constructed ∧ order.Proper ∧
      i.message.payload = (orderFrame order).payload := by
  have hmem : i.message ∈ sys.requests :=
    List.mem_append_left _ (List.mem_map_of_mem hi)
  rw [(System.Heard.run hrun).logged] at hmem
  obtain ⟨q, hq, hmessage⟩ := List.mem_map.mp hmem
  obtain ⟨ht, k, -, hp⟩ := h.order_of_mem hrun hq
  rw [hmessage] at ht hp
  exact ⟨ht, _, Draw.constructed_order _ _ _, Draw.proper_order _ _ _, hp⟩

end ClientThreads

/-- **No id is accepted twice.**  Let every connection of a run belong to one thread of the
client, and let what has been received on it be the beginning of what the thread sends, in
pieces of any size.  Then, whatever connections are closed and descriptors used again: every
request that is processed is accepted, no two with one id, and the table holds for every
resting order the descriptor that it was submitted from and has not been read at a missing
key.  The requests that have been pushed for a connection are the first orders of its
thread, in order, and they are processed in the order in which they were pushed. -/
theorem client_ids_distinct {worlds : ℕ → ClientWorld} {thread : Conn → ℕ} {reserved : Fd → Bool}
    {events : List Event} {sys : System} (hrun : System.run reserved events = some sys)
    (h : ClientThreads worlds thread reserved events sys.numConns) :
    (∀ i ∈ sys.processed, ∃ order, i.accepted = some order ∧ order.Proper) ∧
      (acceptedIds sys.processed).Nodup ∧ Routed sys.processed sys.session ∧
      sys.processed.map Input.message
        <+: (System.incoming (.start reserved) events).map Incoming.message ∧
      ∀ conn < sys.numConns, ∃ fd, fromConn conn (System.incoming (.start reserved) events)
        <+: requestsFrom fd (payloadsOf (worlds (thread conn)) (thread conn)) := by
  have hpart : sys.processed.map Input.message
      <+: (System.incoming (.start reserved) events).map Incoming.message := by
    rw [← (System.Heard.run hrun).logged]
    exact List.prefix_append _ _
  -- the ids accepted are those in the payloads
  have hids : acceptedIds sys.processed
      = (sys.processed.map Input.message).map fun m => payloadId m.payload := by
    rw [acceptedIds, List.map_map, ← List.filterMap_eq_map]
    apply List.filterMap_congr
    intro i hi
    obtain ⟨ht, order, hc, -, hp⟩ := h.order_of_processed hrun hi
    rw [accepted_orderFrame hc ht hp, Function.comp_apply, Function.comp_apply, hp,
      payloadId_orderFrame]
    rfl
  have hnodup : (acceptedIds sys.processed).Nodup := by
    rw [hids]
    exact (hpart.map _).sublist.nodup (h.nodup_incoming hrun)
  have hwell : ∀ i ∈ sys.processed, i.message.WellFormed := by
    intro i hi
    obtain ⟨ht, order, -, -, hp⟩ := h.order_of_processed hrun hi
    refine Or.inl ⟨ht, ?_⟩
    rw [hp, length_payload_orderFrame]
  obtain ⟨s, hs, hrouted⟩ := routed_run (fun _ => 0) hwell hnodup
  obtain rfl := Except.ok.inj (hs.symm.trans (System.session_of_run hrun))
  refine ⟨fun i hi => ?_, hnodup, hrouted, hpart, fun conn hconn => h.requests_of hrun hconn⟩
  obtain ⟨ht, order, hc, hproper, hp⟩ := h.order_of_processed hrun hi
  exact ⟨_, accepted_orderFrame hc ht hp, hproper⟩

/-- The first thread sells and the others buy, always at one price. -/
def crossingWorld (threadId : ℕ) : ClientWorld where
  draw _ := ⟨⟨if threadId = 0 then 1 else 0, by split <;> decide⟩, ⟨0, by decide⟩, 100, 10,
    by decide, by decide⟩
  now _ := 0
  taken _ := ORDER_FRAME_SIZE

/-- The first thread sends an order and is disconnected; the descriptor is used again for the
second thread while the order is in the ring. -/
def crossingEvents : List Event :=
  [.accept 5,
    .read 5 [.chunk 1 [0, 0, 0, 22, 0, 225, 245, 5, 0, 0, 0, 0, 100, 0, 0, 0, 0, 0, 0, 0, 10, 0, 0,
      0, 1, 0]] (fun _ => true),
    .disconnect 5, .accept 5,
    .read 5 [.chunk 1 [0, 0, 0, 22, 0, 194, 235, 11, 0, 0, 0, 0, 100, 0, 0, 0, 0, 0, 0, 0, 10, 0, 0,
      0, 0, 0]] (fun _ => true),
    .process ⟨0, fun _ => 0⟩, .push, .process ⟨0, fun _ => 0⟩]

theorem client_ids_distinct_crossing :
    ∃ sys, System.run (fun fd => fd < 5) crossingEvents = some sys ∧ sys.numConns = 2 ∧
      sys.processed.length = 2 ∧ (acceptedIds sys.processed).Nodup ∧
      Routed sys.processed sys.session := by
  have heval : (System.run (fun fd => fd < 5) crossingEvents).map
      (fun sys => (sys.numConns, sys.processed.length)) = some (2, 2) := by decide +kernel
  obtain ⟨sys, hrun, hsys⟩ := Option.map_eq_some_iff.mp heval
  obtain ⟨hnum, hdone⟩ := Prod.mk.inj hsys
  -- one order has been received on each of the two connections
  have hfirst : ∀ conn < 2, System.receivedOn conn (.start fun fd => fd < 5) crossingEvents
      = (crossingWorld conn).sentAfter (startingId conn) 1 := by decide +kernel
  have hthreads : ClientThreads crossingWorld id (fun fd => fd < 5) crossingEvents
      sys.numConns := by
    rw [hnum]
    refine ⟨fun _ k hk => absurd hk (Nat.lt_irrefl _), by decide, fun _ _ _ _ h => h, ?_⟩
    intro conn hconn
    obtain ⟨client, hclient, hsent⟩ := runClientThread_sent (crossingWorld conn) conn
    refine ⟨client, hclient, ?_⟩
    rw [hfirst conn hconn, hsent]
    exact sentAfter_prefix _ _ (by decide)
  obtain ⟨-, hnodup, hrouted, -⟩ := client_ids_distinct hrun hthreads
  exact ⟨sys, hrun, hnum, hdone, hnodup, hrouted⟩

end Exchange
