import Exchange.Processor.Reference
import Exchange.Server.Linearization

/-!
# The exchange is the reference exchange

To its clients the exchange is one that keeps a list of open orders and no book, reads no
bytes, has no threads and no buffers.  What a client reads at any time is the beginning of
what the reference exchange tells it, and the rest is on its way.

## Main results

* `exchange_refines_reference` — every open connection is told what the reference exchange
  tells it.
-/

namespace Exchange

open Bytes

/-- **The exchange is, to its clients, the reference exchange.**  Take a run in which accepted
orders have distinct ids and known sides and types, however the steps of the threads follow
each other and whatever is accepted and closed, and let the reference exchange do the requests
that have been processed.  For every open connection that is the first to have its descriptor,
other than 0: the requests done for it are the first that were received on it; what the kernel
has taken for it, what is still to be sent and what is on its way are whole frames, and hold, in
order, what the reference exchange tells the connection, each frame readable; and what the
client can have read is the beginning of that. -/
theorem exchange_refines_reference {reserved : Fd → Bool} {events : List Event} {sys : System}
    (hrun : System.run reserved events = some sys) (hids : (acceptedIds sys.processed).Nodup)
    (hproper : ∀ i ∈ sys.processed, ∀ order, i.accepted = some order → order.Proper) {fd : Fd}
    (hzero : fd ≠ 0) (hactive : (sys.server.client fd).active = true)
    (hfirst : events.countP (Event.accepts fd) ≤ 1) :
    (sys.processed.map Input.message).filter (fun m => m.fd = fd) <+: messagesOf fd
        (splitFrames (System.receivedOn (sys.connOf fd) (.start reserved) events)).1 ∧
      (splitFrames (sys.server.wire fd ++ (sys.server.unsent fd ++ sys.inFlight fd))).2 = [] ∧
      noticesIn (sys.server.wire fd ++ (sys.server.unsent fd ++ sys.inFlight fd))
        = (Reference.told fd sys.processed).map some ∧
      noticesIn (sys.server.wire fd) <+: (Reference.told fd sys.processed).map some := by
  have hattended := System.attended_of_run hrun hzero hactive hfirst
  have hmirrors := Session.Mirrors.run (System.session_of_run hrun) hids hproper
  obtain ⟨hwhole, htold⟩ := hmirrors.stream fd
  rw [← hattended.stream (System.OutInv.run hrun) hactive] at hwhole htold
  refine ⟨hattended.processed (System.Heard.run hrun) hactive, hwhole, htold, ?_⟩
  rw [← htold]
  exact noticesIn_prefix (List.prefix_append _ _)

/-- The client that sold is told of its order and of the trade, though the buyer is gone. -/
theorem exchange_refines_reference_crossing :
    ∃ sys, System.run (fun fd => fd < 5) historyEvents = some sys ∧
      Reference.told 5 sys.processed = [.orderAck 7, .trade ⟨100, 8, 7, 4⟩] ∧
      noticesIn (sys.server.wire 5 ++ (sys.server.unsent 5 ++ sys.inFlight 5))
        = (Reference.told 5 sys.processed).map some := by
  obtain ⟨sys, hrun, hactive, -, hids, hproper⟩ := run_historyEvents
  have hread : noticesIn (sys.server.wire 5 ++ (sys.server.unsent 5 ++ sys.inFlight 5))
      = [Notice.orderAck 7, .trade ⟨100, 8, 7, 4⟩].map some := by
    have heval : (System.run (fun fd => fd < 5) historyEvents).map (fun sys =>
        noticesIn (sys.server.wire 5 ++ (sys.server.unsent 5 ++ sys.inFlight 5)))
        = some ([Notice.orderAck 7, .trade ⟨100, 8, 7, 4⟩].map some) := by decide +kernel
    rw [hrun] at heval
    exact Option.some.inj heval
  obtain ⟨-, -, htold, -⟩ := exchange_refines_reference hrun hids hproper (by decide) hactive
    (by decide)
  have hsame := List.map_injective_iff.mpr (fun _ _ => Option.some.inj) (htold.symm.trans hread)
  exact ⟨sys, hrun, hsame, htold⟩

end Exchange
