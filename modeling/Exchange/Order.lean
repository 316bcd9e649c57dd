import Mathlib.Data.Nat.Notation
import Mathlib.Order.Defs.Unbundled

/-!
# Orders and trades

The value types of the exchange: `types.hpp`, `order.hpp` and `trade.hpp`.  The
fixed-width integers of the source are Lean's, so that subtraction wraps where
the source's does.

An `enum class` over `uint8_t` may hold any byte, and the wire decoder copies a
byte into it unchecked; `Side` and `OrderType` are therefore bytes with two named
values each, and a branch of the source that tests for neither value is a branch
of the model.

## Main definitions

* `Order`, `Order.create` — orders, and the validating constructor.
* `Order.Constructed` — the order is one the constructor returns.
* `Order.reduceQuantity` — the only mutation of an order.
* `Exn`, `Fault` — the exceptions the code throws, and undefined behaviour.
-/

namespace Exchange

/-- Order identifiers, chosen by the clients. -/
abbrev OrderId := UInt64

/-- Quantities. -/
abbrev Quantity := UInt32

/-- Nanoseconds on the exchange's clock. -/
abbrev Timestamp := UInt64

/-- Prices, in ticks. -/
abbrev Price := UInt64

/-- Readings of the clock during one call: `now k` is the reading taken when `k`
trades have been recorded. -/
abbrev Clock := ℕ → Timestamp

/-! ### The order on prices -/

instance instIsStrictTotalOrderLt : IsStrictTotalOrder Price LT.lt where
  irrefl := UInt64.lt_irrefl
  trans _ _ _ := UInt64.lt_trans
  trichotomous _ _ h₁ h₂ := UInt64.le_antisymm (UInt64.not_lt.mp h₂) (UInt64.not_lt.mp h₁)

instance instIsStrictTotalOrderGt : IsStrictTotalOrder Price GT.gt where
  irrefl := UInt64.lt_irrefl
  trans _ _ _ h₁ h₂ := UInt64.lt_trans h₂ h₁
  trichotomous _ _ h₁ h₂ := UInt64.le_antisymm (UInt64.not_lt.mp h₁) (UInt64.not_lt.mp h₂)

instance instDecidableRelGt : DecidableRel (GT.gt : Price → Price → Prop) :=
  fun a b => inferInstanceAs (Decidable (b < a))

/-! ### Exceptions -/

/-- The exceptions thrown by the modelled code. -/
inductive Exn
  /-- A limit order with price zero. -/
  | limitPrice
  /-- A market order with a price. -/
  | marketPrice
  /-- An order of quantity zero. -/
  | zeroQuantity
  /-- A reduction by more than the order has left. -/
  | reduceTooMuch
  /-- A cancel of an id the book does not know. -/
  | idNotFound
  /-- A message whose type byte is neither a new order nor a cancel. -/
  | unknownMessageType
  deriving DecidableEq, Repr

/-- The text an exception carries. -/
def Exn.what : Exn → String
  | .limitPrice => "limit orders cant have non-positive price"
  | .marketPrice => "market orders cant have positive price"
  | .zeroQuantity => "quantity must be greater than 0"
  | .reduceTooMuch => "cannot reduce by more than current quantity"
  | .idNotFound => "order id not found in the book"
  | .unknownMessageType => "unknown message type"

/-- Why a call did not return normally: it threw, or its behaviour is undefined
(a dead list position is erased, or memory outside a buffer is read). -/
inductive Fault
  | exception (e : Exn)
  | undefinedBehaviour
  deriving DecidableEq, Repr

/-- An exception together with the state it leaves behind: what was written
before the throw stays written. -/
structure Thrown (σ : Type) where
  exn : Exn
  state : σ

/-! ### Orders -/

/-- The side of an order, `enum class Side : uint8_t`. -/
structure Side where
  byte : UInt8
  deriving DecidableEq, Repr

/-- A buy order. -/
def Side.BID : Side := ⟨0⟩

/-- A sell order. -/
def Side.ASK : Side := ⟨1⟩

@[simp] theorem Side.BID_ne_ASK : Side.BID ≠ Side.ASK := by decide

@[simp] theorem Side.ASK_ne_BID : Side.ASK ≠ Side.BID := by decide

/-- The kind of an order, `enum class OrderType : uint8_t`. -/
structure OrderType where
  byte : UInt8
  deriving DecidableEq, Repr

/-- Rests on the book when it cannot trade. -/
def OrderType.LIMIT : OrderType := ⟨0⟩

/-- Trades at any price and never rests. -/
def OrderType.MARKET : OrderType := ⟨1⟩

@[simp] theorem OrderType.LIMIT_ne_MARKET : OrderType.LIMIT ≠ OrderType.MARKET := by decide

@[simp] theorem OrderType.MARKET_ne_LIMIT : OrderType.MARKET ≠ OrderType.LIMIT := by decide

/-- An order. -/
structure Order where
  timestamp : Timestamp
  id : OrderId
  price : Price
  quantity : Quantity
  side : Side
  orderType : OrderType
  deriving DecidableEq, Repr

namespace Order

/-- The constructor of `Order`, with its checks in the order of the source.  A
price is unsigned, so `price <= 0` is `price = 0`. -/
def create (now : Timestamp) (id : OrderId) (price : Price) (quantity : Quantity) (side : Side)
    (orderType : OrderType) : Except Exn Order :=
  if orderType = .LIMIT ∧ price ≤ 0 then .error .limitPrice
  else if orderType = .MARKET ∧ price > 0 then .error .marketPrice
  else if quantity = 0 then .error .zeroQuantity
  else .ok ⟨now, id, price, quantity, side, orderType⟩

/-- The order is one that the constructor accepts. -/
def Constructed (o : Order) : Prop :=
  create o.timestamp o.id o.price o.quantity o.side o.orderType = .ok o

/-- The order names one of the two sides and one of the two order types. -/
def Proper (o : Order) : Prop :=
  (o.side = .BID ∨ o.side = .ASK) ∧ (o.orderType = .LIMIT ∨ o.orderType = .MARKET)

/-- `reduce_quantity`. -/
def reduceQuantity (o : Order) (quantity : Quantity) : Except Exn Order :=
  if quantity > o.quantity then .error .reduceTooMuch
  else .ok { o with quantity := o.quantity - quantity }

/-- An order without its timestamp. -/
def untimed (o : Order) : Order := { o with timestamp := 0 }

theorem create_eq_ok {now : Timestamp} {id : OrderId} {price : Price} {quantity : Quantity}
    {side : Side} {orderType : OrderType} {o : Order}
    (h : create now id price quantity side orderType = .ok o) :
    o = ⟨now, id, price, quantity, side, orderType⟩ ∧ (orderType = .LIMIT → 0 < price) ∧
      (orderType = .MARKET → price = 0) ∧ 0 < quantity := by
  unfold create at h
  split at h
  · exact absurd h (by simp)
  split at h
  · exact absurd h (by simp)
  split at h
  · exact absurd h (by simp)
  next hl hm hq =>
    refine ⟨(Except.ok.inj h).symm, fun ht => ?_, fun ht => ?_, UInt32.pos_iff_ne_zero.mpr hq⟩
    · exact UInt64.not_le.mp fun hp => hl ⟨ht, hp⟩
    · exact UInt64.le_zero_iff.mp (UInt64.not_lt.mp fun hp => hm ⟨ht, hp⟩)

/-- What the checks of the constructor say of an accepted order. -/
theorem constructed_iff {o : Order} :
    o.Constructed ↔ (o.orderType = .LIMIT → 0 < o.price) ∧
      (o.orderType = .MARKET → o.price = 0) ∧ 0 < o.quantity := by
  constructor
  · exact fun h => (create_eq_ok h).2
  · rintro ⟨hl, hm, hq⟩
    unfold Constructed create
    rw [if_neg, if_neg, if_neg]
    · exact UInt32.pos_iff_ne_zero.mp hq
    · rintro ⟨ht, hp⟩
      rw [hm ht] at hp
      exact UInt64.lt_irrefl 0 hp
    · rintro ⟨ht, hp⟩
      exact UInt64.not_lt.mpr hp (hl ht)

/-- The constructor accepts a limit order with a price and a quantity. -/
theorem constructed_limit {ts : Timestamp} {id : OrderId} {price : Price} {quantity : Quantity}
    {side : Side} (hp : 0 < price) (hq : 0 < quantity) :
    (⟨ts, id, price, quantity, side, .LIMIT⟩ : Order).Constructed :=
  constructed_iff.mpr ⟨fun _ => hp, fun hm => absurd hm OrderType.LIMIT_ne_MARKET, hq⟩

/-- The constructor accepts a market order with a quantity and no price. -/
theorem constructed_market {ts : Timestamp} {id : OrderId} {quantity : Quantity} {side : Side}
    (hq : 0 < quantity) : (⟨ts, id, 0, quantity, side, .MARKET⟩ : Order).Constructed :=
  constructed_iff.mpr ⟨fun hl => absurd hl OrderType.MARKET_ne_LIMIT, fun _ => rfl, hq⟩

instance (o : Order) : Decidable o.Constructed := decidable_of_iff _ constructed_iff.symm

instance (o : Order) : Decidable o.Proper := inferInstanceAs (Decidable (_ ∧ _))

end Order

/-- A trade, `trade.hpp`. -/
structure Trade where
  price : Price
  buyerOrderId : OrderId
  sellerOrderId : OrderId
  quantity : Quantity
  timestamp : Timestamp
  deriving DecidableEq, Repr

/-- A trade without its timestamp. -/
def Trade.untimed (t : Trade) : Trade := { t with timestamp := 0 }

end Exchange
