import Exchange.Lib.SortedMap
import Exchange.Order
import Mathlib.Algebra.Ring.Int.Defs
import Mathlib.Algebra.Ring.Nat
import Mathlib.Logic.Function.Basic

/-!
# The order book

`orderbook.hpp` and `orderbook.cpp`: two ordered maps from prices to queues of
orders, the bids sorted from the highest price down and the asks from the lowest
up, and an index from order ids to the place of an order in its queue.

A `std::list` iterator stays valid until its own element is erased, so a list
position is modelled as an identity of the list node, drawn from a counter when
the node is made; erasing a position that no node of the list has is undefined
behaviour.  `operator[]` on a map makes the missing entry, which is `getD` and
`modify` with the empty list as default.

## Main definitions

* `Node`, `OrderLocation`, `OrderBook` — list nodes, index entries, the book.
* `bestBid`, `bestAsk`, `addOrder`, `cancelOrder`, `printDepth` — the operations.
* `restingOn` — the orders resting on a side, best first, each with the price
  of the level it is stored under.
-/

namespace Exchange

/-- A node of a price level's list: the order and the identity of the node, which
is what an iterator to it denotes. -/
structure Node where
  pos : ℕ
  order : Order
  deriving DecidableEq, Repr

/-- `OrderLocation`: the side, the price and the list position of an order. -/
structure OrderLocation where
  side : Side
  price : Price
  listPosition : ℕ
  deriving DecidableEq, Repr

/-- The levels of one side of the book, sorted by `lt`. -/
abbrev Levels (lt : Price → Price → Prop) := SortedMap lt (List Node)

/-- The order book.  `nextPos` is the identity of the next list node. -/
structure OrderBook where
  bids : Levels GT.gt
  asks : Levels LT.lt
  orderMap : OrderId → Option OrderLocation
  nextPos : ℕ

namespace OrderBook

/-- A book as it is constructed. -/
def empty : OrderBook := ⟨.empty, .empty, fun _ => none, 0⟩

/-- `best_bid`. -/
def bestBid (book : OrderBook) : Option Price := book.bids.begin?.map Prod.fst

/-- `best_ask`. -/
def bestAsk (book : OrderBook) : Option Price := book.asks.begin?.map Prod.fst

/-- `add_order`: a limit order goes to the back of its level's queue and takes
over the index entry of its id; any other order is ignored. -/
def addOrder (book : OrderBook) (order : Order) : OrderBook :=
  if order.orderType = .LIMIT then
    if order.side = .ASK then
      -- `asks_[price]` makes the level if it is not there
      { book with
        asks := book.asks.modify order.price [] fun list => list ++ [⟨book.nextPos, order⟩]
        orderMap := Function.update book.orderMap order.id
          (some ⟨.ASK, order.price, book.nextPos⟩)
        nextPos := book.nextPos + 1 }
    else if order.side = .BID then
      { book with
        bids := book.bids.modify order.price [] fun list => list ++ [⟨book.nextPos, order⟩]
        orderMap := Function.update book.orderMap order.id
          (some ⟨.BID, order.price, book.nextPos⟩)
        nextPos := book.nextPos + 1 }
    else book
  else book

/-- `list.erase(position)`, `none` when the position is not one of the list. -/
def eraseAt (pos : ℕ) : List Node → Option (List Node)
  | [] => none
  | n :: list => if n.pos = pos then some list else (eraseAt pos list).map (n :: ·)

section Levels

variable {lt : Price → Price → Prop} [DecidableRel lt] [IsStrictTotalOrder Price lt]

/-- What becomes of a level once its queue has been changed through the reference
`operator[]` returned: the level keeps the new queue, and is erased from the map
when that is empty. -/
def putBack (levels : Levels lt) (price : Price) (list : List Node) : Levels lt :=
  let levels' := levels.modify price [] fun _ => list
  if list.isEmpty then levels'.erase price else levels'

/-- The body shared by the two branches of `cancel_order`: erase a position from
the level at `price`. -/
def eraseFrom (levels : Levels lt) (price : Price) (pos : ℕ) : Option (Levels lt) :=
  (eraseAt pos (levels.getD price [])).map (putBack levels price)

/-- Putting the first level back. -/
theorem toList_putBack_begin {levels : Levels lt} {price : Price} {list : List Node}
    {l : List (Price × List Node)} (h : levels.toList = (price, list) :: l) (list' : List Node) :
    (putBack levels price list').toList
      = if list'.isEmpty then l else (price, list') :: l := by
  have hmod := SortedMap.toList_modify_begin (d := []) h fun _ => list'
  unfold putBack
  split
  · exact SortedMap.toList_erase_begin hmod
  · exact hmod

end Levels

/-- `cancel_order`. -/
def cancelOrder (book : OrderBook) (id : OrderId) : Except Fault OrderBook :=
  match book.orderMap id with
  | some orderLocation =>
      if orderLocation.side = .ASK then
        match eraseFrom book.asks orderLocation.price orderLocation.listPosition with
        | none => .error .undefinedBehaviour
        | some asks => .ok { book with asks, orderMap := Function.update book.orderMap id none }
      else if orderLocation.side = .BID then
        match eraseFrom book.bids orderLocation.price orderLocation.listPosition with
        | none => .error .undefinedBehaviour
        | some bids => .ok { book with bids, orderMap := Function.update book.orderMap id none }
      else .ok { book with orderMap := Function.update book.orderMap id none }
  | none => .error (.exception .idNotFound)

/-! ### Printing -/

/-- `std::length_error`, thrown by `reserve`, and what had been written before. -/
structure LengthError where
  out : String
  deriving DecidableEq, Repr

/-- The `max_size` of a vector of pairs of a price and a quantity, 16 bytes each. -/
def maxSize : ℕ := (2 ^ 63 - 1) / 16

/-- An `int` converted to `size_t`. -/
def sizeOfInt (n : Int32) : ℕ := (n.toInt % 2 ^ 64).toNat

/-- The quantities of a level added up, in the type of a quantity. -/
def totalQuantity (list : List Node) : Quantity :=
  list.foldl (fun total n => total + n.order.quantity) 0

/-- A line of the depth, with the numbers in decimal. -/
def depthLine (label : String) (price quantity : ℕ) : String :=
  label ++ toString price ++ " | " ++ toString quantity ++ "\n"

/-- The loop that collects the asks; the counter stays below `levels` and never wraps. -/
def collectAsks (levels : Int32) : Int → List (Price × List Node) → List (Price × Quantity)
  | _, [] => []
  | i, e :: rest =>
      if i < levels.toInt then (e.1, totalQuantity e.2) :: collectAsks levels (i + 1) rest else []

/-- The loop that prints the bids. -/
def printBids (levels : Int32) : Int → List (Price × List Node) → String → String
  | _, [], out => out
  | i, e :: rest, out =>
      if i < levels.toInt then
        printBids levels (i + 1) rest
          (out ++ depthLine " BID " e.1.toNat (totalQuantity e.2).toNat)
      else out

/-- The argument of `reserve`: `std::min(levels, static_cast<int>(asks_.size()))`. -/
def reserveCount (book : OrderBook) (levels : Int32) : Int32 :=
  if Int32.ofNat book.asks.size < levels then Int32.ofNat book.asks.size else levels

/-- `print_depth`.  A negative argument of `reserve` is converted to a size that no vector
can have. -/
def printDepth (book : OrderBook) (out : String) (levels : Int32) : Except LengthError String :=
  let out := out ++ "---order book---" ++ "\n"
  if maxSize < sizeOfInt (book.reserveCount levels) then .error ⟨out⟩
  else
    let asks := collectAsks levels 0 book.asks.toList
    let out := asks.reverse.foldl
      (fun out e => out ++ depthLine " ASK " e.1.toNat e.2.toNat) out
    let out := out ++ "--------------" ++ "\n"
    .ok (printBids levels 0 book.bids.toList out)

/-! ### The resting orders -/

/-- The orders resting on a side, best price first and in queue order at a price,
each with the price of its level. -/
def restingOn (book : OrderBook) (side : Side) : List (Price × Node) :=
  if side = .BID then book.bids.flatten else if side = .ASK then book.asks.flatten else []

@[simp] theorem restingOn_BID (book : OrderBook) : book.restingOn .BID = book.bids.flatten := rfl

@[simp] theorem restingOn_ASK (book : OrderBook) : book.restingOn .ASK = book.asks.flatten := rfl

/-- All the orders resting in the book. -/
def resting (book : OrderBook) : List (Price × Node) := book.bids.flatten ++ book.asks.flatten

end OrderBook

end Exchange
