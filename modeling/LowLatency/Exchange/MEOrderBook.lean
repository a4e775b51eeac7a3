import LowLatency.Common.MemPool
import LowLatency.Exchange.Messages

/-!
`me_order.hpp`, `me_order_book.hpp` and `me_order_book.cpp`: the order book of
one ticker.

The orders of one price form a circular list with its head in the price's
level, the levels of one side form another with its head in the book, and two
tables find a level by its price and an order by its client's key. Pointers
are addresses in the book's two pools.

`checkMatch` is declared but has no body in the repository; it is a parameter
of `add`.
-/

namespace LowLatency.Exchange

open LowLatency.Lib LowLatency.Common

structure MEOrder where
  tickerId : TickerId := tickerIdInvalid
  clientId : ClientId := clientIdInvalid
  clientOrderId : OrderId := orderIdInvalid
  marketOrderId : OrderId := orderIdInvalid
  side : Side := .invalid
  price : Price := priceInvalid
  qty : Qty := qtyInvalid
  priority : Priority := priorityInvalid
  prevOrder : Ptr := none
  nextOrder : Ptr := none
  deriving DecidableEq

instance : Inhabited MEOrder := ⟨{}⟩

structure MEOrdersAtPrice where
  price : Price := priceInvalid
  side : Side := .invalid
  firstOrder : Ptr := none
  prevEntry : Ptr := none
  nextEntry : Ptr := none
  deriving DecidableEq

instance : Inhabited MEOrdersAtPrice := ⟨{}⟩

structure MEOrderBook where
  tickerId : TickerId
  cidOidToOrder : ℕ → ℕ → Ptr
  ordersAtPricePool : MemPool MEOrdersAtPrice
  bidsByPrice : Ptr
  asksByPrice : Ptr
  priceOrdersAtPrice : ℕ → Ptr
  orderPool : MemPool MEOrder
  nextOrderId : OrderId
  clientResponse : MEClientResponse
  marketUpdate : MEMarketUpdate

/-- The members the constructor does not initialise: they keep what the
memory held before. -/
structure Storage where
  cidOidToOrder : ℕ → ℕ → Ptr
  priceOrdersAtPrice : ℕ → Ptr

def Storage.zero : Storage := ⟨fun _ _ => none, fun _ => none⟩

namespace MEOrderBook

/-- The constructor, on memory with the content `mem`. -/
def construct (mem : Storage) (tickerId : TickerId) : MEOrderBook where
  tickerId := tickerId
  cidOidToOrder := mem.cidOidToOrder
  ordersAtPricePool := .ofSize meMaxPriceLevels
  bidsByPrice := none
  asksByPrice := none
  priceOrdersAtPrice := mem.priceOrdersAtPrice
  orderPool := .ofSize meMaxOrderIds
  nextOrderId := 1
  clientResponse := {}
  marketUpdate := {}

/-- Both heads and all the slots of the price table are null. -/
structure Empty (b : MEOrderBook) : Prop where
  bidsByPrice : b.bidsByPrice = none
  asksByPrice : b.asksByPrice = none
  priceOrdersAtPrice : ∀ i < meMaxPriceLevels, b.priceOrdersAtPrice i = none

theorem empty_construct (tickerId : TickerId) : (construct .zero tickerId).Empty :=
  ⟨rfl, rfl, fun _ _ => rfl⟩

def order (b : MEOrderBook) (a : Addr) : MEOrder := b.orderPool.object a

def level (b : MEOrderBook) (a : Addr) : MEOrdersAtPrice := b.ordersAtPricePool.object a

def modifyOrder (b : MEOrderBook) (ptr : Ptr) (f : MEOrder → MEOrder) :
    Exec MEOrderBook := do
  let pool ← b.orderPool.modify ptr f
  .ok { b with orderPool := pool }

def modifyLevel (b : MEOrderBook) (ptr : Ptr) (f : MEOrdersAtPrice → MEOrdersAtPrice) :
    Exec MEOrderBook := do
  let pool ← b.ordersAtPricePool.modify ptr f
  .ok { b with ordersAtPricePool := pool }

/-! ### Lookup by price -/

def priceToIndex (price : Price) : ℕ := price.toNat % meMaxPriceLevels

def getOrdersAtPrice (b : MEOrderBook) (price : Price) : Exec Ptr :=
  arrayAt meMaxPriceLevels b.priceOrdersAtPrice (priceToIndex price)

def getNextPriority (b : MEOrderBook) (price : Price) : Exec Priority := do
  let orderAtPrice ← b.getOrdersAtPrice price
  match orderAtPrice with
  | none => .ok 1
  | some l =>
      let first ← b.orderPool.read (b.level l).firstOrder
      let last ← b.orderPool.read first.prevOrder
      .ok (last.priority + 1)

/-! ### A new level -/

/-- The test that decides on which side of `target` the new level goes. -/
def addAfter (new target : MEOrdersAtPrice) : Bool :=
  (new.side == .sell && decide (new.price > target.price)) ||
    (new.side == .buy && decide (new.price < target.price))

/-- The `while` loop of `addOrderAtPrice`. -/
def searchTarget (b : MEOrderBook) (new : MEOrdersAtPrice) (best : Ptr) :
    ℕ → Ptr → Bool → Exec (Ptr × Bool)
  | 0, _, _ => .error .endless
  | fuel + 1, target, after =>
      if after && target != best then do
        let t ← b.ordersAtPricePool.read target
        if addAfter new t then
          b.searchTarget new best fuel t.nextEntry true
        else
          b.searchTarget new best fuel target false
      else
        .ok (target, after)

/-- From `best` to the level the new one is put next to. A turn of the loop
that goes on leaves a level other than `best` behind for good, so it makes
fewer turns than the pool has blocks, or never ends. -/
def findTarget (b : MEOrderBook) (new : MEOrdersAtPrice) (best : Ptr) :
    Exec (Ptr × Bool) := do
  let t ← b.ordersAtPricePool.read best
  if addAfter new t then
    let next ← b.ordersAtPricePool.read t.nextEntry
    b.searchTarget new best b.ordersAtPricePool.size t.nextEntry (addAfter new next)
  else
    b.searchTarget new best b.ordersAtPricePool.size best false

/-- The four assignments that put the level `p` in front of `target`. -/
def linkEntry (b : MEOrderBook) (p : Addr) (target : Ptr) : Exec MEOrderBook := do
  let t ← b.ordersAtPricePool.read target
  let b ← b.modifyLevel (some p) fun l => { l with prevEntry := t.prevEntry }
  let b ← b.modifyLevel (some p) fun l => { l with nextEntry := target }
  let t ← b.ordersAtPricePool.read target
  let b ← b.modifyLevel t.prevEntry fun l => { l with nextEntry := some p }
  b.modifyLevel target fun l => { l with prevEntry := some p }

/-- The branch of `addOrderAtPrice` for a side without levels. -/
def openSide (b : MEOrderBook) (p : Addr) : Exec MEOrderBook := do
  -- `c ? bids_by_price_ : asks_by_price_ = p` assigns in its last operand only
  let b := if (b.level p).side = .buy then b else { b with asksByPrice := some p }
  let b ← b.modifyLevel (some p) fun l => { l with nextEntry := some p }
  b.modifyLevel (some p) fun l => { l with prevEntry := some p }

/-- The branch of `addOrderAtPrice` for a side with levels. -/
def joinSide (b : MEOrderBook) (p : Addr) (best : Ptr) : Exec MEOrderBook := do
  let new := b.level p
  let (target, after) ← b.findTarget new best
  if after then
    if target = best then
      let head ← b.ordersAtPricePool.read best
      b.linkEntry p head.prevEntry
    else
      b.linkEntry p target
  else
    let b ← b.linkEntry p target
    let t ← b.ordersAtPricePool.read target
    if addAfter new t then
      let b ← b.modifyLevel target fun t =>
        { t with nextEntry := if t.nextEntry = best then some p else t.nextEntry }
      .ok (if new.side = .buy then { b with bidsByPrice := some p }
        else { b with asksByPrice := some p })
    else
      .ok b

def addOrderAtPrice (b : MEOrderBook) (p : Addr) : Exec MEOrderBook := do
  let slots ← arraySet meMaxPriceLevels b.priceOrdersAtPrice (b.level p).price.toNat (some p)
  let b := { b with priceOrdersAtPrice := slots }
  let best := if (b.level p).side = .buy then b.bidsByPrice else b.asksByPrice
  match best with
  | none => b.openSide p
  | some _ => b.joinSide p best

/-- A level is taken from the pool and added. -/
def placeLevel (b : MEOrderBook) (l : MEOrdersAtPrice) : Exec MEOrderBook := do
  let (pool, newOrderAtPrice) ← b.ordersAtPricePool.allocate l
  { b with ordersAtPricePool := pool }.addOrderAtPrice newOrderAtPrice

/-! ### A new order -/

/-- The branch of `addOrder` for a price without a level. -/
def openLevel (b : MEOrderBook) (o : Addr) : Exec MEOrderBook := do
  let b ← b.modifyOrder (some o) fun x => { x with prevOrder := some o }
  let b ← b.modifyOrder (some o) fun x => { x with nextOrder := some o }
  b.placeLevel ⟨(b.order o).price, (b.order o).side, some o, none, none⟩

/-- The branch of `addOrder` for a price with a level. -/
def joinLevel (b : MEOrderBook) (o l : Addr) : Exec MEOrderBook := do
  let firstOrder := (b.level l).firstOrder
  let first ← b.orderPool.read firstOrder
  let b ← b.modifyOrder first.prevOrder fun x => { x with nextOrder := some o }
  let first ← b.orderPool.read firstOrder
  let b ← b.modifyOrder (some o) fun x => { x with prevOrder := first.prevOrder }
  let b ← b.modifyOrder (some o) fun x => { x with nextOrder := firstOrder }
  b.modifyOrder firstOrder fun x => { x with prevOrder := some o }

/-- `cid_oid_to_order_.at(clientId).at(clientOrderId) = o`. -/
def indexOrder (b : MEOrderBook) (o : Addr) : Exec MEOrderBook := do
  let cid := (b.order o).clientId.toNat
  let oidToOrder ← arrayAt meMaxNumClients b.cidOidToOrder cid
  let oidToOrder ← arraySet meMaxOrderIds oidToOrder (b.order o).clientOrderId.toNat (some o)
  .ok { b with cidOidToOrder := Function.update b.cidOidToOrder cid oidToOrder }

def addOrder (b : MEOrderBook) (o : Addr) : Exec MEOrderBook := do
  let orderAtPrice ← b.getOrdersAtPrice (b.order o).price
  let b ← (match orderAtPrice with
    | none => b.openLevel o
    | some l => b.joinLevel o l)
  b.indexOrder o

/-- An order is taken from the pool and added. -/
def placeOrder (b : MEOrderBook) (o : MEOrder) : Exec (MEOrderBook × Addr) := do
  let (pool, newOrder) ← b.orderPool.allocate o
  let b ← { b with orderPool := pool }.addOrder newOrder
  .ok (b, newOrder)

/-! ### `add` -/

/-- What `checkMatch` may do: change the book, make calls on the engine and
return the quantity left. -/
structure MatchResult where
  book : MEOrderBook
  sent : List EngineCall
  leavesQty : Qty

/-- `checkMatch(clientId, orderId, tickerId, side, price, qty, marketOrderId)`. -/
abbrev CheckMatch :=
  MEOrderBook → ClientId → OrderId → TickerId → Side → Price → Qty → OrderId → MatchResult

/-- `add` calls the ten-parameter constructor of `MEOrder` with nine
arguments. Either the null pointer in eighth place is the priority, or the
priority keeps its default. -/
inductive PriorityReading
  | nullPointer
  | defaulted
  deriving DecidableEq

def PriorityReading.priority : PriorityReading → Priority
  | .nullPointer => 0
  | .defaulted => priorityInvalid

def generateNewMarketOrderId (b : MEOrderBook) : OrderId × MEOrderBook :=
  (b.nextOrderId, { b with nextOrderId := b.nextOrderId + 1 })

/-- The arguments of a call of `add`. -/
structure AddArgs where
  clientId : ClientId
  orderId : OrderId
  ticketId : TickerId
  side : Side
  price : Price
  qty : Qty
  deriving DecidableEq

/-- `add` up to the return of `checkMatch`. -/
def acceptAndMatch (checkMatch : CheckMatch) (b : MEOrderBook) (x : AddArgs) :
    OrderId × MatchResult :=
  let (newMarketId, b) := b.generateNewMarketOrderId
  let response : MEClientResponse :=
    ⟨.accepted, x.clientId, b.tickerId, x.orderId, newMarketId, x.side, x.price, 0, x.qty⟩
  let b := { b with clientResponse := response }
  let m := checkMatch b x.clientId x.orderId b.tickerId x.side x.price x.qty newMarketId
  (newMarketId, { m with sent := .sendClientResponse response :: m.sent })

/-- The body of the `if` in `add`: an order for the whole quantity rests and is
published. -/
def restOrder (reading : PriorityReading) (b : MEOrderBook) (x : AddArgs)
    (newMarketId : OrderId) : Exec (MEOrderBook × List EngineCall) := do
  let priority ← b.getNextPriority x.price
  let (b, _) ← b.placeOrder ⟨b.tickerId, x.clientId, x.orderId, newMarketId, x.side, x.price,
    x.qty, reading.priority, none, none⟩
  let update : MEMarketUpdate :=
    ⟨.add, newMarketId, b.tickerId, x.side, x.price, x.qty, priority⟩
  .ok ({ b with marketUpdate := update }, [.sendMarketUpdate update])

/-- `add`, together with the calls it makes on the engine. -/
def add (checkMatch : CheckMatch) (reading : PriorityReading) (b : MEOrderBook)
    (x : AddArgs) : Exec (MEOrderBook × List EngineCall) := do
  let (newMarketId, m) := b.acceptAndMatch checkMatch x
  if m.leavesQty > 0 then
    let (b, sent) ← m.book.restOrder reading x newMarketId
    .ok (b, m.sent ++ sent)
  else
    .ok (m.book, m.sent)

end MEOrderBook

end LowLatency.Exchange
