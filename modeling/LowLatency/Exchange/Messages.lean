import LowLatency.Common.Types

/-!
`client_request.hpp`, `client_response.hpp` and `market_update.hpp`: what comes
into the engine, and what a book sends through it.
-/

namespace LowLatency.Exchange

open LowLatency.Common

/-- `enum class ClientRequestType : uint8_t`. A request comes from outside, so its
type can be any byte; `unnamed` stands for the bytes no enumerator has. -/
inductive ClientRequestType
  | invalid
  | new
  | cancel
  | unnamed (byte : {b : UInt8 // b ≠ 0 ∧ b ≠ 1 ∧ b ≠ 2})
  deriving DecidableEq

def clientRequestTypeToString : ClientRequestType → String
  | .invalid => "INVALID"
  | .cancel => "CANCEL"
  | .new => "NEW"
  | .unnamed _ => "UNKNOWN"

structure MEClientRequest where
  clientRequestType : ClientRequestType := .invalid
  clientId : ClientId := clientIdInvalid
  orderId : OrderId := orderIdInvalid
  tickerId : TickerId := tickerIdInvalid
  side : Side := .invalid
  price : Price := priceInvalid
  qty : Qty := qtyInvalid
  deriving DecidableEq

instance : Inhabited MEClientRequest := ⟨{}⟩

inductive ClientResponseType
  | invalid
  | accepted
  | cancelled
  | filled
  | cancelRejected
  deriving DecidableEq

structure MEClientResponse where
  clientResponseType : ClientResponseType := .invalid
  clientId : ClientId := clientIdInvalid
  tickerId : TickerId := tickerIdInvalid
  clientOrderId : OrderId := orderIdInvalid
  marketOrderId : OrderId := orderIdInvalid
  side : Side := .invalid
  price : Price := priceInvalid
  executedQty : Qty := qtyInvalid
  leftOverQty : Qty := qtyInvalid
  deriving DecidableEq

instance : Inhabited MEClientResponse := ⟨{}⟩

inductive MarketUpdateType
  | invalid
  | add
  | modify
  | cancel
  | trade
  deriving DecidableEq

structure MEMarketUpdate where
  type : MarketUpdateType := .invalid
  orderId : OrderId := orderIdInvalid
  tickerId : TickerId := tickerIdInvalid
  side : Side := .invalid
  price : Price := priceInvalid
  qty : Qty := qtyInvalid
  priority : Priority := priorityInvalid
  deriving DecidableEq

instance : Inhabited MEMarketUpdate := ⟨{}⟩

inductive EngineCall
  | sendClientResponse (response : MEClientResponse)
  | sendMarketUpdate (update : MEMarketUpdate)
  deriving DecidableEq

def EngineCall.tickerId : EngineCall → TickerId
  | .sendClientResponse r => r.tickerId
  | .sendMarketUpdate u => u.tickerId

def responses (calls : List EngineCall) : List MEClientResponse :=
  calls.filterMap fun
    | .sendClientResponse r => some r
    | .sendMarketUpdate _ => none

def updates (calls : List EngineCall) : List MEMarketUpdate :=
  calls.filterMap fun
    | .sendClientResponse _ => none
    | .sendMarketUpdate u => some u

/-- The messages about one ticker can be told apart before or after the calls
are. -/
theorem filter_responses (calls : List EngineCall) (t : TickerId) :
    (responses calls).filter (fun r => r.tickerId = t) =
      responses (calls.filter fun c => c.tickerId = t) := by
  induction calls with
  | nil => rfl
  | cons c calls ih =>
      cases c with
      | sendClientResponse r =>
          by_cases h : r.tickerId = t <;>
            simpa [responses, EngineCall.tickerId, h] using ih
      | sendMarketUpdate u =>
          by_cases h : u.tickerId = t <;>
            simpa [responses, EngineCall.tickerId, h] using ih

theorem filter_updates (calls : List EngineCall) (t : TickerId) :
    (updates calls).filter (fun u => u.tickerId = t) =
      updates (calls.filter fun c => c.tickerId = t) := by
  induction calls with
  | nil => rfl
  | cons c calls ih =>
      cases c with
      | sendClientResponse r =>
          by_cases h : r.tickerId = t <;>
            simpa [updates, EngineCall.tickerId, h] using ih
      | sendMarketUpdate u =>
          by_cases h : u.tickerId = t <;>
            simpa [updates, EngineCall.tickerId, h] using ih

def acceptances (calls : List EngineCall) : List MEClientResponse :=
  (responses calls).filter fun r => r.clientResponseType = .accepted

@[simp] theorem acceptances_nil : acceptances [] = [] := rfl

@[simp] theorem acceptances_append (s t : List EngineCall) :
    acceptances (s ++ t) = acceptances s ++ acceptances t := by
  simp [acceptances, responses]

@[simp] theorem acceptances_update (u : MEMarketUpdate) (s : List EngineCall) :
    acceptances (.sendMarketUpdate u :: s) = acceptances s := rfl

theorem acceptances_response {r : MEClientResponse} (hr : r.clientResponseType = .accepted)
    (s : List EngineCall) :
    acceptances (.sendClientResponse r :: s) = r :: acceptances s := by
  simp [acceptances, responses, hr]

def addUpdates (calls : List EngineCall) : List MEMarketUpdate :=
  calls.filterMap fun
    | .sendClientResponse _ => none
    | .sendMarketUpdate u => if u.type = .add then some u else none

@[simp] theorem addUpdates_nil : addUpdates [] = [] := rfl

@[simp] theorem addUpdates_append (s t : List EngineCall) :
    addUpdates (s ++ t) = addUpdates s ++ addUpdates t :=
  List.filterMap_append

@[simp] theorem addUpdates_response (r : MEClientResponse) (s : List EngineCall) :
    addUpdates (.sendClientResponse r :: s) = addUpdates s := rfl

theorem addUpdates_update {u : MEMarketUpdate} (hu : u.type = .add)
    (s : List EngineCall) :
    addUpdates (.sendMarketUpdate u :: s) = u :: addUpdates s := by
  simp [addUpdates, hu]

end LowLatency.Exchange
