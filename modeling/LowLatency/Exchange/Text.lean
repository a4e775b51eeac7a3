import LowLatency.Common.Text
import LowLatency.Exchange.Messages
import LowLatency.Lib.Fields

/-!
The texts of messages: the functions from enumerators to strings and the `toString`
methods.

They are what a log shows of a message. Each is a row of labelled values between
spaces, so the text says everything about the message, except which of the bytes
without a name an enumeration held, and says where it ends.
-/

namespace LowLatency.Exchange

open LowLatency.Lib LowLatency.Common

def clientResponseToString : ClientResponseType → String
  | .invalid => "INVALID"
  | .accepted => "ACCEPTED"
  | .cancelled => "CANCELLED"
  | .filled => "FILLED"
  | .cancelRejected => "CANCEL_REJECTED"

def marketUpdateTypeToString : MarketUpdateType → String
  | .invalid => "INVALID"
  | .add => "ADD"
  | .modify => "MODIFY"
  | .cancel => "CANCEL"
  | .trade => "TRADE"

/-- The text of a message: the pieces that go to the `stringstream`, each label with
its value. -/
def shown (name : String) (fields : List (String × String)) : String :=
  String.join (name :: " [" :: (fields.flatMap fun p => [p.1, p.2]) ++ ["]"])

def MEClientRequest.fields (r : MEClientRequest) : List (String × String) :=
  [("type: ", clientRequestTypeToString r.clientRequestType),
    (" client: ", toString32 r.clientId),
    (" ticker: ", toString32 r.tickerId),
    (" oid: ", toString64 r.orderId),
    (" side: ", sideToString r.side),
    (" qty: ", toString32 r.qty),
    (" price: ", toString64 r.price)]

def MEClientRequest.toString (r : MEClientRequest) : String :=
  shown "MEClientRequestObject" r.fields

def MEClientResponse.fields (r : MEClientResponse) : List (String × String) :=
  [("type: ", clientResponseToString r.clientResponseType),
    (" client: ", toString32 r.clientId),
    (" ticker: ", toString32 r.tickerId),
    (" coid: ", toString64 r.clientOrderId),
    (" moid: ", toString64 r.marketOrderId),
    (" side: ", sideToString r.side),
    (" price: ", toString64 r.price),
    (" exec_qty_: ", toString32 r.executedQty),
    (" leave_qty_: ", toString32 r.leftOverQty)]

def MEClientResponse.toString (r : MEClientResponse) : String :=
  shown "MEClientResponseObject" r.fields

def MEMarketUpdate.fields (u : MEMarketUpdate) : List (String × String) :=
  [(" type: ", marketUpdateTypeToString u.type),
    (" ticker: ", toString32 u.tickerId),
    (" oid: ", toString64 u.orderId),
    (" side: ", sideToString u.side),
    (" qty: ", toString32 u.qty),
    (" price: ", toString64 u.price),
    (" priority: ", toString64 u.priority)]

def MEMarketUpdate.toString (u : MEMarketUpdate) : String := shown "MEMarketUpdateObject" u.fields

/-! ### Enumerators -/

theorem plain_clientRequestTypeToString (t : ClientRequestType) :
    Plain (clientRequestTypeToString t) := by
  cases t <;> (simp only [clientRequestTypeToString]; decide +kernel)

theorem plain_clientResponseToString (t : ClientResponseType) :
    Plain (clientResponseToString t) := by
  cases t <;> (simp only [clientResponseToString]; decide +kernel)

theorem plain_marketUpdateTypeToString (t : MarketUpdateType) :
    Plain (marketUpdateTypeToString t) := by
  cases t <;> (simp only [marketUpdateTypeToString]; decide +kernel)

def ClientRequestType.named : ClientRequestType → Option ClientRequestType
  | .unnamed _ => none
  | t => some t

theorem clientRequestTypeToString_inj {s t : ClientRequestType} :
    clientRequestTypeToString s = clientRequestTypeToString t ↔ s.named = t.named := by
  cases s <;> cases t <;> simp [clientRequestTypeToString, ClientRequestType.named]

theorem clientResponseToString_inj {s t : ClientResponseType} :
    clientResponseToString s = clientResponseToString t ↔ s = t := by
  cases s <;> cases t <;> simp [clientResponseToString]

theorem marketUpdateTypeToString_inj {s t : MarketUpdateType} :
    marketUpdateTypeToString s = marketUpdateTypeToString t ↔ s = t := by
  cases s <;> cases t <;> simp [marketUpdateTypeToString]

/-! ### Rows -/

/-- All labels begin with a space, except perhaps the first, and no value has an end
in it. -/
structure Legible (fields : List (String × String)) : Prop where
  labels : ∀ l ∈ (fields.map Prod.fst).tail, l.toList.head? = some ' '
  nulFree : ∀ l ∈ fields.map Prod.fst, 0 ∉ bytes l
  values : ∀ v ∈ fields.map Prod.snd, Plain v

theorem bytes_shown (name : String) (fields : List (String × String)) (rest : List Int8) :
    bytes (shown name fields) ++ rest = bytes name ++ (bytes " [" ++
      labelled ((fields.map Prod.fst).map bytes) ((fields.map Prod.snd).map bytes)
        (bytes "]" ++ rest)) := by
  have hfields : (fields.flatMap fun p => [p.1, p.2]).flatMap bytes =
      (List.zipWith (· ++ ·) ((fields.map Prod.fst).map bytes)
        ((fields.map Prod.snd).map bytes)).flatten := by
    induction fields with
    | nil => rfl
    | cons p fields ih => simpa using ih
  rw [shown, bytes_join, List.cons_append, List.cons_append, List.flatMap_cons,
    List.flatMap_cons, List.flatMap_append, hfields, labelled, List.flatMap_singleton,
    List.append_assoc, List.append_assoc, List.append_assoc]

theorem Legible.begins {fields : List (String × String)} (h : Legible fields) :
    ∀ l ∈ ((fields.map Prod.fst).map bytes).tail, Begins Ends l := by
  intro l hl
  rw [← List.map_tail] at hl
  obtain ⟨s, hs, rfl⟩ := List.mem_map.mp hl
  refine begins_of_head? (d := byte ' ') ?_ (.inl rfl)
  rw [bytes, List.head?_map, h.labels s hs]
  rfl

theorem Legible.not_ends {fields : List (String × String)} (h : Legible fields) :
    ∀ v ∈ (fields.map Prod.snd).map bytes, ∀ b ∈ v, ¬ Ends b := by
  intro v hv
  obtain ⟨s, hs, rfl⟩ := List.mem_map.mp hv
  exact (h.values s hs).not_ends

theorem Legible.zero_notMem {fields : List (String × String)} (h : Legible fields)
    {name : String} (hname : 0 ∉ bytes name) : 0 ∉ bytes (shown name fields) := by
  intro hmem
  rw [shown, bytes_join, List.mem_flatMap] at hmem
  obtain ⟨piece, hpiece, hzero⟩ := hmem
  rw [List.cons_append, List.cons_append, List.mem_cons, List.mem_cons, List.mem_append,
    List.mem_flatMap, List.mem_singleton] at hpiece
  rcases hpiece with rfl | rfl | ⟨p, hp, hpiece⟩ | rfl
  · exact hname hzero
  · exact absurd hzero (by decide +kernel)
  · rcases List.mem_pair.mp hpiece with rfl | rfl
    · exact h.nulFree _ (List.mem_map_of_mem hp) hzero
    · exact (h.values _ (List.mem_map_of_mem hp)).zero_notMem hzero
  · exact absurd hzero (by decide +kernel)

/-- Texts with the same labels begin alike only if the values are the same, and each
says where it ends. -/
theorem bytes_shown_inj {name : String} {fields fields' : List (String × String)}
    (h : Legible fields) (h' : Legible fields')
    (hlabels : fields.map Prod.fst = fields'.map Prod.fst) {rest rest' : List Int8} :
    bytes (shown name fields) ++ rest = bytes (shown name fields') ++ rest' ↔
      fields.map Prod.snd = fields'.map Prod.snd ∧ rest = rest' := by
  have hlen : fields.length = fields'.length := by simpa using congrArg List.length hlabels
  have hbracket : bytes "]" = [byte ']'] := by simp [bytes]
  have hends : ∀ r, Begins Ends (bytes "]" ++ r) := fun r =>
    ⟨byte ']', r, by rw [hbracket, List.singleton_append], .inr rfl⟩
  rw [bytes_shown, bytes_shown, List.append_cancel_left_eq, List.append_cancel_left_eq, hlabels,
    labelled_inj h'.begins (hends rest) (hends rest') (by simp [hlen]) (by simp)
      h.not_ends h'.not_ends, List.append_cancel_left_eq]
  exact and_congr_left fun _ =>
    ⟨map_inj_of_forall (fun _ _ ha hb => (ha.bytes_inj hb).mp) h.values h'.values,
      fun hvalues => hvalues ▸ rfl⟩

theorem MEClientRequest.legible (r : MEClientRequest) : Legible r.fields where
  labels := by
    show ∀ l ∈ ((default : MEClientRequest).fields.map Prod.fst).tail, _
    decide +kernel
  nulFree := by
    show ∀ l ∈ (default : MEClientRequest).fields.map Prod.fst, _
    decide +kernel
  values := by
    simp [MEClientRequest.fields, plain_toString32, plain_toString64, plain_sideToString,
      plain_clientRequestTypeToString]

theorem MEClientResponse.legible (r : MEClientResponse) : Legible r.fields where
  labels := by
    show ∀ l ∈ ((default : MEClientResponse).fields.map Prod.fst).tail, _
    decide +kernel
  nulFree := by
    show ∀ l ∈ (default : MEClientResponse).fields.map Prod.fst, _
    decide +kernel
  values := by
    simp [MEClientResponse.fields, plain_toString32, plain_toString64, plain_sideToString,
      plain_clientResponseToString]

theorem MEMarketUpdate.legible (u : MEMarketUpdate) : Legible u.fields where
  labels := by
    show ∀ l ∈ ((default : MEMarketUpdate).fields.map Prod.fst).tail, _
    decide +kernel
  nulFree := by
    show ∀ l ∈ (default : MEMarketUpdate).fields.map Prod.fst, _
    decide +kernel
  values := by
    simp [MEMarketUpdate.fields, plain_toString32, plain_toString64, plain_sideToString,
      plain_marketUpdateTypeToString]

/-- Two messages that are equal but for the bytes of a side without a name. -/
def MEClientResponse.Alike (r r' : MEClientResponse) : Prop :=
  { r with side := r'.side } = r' ∧ r.side.named = r'.side.named

def MEMarketUpdate.Alike (u u' : MEMarketUpdate) : Prop :=
  { u with side := u'.side } = u' ∧ u.side.named = u'.side.named

/-- The type of a request can be without a name, too. -/
def MEClientRequest.Alike (r r' : MEClientRequest) : Prop :=
  { r with clientRequestType := r'.clientRequestType, side := r'.side } = r' ∧
    r.clientRequestType.named = r'.clientRequestType.named ∧ r.side.named = r'.side.named

inductive EngineCall.Alike : EngineCall → EngineCall → Prop
  | sendClientResponse {r r'} : r.Alike r' → Alike (.sendClientResponse r) (.sendClientResponse r')
  | sendMarketUpdate {u u'} : u.Alike u' → Alike (.sendMarketUpdate u) (.sendMarketUpdate u')

variable {rest rest' : List Int8}

/-- **The text says what the request is, and where it ends.** -/
theorem MEClientRequest.bytes_toString_inj {r r' : MEClientRequest} :
    bytes r.toString ++ rest = bytes r'.toString ++ rest' ↔ r.Alike r' ∧ rest = rest' := by
  rw [MEClientRequest.toString, MEClientRequest.toString,
    bytes_shown_inj r.legible r'.legible rfl]
  refine and_congr_left fun _ => ?_
  obtain ⟨type, client, order, ticker, side, price, qty⟩ := r
  obtain ⟨type', client', order', ticker', side', price', qty'⟩ := r'
  simp only [MEClientRequest.fields, MEClientRequest.Alike, List.map_cons, List.map_nil,
    List.cons.injEq, toString32_inj, toString64_inj, sideToString_inj,
    clientRequestTypeToString_inj, MEClientRequest.mk.injEq]
  tauto

theorem MEClientResponse.bytes_toString_inj {r r' : MEClientResponse} :
    bytes r.toString ++ rest = bytes r'.toString ++ rest' ↔ r.Alike r' ∧ rest = rest' := by
  rw [MEClientResponse.toString, MEClientResponse.toString,
    bytes_shown_inj r.legible r'.legible rfl]
  refine and_congr_left fun _ => ?_
  obtain ⟨type, client, ticker, coid, moid, side, price, exec, leave⟩ := r
  obtain ⟨type', client', ticker', coid', moid', side', price', exec', leave'⟩ := r'
  simp only [MEClientResponse.fields, MEClientResponse.Alike, List.map_cons, List.map_nil,
    List.cons.injEq, toString32_inj, toString64_inj, sideToString_inj,
    clientResponseToString_inj, MEClientResponse.mk.injEq]
  tauto

theorem MEMarketUpdate.bytes_toString_inj {u u' : MEMarketUpdate} :
    bytes u.toString ++ rest = bytes u'.toString ++ rest' ↔ u.Alike u' ∧ rest = rest' := by
  rw [MEMarketUpdate.toString, MEMarketUpdate.toString,
    bytes_shown_inj u.legible u'.legible rfl]
  refine and_congr_left fun _ => ?_
  obtain ⟨type, order, ticker, side, price, qty, priority⟩ := u
  obtain ⟨type', order', ticker', side', price', qty', priority'⟩ := u'
  simp only [MEMarketUpdate.fields, MEMarketUpdate.Alike, List.map_cons, List.map_nil,
    List.cons.injEq, toString32_inj, toString64_inj, sideToString_inj,
    marketUpdateTypeToString_inj, MEMarketUpdate.mk.injEq]
  tauto

end LowLatency.Exchange
