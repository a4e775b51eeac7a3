import LowLatency.Common.LogFile
import LowLatency.Exchange.StartStop
import LowLatency.Exchange.Survival
import LowLatency.Exchange.Text

/-!
`matching_engine.cpp`: the log of the engine.

`run` logs when it begins and each request before it serves it, the two send methods
log each message before they send it, and in the end each book logs itself. The lines
of the messages have no end of their own, and what stands between them is a place in
the source, a time and a text. Still the file can be read back: what the engine was
asked and what it answered is all in it (`run_of_file`).
-/

namespace LowLatency.Exchange

open LowLatency.Lib LowLatency.Common LowLatency.Common.Logger

namespace Transcript

/-- A string that has no null byte in it. -/
abbrev CString := {text : List Int8 // 0 ∉ text}

/-- What `ctime` writes, with the newline at its end; it is never empty, so
`getCurrentTimeStr` returns it as it is. -/
abbrev TimeStr := {text : List Int8 // text.length = 25 ∧ 0 ∉ text}

/-- What stands for `__FILE__`, behind the directory, and for `__LINE__` and
`__FUNCTION__`. -/
structure Place where
  file : String
  line : Int32
  function : String
  deriving DecidableEq

/-- `logger_.log(format, __FILE__, __LINE__, __FUNCTION__, getCurrentTimeStr(&time_str_), args...)`,
compiled in the directory `dir`. -/
def logCall (dir : CString) (time : TimeStr) (place : Place) (format : String)
    (args : List PushValue) : LogCall where
  format := bytes format
  args := .cString (dir ++ bytes place.file) :: .int place.line ::
    .cString (bytes place.function) :: .string time.1 :: args

/-- What the engine logs: that `run` begins, a request, or a message. -/
inductive LogEvent
  | started
  | processing (clientRequest : MEClientRequest)
  | sending (call : EngineCall)
  deriving DecidableEq

namespace LogEvent

def place : LogEvent → Place
  | .started => ⟨"matching_engine.cpp", 36, "run"⟩
  | .processing _ => ⟨"matching_engine.cpp", 40, "run"⟩
  | .sending (.sendClientResponse _) => ⟨"matching_engine.cpp", 63, "sendClientResponse"⟩
  | .sending (.sendMarketUpdate _) => ⟨"matching_engine.cpp", 70, "sendMarketUpdate"⟩

def format : LogEvent → String
  | .started => "%:% %() %\n"
  | .processing _ => "%:% %() % Processing: %\n"
  | .sending _ => "%:% %() % Sending: %"

def args : LogEvent → List PushValue
  | .started => []
  | .processing r => [.string (bytes r.toString)]
  | .sending (.sendClientResponse r) => [.string (bytes r.toString)]
  | .sending (.sendMarketUpdate u) => [.string (bytes u.toString)]

/-- What stands behind the time. -/
def message : LogEvent → List Int8
  | .started => bytes "\n"
  | .processing r => bytes " Processing: " ++ (bytes r.toString ++ bytes "\n")
  | .sending (.sendClientResponse r) => bytes " Sending: " ++ bytes r.toString
  | .sending (.sendMarketUpdate u) => bytes " Sending: " ++ bytes u.toString

end LogEvent

structure Entry where
  time : TimeStr
  event : LogEvent

def Entry.call (dir : CString) (e : Entry) : LogCall :=
  logCall dir e.time e.event.place e.event.format e.event.args

/-- `~MEOrderBook`, with the time and what `toString(false, true)` returns. -/
def bookPlace : Place := ⟨"me_order_book.cpp", 15, "~MEOrderBook"⟩

def bookCall (dir : CString) (b : TimeStr × CString) : LogCall :=
  logCall dir b.1 bookPlace "%:% %() % Orderbook\n%\n" [.string b.2.1]

/-! ### The engine with its log -/

/-- One turn of the loop in `run`, when there is a request. -/
def turn (m : BookMethods) (books : OrderBookHashMap) (r : MEClientRequest) :
    Exec (OrderBookHashMap × List LogEvent) := do
  let (books, sent) ← processClientRequest m books r
  .ok (books, .processing r :: sent.map .sending)

def turns (m : BookMethods) (books : OrderBookHashMap) (requests : List MEClientRequest) :
    Exec (OrderBookHashMap × List LogEvent) := runLog (turn m) books requests

/-- An engine from `run` to the end of its books. Each book prints itself once. -/
structure Session where
  m : BookMethods
  books : OrderBookHashMap
  requests : List MEClientRequest
  final : OrderBookHashMap
  started : TimeStr
  entries : List Entry
  closing : List (TimeStr × CString)
  completed : turns m books requests = .ok (final, entries.map Entry.event)

def Session.calls (x : Session) (dir : CString) : List LogCall :=
  (⟨x.started, .started⟩ :: x.entries).map (Entry.call dir) ++ x.closing.map (bookCall dir)

/-! ### What the file should be -/

/-- The beginning of a line, up to the time. -/
def Place.label (w : Place) : String :=
  String.join [w.file, ":", w.line.toInt.repr, " ", w.function, "() "]

def lineOf (dir : CString) (time : TimeStr) (place : Place) (message : List Int8) : List Int8 :=
  dir ++ (bytes place.label ++ (time ++ message))

def Entry.line (dir : CString) (e : Entry) : List Int8 :=
  lineOf dir e.time e.event.place e.event.message

def bookLine (dir : CString) (b : TimeStr × CString) : List Int8 :=
  lineOf dir b.1 bookPlace (bytes " Orderbook\n" ++ (b.2 ++ bytes "\n"))

def Session.transcript (x : Session) (dir : CString) : List Int8 :=
  (⟨x.started, .started⟩ :: x.entries).flatMap (Entry.line dir) ++
    x.closing.flatMap (bookLine dir)

/-! ### Formats -/

/-- The tokens of a word without a percent sign. -/
def literals (s : String) : List Token := (bytes s).map .literal

theorem text_literals (p : FloatText) (s : String) (ts : List Token) (args : List PushValue) :
    p.text (literals s ++ ts) args = bytes s ++ p.text ts args := by
  rw [literals]
  induction bytes s with
  | nil => rfl
  | cons c str ih => rw [List.map_cons, List.cons_append, FloatText.text, ih, List.cons_append]

theorem text_word (p : FloatText) (s : String) : p.text (literals s) [] = bytes s := by
  rw [← List.append_nil (literals s), text_literals, FloatText.text, List.append_nil]

/-- Where a format of the engine has its place and its time. -/
def heading (ts : List Token) : List Token :=
  .placeholder :: (literals ":" ++ .placeholder :: (literals " " ++ .placeholder ::
    (literals "() " ++ .placeholder :: ts)))

theorem text_heading (p : FloatText) (dir : CString) (time : TimeStr) (w : Place)
    (format : String) (ts : List Token) (args : List PushValue)
    (h : tokens (bytes format) = heading ts) :
    p.text (tokens (logCall dir time w format args).format) (logCall dir time w format args).args =
      lineOf dir time w (p.text ts args) := by
  simp only [logCall, h, heading, text_literals, FloatText.text, FloatText.argument, lineOf,
    Place.label, bytes_join, List.flatMap_cons, List.flatMap_nil, List.append_nil,
    List.append_assoc]

/-- The tokens behind the time. -/
def LogEvent.tail : LogEvent → List Token
  | .started => literals "\n"
  | .processing _ => literals " Processing: " ++ .placeholder :: literals "\n"
  | .sending _ => literals " Sending: " ++ [.placeholder]

theorem LogEvent.tokens_format (e : LogEvent) : tokens (bytes e.format) = heading e.tail := by
  cases e <;> (simp only [format, tail]; decide +kernel)

theorem LogEvent.text_tail (p : FloatText) (e : LogEvent) : p.text e.tail e.args = e.message := by
  cases e with
  | started => exact text_word p _
  | processing r =>
      rw [tail, args, message, text_literals, FloatText.text, text_word]
      rfl
  | sending c =>
      cases c <;>
        rw [tail, args, message, text_literals, FloatText.text, FloatText.text, List.append_nil] <;>
        rfl

theorem Entry.text (p : FloatText) (dir : CString) (e : Entry) :
    p.text (tokens (e.call dir).format) (e.call dir).args = e.line dir := by
  rw [Entry.call, text_heading p dir e.time _ _ _ _ e.event.tokens_format, e.event.text_tail,
    Entry.line]

theorem tokens_book : tokens (bytes "%:% %() % Orderbook\n%\n") =
    heading (literals " Orderbook\n" ++ .placeholder :: literals "\n") := by
  decide +kernel

theorem text_book (p : FloatText) (dir : CString) (b : TimeStr × CString) :
    p.text (tokens (bookCall dir b).format) (bookCall dir b).args = bookLine dir b := by
  rw [bookCall, text_heading p dir b.1 _ _ _ _ tokens_book, text_literals, FloatText.text,
    text_word]
  rfl

/-! ### Nothing in the formats stops the engine -/

theorem zero_notMem_request (r : MEClientRequest) : 0 ∉ bytes r.toString :=
  r.legible.zero_notMem (by decide +kernel)

theorem zero_notMem_response (r : MEClientResponse) : 0 ∉ bytes r.toString :=
  r.legible.zero_notMem (by decide +kernel)

theorem zero_notMem_update (u : MEMarketUpdate) : 0 ∉ bytes u.toString :=
  u.legible.zero_notMem (by decide +kernel)

/-- The places of the calls of `log`. -/
def places : List Place :=
  [⟨"matching_engine.cpp", 36, "run"⟩, ⟨"matching_engine.cpp", 40, "run"⟩,
    ⟨"matching_engine.cpp", 63, "sendClientResponse"⟩,
    ⟨"matching_engine.cpp", 70, "sendMarketUpdate"⟩, bookPlace]

theorem LogEvent.place_mem (e : LogEvent) : e.place ∈ places := by
  cases e with
  | started | processing r => simp [place, places]
  | sending c => cases c <;> simp [place, places]

theorem bookPlace_mem : bookPlace ∈ places := by simp [places]

theorem zero_notMem_places :
    ∀ w ∈ places, 0 ∉ bytes w.file ∧ 0 ∉ bytes w.function := by
  decide +kernel

theorem clean_logCall (dir : CString) (time : TimeStr) {w : Place}
    (hplace : 0 ∉ bytes w.file ∧ 0 ∉ bytes w.function) {format : String}
    (hformat : 0 ∉ bytes format) {args : List PushValue}
    (hargs : ∀ val ∈ args, ∃ text, val = .string text ∧ 0 ∉ text) :
    (logCall dir time w format args).Clean := by
  obtain ⟨hfile, hfunction⟩ := hplace
  refine ⟨hformat, ?_, ?_⟩
  · intro val hval
    rw [logCall] at hval
    simp only [List.mem_cons] at hval
    rcases hval with rfl | rfl | rfl | rfl | hval
    · exact fun hmem => (List.mem_append.mp hmem).elim dir.2 hfile
    · trivial
    · exact hfunction
    · exact time.2.2
    · obtain ⟨text, rfl, htext⟩ := hargs val hval
      exact htext
  · intro e he
    rw [logCall] at he
    simp only [List.mem_cons, reduceCtorEq, false_or] at he
    obtain ⟨text, heq, -⟩ := hargs _ he
    cases heq

theorem LogEvent.zero_notMem_format (e : LogEvent) : 0 ∉ bytes e.format := by
  cases e <;> (simp only [format]; decide +kernel)

theorem LogEvent.args_nulFree (e : LogEvent) :
    ∀ val ∈ e.args, ∃ text, val = .string text ∧ 0 ∉ text := by
  intro val hval
  cases e with
  | started => exact absurd hval List.not_mem_nil
  | processing r => exact ⟨_, List.mem_singleton.mp hval, zero_notMem_request r⟩
  | sending c =>
      cases c with
      | sendClientResponse r => exact ⟨_, List.mem_singleton.mp hval, zero_notMem_response r⟩
      | sendMarketUpdate u => exact ⟨_, List.mem_singleton.mp hval, zero_notMem_update u⟩

theorem LogEvent.placeholders_format (e : LogEvent) :
    placeholders (bytes e.format) = 4 + e.args.length := by
  cases e with
  | started =>
      show placeholders (bytes "%:% %() %\n") = 4
      decide +kernel
  | processing r =>
      show placeholders (bytes "%:% %() % Processing: %\n") = 5
      decide +kernel
  | sending c =>
      have hargs : (LogEvent.sending c).args.length = 1 := by cases c <;> rfl
      rw [hargs]
      show placeholders (bytes "%:% %() % Sending: %") = 5
      decide +kernel

theorem Entry.clean_matched (dir : CString) (e : Entry) :
    (e.call dir).Clean ∧ (e.call dir).Matched := by
  refine ⟨clean_logCall dir e.time (zero_notMem_places _ e.event.place_mem)
    e.event.zero_notMem_format e.event.args_nulFree, ?_⟩
  show placeholders (bytes e.event.format) = e.event.args.length + 4
  rw [e.event.placeholders_format, Nat.add_comm]

theorem clean_matched_book (dir : CString) (b : TimeStr × CString) :
    (bookCall dir b).Clean ∧ (bookCall dir b).Matched := by
  refine ⟨clean_logCall dir b.1 (zero_notMem_places _ bookPlace_mem) (by decide +kernel) ?_, ?_⟩
  · intro val hval
    exact ⟨_, List.mem_singleton.mp hval, b.2.2⟩
  · show placeholders (bytes "%:% %() % Orderbook\n%\n") = 5
    decide +kernel

theorem Session.clean_matched (x : Session) (dir : CString) :
    ∀ c ∈ x.calls dir, c.Clean ∧ c.Matched := by
  intro c hc
  rw [Session.calls, List.mem_append, List.mem_map, List.mem_map] at hc
  rcases hc with ⟨e, -, rfl⟩ | ⟨b, -, rfl⟩
  · exact e.clean_matched dir
  · exact clean_matched_book dir b

theorem Session.texts_calls (p : FloatText) (x : Session) (dir : CString) :
    p.texts (x.calls dir) = x.transcript dir := by
  rw [texts_of_matched p fun c hc => (x.clean_matched dir c hc).2, Session.calls,
    List.flatMap_append, List.flatMap_map, List.flatMap_map, Session.transcript]
  exact congrArg₂ _ (List.flatMap_congr fun e _ => e.text p dir)
    (List.flatMap_congr fun b _ => text_book p dir b)

theorem Session.file_eq {n : Capacity} {s : State} (p : FloatText) (x : Session) {dir : CString}
    (hs : (logSystem n (x.calls dir)).Reachable s) (hclosed : s.destructor = .closed) :
    s.file p = some (x.transcript dir) := by
  rw [file_of_closed p (fun c hc => (x.clean_matched dir c hc).1) hs hclosed, x.texts_calls]

/-! ### Reading the file back -/

/-- No line begins like one from another place. -/
theorem labels_apart : ∀ w ∈ places, ∀ w' ∈ places, w ≠ w' →
    ¬ bytes w.label <+: bytes w'.label := by
  decide +kernel

theorem label_inj {w w' : Place} (hw : w ∈ places) (hw' : w' ∈ places) {s t : List Int8} :
    bytes w.label ++ s = bytes w'.label ++ t ↔ w = w' ∧ s = t := by
  by_cases hplace : w = w'
  · rw [hplace, List.append_cancel_left_eq]
    exact (and_iff_right rfl).symm
  · exact iff_of_false (append_ne_append (labels_apart w hw w' hw' hplace)
      (labels_apart w' hw' w hw (Ne.symm hplace)) s t) fun h => hplace h.1

theorem time_inj {t t' : TimeStr} {rest rest' : List Int8} :
    (t : List Int8) ++ rest = t' ++ rest' ↔ t = t' ∧ rest = rest' := by
  refine ⟨fun h => ?_, fun ⟨ht, hrest⟩ => by rw [ht, hrest]⟩
  obtain ⟨ht, hrest⟩ := List.append_inj h (t.2.1.trans t'.2.1.symm)
  exact ⟨Subtype.ext ht, hrest⟩

theorem lineOf_inj {dir : CString} {t t' : TimeStr} {w w' : Place} (hw : w ∈ places)
    (hw' : w' ∈ places) {message message' rest rest' : List Int8} :
    lineOf dir t w message ++ rest = lineOf dir t' w' message' ++ rest' ↔
      w = w' ∧ t = t' ∧ message ++ rest = message' ++ rest' := by
  simp only [lineOf, List.append_assoc, List.append_cancel_left_eq, label_inj hw hw', time_inj]

/-- The same event, but for the bytes of enumerations that have no name. -/
inductive LogEvent.Alike : LogEvent → LogEvent → Prop
  | started : Alike .started .started
  | processing {r r'} : r.Alike r' → Alike (.processing r) (.processing r')
  | sending {c c'} : c.Alike c' → Alike (.sending c) (.sending c')

theorem LogEvent.Alike.place_eq {e e' : LogEvent} (h : e.Alike e') : e.place = e'.place := by
  cases h with
  | started | processing => rfl
  | sending h => cases h <;> rfl

theorem LogEvent.message_inj {e e' : LogEvent} (hplace : e.place = e'.place)
    {rest rest' : List Int8} :
    e.message ++ rest = e'.message ++ rest' ↔ e.Alike e' ∧ rest = rest' := by
  cases e with
  | started =>
      cases e' with
      | started => exact (List.append_cancel_left_eq ..).to_iff.trans (and_iff_right .started).symm
      | processing r' => simp [place] at hplace
      | sending c' => cases c' <;> simp [place] at hplace
  | processing r =>
      cases e' with
      | started => simp [place] at hplace
      | processing r' =>
          simp only [message, List.append_assoc, List.append_cancel_left_eq,
            MEClientRequest.bytes_toString_inj]
          exact and_congr_left fun _ => ⟨.processing, fun h => by cases h; assumption⟩
      | sending c' => cases c' <;> simp [place] at hplace
  | sending c =>
      cases e' with
      | started | processing r' => cases c <;> simp [place] at hplace
      | sending c' =>
          cases c with
          | sendClientResponse r =>
              cases c' with
              | sendMarketUpdate u' => simp [place] at hplace
              | sendClientResponse r' =>
                  simp only [message, List.append_assoc, List.append_cancel_left_eq,
                    MEClientResponse.bytes_toString_inj]
                  exact and_congr_left fun _ => ⟨fun h => .sending (.sendClientResponse h),
                    fun h => by cases h with | sending h => cases h; assumption⟩
          | sendMarketUpdate u =>
              cases c' with
              | sendClientResponse r' => simp [place] at hplace
              | sendMarketUpdate u' =>
                  simp only [message, List.append_assoc, List.append_cancel_left_eq,
                    MEMarketUpdate.bytes_toString_inj]
                  exact and_congr_left fun _ => ⟨fun h => .sending (.sendMarketUpdate h),
                    fun h => by cases h with | sending h => cases h; assumption⟩

def Entry.Alike (e e' : Entry) : Prop := e.time = e'.time ∧ e.event.Alike e'.event

theorem delimited_line (dir : CString) : Delimited (Entry.line dir) Entry.Alike := by
  intro e e' rest rest'
  rw [Entry.line, Entry.line, lineOf_inj e.event.place_mem e'.event.place_mem, Entry.Alike]
  constructor
  · rintro ⟨hplace, htime, hmessage⟩
    obtain ⟨hevent, hrest⟩ := (LogEvent.message_inj hplace).mp hmessage
    exact ⟨⟨htime, hevent⟩, hrest⟩
  · rintro ⟨⟨htime, hevent⟩, hrest⟩
    have hplace := hevent.place_eq
    exact ⟨hplace, htime, (LogEvent.message_inj hplace).mpr ⟨hevent, hrest⟩⟩

/-- What the books log is not taken for a line of the engine. -/
theorem closing_ne_line (dir : CString) (closing : List (TimeStr × CString)) (e : Entry)
    (rest : List Int8) : closing.flatMap (bookLine dir) ≠ e.line dir ++ rest := by
  have hne : e.event.place ≠ bookPlace := by
    rcases e with ⟨t, _ | r | ⟨r | u⟩⟩ <;> simp [LogEvent.place, bookPlace]
  cases closing with
  | nil =>
      intro h
      have hnil : bytes e.event.place.label = [] := by
        simp only [List.flatMap_nil, Entry.line, lineOf, List.nil_eq_append_iff,
          List.append_eq_nil_iff] at h
        exact h.1.2.1
      refine labels_apart _ e.event.place_mem _ bookPlace_mem hne ?_
      rw [hnil]
      exact List.nil_prefix
  | cons b closing =>
      rw [List.flatMap_cons, bookLine, Entry.line, ne_eq,
        lineOf_inj bookPlace_mem e.event.place_mem]
      exact fun h => hne h.1.symm

theorem Session.transcript_inj {x x' : Session} {dir : CString} :
    x.transcript dir = x'.transcript dir ↔
      (x.started = x'.started ∧ List.Forall₂ Entry.Alike x.entries x'.entries) ∧
        x.closing.flatMap (bookLine dir) = x'.closing.flatMap (bookLine dir) := by
  rw [Session.transcript, Session.transcript,
    (delimited_line dir).flatMap_inj (closing_ne_line dir x.closing)
      (closing_ne_line dir x'.closing), List.forall₂_cons, Entry.Alike]
  exact and_congr_left fun _ => and_congr_left fun _ => and_iff_left .started

/-! ### What the entries say -/

def LogEvent.request? : LogEvent → Option MEClientRequest
  | .processing r => some r
  | _ => none

def LogEvent.call? : LogEvent → Option EngineCall
  | .sending c => some c
  | _ => none

theorem filterMap_sending (sent : List EngineCall) :
    (sent.map LogEvent.sending).filterMap LogEvent.request? = [] ∧
      (sent.map LogEvent.sending).filterMap LogEvent.call? = sent := by
  rw [List.filterMap_map, List.filterMap_map]
  exact ⟨List.filterMap_eq_nil_iff.mpr fun _ _ => rfl, List.filterMap_some⟩

theorem of_turns {m : BookMethods} {books final : OrderBookHashMap}
    {requests : List MEClientRequest} {log : List LogEvent}
    (h : turns m books requests = .ok (final, log)) :
    processClientRequests m books requests = .ok (final, log.filterMap LogEvent.call?) ∧
      log.filterMap LogEvent.request? = requests := by
  refine runLog_invariant (fun pre b log =>
    processClientRequests m books pre = .ok (b, log.filterMap LogEvent.call?) ∧
      log.filterMap LogEvent.request? = pre) ⟨rfl, rfl⟩ ?_ h
  rintro pre r b log b' out - ⟨hrun, hrequests⟩ hturn
  obtain ⟨⟨b'', sent⟩, hserve, hout⟩ := bind_eq_ok.mp hturn
  rw [Except.ok.injEq, Prod.mk.injEq] at hout
  obtain ⟨rfl, rfl⟩ := hout
  obtain ⟨hnone, hsent⟩ := filterMap_sending sent
  have hrequest : LogEvent.request? (.processing r) = some r := rfl
  constructor
  · refine runLog_snoc_eq_ok.mpr ⟨b, _, sent, hrun, hserve, ?_⟩
    rw [List.filterMap_append, List.filterMap_cons_none rfl, hsent]
  · rw [List.filterMap_append, List.filterMap_cons_some hrequest, hnone, hrequests]

theorem filterMap_alike {l l' : List Entry} (h : List.Forall₂ Entry.Alike l l') :
    List.Forall₂ MEClientRequest.Alike ((l.map Entry.event).filterMap LogEvent.request?)
        ((l'.map Entry.event).filterMap LogEvent.request?) ∧
      List.Forall₂ EngineCall.Alike ((l.map Entry.event).filterMap LogEvent.call?)
        ((l'.map Entry.event).filterMap LogEvent.call?) := by
  have hevents : List.Forall₂ LogEvent.Alike (l.map Entry.event) (l'.map Entry.event) := by
    rw [List.forall₂_map_left_iff, List.forall₂_map_right_iff]
    exact h.imp fun _ _ h => h.2
  constructor
  · refine List.rel_filterMap (fun e e' he => ?_) hevents
    cases he with
    | started | sending => exact .none
    | processing h => exact .some h
  · refine List.rel_filterMap (fun e e' he => ?_) hevents
    cases he with
    | started | processing => exact .none
    | sending h => exact .some h

/-! ### A session and its file -/

def epoch : TimeStr := ⟨bytes "Thu Jan  1 00:00:00 1970\n", by decide +kernel⟩

def here : CString := ⟨bytes "./", by decide +kernel⟩

/-- What an engine logs that is given one order. -/
def firstEntries : List Entry :=
  [⟨epoch, .processing StartStop.request⟩,
    ⟨epoch, .sending (.sendClientResponse (StartStop.request.acceptance 1))⟩,
    ⟨epoch, .sending (.sendMarketUpdate ⟨.add, 1, 0, .buy, 100, 10, 1⟩)⟩]

/-- It has been given the order and has answered it, and one book was destroyed. -/
structure Session.ServedFirst (x : Session) : Prop where
  requests : x.requests = [StartStop.request]
  transcript : x.transcript here =
    (⟨epoch, .started⟩ :: firstEntries).flatMap (Entry.line here) ++ bookLine here (epoch, here)
  sent : processClientRequests x.m x.books x.requests = .ok (x.final,
    [.sendClientResponse (StartStop.request.acceptance 1),
      .sendMarketUpdate ⟨.add, 1, 0, .buy, 100, 10, 1⟩])

theorem exists_session {m : BookMethods} {books : OrderBookHashMap}
    (h : succeedsWith (turns m books [StartStop.request])
      (fun r => decide (r.2 = firstEntries.map Entry.event)) = true) :
    ∃ x : Session, x.m = m ∧ x.books = books ∧ x.ServedFirst := by
  obtain ⟨⟨final, log⟩, hturns, hlog⟩ := exists_of_succeedsWith h
  obtain rfl : log = firstEntries.map Entry.event := of_decide_eq_true hlog
  refine ⟨⟨m, books, _, final, epoch, firstEntries, [(epoch, here)], hturns⟩, rfl, rfl, rfl, ?_,
    (of_turns hturns).1⟩
  rw [Session.transcript, List.flatMap_singleton]

/-- Nothing is matched, and the memory was fresh. -/
theorem exists_restingSession : ∃ x : Session, x.m = restingBooks ∧
    x.books = constructBooks (fun _ => .zero) ∧ x.ServedFirst :=
  exists_session (by decide +kernel)

/-- Orders are matched, and the memory had been in use. -/
theorem exists_fillingSession : ∃ x : Session, x.m = fillingBooks ∧
    x.books = constructBooks (fun _ => .stale) ∧ x.ServedFirst :=
  exists_session (by decide +kernel)

variable {n n' : Capacity} {dir : CString} {x x' : Session} {s s' : State}
  {sent sent' : List EngineCall} {p : FloatText}

/-- **The log is complete.** None of its calls stops the engine, and in the closed file
stands a line for every turn, every message and every book, in order. -/
theorem file_of_session (hs : (logSystem n (x.calls dir)).Reachable s)
    (hclosed : s.destructor = .closed) :
    (logs (x.calls dir)).result = .ok () ∧ s.file p = some (x.transcript dir) :=
  ⟨logs_result (x.clean_matched dir), x.file_eq p hs hclosed⟩

theorem file_of_session_one : ∃ (x : Session) (s : State), x.requests = [StartStop.request] ∧
    s.destructor = .closed ∧ s.file noFloats = some (x.transcript here) := by
  obtain ⟨x, -, -, hserved⟩ := exists_restingSession
  obtain ⟨s, hs, hclosed⟩ :=
    exists_closed ⟨1, by decide⟩ ((logs (x.calls here)).pushed.map .element)
  exact ⟨x, s, hserved.requests, hclosed, (file_of_session hs hclosed).2⟩

/-- **The log says what happened.** Engines whose closed files are the same, whatever
their books and queues were, began at the same time, served the same requests in the
same order and sent the same messages in the same order, but for the bytes of
enumerations that have no name. -/
theorem run_of_file (hsent : processClientRequests x.m x.books x.requests = .ok (x.final, sent))
    (hsent' : processClientRequests x'.m x'.books x'.requests = .ok (x'.final, sent'))
    (hs : (logSystem n (x.calls dir)).Reachable s) (hclosed : s.destructor = .closed)
    (hs' : (logSystem n' (x'.calls dir)).Reachable s') (hclosed' : s'.destructor = .closed)
    (hfile : s.file p = s'.file p) :
    x.started = x'.started ∧ List.Forall₂ MEClientRequest.Alike x.requests x'.requests ∧
      List.Forall₂ EngineCall.Alike sent sent' := by
  rw [x.file_eq p hs hclosed, x'.file_eq p hs' hclosed', Option.some.injEq,
    Session.transcript_inj] at hfile
  obtain ⟨⟨hstarted, hentries⟩, -⟩ := hfile
  obtain ⟨hrun, hrequests⟩ := of_turns x.completed
  obtain ⟨hrun', hrequests'⟩ := of_turns x'.completed
  obtain ⟨halike, hcalls⟩ := filterMap_alike hentries
  rw [hrun, Except.ok.injEq, Prod.mk.injEq] at hsent
  rw [hrun', Except.ok.injEq, Prod.mk.injEq] at hsent'
  rw [hrequests, hrequests'] at halike
  rw [hsent.2, hsent'.2] at hcalls
  exact ⟨hstarted, halike, hcalls⟩

/-- One engine matches orders and the other does not, their books were built over other
memory, and their loggers have queues of one and of two cells. -/
theorem run_of_file_two : ∃ (x x' : Session) (s s' : State),
    x.m = restingBooks ∧ x'.m = fillingBooks ∧ x.books = constructBooks (fun _ => .zero) ∧
      x'.books = constructBooks (fun _ => .stale) ∧ s.file noFloats = s'.file noFloats ∧
      x.started = x'.started ∧ List.Forall₂ MEClientRequest.Alike x.requests x'.requests := by
  obtain ⟨x, hm, hbooks, hserved⟩ := exists_restingSession
  obtain ⟨x', hm', hbooks', hserved'⟩ := exists_fillingSession
  obtain ⟨s, hs, hclosed⟩ :=
    exists_closed ⟨1, by decide⟩ ((logs (x.calls here)).pushed.map .element)
  obtain ⟨s', hs', hclosed'⟩ :=
    exists_closed ⟨2, by decide⟩ ((logs (x'.calls here)).pushed.map .element)
  have hfile : s.file noFloats = s'.file noFloats := by
    rw [x.file_eq noFloats hs hclosed, x'.file_eq noFloats hs' hclosed', hserved.transcript,
      hserved'.transcript]
  obtain ⟨hstarted, halike, -⟩ :=
    run_of_file hserved.sent hserved'.sent hs hclosed hs' hclosed' hfile
  exact ⟨x, x', s, s', hm, hm', hbooks, hbooks', hfile, hstarted, halike⟩

end Transcript

end LowLatency.Exchange
