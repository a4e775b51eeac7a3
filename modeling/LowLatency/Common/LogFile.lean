import LowLatency.Common.LogFormat
import LowLatency.Common.Text

/-!
From the calls of `log` to the bytes in the file.

A call is cut into elements by its format, the elements go through the queue, and
the flush thread turns each into text again. Between the two ends nothing is lost
and nothing moves: the file is what the formats and arguments say, one call after
the other.
-/

namespace LowLatency.Common

open LowLatency.Lib

namespace Logger

/-- A call `log(format, args...)`. -/
structure LogCall where
  format : List Int8
  args : List PushValue

/-- One call and then others, unless it ends the process. -/
def Logged.andThen (first next : Logged) : Logged :=
  match first.result with
  | .ok () => pushThen first.pushed next
  | .error e => ⟨first.pushed, .error e⟩

def logs (calls : List LogCall) : Logged :=
  calls.foldr (fun c next => (log c.args c.format).andThen next) ⟨[], .ok ()⟩

/-- How a stream writes floating-point numbers, by their bits. -/
structure FloatText where
  float : UInt32 → List Int8
  double : UInt64 → List Int8

/-- `fout << value`. -/
def FloatText.print (p : FloatText) : LogUnion → List Int8
  | .c value => [value]
  | .i value => bytes value.toInt.repr
  | .l value => bytes value.toInt.repr
  | .ll value => bytes value.toInt.repr
  | .u value => bytes value.toNat.repr
  | .ul value => bytes value.toNat.repr
  | .ull value => bytes value.toNat.repr
  | .f bits => p.float bits
  | .d bits => p.double bits

/-- The content of the file, unless a member was read that had not been stored. -/
def State.file (p : FloatText) (s : State) : Option (List Int8) :=
  (s.fout.mapM id).map fun written => written.flatMap p.print

/-! ### What the file should be -/

def FloatText.argument (p : FloatText) : PushValue → List Int8
  | .element log_element => p.print log_element.u
  | .char value => [value]
  | .int value => bytes value.toInt.repr
  | .long value => bytes value.toInt.repr
  | .longLong value => bytes value.toInt.repr
  | .unsigned value => bytes value.toNat.repr
  | .unsignedLong value => bytes value.toNat.repr
  | .unsignedLongLong value => bytes value.toNat.repr
  | .float bits => p.float bits
  | .double bits => p.double bits
  | .cString value => value
  | .string value => value

/-- The text of a format, up to the first placeholder without an argument. -/
def FloatText.text (p : FloatText) : List Token → List PushValue → List Int8
  | [], _ => []
  | .literal c :: ts, args => c :: p.text ts args
  | .placeholder :: ts, val :: args => p.argument val ++ p.text ts args
  | .placeholder :: _, [] => []

def LogCall.Matched (c : LogCall) : Prop := placeholders c.format = c.args.length

instance (c : LogCall) : Decidable c.Matched := inferInstanceAs (Decidable (_ = _))

/-- The text of some calls, up to the first that ends the process. -/
def FloatText.texts (p : FloatText) : List LogCall → List Int8
  | [] => []
  | c :: calls => p.text (tokens c.format) c.args ++ if c.Matched then p.texts calls else []

/-- No null byte, and no element under a tag that is not its own. -/
structure LogCall.Clean (c : LogCall) : Prop where
  format : 0 ∉ c.format
  args : ∀ val ∈ c.args, NulFree val
  tags : ∀ e, .element e ∈ c.args → e.written = some e.u

/-! ### From elements to text -/

theorem print_argument (p : FloatText) (val : PushValue) :
    (argument val).flatMap (fun e => p.print e.u) = p.argument val := by
  cases val with
  | cString value | string value =>
      show (value.map charElement).flatMap _ = value
      rw [List.flatMap_map]
      exact List.flatMap_singleton' value
  | element e => exact List.append_nil _
  | _ => exact List.append_nil _

theorem print_render (p : FloatText) (ts : List Token) (args : List PushValue) :
    (render ts args).flatMap (fun e => p.print e.u) = p.text ts args := by
  induction ts generalizing args with
  | nil => rfl
  | cons t ts ih =>
      cases t with
      | literal c =>
          rw [render, List.flatMap_cons, ih]
          rfl
      | placeholder =>
          cases args with
          | nil => rfl
          | cons val args => rw [render, List.flatMap_append, print_argument, ih, FloatText.text]

theorem written_of_render {ts : List Token} {args : List PushValue}
    (hargs : ∀ val ∈ args, NulFree val)
    (htags : ∀ e, .element e ∈ args → e.written = some e.u) :
    ∀ e ∈ render ts args, e.written = some e.u := by
  induction ts generalizing args with
  | nil => exact fun e he => absurd he List.not_mem_nil
  | cons t ts ih =>
      cases t with
      | literal c =>
          intro e he
          rcases List.mem_cons.mp he with rfl | he
          · rfl
          · exact ih hargs htags e he
      | placeholder =>
          cases args with
          | nil => exact fun e he => absurd he List.not_mem_nil
          | cons val args =>
              intro e he
              rcases List.mem_append.mp he with he | he
              · rw [← elements_of_nulFree (hargs val List.mem_cons_self)] at he
                rcases written_of_elements he with hwritten | rfl
                · exact hwritten
                · exact htags e List.mem_cons_self
              · exact ih (fun v hv => hargs v (List.mem_cons_of_mem _ hv))
                  (fun e he => htags e (List.mem_cons_of_mem _ he)) e he

theorem log_of_clean {c : LogCall} (h : c.Clean) : log c.args c.format =
    ⟨render (tokens c.format) c.args, verdict (placeholders c.format) c.args.length⟩ :=
  renders h.format h.args

theorem andThen_of_ok {first : Logged} (h : first.result = .ok ()) (next : Logged) :
    first.andThen next = pushThen first.pushed next := by
  rw [Logged.andThen, h]

theorem pushed_andThen_of_ne {first : Logged} (h : first.result ≠ .ok ()) (next : Logged) :
    (first.andThen next).pushed = first.pushed := by
  rw [Logged.andThen]
  cases hresult : first.result with
  | ok u => exact absurd hresult h
  | error e => rfl

theorem logs_cons (c : LogCall) (calls : List LogCall) :
    logs (c :: calls) = (log c.args c.format).andThen (logs calls) := rfl

theorem result_eq_ok {c : LogCall} (h : c.Clean) :
    (log c.args c.format).result = .ok () ↔ c.Matched := by
  rw [log_of_clean h]
  exact verdict_eq_ok

/-- The elements some calls push: they are written as they were stored, and their text
is that of the calls. -/
theorem pushed_logs (p : FloatText) {calls : List LogCall} (h : ∀ c ∈ calls, c.Clean) :
    (∀ e ∈ (logs calls).pushed, e.written = some e.u) ∧
      (logs calls).pushed.flatMap (fun e => p.print e.u) = p.texts calls := by
  induction calls with
  | nil => exact ⟨fun e he => absurd he List.not_mem_nil, rfl⟩
  | cons c calls ih =>
      obtain ⟨hwritten, htext⟩ := ih fun c hc => h c (List.mem_cons_of_mem _ hc)
      have hc := h c List.mem_cons_self
      have hpushed : (log c.args c.format).pushed = render (tokens c.format) c.args := by
        rw [log_of_clean hc]
      have hrender : ∀ e ∈ render (tokens c.format) c.args, e.written = some e.u :=
        written_of_render hc.args hc.tags
      rw [logs_cons, FloatText.texts]
      by_cases hmatched : c.Matched
      · rw [andThen_of_ok ((result_eq_ok hc).mpr hmatched), pushThen, hpushed, if_pos hmatched,
          List.flatMap_append, print_render, htext]
        refine ⟨fun e he => ?_, rfl⟩
        rcases List.mem_append.mp he with he | he
        · exact hrender e he
        · exact hwritten e he
      · rw [pushed_andThen_of_ne (fun hok => hmatched ((result_eq_ok hc).mp hok)), hpushed,
          if_neg hmatched, List.append_nil, print_render]
        exact ⟨hrender, rfl⟩

theorem logs_result {calls : List LogCall} (h : ∀ c ∈ calls, c.Clean ∧ c.Matched) :
    (logs calls).result = .ok () := by
  induction calls with
  | nil => rfl
  | cons c calls ih =>
      obtain ⟨hc, hmatched⟩ := h c List.mem_cons_self
      rw [logs_cons, andThen_of_ok ((result_eq_ok hc).mpr hmatched)]
      exact ih fun c hc => h c (List.mem_cons_of_mem _ hc)

theorem texts_of_matched (p : FloatText) {calls : List LogCall} (h : ∀ c ∈ calls, c.Matched) :
    p.texts calls = calls.flatMap fun c => p.text (tokens c.format) c.args := by
  induction calls with
  | nil => rfl
  | cons c calls ih =>
      rw [FloatText.texts, if_pos (h c List.mem_cons_self), List.flatMap_cons,
        ih fun c hc => h c (List.mem_cons_of_mem _ hc)]

/-! ### The file -/

theorem file_of_elements (p : FloatText) {s : State} {es : List LogElement}
    (hes : s.elements = es.map some) (hwritten : ∀ e ∈ es, e.written = some e.u) :
    s.file p = some (es.flatMap fun e => p.print e.u) := by
  have hfout : s.fout = (es.map LogElement.u).map some := by
    rw [State.fout, hes, List.map_map, List.map_map]
    exact List.map_congr_left fun e he => hwritten e he
  have hall : ((es.map LogElement.u).map some).mapM id = some (es.map LogElement.u) := by
    rw [List.mapM_map]
    exact (List.mapM_pure (m := Option) (f := id)).trans (congrArg some (List.map_id _))
  rw [State.file, hfout, hall, Option.map_some, List.flatMap_map]

/-- The logger of a thread that makes the calls and then destroys it. -/
abbrev logSystem (n : Capacity) (calls : List LogCall) : System State :=
  system n ((logs calls).pushed.map .element)

theorem elements_pushed (es : List LogElement) :
    (es.map PushValue.element).flatMap PushValue.elements = es := by
  rw [List.flatMap_map]
  exact List.flatMap_singleton' es

variable {n : Capacity} {calls : List LogCall} {s : State}

theorem file_of_closed (p : FloatText) (h : ∀ c ∈ calls, c.Clean)
    (hs : (logSystem n calls).Reachable s) (hclosed : s.destructor = .closed) :
    s.file p = some (p.texts calls) := by
  have helements := elements_at_close hs hclosed
  rw [elements_pushed] at helements
  obtain ⟨hwritten, htext⟩ := pushed_logs p h
  rw [file_of_elements p helements hwritten, htext]

def noFloats : FloatText := ⟨fun _ => [], fun _ => []⟩

/-- `log("%", 7)` and then `log("1%% %", std::string("ab"))`. -/
def twoCalls : List LogCall :=
  [⟨[percent], [.int 7]⟩, ⟨[49, percent, percent, 32, percent], [.string [97, 98]]⟩]

theorem clean_twoCalls : ∀ c ∈ twoCalls, c.Clean ∧ c.Matched := by
  intro c hc
  rcases List.mem_pair.mp hc with rfl | rfl
  · exact ⟨⟨by decide, by simp [NulFree], by simp⟩, by decide⟩
  · exact ⟨⟨by decide, by simp [NulFree], by simp⟩, by decide⟩

/-- **The file is never wrong, only late.** At every moment it is the beginning of the
text of the calls, cut off at the first that ends the process. -/
theorem file_isPrefix (p : FloatText) (h : ∀ c ∈ calls, c.Clean)
    (hs : (logSystem n calls).Reachable s) :
    ∃ content, s.file p = some content ∧ content <+: p.texts calls := by
  have hused : s.elements <+: ((logs calls).pushed.take s.next).map some := by
    have hqueue := ProducerConsumer.used_isPrefix (reachable_toQueue hs)
    rwa [elements_pushed] at hqueue
  obtain ⟨es, hes, helements⟩ := List.prefix_map_iff.mp hused
  have hpushed := hes.trans (List.take_prefix _ _)
  obtain ⟨hwritten, htext⟩ := pushed_logs p h
  refine ⟨_, file_of_elements p helements fun e he => hwritten e (hpushed.subset he), ?_⟩
  rw [← htext]
  obtain ⟨rest, hrest⟩ := hpushed
  rw [← hrest, List.flatMap_append]
  exact List.prefix_append _ _

theorem file_isPrefix_two_calls : ∃ (s : State) (content : List Int8),
    s.destructor = .closed ∧ s.file noFloats = some content ∧
      content <+: [55, 49, 37, 32, 97, 98] := by
  obtain ⟨s, hs, hclosed⟩ := exists_closed ⟨1, by decide⟩ ((logs twoCalls).pushed.map .element)
  obtain ⟨content, hfile, hprefix⟩ :=
    file_isPrefix noFloats (fun c hc => (clean_twoCalls c hc).1) hs
  have htexts : noFloats.texts twoCalls = [55, 49, 37, 32, 97, 98] := by decide +kernel
  exact ⟨s, content, hclosed, hfile, htexts ▸ hprefix⟩

/-- **What is logged is what stands in the file.** When the formats match their
arguments, all calls return, and when the destructor has closed the file its bytes
are the texts of the calls, one after the other. -/
theorem file_at_close (p : FloatText) (h : ∀ c ∈ calls, c.Clean ∧ c.Matched)
    (hs : (logSystem n calls).Reachable s) (hclosed : s.destructor = .closed) :
    (logs calls).result = .ok () ∧
      s.file p = some (calls.flatMap fun c => p.text (tokens c.format) c.args) := by
  refine ⟨logs_result h, ?_⟩
  rw [file_of_closed p (fun c hc => (h c hc).1) hs hclosed,
    texts_of_matched p fun c hc => (h c hc).2]

/-- The file holds the digit, and behind it the second text with its percent sign. -/
theorem file_at_close_two_calls : ∃ s : State, s.destructor = .closed ∧
    s.file noFloats = some [55, 49, 37, 32, 97, 98] := by
  obtain ⟨s, hs, hclosed⟩ := exists_closed ⟨1, by decide⟩ ((logs twoCalls).pushed.map .element)
  obtain ⟨-, hfile⟩ := file_at_close noFloats clean_twoCalls hs hclosed
  exact ⟨s, hclosed, hfile.trans (by decide +kernel)⟩

end Logger

end LowLatency.Common
