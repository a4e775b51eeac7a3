import LowLatency.Common.LogSignal
import LowLatency.Exchange.Transcript

/-!
`exchange_main.cpp`: the process.

`main` logs that it starts and then, for ever, that it sleeps. What ends it is the
signal: its handler runs on top of `main`, which sleeps or is in a call of `log`,
destroys the logger and exits. The pointer to the engine is null all along.

The handler allocates, so it is not looked at where it interrupts an allocation of
`main`: a signal comes while `main` sleeps or between two accesses of a push.
-/

namespace LowLatency.Exchange

open LowLatency.Lib LowLatency.Common LowLatency.Common.Logger

namespace ExchangeMain

open Transcript

def startPlace : Place := ⟨"exchange_main.cpp", 27, "main"⟩

def startCall (dir : CString) (time : TimeStr) : LogCall :=
  logCall dir time startPlace "%:% %() % Starting Matching Engine...\n" []

def roundPlace : Place := ⟨"exchange_main.cpp", 30, "main"⟩

def roundCall (dir : CString) (time : TimeStr) : LogCall :=
  logCall dir time roundPlace "%:% %() % Sleeping for a few milliseconds" []

/-- What `main` logs in its first rounds, at these times. -/
def calls (dir : CString) (started : TimeStr) (rounds : List TimeStr) : List LogCall :=
  startCall dir started :: rounds.map (roundCall dir)

/-- The process from the call of `std::signal` on; `rounds` are more than it comes to
before the signal. -/
abbrev system (n : Capacity) (dir : CString) (started : TimeStr) (rounds : List TimeStr) :
    System State := logSignalSystem n (calls dir started rounds)

/-! ### What the file should be -/

def startLine (dir : CString) (time : TimeStr) : List Int8 :=
  lineOf dir time startPlace (bytes " Starting Matching Engine...\n")

def roundLine (dir : CString) (time : TimeStr) : List Int8 :=
  lineOf dir time roundPlace (bytes " Sleeping for a few milliseconds")

def lines (dir : CString) (started : TimeStr) (rounds : List TimeStr) : List (List Int8) :=
  startLine dir started :: rounds.map (roundLine dir)

theorem tokens_start : tokens (bytes "%:% %() % Starting Matching Engine...\n") =
    heading (literals " Starting Matching Engine...\n") := by
  decide +kernel

theorem tokens_round : tokens (bytes "%:% %() % Sleeping for a few milliseconds") =
    heading (literals " Sleeping for a few milliseconds") := by
  decide +kernel

theorem text_start (p : FloatText) (dir : CString) (time : TimeStr) :
    p.text (tokens (startCall dir time).format) (startCall dir time).args =
      startLine dir time := by
  rw [startCall, text_heading p dir time _ _ _ _ tokens_start, text_word, startLine]

theorem text_round (p : FloatText) (dir : CString) (time : TimeStr) :
    p.text (tokens (roundCall dir time).format) (roundCall dir time).args =
      roundLine dir time := by
  rw [roundCall, text_heading p dir time _ _ _ _ tokens_round, text_word, roundLine]

theorem clean_matched_start (dir : CString) (time : TimeStr) :
    (startCall dir time).Clean ∧ (startCall dir time).Matched := by
  refine ⟨clean_logCall dir time (by decide +kernel) (by decide +kernel) nofun, ?_⟩
  show placeholders (bytes "%:% %() % Starting Matching Engine...\n") = 4
  decide +kernel

theorem clean_matched_round (dir : CString) (time : TimeStr) :
    (roundCall dir time).Clean ∧ (roundCall dir time).Matched := by
  refine ⟨clean_logCall dir time (by decide +kernel) (by decide +kernel) nofun, ?_⟩
  show placeholders (bytes "%:% %() % Sleeping for a few milliseconds") = 4
  decide +kernel

theorem clean_matched (dir : CString) (started : TimeStr) (rounds : List TimeStr) :
    ∀ c ∈ calls dir started rounds, c.Clean ∧ c.Matched := by
  intro c hc
  rcases List.mem_cons.mp hc with rfl | hc
  · exact clean_matched_start dir started
  · obtain ⟨time, -, rfl⟩ := List.mem_map.mp hc
    exact clean_matched_round dir time

theorem map_text (p : FloatText) (dir : CString) (started : TimeStr) (rounds : List TimeStr) :
    (calls dir started rounds).map (fun c => p.text (tokens c.format) c.args) =
      lines dir started rounds := by
  have hrounds : (rounds.map (roundCall dir)).map (fun c => p.text (tokens c.format) c.args) =
      rounds.map (roundLine dir) := by
    rw [List.map_map]
    refine List.map_congr_left fun time _ => ?_
    rw [Function.comp_apply, text_round]
  rw [calls, List.map_cons, text_start, hrounds, lines]

theorem texts_take (p : FloatText) (dir : CString) (started : TimeStr) (rounds : List TimeStr)
    (j : ℕ) : p.texts ((calls dir started rounds).take j) =
      ((lines dir started rounds).take j).flatten := by
  have hmatched : ∀ c ∈ (calls dir started rounds).take j, c.Matched := fun c hc =>
    (clean_matched dir started rounds c (List.mem_of_mem_take hc)).2
  rw [texts_of_matched p hmatched, List.flatMap_def, List.map_take, map_text]

variable {n : Capacity} {dir : CString} {started : TimeStr} {rounds : List TimeStr} {s : State}

/-- **The signal loses no line.** Also in the middle of a push, the handler can come to
its end. Whenever it does, all lines of the calls that had returned are in the file, and
nothing of a call that had not begun. -/
theorem sigint_keeps_log (p : FloatText) (h : (system n dir started rounds).Reachable s)
    (hsignal : s.destructor ≠ .notStarted) :
    (∃ t, Relation.ReflTransGen (system n dir started rounds).step s t ∧
      t.destructor = .closed) ∧
    ∀ t, Relation.ReflTransGen (system n dir started rounds).step s t → t.destructor = .closed →
      ∃ content, t.file p = some content ∧ ∀ j,
        (Returned (calls dir started rounds) j s →
          ((lines dir started rounds).take j).flatten <+: content) ∧
        (NotBegun (calls dir started rounds) j s →
          content <+: ((lines dir started rounds).take j).flatten) := by
  refine ⟨exists_closed_of_signal h hsignal, fun t hrun hclosed => ?_⟩
  obtain ⟨content, hfile, hcontent⟩ := file_of_signal p
    (fun c hc => (clean_matched dir started rounds c hc).1) h hsignal hrun hclosed
  simp only [texts_take] at hcontent
  exact ⟨content, hfile, hcontent⟩

/-- The signal comes between the first call and the second. -/
theorem sigint_keeps_log_started : ∃ t : State, t.destructor = .closed ∧
    t.file noFloats = some (startLine here epoch) := by
  have hk := (pushed_take (calls here epoch [epoch]) 1).length_le
  rw [← elements_pushed (logs (calls here epoch [epoch])).pushed] at hk
  obtain ⟨s, hs, hd, hnext⟩ := exists_signal ⟨1, by decide⟩ _ hk
  obtain ⟨⟨t, hrun, hclosed⟩, hfile⟩ := sigint_keeps_log noFloats hs (by simp [hd])
  obtain ⟨content, hcontent, hlines⟩ := hfile t hrun hclosed
  obtain ⟨hall, hnothing⟩ := hlines 1
  have heq : ((lines here epoch [epoch]).take 1).flatten = content :=
    (hall hnext.ge).eq_of_length_le (hnothing hnext.le).length_le
  rw [lines, List.take_succ_cons, List.take_zero, List.flatten_singleton] at heq
  refine ⟨t, hclosed, ?_⟩
  rw [hcontent, heq]

end ExchangeMain

end LowLatency.Exchange
