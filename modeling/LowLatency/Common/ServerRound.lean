import Mathlib.Data.List.Basic
import LowLatency.Common.TCPServer
import LowLatency.Common.TCPSocket

/-!
`TCPServer::sendAndRecv`: one round over the sockets of a server.

The sockets of both lists are serviced by the same `TCPSocket::sendAndRecv`,
which reads before it writes; what it returns is collected for the first list
only. The log keeps the order of the services and callbacks of a round.
-/

namespace LowLatency.Common

open LowLatency.Lib

/-- What a call of `TCPSocket::sendAndRecv` meets: the answers of the kernel, and
the calls of the receive callback. -/
structure Service where
  recvmsg : Recvmsg
  callback : List SocketCall
  send : KernelSend

inductive RoundEvent
  | serviced (socket : ℕ)
  | recvCallback (socket : ℕ)
  | recvFinished
  deriving DecidableEq

namespace TCPServer

def service (sockets : ℕ → TCPSocket) (socket : ℕ) (answer : Service) :
    Exec ((ℕ → TCPSocket) × Bool × List RoundEvent) := do
  let out ← (sockets socket).sendAndRecv answer.recvmsg answer.callback answer.send
  .ok (Function.update sockets socket out.socket, out.result,
    .serviced socket :: out.callbacks.map fun _ => .recvCallback socket)

/-- The pass over `receive_sockets_`: the socket and its place in the list. -/
def receiveOne (answers : ℕ → Service) (st : (ℕ → TCPSocket) × Bool) (x : ℕ × ℕ) :
    Exec (((ℕ → TCPSocket) × Bool) × List RoundEvent) := do
  let (sockets, result, log) ← service st.1 x.1 (answers x.2)
  .ok ((sockets, st.2 || result), log)

/-- The pass over `send_sockets_`. -/
def sendOne (answers : ℕ → Service) (sockets : ℕ → TCPSocket) (x : ℕ × ℕ) :
    Exec ((ℕ → TCPSocket) × List RoundEvent) := do
  let (sockets, _, log) ← service sockets x.1 (answers x.2)
  .ok (sockets, log)

/-- `sendAndRecv`, with the answers at each place of the two lists. -/
def sendAndRecv (s : TCPServer) (sockets : ℕ → TCPSocket) (received sent : ℕ → Service) :
    Exec ((ℕ → TCPSocket) × List RoundEvent) := do
  let ((sockets, recv), first) ←
    runLog (receiveOne received) (sockets, false) s.receiveSockets.zipIdx
  let finished := if recv then [.recvFinished] else []
  let (sockets, second) ← runLog (sendOne sent) sockets s.sendSockets.zipIdx
  .ok (sockets, first ++ finished ++ second)

/-! ### One pass -/

/-- No receive callback ran. -/
def Silent (log : List RoundEvent) : Prop := ∀ a, .recvCallback a ∉ log

theorem silent_append {log log' : List RoundEvent} :
    Silent (log ++ log') ↔ Silent log ∧ Silent log' := by
  simp [Silent, forall_and]

/-- What a pass over the sockets and places `done` does. -/
structure Passed (answers : ℕ → Service) (sockets : ℕ → TCPSocket) (done : List (ℕ × ℕ))
    (sockets' : ℕ → TCPSocket) (log : List RoundEvent) : Prop where
  count : ∀ a, log.count (.serviced a) = (done.map Prod.fst).count a
  unfinished : .recvFinished ∉ log
  untouched : ∀ a, a ∉ done.map Prod.fst → sockets' a = sockets a
  quiet : Silent log → ∀ a, (sockets' a).iovLen = (sockets a).iovLen
  silent : Silent log ↔
    ∀ x ∈ done, ¬ (answers x.2).recvmsg.result (sockets x.1).iovLen > 0

variable {answers : ℕ → Service} {sockets sockets' sockets'' : ℕ → TCPSocket}
  {done done' : List (ℕ × ℕ)} {log log' : List RoundEvent}

theorem passed_nil : Passed answers sockets [] sockets [] where
  count _ := rfl
  unfinished := List.not_mem_nil
  untouched _ _ := rfl
  quiet _ _ := rfl
  silent := iff_of_true (fun _ => List.not_mem_nil) fun _ hx => absurd hx List.not_mem_nil

theorem Passed.append (h : Passed answers sockets done sockets' log)
    (h' : Passed answers sockets' done' sockets'' log') :
    Passed answers sockets (done ++ done') sockets'' (log ++ log') where
  count a := by rw [List.count_append, h.count, h'.count, List.map_append, List.count_append]
  unfinished hmem := (List.mem_append.mp hmem).elim h.unfinished h'.unfinished
  untouched a ha := by
    rw [List.map_append, List.mem_append, not_or] at ha
    rw [h'.untouched a ha.2, h.untouched a ha.1]
  quiet hsilent a := by
    obtain ⟨hlog, hlog'⟩ := silent_append.mp hsilent
    rw [h'.quiet hlog' a, h.quiet hlog a]
  silent := by
    rw [silent_append, h.silent, List.forall_mem_append]
    refine and_congr_right fun hreads => ?_
    -- no read so far, so the kernel is asked with the lengths of the beginning
    have hlen := h.quiet (h.silent.mpr hreads)
    simp only [h'.silent, hlen]

theorem passed_service {x : ℕ × ℕ} {result : Bool}
    (h : service sockets x.1 (answers x.2) = .ok (sockets', result, log)) :
    Passed answers sockets [x] sockets' log ∧ (result = false ↔ Silent log) := by
  obtain ⟨a, i⟩ := x
  obtain ⟨out, hout, h⟩ := bind_eq_ok.mp h
  simp only [Except.ok.injEq, Prod.mk.injEq] at h
  obtain ⟨rfl, rfl, rfl⟩ := h
  have hothers : ∀ b, b ∉ [a] → Function.update sockets a out.socket b = sockets b := by
    intro b hb
    exact Function.update_of_ne (fun hba => hb (List.mem_singleton.mpr hba)) ..
  rcases TCPSocket.sendAndRecv_eq_ok hout with ⟨hpos, hres, hcalls, -⟩ |
    ⟨hpos, hres, hcalls, -, hidx⟩
  · have hloud : ¬ Silent [.serviced a, .recvCallback a] := fun hs => hs a (by simp)
    rw [hcalls, hres]
    refine ⟨⟨fun b => ?_, by simp, hothers, fun hs => absurd hs hloud, ?_⟩, ?_⟩
    · simp [List.count_cons]
    · exact iff_of_false hloud fun hreads => hreads (a, i) (List.mem_singleton_self _) hpos
    · exact iff_of_false (by decide) hloud
  · have hsilent : Silent [.serviced a] := fun b => by simp
    rw [hcalls, hres]
    refine ⟨⟨fun b => ?_, by simp, hothers, fun _ b => ?_, ?_⟩, ?_⟩
    · simp [List.count_cons]
    · by_cases hb : b = a
      · subst hb
        rw [Function.update_self, TCPSocket.iovLen, hidx, ← TCPSocket.iovLen]
      · rw [Function.update_of_ne hb]
    · refine iff_of_true hsilent fun y hy => ?_
      rw [List.mem_singleton.mp hy]
      exact hpos
    · exact iff_of_true rfl hsilent

theorem passed_receive {st : (ℕ → TCPSocket) × Bool} {l : List (ℕ × ℕ)}
    (h : runLog (receiveOne answers) (sockets, false) l = .ok (st, log)) :
    Passed answers sockets l st.1 log ∧ (st.2 = false ↔ Silent log) := by
  refine runLog_invariant (fun done st log => Passed answers sockets done st.1 log ∧
    (st.2 = false ↔ Silent log)) ⟨passed_nil, ?_⟩ ?_ h
  · exact iff_of_true rfl fun _ => List.not_mem_nil
  · rintro done x t log t' out - ⟨hpassed, hrecv⟩ hok
    obtain ⟨⟨sockets', result, events⟩, hservice, hok⟩ := bind_eq_ok.mp hok
    simp only [Except.ok.injEq, Prod.mk.injEq] at hok
    obtain ⟨rfl, rfl⟩ := hok
    obtain ⟨hone, hresult⟩ := passed_service hservice
    refine ⟨hpassed.append hone, ?_⟩
    rw [silent_append, ← hrecv, ← hresult, Bool.or_eq_false_iff]

theorem passed_send {l : List (ℕ × ℕ)}
    (h : runLog (sendOne answers) sockets l = .ok (sockets', log)) :
    Passed answers sockets l sockets' log := by
  refine runLog_invariant (fun done t log => Passed answers sockets done t log) passed_nil ?_ h
  rintro done x t log t' out - hpassed hok
  obtain ⟨⟨sockets', result, events⟩, hservice, hok⟩ := bind_eq_ok.mp hok
  simp only [Except.ok.injEq, Prod.mk.injEq] at hok
  obtain ⟨rfl, rfl⟩ := hok
  exact hpassed.append (passed_service hservice).1

/-! ### The round -/

/-- The three parts of the log of a round. -/
structure Parts (s : TCPServer) (sockets : ℕ → TCPSocket) (sent : ℕ → Service)
    (log first second : List RoundEvent) (recv : Bool) : Prop where
  eq : log = first ++ (if recv then [.recvFinished] else []) ++ second
  recv : recv = false ↔ Silent first
  notFirst : .recvFinished ∉ first
  notSecond : .recvFinished ∉ second
  count : ∀ a, log.count (.serviced a) = s.receiveSockets.count a + s.sendSockets.count a
  -- the kernel is asked as at the beginning about a socket of the second list only
  silent : (∀ a ∈ s.receiveSockets, a ∉ s.sendSockets) → (Silent second ↔
    ∀ i a, s.sendSockets[i]? = some a → ¬ (sent i).recvmsg.result (sockets a).iovLen > 0)

theorem sendAndRecv_eq_ok {s : TCPServer} {received sent : ℕ → Service}
    (h : s.sendAndRecv sockets received sent = .ok (sockets'', log)) :
    ∃ first second recv, Parts s sockets sent log first second recv := by
  obtain ⟨⟨⟨sockets', recv⟩, first⟩, hfirst, h⟩ := bind_eq_ok.mp h
  obtain ⟨⟨t, second⟩, hsecond, h⟩ := bind_eq_ok.mp h
  simp only [Except.ok.injEq, Prod.mk.injEq] at h
  obtain ⟨rfl, rfl⟩ := h
  obtain ⟨h₁, hrecv⟩ := passed_receive hfirst
  have h₂ := passed_send hsecond
  refine ⟨first, second, recv, rfl, hrecv, h₁.unfinished, h₂.unfinished, fun a => ?_,
    fun hdisjoint => ?_⟩
  · have hfinished : (if recv then [RoundEvent.recvFinished] else []).count (.serviced a) = 0 := by
      cases recv <;> rfl
    rw [List.count_append, List.count_append, hfinished, h₁.count, h₂.count, List.zipIdx_map_fst,
      List.zipIdx_map_fst, Nat.add_zero]
  · have hsame : ∀ x ∈ s.sendSockets.zipIdx, sockets' x.1 = sockets x.1 := by
      intro x hx
      refine h₁.untouched x.1 fun hmem => ?_
      rw [List.zipIdx_map_fst] at hmem
      exact hdisjoint x.1 hmem (List.mem_of_getElem? (List.mem_zipIdx_iff_getElem?.mp hx))
    rw [h₂.silent]
    constructor
    · intro hreads i a ha
      have hx : (a, i) ∈ s.sendSockets.zipIdx := List.mem_zipIdx_iff_getElem?.mpr ha
      rw [← hsame _ hx]
      exact hreads _ hx
    · intro hreads x hx
      rw [hsame x hx]
      exact hreads x.2 x.1 (List.mem_zipIdx_iff_getElem?.mp hx)

/-- The promise of a round: each socket of `receive_sockets_` is serviced once, and
if any receive callback ran, `recv_finished_callback_` runs once behind all of
them. -/
structure ClosesBatch (s : TCPServer) (log : List RoundEvent) : Prop where
  serviced : ∀ a ∈ s.receiveSockets, log.count (.serviced a) = 1
  finished : ¬ Silent log → ∃ before after, log = before ++ .recvFinished :: after ∧
    .recvFinished ∉ before ∧ .recvFinished ∉ after ∧ Silent after
  silent : Silent log → .recvFinished ∉ log

theorem Parts.closes_iff {s : TCPServer} {sent : ℕ → Service}
    {first second : List RoundEvent} {recv : Bool}
    (h : Parts s sockets sent log first second recv) :
    ClosesBatch s log ↔
      (∀ a ∈ s.receiveSockets, s.receiveSockets.count a + s.sendSockets.count a = 1) ∧
      Silent second := by
  have heq := h.eq
  have hrecv := h.recv
  cases recv with
  | false =>
      have hfirst := hrecv.mp rfl
      have hlog : log = first ++ second := by rw [heq]; simp
      have hnever : .recvFinished ∉ log := by
        rw [hlog, List.mem_append, not_or]
        exact ⟨h.notFirst, h.notSecond⟩
      constructor
      · intro hcloses
        refine ⟨fun a ha => h.count a ▸ hcloses.serviced a ha, ?_⟩
        by_contra hloud
        obtain ⟨before, after, hsplit, -⟩ := hcloses.finished fun hs =>
          hloud (silent_append.mp (hlog ▸ hs)).2
        exact hnever (hsplit ▸ List.mem_append_right before List.mem_cons_self)
      · rintro ⟨hcount, hsecond⟩
        have hsilent : Silent log := hlog ▸ silent_append.mpr ⟨hfirst, hsecond⟩
        exact ⟨fun a ha => (h.count a).trans (hcount a ha), fun hloud => absurd hsilent hloud,
          fun _ => hnever⟩
  | true =>
      have hfirst : ¬ Silent first := fun hs => absurd (hrecv.mpr hs) (by decide)
      have hlog : log = first ++ .recvFinished :: second := by rw [heq]; simp
      have hloud : ¬ Silent log := fun hs => hfirst (silent_append.mp (hlog ▸ hs)).1
      constructor
      · intro hcloses
        refine ⟨fun a ha => h.count a ▸ hcloses.serviced a ha, ?_⟩
        obtain ⟨before, after, hsplit, -, -, hafter⟩ := hcloses.finished hloud
        have hends : second = after := ((List.append_cons_inj_of_notMem h.notFirst h.notSecond).mp
          (hlog.symm.trans hsplit)).2.2
        exact hends ▸ hafter
      · rintro ⟨hcount, hsecond⟩
        refine ⟨fun a ha => (h.count a).trans (hcount a ha), fun _ => ?_, fun hs => absurd hs hloud⟩
        exact ⟨first, second, hlog, h.notFirst, h.notSecond, hsecond⟩

theorem counts_iff {l l' : List ℕ} :
    (∀ a ∈ l, l.count a + l'.count a = 1) ↔ l.Nodup ∧ ∀ a ∈ l, a ∉ l' := by
  rw [List.nodup_iff_count_eq_one, ← forall₂_and]
  refine forall₂_congr fun a ha => ?_
  have hpos := List.count_pos_iff.mpr ha
  rw [← List.count_eq_zero]
  omega

/-- **The batch is closed** exactly when no socket of `receive_sockets_` is listed
again, there or in `send_sockets_`, and the pass over `send_sockets_` reads
nothing. -/
theorem closesBatch_iff {s : TCPServer} {received sent : ℕ → Service}
    (h : s.sendAndRecv sockets received sent = .ok (sockets', log)) :
    ClosesBatch s log ↔
      s.receiveSockets.Nodup ∧ (∀ a ∈ s.receiveSockets, a ∉ s.sendSockets) ∧
      ∀ i a, s.sendSockets[i]? = some a →
        ¬ (sent i).recvmsg.result (sockets a).iovLen > 0 := by
  obtain ⟨first, second, recv, hparts⟩ := sendAndRecv_eq_ok h
  rw [hparts.closes_iff, counts_iff, and_assoc]
  exact and_congr_right fun _ => and_congr_right fun hdisjoint => hparts.silent hdisjoint

def newSocket : TCPSocket := .construct (fun _ => 0) fun _ => 0

/-- Two sockets with incoming bytes, and a third one that is only written to. -/
theorem closesBatch_iff_three : ∃ sockets' log,
    sendAndRecv ⟨0, [1, 2], [3]⟩ (fun _ => newSocket)
      (fun _ => ⟨Traffic.twoBytes, [], Traffic.takesEverything⟩)
      (fun _ => ⟨Traffic.noBytes, [], Traffic.takesEverything⟩) = .ok (sockets', log) ∧
    ClosesBatch ⟨0, [1, 2], [3]⟩ log := by
  obtain ⟨⟨sockets', log⟩, hok, -⟩ := exists_of_succeedsWith
    (x := sendAndRecv ⟨0, [1, 2], [3]⟩ (fun _ => newSocket)
      (fun _ => ⟨Traffic.twoBytes, [], Traffic.takesEverything⟩)
      (fun _ => ⟨Traffic.noBytes, [], Traffic.takesEverything⟩))
    (p := fun _ => true) (by decide +kernel)
  refine ⟨sockets', log, hok, (closesBatch_iff hok).mpr ⟨by decide, by decide, ?_⟩⟩
  exact fun _ _ _ => by decide

/-- A socket in both lists, with bytes that arrive between its two services. -/
theorem batch_left_open :
    ¬ ∀ (s : TCPServer) (sockets : ℕ → TCPSocket) (received sent : ℕ → Service)
      (sockets' : ℕ → TCPSocket) (log : List RoundEvent),
      s.sendAndRecv sockets received sent = .ok (sockets', log) → ClosesBatch s log := by
  intro hall
  obtain ⟨⟨sockets', log⟩, hok, hlog⟩ := exists_of_succeedsWith
    (x := sendAndRecv ⟨0, [1], [1]⟩ (fun _ => newSocket)
      (fun _ => ⟨Traffic.noBytes, [], Traffic.takesEverything⟩)
      (fun _ => ⟨Traffic.twoBytes, [], Traffic.takesEverything⟩))
    (p := fun r => decide (r.2 = [.serviced 1, .serviced 1, .recvCallback 1]))
    (by decide +kernel)
  have hcloses := hall _ _ _ _ _ _ hok
  have hlog := of_decide_eq_true hlog
  dsimp only at hlog
  subst hlog
  obtain ⟨before, after, hsplit, -⟩ := hcloses.finished fun hs => hs 1 (by simp)
  have hmem : .recvFinished ∈ before ++ RoundEvent.recvFinished :: after := by simp
  rw [← hsplit] at hmem
  simp at hmem

end TCPServer

end LowLatency.Common
