import LowLatency.Common.TCPSocket

/-!
When `TCPSocket::send` stays inside its buffer.

`sendAndRecv` bounds what it reads by the room left in the receive buffer; `send`
copies whatever it is given, behind everything that was passed to it since the
last `sendAndRecv`. So it is the sum of these lengths that decides, the reply of
the receive callback included.
-/

namespace LowLatency.Common

open LowLatency.Lib

namespace TCPSocket

theorem passedBy_append (calls calls' : List SocketCall) :
    passedBy (calls ++ calls') = passedBy calls ++ passedBy calls' :=
  List.flatMap_append

@[simp] theorem passedBy_send (data : List UInt8) : passedBy [.send data] = data := by
  simp [passedBy]

theorem nextSendValidIdx_of_run {s s' : TCPSocket} {calls : List SocketCall}
    (h : calls.foldlM call s = .ok s') :
    s'.nextSendValidIdx = s.nextSendValidIdx + (passedBy calls).length := by
  rw [← length_buffered s', (called_of_run h).buffered, List.length_append, length_buffered]

theorem calls_fit_iff {s : TCPSocket} (hle : s.nextSendValidIdx ≤ tcpBufferSize)
    (callback : List SocketCall) :
    s.nextSendValidIdx + (passedBy callback).length ≤ tcpBufferSize ↔
      ∀ calls data s', calls ++ [.send data] <+: callback → calls.foldlM call s = .ok s' →
        s'.nextSendValidIdx + data.length ≤ tcpBufferSize := by
  constructor
  · rintro hfits calls data s' ⟨rest, rfl⟩ hrun
    rw [nextSendValidIdx_of_run hrun]
    rw [passedBy_append, passedBy_append, passedBy_send, List.length_append,
      List.length_append] at hfits
    omega
  · intro hsends
    induction callback using List.reverseRecOn with
    | nil => exact hle
    | append_singleton callback c ih =>
        have hfits := ih fun calls data s' hpre =>
          hsends calls data s' (hpre.trans (List.prefix_append callback [c]))
        rw [passedBy_append, List.length_append]
        cases c with
        | setNextRecvValidIdx i => exact hfits
        | send data =>
            obtain ⟨s', hrun⟩ := calls_total hfits
            have hlast := hsends callback data s' (List.prefix_refl _) hrun
            rw [nextSendValidIdx_of_run hrun] at hlast
            rw [passedBy_send]
            omega

end TCPSocket

namespace Traffic

open TCPSocket

/-- A call `send(data)` made in an event: by the event itself, or by the receive
callback on the socket as its earlier calls left it. -/
inductive Sends (u : TCPSocket) : SocketEvent → TCPSocket → List UInt8 → Prop
  | direct (data : List UInt8) : Sends u (.send data) u data
  | callback {recvmsg : Recvmsg} {callback calls : List SocketCall} {send : KernelSend}
      {s : TCPSocket} {data : List UInt8} (hpos : recvmsg.result u.iovLen > 0)
      (hcalls : calls ++ [.send data] <+: callback)
      (hrun : calls.foldlM call (u.counted recvmsg) = .ok s) :
      Sends u (.sendAndRecv recvmsg callback send) s data

/-- No `memcpy` of the run leaves the send buffer, and so the run comes to its end. -/
structure StaysInside (sendMem recvMem : ℕ → UInt8) (evs : List SocketEvent) : Prop where
  memcpy : ∀ pre e u s data, pre ++ [e] <+: evs → (start sendMem recvMem).run pre = .ok u →
    Sends u.socket e s data → s.nextSendValidIdx + data.length ≤ tcpBufferSize
  index : ∀ pre u, pre <+: evs → (start sendMem recvMem).run pre = .ok u →
    u.socket.nextSendValidIdx ≤ tcpBufferSize
  returns : ∃ t, (start sendMem recvMem).run evs = .ok t

/-- The number of bytes the event passes to `send`. -/
def added (s : TCPSocket) : SocketEvent → ℕ
  | .send data => data.length
  | .sendAndRecv recvmsg callback _ =>
      if recvmsg.result s.iovLen > 0 then (passedBy callback).length else 0

/-- The number of bytes passed to `send` since the last `sendAndRecv`. -/
def unflushed (evs : List SocketEvent) : ℕ :=
  evs.foldl (fun n e =>
    match e with
    | .send data => n + data.length
    | .sendAndRecv .. => 0) 0

theorem fits_iff_added {s : TCPSocket} {e : SocketEvent} :
    Fits s e ↔ s.nextSendValidIdx + added s e ≤ tcpBufferSize := by
  cases e with
  | send data => exact Iff.rfl
  | sendAndRecv recvmsg callback send => exact Iff.rfl

theorem fits_iff_sends {u : TCPSocket} (hle : u.nextSendValidIdx ≤ tcpBufferSize)
    {e : SocketEvent} :
    Fits u e ↔ ∀ s data, Sends u e s data → s.nextSendValidIdx + data.length ≤ tcpBufferSize := by
  cases e with
  | send data =>
      constructor
      · rintro hfits s data ⟨⟩
        exact hfits
      · intro hsends
        exact hsends u data (.direct data)
  | sendAndRecv recvmsg callback send =>
      have hle' : (u.counted recvmsg).nextSendValidIdx ≤ tcpBufferSize := hle
      rw [Fits, given]
      split
      · rename_i hpos
        refine (calls_fit_iff hle' callback).trans ⟨fun hsends s data hs => ?_, ?_⟩
        · cases hs with
          | callback _ hcalls hrun => exact hsends _ data s hcalls hrun
        · intro hsends calls data s' hcalls hrun
          exact hsends s' data (.callback hpos hcalls hrun)
      · rename_i hpos
        refine iff_of_true hle fun s data hs => ?_
        cases hs with
        | callback hpos' _ _ => exact absurd hpos' hpos

/-- The step lemma: the index counts the bytes since the last flush. -/
theorem nextSendValidIdx_step {t t' : Traffic} {e : SocketEvent} {pre : List SocketEvent}
    (h : t.socket.nextSendValidIdx = unflushed pre) (hok : t.step e = .ok t') :
    t'.socket.nextSendValidIdx = unflushed (pre ++ [e]) := by
  rw [unflushed, List.foldl_append, ← unflushed, ← h]
  cases e with
  | send data =>
      obtain ⟨s, hsend, hok⟩ := bind_eq_ok.mp hok
      rw [Except.ok.injEq] at hok
      subst hok
      obtain ⟨-, rfl⟩ := send_eq_ok.mp hsend
      rfl
  | sendAndRecv recvmsg callback send =>
      obtain ⟨out, hout, hok⟩ := bind_eq_ok.mp hok
      rw [Except.ok.injEq] at hok
      subst hok
      obtain ⟨-, -, -, hempty, -⟩ := sendAndRecv_out hout
      have hlen := length_buffered out.socket
      rw [hempty] at hlen
      exact hlen.symm

theorem nextSendValidIdx_run {sendMem recvMem : ℕ → UInt8} {evs : List SocketEvent}
    {t : Traffic} (h : (start sendMem recvMem).run evs = .ok t) :
    t.socket.nextSendValidIdx = unflushed evs :=
  run_invariant (fun pre u => u.socket.nextSendValidIdx = unflushed pre) rfl
    (fun _ _ _ _ _ hu hstep => nextSendValidIdx_step hu hstep) h

theorem nextSendValidIdx_le_of_fits {t t' : Traffic} {e : SocketEvent}
    (hfits : Fits t.socket e) (hok : t.step e = .ok t') :
    t'.socket.nextSendValidIdx ≤ tcpBufferSize := by
  -- what is buffered stands for the events before
  have hstart : t.socket.nextSendValidIdx = unflushed [.send t.socket.buffered] := by
    simp [unflushed]
  rw [nextSendValidIdx_step hstart hok]
  cases e with
  | send data =>
      rw [Fits] at hfits
      simp only [unflushed, List.foldl, List.cons_append, List.nil_append, length_buffered]
      omega
  | sendAndRecv recvmsg callback send => exact Nat.zero_le _

/-- **The send buffer is never overrun** exactly in the runs in which, at every
event, the bytes since the last flush and those of the event fit into it. -/
theorem staysInside_iff (sendMem recvMem : ℕ → UInt8) (evs : List SocketEvent) :
    StaysInside sendMem recvMem evs ↔
      ∀ pre e u, pre ++ [e] <+: evs → (start sendMem recvMem).run pre = .ok u →
        unflushed pre + added u.socket e ≤ tcpBufferSize := by
  have hunflushed : ∀ {pre u e}, (start sendMem recvMem).run pre = .ok u →
      (unflushed pre + added u.socket e ≤ tcpBufferSize ↔ Fits u.socket e) := by
    intro pre u e hu
    rw [fits_iff_added, nextSendValidIdx_run hu]
  constructor
  · intro h pre e u hpre hu
    have hle := h.index pre u ((List.prefix_append pre [e]).trans hpre) hu
    have hfits : Fits u.socket e :=
      (fits_iff_sends hle).mpr fun s data => h.memcpy pre e u s data hpre hu
    exact (hunflushed hu).mpr hfits
  · intro h
    have hindex : ∀ pre u, pre <+: evs → (start sendMem recvMem).run pre = .ok u →
        u.socket.nextSendValidIdx ≤ tcpBufferSize := by
      intro pre u hpre hu
      refine (run_invariant (fun l v => (start sendMem recvMem).run l = .ok v ∧
        v.socket.nextSendValidIdx ≤ tcpBufferSize) ⟨rfl, Nat.zero_le _⟩ ?_ hu).2
      rintro l e v v' hl ⟨hv, -⟩ hstep
      exact ⟨run_snoc_eq_ok.mpr ⟨v, hv, hstep⟩, nextSendValidIdx_le_of_fits
        ((hunflushed hv).mp (h l e v (hl.trans hpre) hv)) hstep⟩
    refine ⟨fun pre e u s data hpre hu hs => ?_, hindex, ?_⟩
    · have hle := hindex pre u ((List.prefix_append pre [e]).trans hpre) hu
      exact (fits_iff_sends hle).mp ((hunflushed hu).mp (h pre e u hpre hu)) s data hs
    · obtain ⟨t, hrun, -⟩ := run_ok step (start sendMem recvMem) evs
        (fun l v => (start sendMem recvMem).run l = .ok v) rfl fun l e v hl hv => by
          obtain ⟨v', hv'⟩ := step_total v ((hunflushed hv).mp (h l e v hl hv))
          exact ⟨v', hv', run_snoc_eq_ok.mpr ⟨v, hv, hv'⟩⟩
      exact ⟨t, hrun⟩

/-- A peer that fills whatever room there is. -/
def fullBuffer : Recvmsg where
  result len := len
  stored len := List.replicate len 0
  result_le _ := Int.le_refl _
  length_stored _ := by simp

theorem length_fullBuffer (len : ℕ) : (fullBuffer.stored len).length = len :=
  List.length_replicate

/-- The reply of an echo server: the message behind `TCPServer received msg:`. -/
def echoed (msg : List UInt8) : List UInt8 :=
  [84, 67, 80, 83, 101, 114, 118, 101, 114, 32, 114, 101, 99, 101, 105, 118, 101, 100, 32, 109,
    115, 103, 58] ++ msg

theorem length_lt_echoed (msg : List UInt8) : msg.length < (echoed msg).length := by
  rw [echoed, List.length_append]
  exact Nat.lt_add_of_pos_left (by decide)

/-- The receive callback of an echo server. -/
def echo (msg : List UInt8) : List SocketCall := [.setNextRecvValidIdx 0, .send (echoed msg)]

/-- A message that fills the receive buffer, and its echo no longer fits. -/
theorem echo_leaves_buffer :
    ¬ ∀ sendMem recvMem evs, StaysInside sendMem recvMem evs := by
  intro hall
  let msg := fullBuffer.stored tcpBufferSize
  have hmsg : msg.length = tcpBufferSize := length_fullBuffer tcpBufferSize
  let s := (construct (fun _ => 0) (fun _ => 0)).counted fullBuffer
  have hrun : [SocketCall.setNextRecvValidIdx 0].foldlM call s =
      .ok (s.setNextRecvValidIdx 0) := rfl
  have hcalls : [.setNextRecvValidIdx 0] ++ [.send (echoed msg)] <+: echo msg :=
    List.prefix_refl _
  have hsends : Sends (construct (fun _ => 0) (fun _ => 0))
      (.sendAndRecv fullBuffer (echo msg) takesEverything) (s.setNextRecvValidIdx 0)
      (echoed msg) :=
    .callback (by decide +kernel) hcalls hrun
  have hfits := (hall (fun _ => 0) (fun _ => 0)
    [.sendAndRecv fullBuffer (echo msg) takesEverything]).memcpy [] _ _ _ _
    (List.prefix_refl _) rfl hsends
  have hlt := length_lt_echoed msg
  rw [hmsg] at hlt
  exact absurd ((Nat.le_add_left ..).trans hfits) (Nat.not_le.mpr hlt)

end Traffic

end LowLatency.Common
