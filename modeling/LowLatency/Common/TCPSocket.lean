import Mathlib.Algebra.Group.Int.Defs
import Mathlib.Algebra.Group.Nat.Defs
import LowLatency.Lib.Buffer
import LowLatency.Common.Types

/-!
`tcp_socket.hpp` and `tcp_socket.cpp`: a socket with a buffer for each
direction.

What the kernel does is left open but for its contract, which the types of its
two answers carry. `Traffic` keeps the bytes that were passed to `send`, those
the kernel took, and those received since the receive buffer was last reset;
the two buffers are compared with these.
-/

namespace LowLatency.Common

open LowLatency.Lib

def tcpBufferSize : ℕ := 64 * 1024 * 1024

def toSizeT (x : ℤ) : ℕ := (x % 2 ^ 64).toNat

theorem toSizeT_of_lt {n : ℕ} (h : n < 2 ^ 64) : toSizeT n = n := by
  rw [toSizeT]
  omega

structure TCPSocket where
  sendBuffer : ℕ → UInt8
  recvBuffer : ℕ → UInt8
  nextSendValidIdx : ℕ
  nextRecvValidIdx : ℕ

/-- How `recvmsg` answers, by the length of the iovec: what it returns, and the
bytes it stores at the base. -/
structure Recvmsg where
  result : ℕ → ℤ
  stored : ℕ → List UInt8
  result_le : ∀ len, result len ≤ len
  length_stored : ∀ len, (stored len).length = (result len).toNat

theorem Recvmsg.stored_eq_nil (recvmsg : Recvmsg) {len : ℕ} (h : ¬ recvmsg.result len > 0) :
    recvmsg.stored len = [] := by
  have hlen := recvmsg.length_stored len
  exact List.eq_nil_of_length_eq_zero (by omega)

/-- How `::send` answers, by the number of bytes it is given: it takes some of
the first of them, or none. -/
structure KernelSend where
  result : ℕ → ℤ
  contract : ∀ m > 0, (0 ≤ result m ∧ result m ≤ m) ∨ result m = -1

/-- A call the receive callback makes on its socket. -/
inductive SocketCall
  | setNextRecvValidIdx (recvIdx : ℤ)
  | send (data : List UInt8)

namespace TCPSocket

def construct (sendMem recvMem : ℕ → UInt8) : TCPSocket := ⟨sendMem, recvMem, 0, 0⟩

def buffered (s : TCPSocket) : List UInt8 := contents s.sendBuffer s.nextSendValidIdx

def unread (s : TCPSocket) : List UInt8 := contents s.recvBuffer s.nextRecvValidIdx

/-- `send(data, len)`. The `memcpy` has no meaning past the end of the buffer. -/
def send (s : TCPSocket) (data : List UInt8) : Exec TCPSocket :=
  if s.nextSendValidIdx + data.length ≤ tcpBufferSize then
    .ok { s with
      sendBuffer := copyAt s.sendBuffer s.nextSendValidIdx data
      nextSendValidIdx := toSizeT (s.nextSendValidIdx + data.length) }
  else
    .error .undefined

def setNextRecvValidIdx (s : TCPSocket) (recvIdx : ℤ) : TCPSocket :=
  { s with nextRecvValidIdx := toSizeT recvIdx }

def call (s : TCPSocket) : SocketCall → Exec TCPSocket
  | .setNextRecvValidIdx recvIdx => .ok (s.setNextRecvValidIdx recvIdx)
  | .send data => s.send data

def iovLen (s : TCPSocket) : ℕ := toSizeT (tcpBufferSize - s.nextRecvValidIdx)

/-- `sendAndRecv` up to the return of the callback, which makes the calls
`callback`; the result is the socket, the returned value and the socket at each
run of the callback. -/
def receive (s : TCPSocket) (recvmsg : Recvmsg) (callback : List SocketCall) :
    Exec (TCPSocket × Bool × List TCPSocket) :=
  let readSize := recvmsg.result s.iovLen
  let s' := { s with
    recvBuffer := copyAt s.recvBuffer s.nextRecvValidIdx (recvmsg.stored s.iovLen) }
  if readSize > 0 then do
    let seen := { s' with nextRecvValidIdx := toSizeT (s'.nextRecvValidIdx + readSize) }
    let s' ← callback.foldlM call seen
    .ok (s', true, [seen])
  else
    .ok (s', false, [])

/-- The rest of `sendAndRecv`, with the bytes the kernel takes. -/
def flush (s : TCPSocket) (send : KernelSend) : TCPSocket × List UInt8 :=
  let taken :=
    if s.nextSendValidIdx > 0 then
      s.buffered.take (send.result s.nextSendValidIdx).toNat
    else
      []
  -- the index goes back to 0 whatever `::send` returned
  ({ s with nextSendValidIdx := 0 }, taken)

structure Outcome where
  socket : TCPSocket
  result : Bool
  callbacks : List TCPSocket
  taken : List UInt8

def sendAndRecv (s : TCPSocket) (recvmsg : Recvmsg) (callback : List SocketCall)
    (send : KernelSend) : Exec Outcome := do
  let (s, result, callbacks) ← s.receive recvmsg callback
  let (s, taken) := s.flush send
  .ok ⟨s, result, callbacks, taken⟩

/-! ### One call -/

@[simp] theorem length_buffered (s : TCPSocket) : s.buffered.length = s.nextSendValidIdx :=
  length_contents ..

theorem toSizeT_of_le {n : ℕ} (h : n ≤ tcpBufferSize) : toSizeT n = n :=
  toSizeT_of_lt (h.trans_lt (by decide))

/-- The send buffer after the data has been put behind what it holds. -/
def sendBehind (s : TCPSocket) (data : List UInt8) : TCPSocket :=
  { s with
    sendBuffer := copyAt s.sendBuffer s.nextSendValidIdx data
    nextSendValidIdx := s.nextSendValidIdx + data.length }

theorem send_eq_ok {s s' : TCPSocket} {data : List UInt8} :
    s.send data = .ok s' ↔
      s.nextSendValidIdx + data.length ≤ tcpBufferSize ∧ s' = s.sendBehind data := by
  rw [send]
  split
  · rename_i hfits
    have hidx : toSizeT (s.nextSendValidIdx + data.length) = s.nextSendValidIdx + data.length :=
      toSizeT_of_le hfits
    rw [hidx, Except.ok.injEq, and_iff_right hfits, eq_comm, sendBehind]
  · rename_i hfits
    simp [hfits]

@[simp] theorem buffered_sendBehind (s : TCPSocket) (data : List UInt8) :
    (s.sendBehind data).buffered = s.buffered ++ data := contents_copyAt ..

@[simp] theorem nextSendValidIdx_sendBehind (s : TCPSocket) (data : List UInt8) :
    (s.sendBehind data).nextSendValidIdx = s.nextSendValidIdx + data.length := rfl

/-- The data a callback passes to `send`. -/
def passedBy (callback : List SocketCall) : List UInt8 :=
  callback.flatMap fun
    | .setNextRecvValidIdx _ => []
    | .send data => data

/-- The callback resets the receive buffer. -/
def resets (callback : List SocketCall) : Bool :=
  callback.any fun
    | .setNextRecvValidIdx _ => true
    | .send _ => false

structure Called (s s' : TCPSocket) (callback : List SocketCall) : Prop where
  buffered : s'.buffered = s.buffered ++ passedBy callback
  recvBuffer : s'.recvBuffer = s.recvBuffer
  nextRecvValidIdx : (∀ i, .setNextRecvValidIdx i ∈ callback → i = 0) →
    s'.nextRecvValidIdx = if resets callback then 0 else s.nextRecvValidIdx

theorem called_of_run {s s' : TCPSocket} {callback : List SocketCall}
    (h : callback.foldlM call s = .ok s') : Called s s' callback := by
  induction callback generalizing s with
  | nil =>
      rw [List.foldlM_nil, pure_eq_ok, Except.ok.injEq] at h
      subst h
      exact ⟨by simp [passedBy], rfl, fun _ => rfl⟩
  | cons c callback ih =>
      rw [List.foldlM_cons] at h
      obtain ⟨s₁, hcall, hrest⟩ := bind_eq_ok.mp h
      have hs := ih hrest
      cases c with
      | setNextRecvValidIdx i =>
          rw [call, Except.ok.injEq] at hcall
          subst hcall
          refine ⟨hs.buffered, hs.recvBuffer, fun hzero => ?_⟩
          have hi : i = 0 := hzero i (by simp)
          subst hi
          rw [hs.nextRecvValidIdx fun j hj => hzero j (List.mem_cons_of_mem _ hj)]
          simp [resets, setNextRecvValidIdx, toSizeT]
      | send data =>
          obtain ⟨-, rfl⟩ := send_eq_ok.mp hcall
          refine ⟨?_, hs.recvBuffer, fun hzero => ?_⟩
          · rw [hs.buffered, buffered_sendBehind, List.append_assoc]
            rfl
          · rw [hs.nextRecvValidIdx fun j hj => hzero j (List.mem_cons_of_mem _ hj)]
            rfl

theorem calls_total {s : TCPSocket} {callback : List SocketCall}
    (hfits : s.nextSendValidIdx + (passedBy callback).length ≤ tcpBufferSize) :
    ∃ s', callback.foldlM call s = .ok s' := by
  induction callback generalizing s with
  | nil => exact ⟨s, rfl⟩
  | cons c callback ih =>
      rw [List.foldlM_cons]
      cases c with
      | setNextRecvValidIdx i => exact ih (s := s.setNextRecvValidIdx i) hfits
      | send data =>
          have hdata : (passedBy (.send data :: callback)).length =
              data.length + (passedBy callback).length := by simp [passedBy]
          rw [hdata] at hfits
          have hsend : s.call (.send data) = .ok (s.sendBehind data) :=
            send_eq_ok.mpr ⟨by omega, rfl⟩
          rw [hsend, ok_bind]
          apply ih
          rw [nextSendValidIdx_sendBehind]
          omega

/-- The socket as the callback sees it: the received bytes are stored and
counted. -/
def counted (s : TCPSocket) (recvmsg : Recvmsg) : TCPSocket :=
  { s with
    recvBuffer := copyAt s.recvBuffer s.nextRecvValidIdx (recvmsg.stored s.iovLen)
    nextRecvValidIdx := toSizeT (s.nextRecvValidIdx + recvmsg.result s.iovLen) }

theorem receive_eq_ok {s s' : TCPSocket} {recvmsg : Recvmsg} {callback : List SocketCall}
    {result : Bool} {seen : List TCPSocket}
    (h : s.receive recvmsg callback = .ok (s', result, seen)) :
    (recvmsg.result s.iovLen > 0 ∧ result = true ∧ seen = [s.counted recvmsg] ∧
      Called (s.counted recvmsg) s' callback) ∨
    (¬ recvmsg.result s.iovLen > 0 ∧ result = false ∧ seen = [] ∧ s' = s) := by
  rw [receive] at h
  simp only at h
  split at h
  · rename_i hpos
    obtain ⟨s₁, hcalls, h⟩ := bind_eq_ok.mp h
    simp only [Except.ok.injEq, Prod.mk.injEq] at h
    obtain ⟨rfl, rfl, rfl⟩ := h
    exact .inl ⟨hpos, rfl, rfl, called_of_run hcalls⟩
  · rename_i hpos
    simp only [Except.ok.injEq, Prod.mk.injEq] at h
    obtain ⟨rfl, rfl, rfl⟩ := h
    refine .inr ⟨hpos, rfl, rfl, ?_⟩
    rw [recvmsg.stored_eq_nil hpos, copyAt_nil]

theorem iovLen_add {s : TCPSocket} (h : s.nextRecvValidIdx ≤ tcpBufferSize) :
    s.iovLen + s.nextRecvValidIdx = tcpBufferSize := by
  have hlen : (tcpBufferSize : ℤ) - s.nextRecvValidIdx =
      ((tcpBufferSize - s.nextRecvValidIdx : ℕ) : ℤ) := by omega
  rw [iovLen, hlen, toSizeT_of_le (by omega)]
  omega

theorem counted_recv {s : TCPSocket} (h : s.nextRecvValidIdx ≤ tcpBufferSize)
    {recvmsg : Recvmsg} (hpos : recvmsg.result s.iovLen > 0) :
    (s.counted recvmsg).nextRecvValidIdx =
        s.nextRecvValidIdx + (recvmsg.stored s.iovLen).length ∧
      (s.counted recvmsg).nextRecvValidIdx ≤ tcpBufferSize ∧
      (s.counted recvmsg).unread = s.unread ++ recvmsg.stored s.iovLen := by
  have hlen := recvmsg.length_stored s.iovLen
  have hle := recvmsg.result_le s.iovLen
  have hiov := iovLen_add h
  have hsum : s.nextRecvValidIdx + recvmsg.result s.iovLen =
      ((s.nextRecvValidIdx + (recvmsg.stored s.iovLen).length : ℕ) : ℤ) := by omega
  have hfits : s.nextRecvValidIdx + (recvmsg.stored s.iovLen).length ≤ tcpBufferSize := by omega
  have hidx : (s.counted recvmsg).nextRecvValidIdx =
      s.nextRecvValidIdx + (recvmsg.stored s.iovLen).length := by
    rw [counted, hsum, toSizeT_of_le hfits]
  refine ⟨hidx, hidx ▸ hfits, ?_⟩
  rw [unread, hidx]
  exact contents_copyAt ..

/-- The number of bytes `::send` is given by a call of `sendAndRecv`. -/
def given (s : TCPSocket) (recvmsg : Recvmsg) (callback : List SocketCall) : ℕ :=
  s.nextSendValidIdx +
    if recvmsg.result s.iovLen > 0 then (passedBy callback).length else 0

theorem receive_total {s : TCPSocket} {recvmsg : Recvmsg} {callback : List SocketCall}
    (hfits : s.given recvmsg callback ≤ tcpBufferSize) :
    ∃ r, s.receive recvmsg callback = .ok r := by
  rw [receive]
  simp only
  split
  · rename_i hpos
    rw [given, if_pos hpos] at hfits
    obtain ⟨s', hcalls⟩ := calls_total (s := s.counted recvmsg) hfits
    rw [counted] at hcalls
    exact ⟨_, by rw [hcalls, ok_bind]⟩
  · exact ⟨_, rfl⟩

theorem sendAndRecv_out {s : TCPSocket} {recvmsg : Recvmsg} {callback : List SocketCall}
    {send : KernelSend} {out : Outcome} (h : s.sendAndRecv recvmsg callback send = .ok out) :
    ∃ all, all = s.buffered ++ (if out.result then passedBy callback else []) ∧
      all.length = s.given recvmsg callback ∧ out.socket.buffered = [] ∧
      out.taken =
        if all.length > 0 then all.take (send.result all.length).toNat else [] := by
  obtain ⟨⟨s', result, seen⟩, hreceive, h⟩ := bind_eq_ok.mp h
  rw [Except.ok.injEq] at h
  subst h
  refine ⟨s'.buffered, ?_, ?_, rfl, by rw [length_buffered]; rfl⟩
  · rcases receive_eq_ok hreceive with ⟨-, rfl, -, hcalled⟩ | ⟨-, rfl, -, rfl⟩
    · exact hcalled.buffered
    · simp
  · rw [given]
    rcases receive_eq_ok hreceive with ⟨hpos, -, -, hcalled⟩ | ⟨hpos, -, -, rfl⟩
    · rw [if_pos hpos, hcalled.buffered, List.length_append, length_buffered]
      rfl
    · rw [if_neg hpos, length_buffered, Nat.add_zero]

theorem sendAndRecv_eq_ok {s : TCPSocket} {recvmsg : Recvmsg} {callback : List SocketCall}
    {send : KernelSend} {out : Outcome} (h : s.sendAndRecv recvmsg callback send = .ok out) :
    (recvmsg.result s.iovLen > 0 ∧ out.result = true ∧ out.callbacks = [s.counted recvmsg] ∧
      out.socket.recvBuffer = (s.counted recvmsg).recvBuffer ∧
      ((∀ i, .setNextRecvValidIdx i ∈ callback → i = 0) → out.socket.nextRecvValidIdx =
        if resets callback then 0 else (s.counted recvmsg).nextRecvValidIdx)) ∨
    (¬ recvmsg.result s.iovLen > 0 ∧ out.result = false ∧ out.callbacks = [] ∧
      out.socket.recvBuffer = s.recvBuffer ∧
      out.socket.nextRecvValidIdx = s.nextRecvValidIdx) := by
  obtain ⟨⟨s', result, seen⟩, hreceive, h⟩ := bind_eq_ok.mp h
  rw [Except.ok.injEq] at h
  subst h
  rcases receive_eq_ok hreceive with ⟨hpos, rfl, rfl, hcalled⟩ | ⟨hpos, rfl, rfl, rfl⟩
  · exact .inl ⟨hpos, rfl, rfl, hcalled.recvBuffer, hcalled.nextRecvValidIdx⟩
  · exact .inr ⟨hpos, rfl, rfl, rfl, rfl⟩

theorem sendAndRecv_unread {s : TCPSocket} (hle : s.nextRecvValidIdx ≤ tcpBufferSize)
    {recvmsg : Recvmsg} {callback : List SocketCall}
    (hreset : ∀ i, .setNextRecvValidIdx i ∈ callback → i = 0) {send : KernelSend}
    {out : Outcome} (h : s.sendAndRecv recvmsg callback send = .ok out) :
    out.socket.nextRecvValidIdx ≤ tcpBufferSize ∧
      out.socket.unread =
        if out.result && resets callback then [] else s.unread ++ recvmsg.stored s.iovLen := by
  rcases sendAndRecv_eq_ok h with ⟨hpos, hres, -, hbuf, hidx⟩ | ⟨hpos, hres, -, hbuf, hidx⟩
  · obtain ⟨-, hfits, hunread⟩ := counted_recv hle hpos
    have hidx := hidx hreset
    rw [hres, Bool.true_and]
    cases hcb : resets callback with
    | true =>
        rw [hcb, if_pos rfl] at hidx
        rw [hidx, unread, hidx]
        exact ⟨Nat.zero_le _, rfl⟩
    | false =>
        rw [hcb, if_neg Bool.false_ne_true] at hidx
        rw [if_neg Bool.false_ne_true, ← hunread, unread, hbuf, hidx]
        exact ⟨hfits, rfl⟩
  · rw [hres, Bool.false_and, if_neg Bool.false_ne_true, recvmsg.stored_eq_nil hpos,
      List.append_nil, unread, hbuf, hidx]
    exact ⟨hle, rfl⟩

end TCPSocket

/-! ### Traffic -/

inductive SocketEvent
  | send (data : List UInt8)
  | sendAndRecv (recvmsg : Recvmsg) (callback : List SocketCall) (send : KernelSend)

/-- A socket together with what went through it. -/
structure Traffic where
  socket : TCPSocket
  passed : List UInt8
  taken : List UInt8
  received : List UInt8

namespace Traffic

open TCPSocket

def start (sendMem recvMem : ℕ → UInt8) : Traffic := ⟨.construct sendMem recvMem, [], [], []⟩

def step (t : Traffic) : SocketEvent → Exec Traffic
  | .send data => do
      let s ← t.socket.send data
      .ok { t with socket := s, passed := t.passed ++ data }
  | .sendAndRecv recvmsg callback send => do
      let out ← t.socket.sendAndRecv recvmsg callback send
      let stored := recvmsg.stored t.socket.iovLen
      .ok {
        socket := out.socket
        passed := if out.result then t.passed ++ passedBy callback else t.passed
        taken := t.taken ++ out.taken
        received := if out.result && resets callback then [] else t.received ++ stored }

def run (t : Traffic) (evs : List SocketEvent) : Exec Traffic := evs.foldlM step t

/-- The data of the event fits into the send buffer. -/
def Fits (s : TCPSocket) : SocketEvent → Prop
  | .send data => s.nextSendValidIdx + data.length ≤ tcpBufferSize
  | .sendAndRecv recvmsg callback _ => s.given recvmsg callback ≤ tcpBufferSize

/-- Nothing but the size of the send buffer stops a run. -/
theorem step_total (t : Traffic) {e : SocketEvent} (h : Fits t.socket e) :
    ∃ t', t.step e = .ok t' := by
  cases e with
  | send data =>
      have hsend : t.socket.send data = .ok (t.socket.sendBehind data) :=
        send_eq_ok.mpr ⟨h, rfl⟩
      exact ⟨_, by rw [step, hsend, ok_bind]⟩
  | sendAndRecv recvmsg callback send =>
      obtain ⟨r, hr⟩ := receive_total h
      exact ⟨_, by rw [step, sendAndRecv, hr]; rfl⟩

/-! ### Outgoing bytes -/

/-- The bytes the kernel has taken and those still buffered are all the data
passed to `send`, in order. -/
def Lossless (t : Traffic) : Prop := t.taken ++ t.socket.buffered = t.passed

/-- If the event leads to a call of `::send`, the kernel takes all it is given. -/
def TakesAll (s : TCPSocket) : SocketEvent → Prop
  | .send _ => True
  | .sendAndRecv recvmsg callback send =>
      s.given recvmsg callback > 0 →
        send.result (s.given recvmsg callback) = s.given recvmsg callback

theorem take_result_iff (send : KernelSend) (all : List UInt8) :
    (if all.length > 0 then all.take (send.result all.length).toNat else []) = all ↔
      (all.length > 0 → send.result all.length = all.length) := by
  by_cases hpos : all.length > 0
  · rw [if_pos hpos, List.take_eq_self_iff]
    have hcontract := send.contract all.length hpos
    constructor
    · intro hle _
      omega
    · intro hall
      have hres := hall hpos
      omega
  · have hnil : all = [] := List.eq_nil_of_length_eq_zero (by omega)
    simp [hnil]

theorem Lossless.step_iff {t t' : Traffic} (h : t.Lossless) {e : SocketEvent}
    (hok : t.step e = .ok t') : t'.Lossless ↔ TakesAll t.socket e := by
  cases e with
  | send data =>
      obtain ⟨s, hsend, hok⟩ := bind_eq_ok.mp hok
      rw [Except.ok.injEq] at hok
      subst hok
      obtain ⟨-, rfl⟩ := send_eq_ok.mp hsend
      refine iff_of_true ?_ trivial
      rw [Lossless] at h ⊢
      dsimp only
      rw [buffered_sendBehind, ← List.append_assoc, h]
  | sendAndRecv recvmsg callback send =>
      obtain ⟨out, hout, hok⟩ := bind_eq_ok.mp hok
      rw [Except.ok.injEq] at hok
      subst hok
      obtain ⟨all, hall, hlen, hempty, htaken⟩ := sendAndRecv_out hout
      rw [TakesAll, ← hlen, ← take_result_iff, ← htaken]
      have hpassed : t.taken ++ all =
          if out.result then t.passed ++ passedBy callback else t.passed := by
        rw [hall, ← List.append_assoc, h]
        split <;> simp
      rw [Lossless]
      dsimp only
      rw [hempty, List.append_nil, ← hpassed, List.append_cancel_left_eq]

/-- **No outgoing byte is lost** in any state of a run exactly when the kernel
takes, at every call of `::send`, all the bytes it is given. -/
theorem lossless_iff {sendMem recvMem : ℕ → UInt8} {evs : List SocketEvent} {t : Traffic}
    (hrun : (start sendMem recvMem).run evs = .ok t) :
    (∀ pre u, pre <+: evs → (start sendMem recvMem).run pre = .ok u → u.Lossless) ↔
      ∀ pre e u, pre ++ [e] <+: evs → (start sendMem recvMem).run pre = .ok u →
        TakesAll u.socket e := by
  constructor
  · intro hall pre e u hpre hu
    obtain ⟨u', hu'⟩ := run_prefix hpre hrun
    obtain ⟨m, hm, hstep⟩ := run_snoc_eq_ok.mp hu'
    have hum : m = u := Except.ok.inj (hm.symm.trans hu)
    subst hum
    have hbefore := hall pre m ((List.prefix_append pre [e]).trans hpre) hu
    exact (hbefore.step_iff hstep).mp (hall _ u' hpre hu')
  · intro htakes pre u hpre hu
    refine (run_invariant (fun l v => (start sendMem recvMem).run l = .ok v ∧ v.Lossless)
      ⟨rfl, rfl⟩ ?_ hu).2
    rintro l e v v' hl ⟨hv, hlossless⟩ hstep
    refine ⟨run_snoc_eq_ok.mpr ⟨v, hv, hstep⟩, (hlossless.step_iff hstep).mpr ?_⟩
    exact htakes l e v (hl.trans hpre) hv

def noBytes : Recvmsg where
  result _ := -1
  stored _ := []
  result_le _ := by omega
  length_stored _ := rfl

def takesUpTo (k : ℕ) : KernelSend where
  result m := min k m
  contract _ _ := by omega

def takesEverything : KernelSend where
  result m := m
  contract _ _ := by omega

theorem lossless_iff_two :
    ∃ t, (start (fun _ => 0) (fun _ => 0)).run
        [.send [1, 2], .send [3], .sendAndRecv noBytes [] takesEverything] = .ok t ∧
      ∀ pre u, pre <+: [.send [1, 2], .send [3], .sendAndRecv noBytes [] takesEverything] →
        (start (fun _ => 0) (fun _ => 0)).run pre = .ok u → u.Lossless := by
  obtain ⟨t, hrun, -⟩ := exists_of_succeedsWith (p := fun _ => true)
    (x := (start (fun _ => 0) (fun _ => 0)).run
      [.send [1, 2], .send [3], .sendAndRecv noBytes [] takesEverything]) (by decide +kernel)
  refine ⟨t, hrun, (lossless_iff hrun).mpr fun pre e u hpre _ => ?_⟩
  have he := hpre.subset (List.mem_append_right pre (List.mem_singleton_self e))
  simp only [List.mem_cons, List.not_mem_nil, or_false] at he
  rcases he with rfl | rfl | rfl
  · exact trivial
  · exact trivial
  · exact fun _ => rfl

/-- The kernel takes the first of two bytes, and the second one is gone. -/
theorem second_byte_lost :
    ∃ t, (start (fun _ => 0) (fun _ => 0)).run
        [.send [1, 2], .sendAndRecv noBytes [] (takesUpTo 1)] = .ok t ∧ ¬ t.Lossless := by
  obtain ⟨t, hrun, hlost⟩ := exists_of_succeedsWith
    (p := fun t => decide (t.taken ++ t.socket.buffered ≠ t.passed))
    (x := (start (fun _ => 0) (fun _ => 0)).run
      [.send [1, 2], .sendAndRecv noBytes [] (takesUpTo 1)]) (by decide +kernel)
  exact ⟨t, hrun, fun h => of_decide_eq_true hlost h⟩

/-! ### Incoming bytes -/

/-- The callback of the event only ever resets the receive index to 0. -/
def ResetsToZero : SocketEvent → Prop
  | .send _ => True
  | .sendAndRecv _ callback _ => ∀ i, .setNextRecvValidIdx i ∈ callback → i = 0

/-- The receive buffer holds the bytes received since the last reset. -/
structure Received (t : Traffic) : Prop where
  le : t.socket.nextRecvValidIdx ≤ tcpBufferSize
  unread : t.socket.unread = t.received

/-- What a call of `sendAndRecv` does with the incoming bytes. -/
structure Reassembles (t : Traffic) (recvmsg : Recvmsg) (out : Outcome) : Prop where
  iovLen : t.socket.iovLen + t.socket.nextRecvValidIdx = tcpBufferSize
  result : out.result = true ↔ recvmsg.result t.socket.iovLen > 0
  once : recvmsg.result t.socket.iovLen > 0 → ∃ seen, out.callbacks = [seen] ∧
    seen.nextRecvValidIdx =
      t.socket.nextRecvValidIdx + (recvmsg.stored t.socket.iovLen).length ∧
    seen.nextRecvValidIdx ≤ tcpBufferSize ∧
    seen.unread = t.received ++ recvmsg.stored t.socket.iovLen
  never : ¬ recvmsg.result t.socket.iovLen > 0 → out.callbacks = []

theorem Received.step {t t' : Traffic} (h : t.Received) {e : SocketEvent}
    (hreset : ResetsToZero e) (hok : t.step e = .ok t') : t'.Received := by
  cases e with
  | send data =>
      obtain ⟨s, hsend, hok⟩ := bind_eq_ok.mp hok
      rw [Except.ok.injEq] at hok
      subst hok
      obtain ⟨-, rfl⟩ := send_eq_ok.mp hsend
      exact ⟨h.le, h.unread⟩
  | sendAndRecv recvmsg callback send =>
      obtain ⟨out, hout, hok⟩ := bind_eq_ok.mp hok
      rw [Except.ok.injEq] at hok
      subst hok
      obtain ⟨hle, hunread⟩ := sendAndRecv_unread h.le hreset hout
      rw [h.unread] at hunread
      exact ⟨hle, hunread⟩

/-- **The incoming stream is reassembled.** In every state of a run the receive
buffer holds the bytes since the last reset, and every call of `sendAndRecv`
runs the callback once when bytes came in, after they are counted, and returns
true, or does neither. -/
theorem reassembles {sendMem recvMem : ℕ → UInt8} {evs : List SocketEvent}
    (hreset : ∀ e ∈ evs, ResetsToZero e) :
    (∀ pre u, pre <+: evs → (start sendMem recvMem).run pre = .ok u → u.Received) ∧
    ∀ pre recvmsg callback send u, pre ++ [.sendAndRecv recvmsg callback send] <+: evs →
      (start sendMem recvMem).run pre = .ok u →
      Fits u.socket (.sendAndRecv recvmsg callback send) →
      ∃ out, u.socket.sendAndRecv recvmsg callback send = .ok out ∧
        Reassembles u recvmsg out := by
  have hreceived : ∀ pre u, pre <+: evs → (start sendMem recvMem).run pre = .ok u →
      u.Received := by
    intro pre u hpre hu
    refine run_invariant (fun _ v => v.Received) ⟨Nat.zero_le _, rfl⟩ ?_ hu
    intro l e v v' hl hv hstep
    exact hv.step (hreset e ((hl.trans hpre).subset (by simp))) hstep
  refine ⟨hreceived, fun pre recvmsg callback send u hpre hu hfits => ?_⟩
  have h := hreceived pre u ((List.prefix_append _ _).trans hpre) hu
  obtain ⟨r, hr⟩ := receive_total hfits
  have hout : ∃ out, u.socket.sendAndRecv recvmsg callback send = .ok out :=
    ⟨_, by rw [sendAndRecv, hr]; rfl⟩
  obtain ⟨out, hout⟩ := hout
  refine ⟨out, hout, ?_⟩
  rcases sendAndRecv_eq_ok hout with ⟨hpos, hres, hseen, -⟩ | ⟨hpos, hres, hseen, -⟩
  · obtain ⟨hidx, hle, hunread⟩ := counted_recv h.le hpos
    exact ⟨iovLen_add h.le, iff_of_true hres hpos,
      fun _ => ⟨_, hseen, hidx, hle, h.unread ▸ hunread⟩, fun hnot => absurd hpos hnot⟩
  · exact ⟨iovLen_add h.le, by simp [hres, hpos], fun hp => absurd hp hpos, fun _ => hseen⟩

/-- A kernel that has two more bytes whenever there is room for them. -/
def twoBytes : Recvmsg where
  result len := min 2 len
  stored len := [104, 105].take len
  result_le _ := by omega
  length_stored len := by
    rw [List.length_take, List.length_cons, List.length_singleton]
    omega

/-- Bytes that are left in the buffer once, and then answered and reset. -/
theorem reassembles_two :
    ∃ u out, (start (fun _ => 0) (fun _ => 0)).run
        [.sendAndRecv twoBytes [] takesEverything] = .ok u ∧
      u.socket.sendAndRecv twoBytes [.setNextRecvValidIdx 0, .send [1]] takesEverything =
        .ok out ∧ Reassembles u twoBytes out := by
  obtain ⟨u, hu, hfits⟩ := exists_of_succeedsWith
    (p := fun u => decide
      (u.socket.given twoBytes [.setNextRecvValidIdx 0, .send [1]] ≤ tcpBufferSize))
    (x := (start (fun _ => 0) (fun _ => 0)).run [.sendAndRecv twoBytes [] takesEverything])
    (by decide +kernel)
  have hreset : ∀ e ∈ [.sendAndRecv twoBytes [] takesEverything, .sendAndRecv twoBytes
      [.setNextRecvValidIdx 0, .send [1]] takesEverything], ResetsToZero e := by
    intro e he
    simp only [List.mem_cons, List.not_mem_nil, or_false] at he
    rcases he with rfl | rfl <;> simp [ResetsToZero]
  have hgiven : u.socket.given twoBytes [.setNextRecvValidIdx 0, .send [1]] ≤ tcpBufferSize :=
    of_decide_eq_true hfits
  obtain ⟨out, hout, hre⟩ := (reassembles hreset).2 [.sendAndRecv twoBytes [] takesEverything]
    _ _ _ u (List.prefix_refl _) hu hgiven
  exact ⟨u, out, hu, hout, hre⟩

end Traffic

end LowLatency.Common
