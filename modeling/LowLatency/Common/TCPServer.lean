import Mathlib.Algebra.Group.Nat.Defs
import LowLatency.Lib.Transition
import LowLatency.Lib.UniqueList
import LowLatency.Common.Types

/-!
`tcp_server.hpp` and `tcp_server.cpp`: the sockets of a server.

`poll` asks the kernel for events, puts the sockets they are about into two
lists and accepts the connections that wait. A socket is known by its address.
-/

namespace LowLatency.Common

open LowLatency.Lib

/-- An event: the bits of its kind, and the pointer it was registered with. -/
structure EpollEvent where
  events : UInt32
  ptr : ℕ

def epollin : UInt32 := 0x1
def epollout : UInt32 := 0x4
def epollerr : UInt32 := 0x8
def epollhup : UInt32 := 0x10

/-- `event.events & mask`. -/
def EpollEvent.has (e : EpollEvent) (mask : UInt32) : Bool := e.events &&& mask ≠ 0

/-- A connection that `accept` returns, with the socket it is given and the
answers of the calls that prepare it. -/
structure Connection where
  fd : ℕ
  nonBlocking : Bool
  noDelay : Bool
  socket : ℕ
  epollCtl : ℤ
  strerror : String

/-- What a call of `poll` gets to see: the events `epoll_wait` reports, and the
connections `accept` returns before it returns -1. -/
structure Poll where
  events : List EpollEvent
  pending : List Connection

structure TCPServer where
  listener : ℕ
  receiveSockets : List ℕ
  sendSockets : List ℕ

namespace TCPServer

def construct (listener : ℕ) : TCPServer := ⟨listener, [], []⟩

def eventsSize : ℕ := 1024

/-- The sum is a `size_t` and becomes an `int`. -/
def maxEvents (s : TCPServer) : ℤ :=
  Int.bmod (1 + s.receiveSockets.length + s.sendSockets.length) (2 ^ 32)

/-- The body of the loop over the events, with the flag `have_new_connection`. -/
def handleEvent (r : TCPServer × Bool) (event : EpollEvent) : TCPServer × Bool :=
  let (s, haveNewConnection) := r
  -- the `continue`: nothing else is looked at in an event of the listener
  if event.has epollin ∧ event.ptr = s.listener then
    (s, true)
  else
    let s :=
      if event.has epollin then
        { s with receiveSockets := pushNew s.receiveSockets event.ptr }
      else s
    let s :=
      if event.has epollout then
        { s with sendSockets := pushNew s.sendSockets event.ptr }
      else s
    let s :=
      if event.has (epollerr ||| epollhup) then
        { s with receiveSockets := pushNew s.receiveSockets event.ptr }
      else s
    (s, haveNewConnection)

/-- The loop around `accept`. -/
def acceptAll (s : TCPServer) : List Connection → Exec TCPServer
  | [] => .ok s
  | c :: pending => do
      assert (c.nonBlocking && c.noDelay)
        ("Failed to set non-blocking or no-delay on socket: " ++ toString c.fd)
      assert (c.epollCtl = 0) ("Unable to add socket. error: " ++ c.strerror)
      acceptAll { s with receiveSockets := pushNew s.receiveSockets c.socket } pending

/-- `poll`. An event that was reported past the end of `events_` has no meaning. -/
def poll (s : TCPServer) (p : Poll) : Exec TCPServer :=
  if p.events.length ≤ eventsSize then
    let (s, haveNewConnection) := p.events.foldl handleEvent (s, false)
    if haveNewConnection then s.acceptAll p.pending else .ok s
  else
    .error .undefined

/-! ### What a poll adds -/

/-- The event is the listener's, and a connection is waiting. -/
def announces (listener : ℕ) (e : EpollEvent) : Bool := e.has epollin ∧ e.ptr = listener

/-- The event puts its socket into `receive_sockets_`. -/
def joins (listener : ℕ) (e : EpollEvent) : Bool :=
  !announces listener e && (e.has epollin || e.has (epollerr ||| epollhup))

/-- The event puts its socket into `send_sockets_`. -/
def writes (listener : ℕ) (e : EpollEvent) : Bool :=
  !announces listener e && e.has epollout

/-- The sockets of the events of a kind, in order. -/
def about (kind : EpollEvent → Bool) (events : List EpollEvent) : List ℕ :=
  (events.filter kind).map (·.ptr)

/-- The sockets of the connections the poll accepts. -/
def acceptedBy (s : TCPServer) (p : Poll) : List ℕ :=
  if p.events.any (announces s.listener) then p.pending.map (·.socket) else []

@[simp] theorem about_nil (kind : EpollEvent → Bool) : about kind [] = [] := rfl

theorem about_cons (kind : EpollEvent → Bool) (e : EpollEvent) (events : List EpollEvent) :
    about kind (e :: events) = (if kind e then [e.ptr] else []) ++ about kind events := by
  cases h : kind e <;> simp [about, h]

theorem about_append (kind : EpollEvent → Bool) (events events' : List EpollEvent) :
    about kind (events ++ events') = about kind events ++ about kind events' := by
  simp [about]

theorem mem_about {kind : EpollEvent → Bool} {events : List EpollEvent} {a : ℕ} :
    a ∈ about kind events ↔ ∃ e ∈ events, kind e = true ∧ e.ptr = a := by
  simp [about, and_assoc]

def add (s : TCPServer) (joined written : List ℕ) : TCPServer :=
  { s with
    receiveSockets := pushAll s.receiveSockets joined
    sendSockets := pushAll s.sendSockets written }

theorem add_add (s : TCPServer) (joined written joined' written' : List ℕ) :
    (s.add joined written).add joined' written' =
      s.add (joined ++ joined') (written ++ written') := by
  simp [add, pushAll_append]

theorem handleEvent_eq (s : TCPServer) (haveNew : Bool) (e : EpollEvent) :
    handleEvent (s, haveNew) e =
      (s.add (if joins s.listener e then [e.ptr] else [])
          (if writes s.listener e then [e.ptr] else []),
        haveNew || announces s.listener e) := by
  rw [handleEvent]
  simp only
  cases ha : announces s.listener e with
  | true =>
      rw [if_pos (of_decide_eq_true ha)]
      simp [joins, writes, ha, add]
  | false =>
      rw [if_neg (of_decide_eq_false ha)]
      cases hin : e.has epollin <;> cases hout : e.has epollout <;>
        cases herr : e.has (epollerr ||| epollhup) <;>
        simp [joins, writes, ha, hin, hout, herr, add]

theorem handleEvents_eq (s : TCPServer) (haveNew : Bool) (events : List EpollEvent) :
    events.foldl handleEvent (s, haveNew) =
      (s.add (about (joins s.listener) events) (about (writes s.listener) events),
        haveNew || events.any (announces s.listener)) := by
  induction events generalizing s haveNew with
  | nil => simp [add]
  | cons e events ih =>
      rw [List.foldl_cons, handleEvent_eq, ih, add_add, about_cons, about_cons, List.any_cons,
        Bool.or_assoc]
      rfl

theorem acceptAll_eq_ok {s s' : TCPServer} {pending : List Connection}
    (h : s.acceptAll pending = .ok s') : s' = s.add (pending.map (·.socket)) [] := by
  induction pending generalizing s with
  | nil =>
      rw [acceptAll, Except.ok.injEq] at h
      rw [← h]
      rfl
  | cons c pending ih =>
      obtain ⟨-, -, h⟩ := bind_eq_ok.mp h
      obtain ⟨-, -, h⟩ := bind_eq_ok.mp h
      rw [ih h]
      rfl

structure Prepared (c : Connection) : Prop where
  nonBlocking : c.nonBlocking = true
  noDelay : c.noDelay = true
  epollCtl : c.epollCtl = 0

theorem acceptAll_total (s : TCPServer) {pending : List Connection}
    (h : ∀ c ∈ pending, Prepared c) : ∃ s', s.acceptAll pending = .ok s' := by
  induction pending generalizing s with
  | nil => exact ⟨s, rfl⟩
  | cons c pending ih =>
      have hc := h c List.mem_cons_self
      rw [acceptAll, hc.nonBlocking, hc.noDelay, hc.epollCtl]
      exact ih _ fun d hd => h d (List.mem_cons_of_mem c hd)

theorem poll_eq_ok {s s' : TCPServer} {p : Poll} (h : s.poll p = .ok s') :
    s' = s.add (about (joins s.listener) p.events ++ s.acceptedBy p)
      (about (writes s.listener) p.events) := by
  rw [poll] at h
  split at h
  · rw [handleEvents_eq, Bool.false_or] at h
    simp only at h
    rw [acceptedBy]
    split at h
    · rename_i hnew
      rw [acceptAll_eq_ok h, add_add, if_pos hnew, List.append_nil]
    · rename_i hnew
      rw [Except.ok.injEq] at h
      rw [if_neg hnew, List.append_nil, h]
  · contradiction

theorem poll_total {s : TCPServer} {p : Poll} (hlen : p.events.length ≤ eventsSize)
    (hprepared : ∀ c ∈ p.pending, Prepared c) : ∃ s', s.poll p = .ok s' := by
  rw [poll, if_pos hlen]
  simp only
  split
  · exact acceptAll_total _ hprepared
  · exact ⟨_, rfl⟩

/-! ### Runs -/

/-- A server, the sockets of the connections it has accepted, and the events that
were reported to it. -/
structure Served where
  server : TCPServer
  accepted : List ℕ
  reported : List EpollEvent

namespace Served

def start (listener : ℕ) : Served := ⟨construct listener, [], []⟩

def poll (r : Served) (p : Poll) : Exec Served := do
  let s ← r.server.poll p
  .ok ⟨s, r.accepted ++ r.server.acceptedBy p, r.reported ++ p.events⟩

/-- A server that is polled again and again, whatever is reported to it. -/
def polls (listener : ℕ) : System Served where
  init r := r = start listener
  step r r' := ∃ p, r.poll p = .ok r'

theorem poll_eq_ok {r r' : Served} {p : Poll} (h : r.poll p = .ok r') :
    r' = ⟨r.server.add (about (joins r.server.listener) p.events ++ r.server.acceptedBy p)
        (about (writes r.server.listener) p.events),
      r.accepted ++ r.server.acceptedBy p, r.reported ++ p.events⟩ := by
  obtain ⟨s, hs, h⟩ := bind_eq_ok.mp h
  rw [Except.ok.injEq] at h
  rw [← h, TCPServer.poll_eq_ok hs]

/-- Each list holds a socket once, and the accepted ones are all there. -/
structure Kept (r : Served) : Prop where
  receive : r.server.receiveSockets.Nodup
  send : r.server.sendSockets.Nodup
  accepted : ∀ a ∈ r.accepted, a ∈ r.server.receiveSockets

theorem kept_start (listener : ℕ) : Kept (start listener) :=
  ⟨List.nodup_nil, List.nodup_nil, fun _ ha => absurd ha List.not_mem_nil⟩

theorem Kept.poll {r r' : Served} (h : Kept r) {p : Poll} (hok : r.poll p = .ok r') :
    Kept r' := by
  rw [poll_eq_ok hok]
  refine ⟨nodup_pushAll h.receive _, nodup_pushAll h.send _, fun a ha => mem_pushAll.mpr ?_⟩
  rcases List.mem_append.mp ha with ha | ha
  · exact .inl (h.accepted a ha)
  · exact .inr (List.mem_append_right _ ha)

theorem kept_of_reachable {listener : ℕ} {r : Served} (h : (polls listener).Reachable r) :
    Kept r := by
  apply h.invariant Kept
  · rintro r rfl
    exact kept_start listener
  · rintro r r' hr ⟨p, hok⟩
    exact hr.poll hok

/-- **No connection is listed twice, and none is lost.** After any number of polls
neither list holds a socket twice, and all accepted sockets are in
`receive_sockets_`; the next poll only appends to the lists. -/
theorem lists_keep_sockets {listener : ℕ} {r : Served} (h : (polls listener).Reachable r) :
    r.server.receiveSockets.Nodup ∧ r.server.sendSockets.Nodup ∧
    (∀ a ∈ r.accepted, a ∈ r.server.receiveSockets) ∧
    ∀ p r', r.poll p = .ok r' →
      r.server.receiveSockets <+: r'.server.receiveSockets ∧
      r.server.sendSockets <+: r'.server.sendSockets := by
  have hkept := kept_of_reachable h
  refine ⟨hkept.receive, hkept.send, hkept.accepted, fun p r' hok => ?_⟩
  rw [poll_eq_ok hok]
  exact ⟨prefix_pushAll .., prefix_pushAll ..⟩

def connection (fd socket : ℕ) : Connection := ⟨fd, true, true, socket, 0, ""⟩

theorem lists_keep_sockets_one : ∃ r, (polls 0).Reachable r ∧
    r.server.receiveSockets = [1] ∧ r.server.sendSockets = [1] ∧
    r.server.receiveSockets.Nodup := by
  have hone : (start 0).poll ⟨[⟨epollin, 0⟩], [connection 4 1]⟩ =
      .ok ⟨⟨0, [1], []⟩, [1], [⟨epollin, 0⟩]⟩ := rfl
  have htwo : poll ⟨⟨0, [1], []⟩, [1], [⟨epollin, 0⟩]⟩
      ⟨[⟨epollin ||| epollout, 1⟩, ⟨epollhup, 1⟩], []⟩ =
      .ok ⟨⟨0, [1], [1]⟩, [1], [⟨epollin, 0⟩, ⟨epollin ||| epollout, 1⟩, ⟨epollhup, 1⟩]⟩ := rfl
  have hinit : (polls 0).Reachable (start 0) := .init rfl
  have hreach := (hinit.step (Exists.intro _ hone)).step (Exists.intro _ htwo)
  exact ⟨_, hreach, rfl, rfl, (lists_keep_sockets hreach).1⟩

end Served

end TCPServer

end LowLatency.Common
