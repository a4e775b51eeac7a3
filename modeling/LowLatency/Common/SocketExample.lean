import Mathlib.Data.List.Forall2
import Mathlib.Logic.Relation
import LowLatency.Common.SendBuffer
import LowLatency.Lib.Transition

/-!
`socket_example.cpp`: a server that echoes, and a client.

Between the two sockets the kernel carries a stream of bytes in each direction. It
delivers and takes as many bytes at a time as it likes, so where one message ends is
not what the client meant but what a call of `recvmsg` happens to return. The server
answers each such piece in its order (`echoes`). The callback of the client overwrites
the descriptor of its socket, so from its first reply on the client is no longer on the
connection (`one_reply`).
-/

namespace LowLatency.Common

open LowLatency.Lib

namespace SocketExample

open Traffic

/-- `tcpServerRecvCallback`. -/
def tcpServerRecvCallback (s : TCPSocket) : List SocketCall := echo s.unread

/-- A client with its `fd_`. -/
structure Client where
  socket : TCPSocket
  fd : ℤ

/-- `tcpClientRecvCallback`: `s->setFD(0)`. -/
def Client.tcpClientRecvCallback (c : Client) : Client := { c with fd := 0 }

/-- `sendAndRecv` of a client, with what it received and the bytes taken by `::send`, to
which the descriptor is passed as the callback has left it. -/
def Client.sendAndRecv (c : Client) (recvmsg : Recvmsg) (send : KernelSend) :
    Exec (Client × List UInt8 × List UInt8) := do
  let out ← c.socket.sendAndRecv recvmsg [] send
  let c' := { c with socket := out.socket }
  .ok (if out.result then c'.tcpClientRecvCallback else c', recvmsg.stored c.socket.iovLen,
    out.taken)

/-- A connection with its two ends; `up` and `down` are the bytes on their way. Of what
has gone before there is kept what the kernel took from the client, what the server
saw at each call of its callback and what it was rid of then, and what the client
received at a time. -/
structure State where
  client : Client
  server : TCPSocket
  up : List UInt8
  down : List UInt8
  sent : List UInt8
  seen : List (List UInt8)
  replied : List (List UInt8)
  received : List (List UInt8)

/-- Bytes that go through a descriptor are on the connection if it is that of the
connection. -/
def through (conn fd : ℤ) (bytes : List UInt8) : List UInt8 := if fd = conn then bytes else []

/-- The bytes received at a time, if any. -/
def pieces (bytes : List UInt8) : List (List UInt8) := if bytes = [] then [] else [bytes]

/-- The calls of both ends, with answers of the kernel that satisfy `kernel`. A call with
no meaning has no step. -/
inductive Step (kernel : KernelSend → Prop) (conn : ℤ) : State → State → Prop
  | send {s : State} {data socket} : s.client.socket.send data = .ok socket →
      Step kernel conn s { s with client := { s.client with socket := socket } }
  | clientService {s : State} {recvmsg send client got taken} : kernel send →
      s.client.sendAndRecv recvmsg send = .ok (client, got, taken) →
      through conn s.client.fd got <+: s.down →
      Step kernel conn s { s with
        client := client
        up := s.up ++ through conn client.fd taken
        down := s.down.drop (through conn s.client.fd got).length
        sent := s.sent ++ through conn client.fd taken
        received := s.received ++ pieces (through conn s.client.fd got) }
  | serverService {s : State} {recvmsg send out} : kernel send →
      s.server.sendAndRecv recvmsg (tcpServerRecvCallback (s.server.counted recvmsg)) send =
        .ok out →
      recvmsg.stored s.server.iovLen <+: s.up →
      Step kernel conn s { s with
        server := out.socket
        up := s.up.drop (recvmsg.stored s.server.iovLen).length
        down := s.down ++ out.taken
        seen := s.seen ++ out.callbacks.map TCPSocket.unread
        replied := s.replied ++ out.callbacks.map fun _ => out.taken }

def start (conn : ℤ) (mem : ℕ → UInt8) : State where
  client := ⟨.construct mem mem, conn⟩
  server := .construct mem mem
  up := []
  down := []
  sent := []
  seen := []
  replied := []
  received := []

def system (kernel : KernelSend → Prop) (conn : ℤ) (mem : ℕ → UInt8) : System State where
  init s := s = start conn mem
  step := Step kernel conn

/-! ### The server -/

variable {kernel : KernelSend → Prop} {conn : ℤ} {mem : ℕ → UInt8} {s t : State}

/-- Between two calls both buffers of the server are empty. -/
def Rested (s : TCPSocket) : Prop := s.nextSendValidIdx = 0 ∧ s.nextRecvValidIdx = 0

/-- What the kernel takes of the answer to a message. -/
def Answers (kernel : KernelSend → Prop) (msg reply : List UInt8) : Prop :=
  ∃ send, kernel send ∧ reply = (echoed msg).take (send.result (echoed msg).length).toNat

theorem unread_counted {server : TCPSocket} (h : Rested server) {recvmsg : Recvmsg}
    (hpos : recvmsg.result server.iovLen > 0) :
    (server.counted recvmsg).unread = recvmsg.stored server.iovLen := by
  have hnil : server.unread = [] := by
    rw [TCPSocket.unread, h.2]
    rfl
  rw [(TCPSocket.counted_recv (by rw [h.2]; exact Nat.zero_le _) hpos).2.2, hnil, List.nil_append]

theorem passedBy_echo (msg : List UInt8) : TCPSocket.passedBy (echo msg) = echoed msg := by
  simp [echo, TCPSocket.passedBy]

/-- A call either reads nothing, and then does nothing, or sees what came in and
answers it. -/
theorem serviced {server : TCPSocket} (h : Rested server) {recvmsg : Recvmsg}
    {send : KernelSend} {out : TCPSocket.Outcome}
    (hok : server.sendAndRecv recvmsg (tcpServerRecvCallback (server.counted recvmsg)) send =
      .ok out) :
    Rested out.socket ∧
      ((recvmsg.stored server.iovLen = [] ∧ out.callbacks = [] ∧ out.taken = []) ∨
        ∃ seen, out.callbacks = [seen] ∧ seen.unread = recvmsg.stored server.iovLen ∧
          out.taken =
            (echoed seen.unread).take (send.result (echoed seen.unread).length).toNat) := by
  obtain ⟨all, hall, -, hempty, htaken⟩ := TCPSocket.sendAndRecv_out hok
  have hbuffered : server.buffered = [] := by
    rw [TCPSocket.buffered, h.1]
    rfl
  have hsend : out.socket.nextSendValidIdx = 0 := by
    rw [← TCPSocket.length_buffered, hempty, List.length_nil]
  rw [hbuffered, List.nil_append] at hall
  rcases TCPSocket.sendAndRecv_eq_ok hok with ⟨hpos, hres, hcalls, -, hidx⟩ |
    ⟨hpos, hres, hcalls, -, hidx⟩
  · rw [if_pos hres, tcpServerRecvCallback, passedBy_echo] at hall
    have hlen : all.length > 0 := hall ▸ Nat.zero_lt_of_lt (length_lt_echoed _)
    rw [if_pos hlen, hall] at htaken
    refine ⟨⟨hsend, hidx fun i hi => ?_⟩, .inr ⟨_, hcalls, unread_counted h hpos, htaken⟩⟩
    simpa [tcpServerRecvCallback, echo] using hi
  · rw [hres, if_neg Bool.false_ne_true] at hall
    rw [hall] at htaken
    exact ⟨⟨hsend, hidx.trans h.2⟩, .inl ⟨recvmsg.stored_eq_nil hpos, hcalls, htaken⟩⟩

/-! ### The connection -/

theorem flatten_pieces (bytes : List UInt8) : (pieces bytes).flatten = bytes := by
  rw [pieces]
  split
  · rename_i h
    exact h.symm
  · exact List.append_nil _

/-- No byte is lost, repeated or moved on the connection, and every message the server
has seen is answered. -/
structure Inv (kernel : KernelSend → Prop) (s : State) : Prop where
  rested : Rested s.server
  up : s.seen.flatten ++ s.up = s.sent
  down : s.received.flatten ++ s.down = s.replied.flatten
  answers : List.Forall₂ (Answers kernel) s.seen s.replied

theorem inv_start (conn : ℤ) (mem : ℕ → UInt8) : Inv kernel (start conn mem) where
  rested := ⟨rfl, rfl⟩
  up := rfl
  down := rfl
  answers := .nil

theorem arrive {got new : List (List UInt8)} {stream all : List UInt8}
    (h : got.flatten ++ stream = all) (hnew : new.flatten <+: stream) :
    (got ++ new).flatten ++ stream.drop new.flatten.length = all := by
  obtain ⟨rest, rfl⟩ := hnew
  rw [List.drop_left, List.flatten_append, List.append_assoc, h]

theorem Inv.step (h : Inv kernel s) (hst : Step kernel conn s t) : Inv kernel t := by
  cases hst with
  | send => exact ⟨h.rested, h.up, h.down, h.answers⟩
  | @clientService recvmsg send client got taken hkernel hok hdown =>
      have hgot := flatten_pieces (through conn s.client.fd got)
      refine ⟨h.rested, ?_, ?_, h.answers⟩
      · show s.seen.flatten ++ (s.up ++ through conn client.fd taken) = _
        rw [← List.append_assoc, h.up]
      · have hprefix : (pieces (through conn s.client.fd got)).flatten <+: s.down := by
          rwa [hgot]
        have hflow := arrive h.down hprefix
        rwa [hgot] at hflow
  | @serverService recvmsg send out hkernel hok hup =>
      obtain ⟨hrested, hcalls⟩ := serviced h.rested hok
      rcases hcalls with ⟨hnil, hcalls, htaken⟩ | ⟨seen, hcalls, hunread, htaken⟩
      · rw [hnil, hcalls, htaken]
        refine ⟨hrested, ?_, ?_, ?_⟩
        · simpa using h.up
        · simpa using h.down
        · simpa using h.answers
      · have hnew : [seen.unread].flatten = recvmsg.stored s.server.iovLen := by
          rw [List.flatten_singleton, hunread]
        have hprefix : [seen.unread].flatten <+: s.up := by rwa [hnew]
        rw [hcalls]
        refine ⟨hrested, ?_, ?_, ?_⟩
        · have hflow := arrive h.up hprefix
          rwa [hnew] at hflow
        · show s.received.flatten ++ (s.down ++ out.taken) = (s.replied ++ [out.taken]).flatten
          rw [← List.append_assoc, h.down, List.flatten_append, List.flatten_singleton]
        · exact List.rel_append h.answers (.cons ⟨send, hkernel, htaken⟩ .nil)

theorem inv_of_reachable (h : (system kernel conn mem).Reachable s) : Inv kernel s := by
  refine h.invariant (Inv kernel) ?_ fun _ _ hi hst => hi.step hst
  rintro s rfl
  exact inv_start conn mem

/-! ### The client -/

theorem client_sendAndRecv {c c' : Client} {recvmsg : Recvmsg} {send : KernelSend}
    {got taken : List UInt8} (h : c.sendAndRecv recvmsg send = .ok (c', got, taken)) :
    (c'.fd = 0 ∧ got ≠ []) ∨ (c'.fd = c.fd ∧ got = []) := by
  obtain ⟨out, hout, h⟩ := bind_eq_ok.mp h
  simp only [Except.ok.injEq, Prod.mk.injEq] at h
  obtain ⟨rfl, rfl, -⟩ := h
  rcases TCPSocket.sendAndRecv_eq_ok hout with ⟨hpos, hres, -⟩ | ⟨hpos, hres, -⟩
  · rw [if_pos hres]
    refine .inl ⟨rfl, fun hnil => ?_⟩
    have hlen := recvmsg.length_stored c.socket.iovLen
    rw [hnil, List.length_nil] at hlen
    omega
  · rw [if_neg (by simp [hres])]
    exact .inr ⟨rfl, recvmsg.stored_eq_nil hpos⟩

theorem through_of_ne {fd : ℤ} (h : fd ≠ conn) (bytes : List UInt8) : through conn fd bytes = [] :=
  if_neg h

/-- Away from the connection the client does nothing to it, and does not come back. -/
theorem step_away (hconn : conn ≠ 0) (haway : s.client.fd ≠ conn) (hst : Step kernel conn s t) :
    t.client.fd ≠ conn ∧ t.sent = s.sent ∧ t.received = s.received := by
  cases hst with
  | send | serverService => exact ⟨haway, rfl, rfl⟩
  | @clientService recvmsg send client got taken hkernel hok hdown =>
      have hfd : client.fd ≠ conn := by
        rcases client_sendAndRecv hok with ⟨hzero, -⟩ | ⟨hsame, -⟩
        · rw [hzero]
          exact hconn.symm
        · rwa [hsame]
      rw [through_of_ne haway, through_of_ne hfd]
      exact ⟨hfd, List.append_nil _, List.append_nil _⟩

theorem received_of_reachable (hconn : conn ≠ 0) (h : (system kernel conn mem).Reachable s) :
    (s.client.fd = conn ∧ s.received = []) ∨ (s.client.fd ≠ conn ∧ s.received.length = 1) := by
  refine h.invariant (fun s => (s.client.fd = conn ∧ s.received = []) ∨
    (s.client.fd ≠ conn ∧ s.received.length = 1)) ?_ ?_
  · rintro s rfl
    exact .inl ⟨rfl, rfl⟩
  · rintro s t (⟨hfd, hnil⟩ | ⟨haway, hone⟩) hst
    · cases hst with
      | send | serverService => exact .inl ⟨hfd, hnil⟩
      | @clientService recvmsg send client got taken hkernel hok hdown =>
          have hthrough : through conn s.client.fd got = got := if_pos hfd
          rw [hthrough, hnil]
          rcases client_sendAndRecv hok with ⟨hzero, hgot⟩ | ⟨hsame, hgot⟩
          · exact .inr ⟨by rw [hzero]; exact hconn.symm, by rw [pieces, if_neg hgot]; rfl⟩
          · exact .inl ⟨hsame.trans hfd, by rw [pieces, if_pos hgot]; rfl⟩
    · obtain ⟨haway', -, hreceived⟩ := step_away hconn haway hst
      exact .inr ⟨haway', hreceived ▸ hone⟩

theorem run_away (hconn : conn ≠ 0) (haway : s.client.fd ≠ conn)
    (hrun : Relation.ReflTransGen (Step kernel conn) s t) :
    t.client.fd ≠ conn ∧ t.sent = s.sent ∧ t.received = s.received := by
  induction hrun with
  | refl => exact ⟨haway, rfl, rfl⟩
  | tail _ hst ih =>
      obtain ⟨hfd, hsent, hreceived⟩ := ih
      obtain ⟨hfd', hsent', hreceived'⟩ := step_away hconn hfd hst
      exact ⟨hfd', hsent'.trans hsent, hreceived'.trans hreceived⟩

/-- A kernel that delivers the bytes as far as there is room for them. -/
def delivers (bytes : List UInt8) : Recvmsg where
  result len := min bytes.length len
  stored len := bytes.take len
  result_le _ := by omega
  length_stored len := by
    rw [List.length_take]
    omega

def Complete (send : KernelSend) : Prop := ∀ m > 0, send.result m = m

theorem exists_received : ∃ s : State, (system Complete 5 fun _ => 0).Reachable s ∧
    s.received = [echoed [104]] := by
  have hall : Complete takesEverything := fun _ _ => rfl
  have h₀ : (system Complete 5 fun _ => 0).Reachable (start 5 fun _ => 0) := .init rfl
  have hdata : (start 5 fun _ => 0).client.socket.nextSendValidIdx + [(104 : UInt8)].length ≤
      tcpBufferSize := by decide
  have h₁ := h₀.step (.send (TCPSocket.send_eq_ok.mpr ⟨hdata, rfl⟩))
  have h₂ := h₁.step (@Step.clientService _ _ _ noBytes _ _ _ _ hall rfl (by decide))
  have h₃ := h₂.step (@Step.serverService _ _ _ (delivers [104]) _ _ hall rfl (by decide))
  have h₄ := h₃.step
    (@Step.clientService _ _ _ (delivers (echoed [104])) _ _ _ _ hall rfl (by decide))
  exact ⟨_, h₄, rfl⟩

theorem replied_of_complete (hall : ∀ send, kernel send → Complete send)
    {seen replied : List (List UInt8)} (h : List.Forall₂ (Answers kernel) seen replied) :
    replied.flatten = seen.flatMap echoed := by
  induction h with
  | nil => rfl
  | @cons msg reply seen replied hreply _ ih =>
      obtain ⟨send, hkernel, rfl⟩ := hreply
      have hlen := hall send hkernel _ (Nat.zero_lt_of_lt (length_lt_echoed msg))
      rw [List.flatten_cons, List.flatMap_cons, hlen, Int.toNat_natCast, List.take_length, ih]

/-- **The server echoes.** Whatever the kernel does with the two streams, the server has
seen a beginning of what was taken from the client, cut into pieces. It has answered
each piece in its order, as far as the kernel took the answer, and the client has
received a beginning of this; if the kernel takes all it is given, no answer is cut. -/
theorem echoes (h : (system kernel conn mem).Reachable s) :
    s.seen.flatten <+: s.sent ∧ s.received.flatten <+: s.replied.flatten ∧
      List.Forall₂ (Answers kernel) s.seen s.replied ∧
      ((∀ send, kernel send → Complete send) → s.replied.flatten = s.seen.flatMap echoed) := by
  have hinv := inv_of_reachable h
  exact ⟨⟨s.up, hinv.up⟩, ⟨s.down, hinv.down⟩, hinv.answers,
    fun hall => replied_of_complete hall hinv.answers⟩

theorem echoes_hello : ∃ s : State, s.received = [echoed [104]] ∧
    s.received.flatten <+: s.seen.flatMap echoed := by
  obtain ⟨s, hs, hreceived⟩ := exists_received
  obtain ⟨-, hprefix, -, hall⟩ := echoes hs
  exact ⟨s, hreceived, hall (fun _ h => h) ▸ hprefix⟩

/-- **A client gets one reply.** It receives at most once on its connection, and after
that, whatever it passes to `send`, nothing of it is taken for the connection. -/
theorem one_reply (hconn : conn ≠ 0) (h : (system kernel conn mem).Reachable s) :
    s.received.length ≤ 1 ∧ (s.received ≠ [] →
      ∀ t, Relation.ReflTransGen (Step kernel conn) s t →
        t.sent = s.sent ∧ t.received = s.received) := by
  rcases received_of_reachable hconn h with ⟨-, hnil⟩ | ⟨haway, hone⟩
  · rw [hnil]
    exact ⟨Nat.zero_le _, fun hne => absurd rfl hne⟩
  · exact ⟨hone.le, fun _ t hrun => (run_away hconn haway hrun).2⟩

theorem one_reply_hello : ∃ s : State, s.received = [echoed [104]] ∧
    ∀ t, Relation.ReflTransGen (Step Complete 5) s t → t.sent = s.sent ∧
      t.received = s.received := by
  obtain ⟨s, hs, hreceived⟩ := exists_received
  exact ⟨s, hreceived, (one_reply (by decide) hs).2 (by simp [hreceived])⟩

end SocketExample

end LowLatency.Common
