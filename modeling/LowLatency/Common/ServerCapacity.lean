import Mathlib.Data.List.Dedup
import LowLatency.Common.TCPServer

/-!
How many events a `TCPServer` asks for.

`poll` asks for one event for the listener and one for each entry of the two
lists, and has 1024 places for the answer. The lists only grow: by the accepted
connections, by the sockets that were ever writable, and by the listener when an
error of it was reported.
-/

namespace LowLatency.Common

open LowLatency.Lib

namespace TCPServer

namespace Served

/-- What the kernel may report to the next poll, and which connections it may hand
out: events of registered sockets, as many as were asked for, and connections
that are given sockets of their own. -/
structure Reports (r : Served) (p : Poll) : Prop where
  count : p.events.length ≤ r.server.maxEvents.toNat
  registered : ∀ e ∈ p.events, e.ptr = r.server.listener ∨ e.ptr ∈ r.accepted
  distinct : (p.pending.map (·.socket)).Nodup
  fresh : ∀ c ∈ p.pending, c.socket ≠ r.server.listener ∧ c.socket ∉ r.accepted

def epoll (listener : ℕ) : System Served where
  init r := r = start listener
  step r r' := ∃ p, Reports r p ∧ r.poll p = .ok r'

/-- The listener was reported with an error and without a connection. -/
def listenerFailed (r : Served) : Bool :=
  r.server.listener ∈ about (joins r.server.listener) r.reported

/-- The accepted connections, the failed listener, and the sockets that were
reported to be writable. -/
def load (r : Served) : ℕ :=
  r.accepted.length + r.listenerFailed.toNat +
    (about (writes r.server.listener) r.reported).dedup.length

/-- What the two lists hold, by what was accepted and reported. -/
structure Counted (r : Served) : Prop where
  kept : Kept r
  distinct : (r.server.listener :: r.accepted).Nodup
  receive : ∀ a, a ∈ r.server.receiveSockets ↔
    a ∈ r.accepted ∨ (a = r.server.listener ∧ r.listenerFailed = true)
  send : ∀ a, a ∈ r.server.sendSockets ↔ a ∈ about (writes r.server.listener) r.reported

theorem mem_acceptedBy {s : TCPServer} {p : Poll} {a : ℕ} (h : a ∈ s.acceptedBy p) :
    ∃ c ∈ p.pending, c.socket = a := by
  rw [acceptedBy] at h
  split at h
  · exact List.mem_map.mp h
  · exact absurd h List.not_mem_nil

theorem Reports.nodup_acceptedBy {r : Served} {p : Poll} (h : Reports r p) :
    (r.server.acceptedBy p).Nodup := by
  rw [acceptedBy]
  split
  · exact h.distinct
  · exact List.nodup_nil

theorem Reports.new_of_acceptedBy {r : Served} {p : Poll} (h : Reports r p) {a : ℕ}
    (ha : a ∈ r.server.acceptedBy p) : a ≠ r.server.listener ∧ a ∉ r.accepted := by
  obtain ⟨c, hc, rfl⟩ := mem_acceptedBy ha
  exact h.fresh c hc

theorem counted_start (listener : ℕ) : Counted (start listener) := by
  refine ⟨kept_start listener, List.nodup_singleton listener, fun a => ?_, fun a => ?_⟩
  · simp [start, construct, listenerFailed]
  · simp [start, construct]

theorem Counted.poll {r r' : Served} (h : Counted r) {p : Poll} (hp : Reports r p)
    (hok : r.poll p = .ok r') : Counted r' := by
  have hkept := h.kept.poll hok
  rw [poll_eq_ok hok] at hkept ⊢
  refine ⟨hkept, ?_, fun a => ?_, fun a => ?_⟩
  · rw [← List.cons_append]
    refine List.nodup_append.mpr ⟨h.distinct, hp.nodup_acceptedBy, fun a ha b hb hab => ?_⟩
    obtain ⟨hlistener, haccepted⟩ := hp.new_of_acceptedBy (hab ▸ hb)
    exact (List.mem_cons.mp ha).elim hlistener haccepted
  · have hreceive := h.receive a
    simp only [add, mem_pushAll, List.mem_append, listenerFailed, about_append,
      decide_eq_true_eq] at hreceive ⊢
    constructor
    · rintro (ha | ha | ha)
      · exact (hreceive.mp ha).imp .inl fun hl => ⟨hl.1, .inl hl.2⟩
      · obtain ⟨e, he, -, hptr⟩ := mem_about.mp ha
        rcases hp.registered e he with hl | hacc
        · have hal := hptr.symm.trans hl
          rw [hal] at ha
          exact .inr ⟨hal, .inr ha⟩
        · exact .inl (.inl (hptr ▸ hacc))
      · exact .inl (.inr ha)
    · rintro ((ha | ha) | ⟨rfl, hf | hf⟩)
      · exact .inl (hreceive.mpr (.inl ha))
      · exact .inr (.inr ha)
      · exact .inl (hreceive.mpr (.inr ⟨rfl, hf⟩))
      · exact .inr (.inl hf)
  · simp only [add, mem_pushAll, about_append, List.mem_append]
    exact or_congr (h.send a) Iff.rfl

theorem counted_of_reachable {listener : ℕ} {r : Served} (h : (epoll listener).Reachable r) :
    Counted r := by
  apply h.invariant Counted
  · rintro r rfl
    exact counted_start listener
  · rintro r r' hr ⟨p, hp, hok⟩
    exact hr.poll hp hok

theorem Counted.length_eq {r : Served} (h : Counted r) :
    r.server.receiveSockets.length + r.server.sendSockets.length = r.load := by
  have hreceive : r.server.receiveSockets.Perm
      (r.accepted ++ if r.listenerFailed then [r.server.listener] else []) := by
    obtain ⟨hlistener, haccepted⟩ := List.nodup_cons.mp h.distinct
    refine (List.perm_ext_iff_of_nodup h.kept.receive ?_).mpr fun a => ?_
    · cases r.listenerFailed with
      | false => simpa using haccepted
      | true =>
          simp only [if_true]
          exact List.nodup_append.mpr ⟨haccepted, List.nodup_singleton _, fun a ha b hb hab =>
            hlistener (List.mem_singleton.mp hb ▸ hab ▸ ha)⟩
    · rw [h.receive a, List.mem_append]
      cases r.listenerFailed <;> simp
  have hsend : r.server.sendSockets.Perm
      (about (writes r.server.listener) r.reported).dedup :=
    (List.perm_ext_iff_of_nodup h.kept.send (List.nodup_dedup _)).mpr fun a => by
      rw [h.send a, List.mem_dedup]
  rw [load, hreceive.length_eq, hsend.length_eq, List.length_append]
  cases r.listenerFailed <;> rfl

theorem Counted.maxEvents_eq {r : Served} (h : Counted r) :
    r.server.maxEvents = Int.bmod (1 + r.load) (2 ^ 32) := by
  rw [← h.length_eq, Int.natCast_add, ← Int.add_assoc]
  rfl

/-- `poll` does not ask for more events than `events_` holds, and so is not told
about more. -/
structure InRange (r : Served) : Prop where
  asked : r.server.maxEvents ≤ eventsSize
  reported : ∀ p, Reports r p → p.events.length ≤ eventsSize

/-- **`poll` stays inside `events_`** in a state of a run exactly when the load is
below 1024, or so large that the conversion to `int` turns the sum into one
that is negative or starts anew. -/
theorem inRange_iff {listener : ℕ} {r : Served} (h : (epoll listener).Reachable r) :
    InRange r ↔
      (1 + r.load) % 2 ^ 32 ≤ eventsSize ∨ 2 ^ 31 ≤ (1 + r.load) % 2 ^ 32 := by
  have hasked : r.server.maxEvents ≤ eventsSize ↔
      (1 + r.load) % 2 ^ 32 ≤ eventsSize ∨ 2 ^ 31 ≤ (1 + r.load) % 2 ^ 32 := by
    rw [(counted_of_reachable h).maxEvents_eq, Int.bmod, eventsSize]
    split <;> omega
  refine ⟨fun hin => hasked.mp hin.asked, fun hload => ⟨hasked.mpr hload, fun p hp => ?_⟩⟩
  have hle := hasked.mpr hload
  have hcount := hp.count
  omega

/-- The listener announces connections, which get sockets from 1 on. -/
def arrivals (n : ℕ) : Poll :=
  ⟨[⟨epollin, 0⟩], (List.range n).map fun i => connection (4 + i) (1 + i)⟩

@[simp] theorem events_arrivals (n : ℕ) : (arrivals n).events = [⟨epollin, 0⟩] := rfl

theorem reports_arrivals (n : ℕ) : Reports (start 0) (arrivals n) := by
  have hmax : (start 0).server.maxEvents = 1 := by decide +kernel
  refine ⟨by rw [hmax]; exact Nat.le_refl 1, ?_, ?_, ?_⟩
  · intro e he
    rw [List.mem_singleton.mp he]
    exact .inl rfl
  · have hsockets : (arrivals n).pending.map (·.socket) = (List.range n).map (1 + ·) := by
      simp [arrivals, connection, Function.comp_def]
    rw [hsockets]
    exact List.nodup_range.map fun i j hij => Nat.add_left_cancel hij
  · intro c hc
    obtain ⟨i, -, rfl⟩ := List.mem_map.mp hc
    have hne : 1 + i ≠ 0 := by omega
    exact ⟨hne, List.not_mem_nil⟩

theorem reachable_arrivals (n : ℕ) : ∃ r, (epoll 0).Reachable r ∧ r.load = n := by
  have hprepared : ∀ c ∈ (arrivals n).pending, Prepared c := by
    intro c hc
    obtain ⟨i, -, rfl⟩ := List.mem_map.mp hc
    exact ⟨rfl, rfl, rfl⟩
  have hlen : (arrivals n).events.length ≤ eventsSize := by simp [eventsSize]
  obtain ⟨s, hs⟩ := poll_total (s := construct 0) hlen hprepared
  have hok : (start 0).poll (arrivals n) = .ok ⟨s, [] ++ (construct 0).acceptedBy (arrivals n),
      [] ++ (arrivals n).events⟩ := bind_eq_ok.mpr ⟨s, hs, rfl⟩
  have hinit : (epoll 0).Reachable (start 0) := .init rfl
  refine ⟨_, hinit.step (Exists.intro _ ⟨reports_arrivals n, hok⟩), ?_⟩
  have hlistener : s.listener = 0 := by
    rw [TCPServer.poll_eq_ok hs]
    rfl
  have haccepted : ((construct 0).acceptedBy (arrivals n)).length = n := by
    have hnew : [⟨epollin, 0⟩].any (announces (construct 0).listener) = true := by decide
    rw [acceptedBy, events_arrivals, if_pos hnew]
    simp [arrivals]
  have hjoins : about (joins 0) [⟨epollin, 0⟩] = [] := by decide
  have hwrites : about (writes 0) [⟨epollin, 0⟩] = [] := by decide
  simp [load, listenerFailed, hlistener, haccepted, hjoins, hwrites]

theorem inRange_iff_three : ∃ r, (epoll 0).Reachable r ∧ r.load = 3 ∧ InRange r := by
  obtain ⟨r, hreach, hload⟩ := reachable_arrivals 3
  exact ⟨r, hreach, hload, (inRange_iff hreach).mpr (.inl (by rw [hload]; decide))⟩

/-- As many connections as the backlog of the listener holds, in one poll. -/
theorem full_backlog :
    ¬ ∀ (listener : ℕ) (r : Served), (epoll listener).Reachable r → InRange r := by
  intro hall
  obtain ⟨r, hreach, hload⟩ := reachable_arrivals 1024
  have hasked := (hall 0 r hreach).asked
  rw [(counted_of_reachable hreach).maxEvents_eq, hload] at hasked
  exact absurd hasked (by decide)

end Served

end TCPServer

end LowLatency.Common
