import LowLatency.Common.Types

/-!
`createSocket` of `socket_utils.hpp`: one socket for each address that
`getaddrinfo` finds.

The addresses are a list in memory, linked by `ai_next`. The system is left
open: it answers every call of every iteration.
-/

namespace LowLatency.Common

open LowLatency.Lib

namespace CreateSocket

structure SocketConfig where
  ip : String
  iface : String
  port : ℤ := -1
  isUdp : Bool := false
  isListening : Bool := false
  needsSoTimestamp : Bool := false

/-- The fields of `hints` that depend on the configuration. -/
structure Hints where
  passive : Bool
  datagram : Bool

/-- An entry of the list of addresses. The other fields are only passed on to the
system. -/
structure AddrInfo where
  aiNext : Option ℕ

/-- How the system answers in one iteration of the loop, with the text of
`errno`. -/
structure Answers where
  socket : ℤ
  getFlags : Int32
  setFlags : ℤ
  noDelay : ℤ
  connect : ℤ
  reuseAddr : ℤ
  bind : ℤ
  listen : ℤ
  timestamps : ℤ
  strerror : String

/-- The system: the addresses in memory, what `getaddrinfo` returns and finds,
and the answers in each iteration. -/
structure Host where
  heap : ℕ → AddrInfo
  getIfaceIP : String → String
  getaddrinfo : String → String → Hints → ℤ × Option ℕ
  gaiError : ℤ → String
  answers : ℕ → Answers

/-- `O_NONBLOCK`. -/
def oNonblock : Int32 := 2048

def setNonBlocking (a : Answers) : Bool :=
  if a.getFlags = -1 then false
  else if a.getFlags &&& oNonblock ≠ 0 then true
  else a.setFlags ≠ -1

def setNoDelay (a : Answers) : Bool := a.noDelay ≠ -1

def setSOTimestamps (a : Answers) : Bool := a.timestamps ≠ -1

/-- The body of the loop, which leaves the new socket in `sockfd`. -/
def body (config : SocketConfig) (a : Answers) : Exec ℤ := do
  assert (a.socket ≠ -1) ("socket() failed. errno: " ++ a.strerror)
  assert (setNonBlocking a) ("setNonBlocing() failed. errorno: " ++ a.strerror)
  if !config.isUdp then
    assert (setNoDelay a) ("setNoDelay() failed. errorno: " ++ a.strerror)
  if !config.isListening then
    assert (a.connect ≠ 1) ("connect() failed. errorno: " ++ a.strerror)
  if config.isListening then
    assert (a.reuseAddr = 0) ("setsockopt() SO_REUSEADDR failed. errno: " ++ a.strerror)
    assert (a.bind = 0) ("bind() failed. errno: " ++ a.strerror)
  if !config.isUdp && config.isListening then
    assert (a.listen = 0) ("listen() failed. errno: " ++ a.strerror)
  if config.needsSoTimestamp then
    assert (setSOTimestamps a) ("setSOTimestamps() failed. errno: " ++ a.strerror)
  .ok a.socket

/-- `for(addrinfo* rp = result; rp; rp = result->ai_next)`, from `rp` on, with the
entries visited so far. -/
def loop (host : Host) (config : SocketConfig) (result : Option ℕ) :
    ℕ → Option ℕ → ℤ → List ℕ → Exec (ℤ × List ℕ)
  | _, none, sockfd, visited => .ok (sockfd, visited)
  | 0, some _, _, _ => .error .endless
  | fuel + 1, some rp, _, visited => do
      let sockfd ← body config (host.answers visited.length)
      match result with
      | none => .error .undefined
      | some first =>
          loop host config result fuel (host.heap first).aiNext sockfd (visited ++ [rp])

def lookup (host : Host) (config : SocketConfig) : ℤ × Option ℕ :=
  let ip := if config.ip = "" then host.getIfaceIP config.iface else config.ip
  host.getaddrinfo ip (toString config.port) ⟨config.isListening, config.isUdp⟩

/-- `createSocket(socketConfig)`: the returned descriptor and the entries in the
order in which the loop visits them. -/
def createSocket (host : Host) (config : SocketConfig) (fuel : ℕ) : Exec (ℤ × List ℕ) := do
  let (rc, result) := lookup host config
  assert (rc = 0) ("getaddrinfo() failed. Error: " ++ host.gaiError rc ++ " errno: " ++
    (host.answers 0).strerror)
  loop host config result fuel result (-1) []

/-- `entries` are the entries of the list from `p` on, up to the null at its end. -/
def Chain (heap : ℕ → AddrInfo) (p : Option ℕ) : List ℕ → Prop
  | [] => p = none
  | a :: entries => p = some a ∧ Chain heap (heap a).aiNext entries

structure Answers.Succeed (a : Answers) : Prop where
  socket : 0 ≤ a.socket
  getFlags : a.getFlags ≠ -1
  setFlags : a.setFlags ≠ -1
  noDelay : a.noDelay = 0
  connect : a.connect = 0
  reuseAddr : a.reuseAddr = 0
  bind : a.bind = 0
  listen : a.listen = 0
  timestamps : a.timestamps = 0

theorem body_eq_ok {a : Answers} (h : a.Succeed) (config : SocketConfig) :
    body config a = .ok a.socket := by
  have hsocket : a.socket ≠ -1 := by
    have hpos := h.socket
    omega
  have hblocking : setNonBlocking a = true := by
    rw [setNonBlocking, if_neg h.getFlags]
    split
    · rfl
    · simpa using h.setFlags
  simp [body, hsocket, hblocking, setNoDelay, h.noDelay, h.connect, h.reuseAddr, h.bind,
    h.listen, setSOTimestamps, h.timestamps]

/-- One iteration. Whatever entry it is at, the next one is the second. -/
theorem loop_step {host : Host} (hcalls : ∀ i, (host.answers i).Succeed)
    (config : SocketConfig) (first fuel rp : ℕ) (sockfd : ℤ) (visited : List ℕ) :
    loop host config (some first) (fuel + 1) (some rp) sockfd visited =
      loop host config (some first) fuel (host.heap first).aiNext
        (host.answers visited.length).socket (visited ++ [rp]) := by
  rw [loop, body_eq_ok (hcalls _), ok_bind]

theorem loop_endless {host : Host} (hcalls : ∀ i, (host.answers i).Succeed)
    (config : SocketConfig) {first second : ℕ}
    (hnext : (host.heap first).aiNext = some second) (fuel rp : ℕ) (sockfd : ℤ)
    (visited : List ℕ) :
    loop host config (some first) fuel (some rp) sockfd visited = .error .endless := by
  induction fuel generalizing rp sockfd visited with
  | zero => rfl
  | succ fuel ih =>
      rw [loop_step hcalls, hnext]
      exact ih second _ _

theorem createSocket_eq {host : Host} {config : SocketConfig}
    (hrc : (lookup host config).1 = 0) (fuel : ℕ) :
    createSocket host config fuel =
      loop host config (lookup host config).2 fuel (lookup host config).2 (-1) [] := by
  simp [createSocket, hrc]

/-- **The list is walked once** exactly when it has one entry; with more entries
no number of iterations is enough. -/
theorem walks_once_iff {host : Host} (hcalls : ∀ i, (host.answers i).Succeed)
    (config : SocketConfig) {entries : List ℕ} (hrc : (lookup host config).1 = 0)
    (hchain : Chain host.heap (lookup host config).2 entries) (hne : entries ≠ []) :
    ((∃ fuel sockfd, createSocket host config fuel = .ok (sockfd, entries)) ↔
      entries.length = 1) ∧
    (entries.length ≠ 1 → ∀ fuel, createSocket host config fuel = .error .endless) := by
  obtain ⟨first, rest, rfl⟩ := List.exists_cons_of_ne_nil hne
  obtain ⟨hfirst, hrest⟩ := hchain
  simp only [createSocket_eq hrc, hfirst]
  cases rest with
  | nil =>
      refine ⟨iff_of_true ⟨1, (host.answers 0).socket, ?_⟩ rfl, fun hlen => absurd rfl hlen⟩
      rw [loop_step hcalls, hrest, loop]
      rfl
  | cons second rest =>
      have hendless := fun fuel => loop_endless hcalls config hrest.1 fuel first (-1) []
      refine ⟨iff_of_false ?_ (by simp), fun _ => hendless⟩
      rintro ⟨fuel, sockfd, hok⟩
      rw [hendless] at hok
      contradiction

/-- A system that knows the given list of addresses and answers every call with
success. -/
def willing (heap : ℕ → AddrInfo) (first : Option ℕ) : Host where
  heap := heap
  getIfaceIP _ := "127.0.0.1"
  getaddrinfo _ _ _ := (0, first)
  gaiError _ := ""
  answers i := ⟨3 + i, 2, 0, 0, 0, 0, 0, 0, 0, ""⟩

theorem willing_succeed (heap : ℕ → AddrInfo) (first : Option ℕ) (i : ℕ) :
    ((willing heap first).answers i).Succeed := by
  have hsocket : 0 ≤ (3 : ℤ) + i := by omega
  exact ⟨hsocket, (by decide : (2 : Int32) ≠ -1), (by decide : (0 : ℤ) ≠ -1), rfl, rfl, rfl, rfl,
    rfl, rfl⟩

def localhost : SocketConfig := { ip := "127.0.0.1", iface := "lo", port := 12345 }

theorem walks_once_iff_one : ∃ fuel sockfd,
    createSocket (willing (fun _ => ⟨none⟩) (some 0)) localhost fuel = .ok (sockfd, [0]) :=
  have hchain : Chain (fun _ => ⟨none⟩) (some 0) [0] := ⟨rfl, rfl⟩
  (walks_once_iff (willing_succeed _ _) localhost rfl hchain (by simp)).1.mpr rfl

/-- Two addresses, and the loop does not end. -/
theorem two_addresses :
    ¬ ∀ (host : Host) (config : SocketConfig) (entries : List ℕ),
      (∀ i, (host.answers i).Succeed) → (lookup host config).1 = 0 →
      Chain host.heap (lookup host config).2 entries → entries ≠ [] →
      ∃ fuel sockfd, createSocket host config fuel = .ok (sockfd, entries) := by
  intro hall
  let heap : ℕ → AddrInfo := fun a => ⟨if a = 0 then some 1 else none⟩
  have hcalls := willing_succeed heap (some 0)
  have hchain : Chain heap (some 0) [0, 1] := ⟨rfl, rfl, rfl⟩
  obtain ⟨fuel, sockfd, hok⟩ := hall _ localhost [0, 1] hcalls rfl hchain (by simp)
  have hendless : createSocket (willing heap (some 0)) localhost fuel = .error .endless :=
    (createSocket_eq rfl fuel).trans (loop_endless hcalls localhost rfl fuel 0 (-1) [])
  rw [hendless] at hok
  contradiction

end CreateSocket

end LowLatency.Common
