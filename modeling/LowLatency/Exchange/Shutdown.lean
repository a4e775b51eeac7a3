import Mathlib.Logic.Relation
import LowLatency.Exchange.StartStop

/-!
`~MatchingEngine`: the end of an engine.

The destructor clears the flag, sleeps, and then takes the pointers to the queues and
the books away; behind it the members are destroyed and the memory is given back. No
thread is joined, so whether a thread in `run` still needs what is taken away is left
to the sleep. `Waits` says what the sleep has to achieve: it is enough in every run
(`never_broken`), and a destructor that goes on without it can break the engine
(`canBreak_iff`).
-/

namespace LowLatency.Exchange

open LowLatency.Lib LowLatency.Common

namespace Shutdown

open StartStop (Thread Action RunStep)

inductive Phase
  | alive
  | stopped
  | cleared
  | freed
  deriving DecidableEq

/-- `broken` when a thread has used what is gone. -/
structure State where
  engine : StartStop.State
  phase : Phase
  broken : Bool

/-- The next thing the thread does is to go through a pointer of the engine: to the
queue, or to a book. -/
def usesPointer : Thread → Bool
  | .getNextToRead | .holding _ | .processed _ => true
  | _ => false

/-- The next thing the thread does needs what the destructor has taken away. -/
def Gone : Phase → Thread → Prop
  | .alive, _ | .stopped, _ => False
  | .cleared, p => usesPointer p
  | .freed, p => usesPointer p ∨ p = .testRun

/-- The step needs nothing that is gone; nobody calls a method once the destructor has
begun, except that the producer goes on, who has a pointer of its own. -/
def Intact (s : State) : Action → Prop
  | .enqueue => True
  | .run k => ∀ p, s.engine.threads[k]? = some p → ¬ Gone s.phase p
  | _ => s.phase = .alive

inductive Step (requests : List MEClientRequest) : State → State → Prop
  | engine {s : State} {a e} : StartStop.Step requests a s.engine e → Intact s a →
      Step requests s { s with engine := e }
  | touch {s : State} {k : ℕ} {p} : s.engine.threads[k]? = some p → Gone s.phase p →
      Step requests s { s with broken := true }
  -- `run_ = false`
  | stop {s : State} : s.phase = .alive →
      Step requests s { s with engine := { s.engine with run := false }, phase := .stopped }
  -- the pointers become null, and the books are deleted
  | clear {s : State} : s.phase = .stopped → Step requests s { s with phase := .cleared }
  -- the members are destroyed
  | free {s : State} : s.phase = .cleared → Step requests s { s with phase := .freed }

/-- The thread does not go through a pointer before it looks at the flag again. -/
def Outside : Thread → Prop
  | .getNextToRead | .sizeSeen | .holding _ | .processed _ => False
  | _ => True

/-- The thread has left its loop, or has ended the process. -/
def Ended (p : Thread) : Prop := p = .exited ∨ p = .failed

/-- When the pointers go, no thread is on its way to one, and when the memory goes, no
thread is left. -/
def Waits (s t : State) : Prop :=
  (s.phase = .stopped → t.phase = .cleared → ∀ p ∈ s.engine.threads, Outside p) ∧
    (s.phase = .cleared → t.phase = .freed → ∀ p ∈ s.engine.threads, Ended p)

def start (n : Capacity) : State := ⟨StartStop.start n, .alive, false⟩

def system (n : Capacity) (requests : List MEClientRequest) : System State where
  init s := s = start n
  step s t := Step requests s t ∧ Waits s t

variable {n : Capacity} {requests : List MEClientRequest} {s t : State}

/-! ### One step -/

theorem outside_of_runStep {q q' : LFQueue (Option MEClientRequest)} {p p' : Thread}
    {l l' : List (Option MEClientRequest)} (h : RunStep false q p l q' p' l') (hp : Outside p) :
    Outside p' := by
  cases h with
  | enter hrun => contradiction
  | leave | incReadIdx | storeReadIdx | decSize => trivial
  | _ => exact hp.elim

theorem not_runStep_of_ended {run : Bool} {q q' : LFQueue (Option MEClientRequest)}
    {p p' : Thread} {l l' : List (Option MEClientRequest)} (h : RunStep run q p l q' p' l') :
    ¬ Ended p := by
  rintro (rfl | rfl) <;> cases h

/-- Where the threads are as long as the engine is not broken. -/
def Safe (s : State) : Prop :=
  match s.phase with
  | .alive => True
  | .stopped => s.engine.run = false
  | .cleared => s.engine.run = false ∧ ∀ p ∈ s.engine.threads, Outside p
  | .freed => ∀ p ∈ s.engine.threads, Ended p

theorem not_gone_of_outside {p : Thread} (h : Outside p) : ¬ Gone .cleared p := by
  cases p <;> first | exact h.elim | simp [Gone, usesPointer]

theorem not_gone_of_ended {p : Thread} (h : Ended p) : ¬ Gone .freed p := by
  rcases h with rfl | rfl <;> simp [Gone, usesPointer]

theorem Safe.not_gone (h : Safe s) : ∀ p ∈ s.engine.threads, ¬ Gone s.phase p := by
  intro p hp
  rw [Safe] at h
  cases hphase : s.phase with
  | alive | stopped => exact id
  | cleared =>
      rw [hphase] at h
      exact not_gone_of_outside (h.2 p hp)
  | freed =>
      rw [hphase] at h
      exact not_gone_of_ended (h p hp)

theorem Safe.engine (h : Safe s) {a : Action} {e : StartStop.State}
    (hst : StartStop.Step requests a s.engine e) (hintact : Intact s a) :
    Safe { s with engine := e } := by
  obtain ⟨engine, phase, broken⟩ := s
  cases phase with
  | alive => trivial
  | stopped =>
      cases hst with
      | enqueue | run => exact h
      | start | launch | stop => cases hintact
  | cleared =>
      obtain ⟨hrun, hout⟩ := h
      cases hst with
      | enqueue => exact ⟨hrun, hout⟩
      | start | launch | stop => cases hintact
      | run hp hrunStep =>
          refine ⟨hrun, fun p hmem => ?_⟩
          dsimp only at hrun hout hp hrunStep
          rw [hrun] at hrunStep
          rcases List.mem_or_eq_of_mem_set hmem with hmem | rfl
          · exact hout p hmem
          · exact outside_of_runStep hrunStep (hout _ (List.mem_of_getElem? hp))
  | freed =>
      cases hst with
      | enqueue => exact h
      | start | launch | stop => cases hintact
      | run hp hrunStep =>
          exact absurd (h _ (List.mem_of_getElem? hp)) (not_runStep_of_ended hrunStep)

theorem Safe.step (h : Safe s) (hst : Step requests s t) (hwaits : Waits s t) :
    Safe t ∧ t.broken = s.broken := by
  cases hst with
  | engine hengine hintact => exact ⟨h.engine hengine hintact, rfl⟩
  | touch hp hgone => exact absurd hgone (h.not_gone _ (List.mem_of_getElem? hp))
  | stop => exact ⟨rfl, rfl⟩
  | clear hphase =>
      rw [Safe, hphase] at h
      exact ⟨⟨h, hwaits.1 hphase rfl⟩, rfl⟩
  | free hphase => exact ⟨hwaits.2 hphase rfl, rfl⟩

theorem safe_of_reachable (h : (system n requests).Reachable s) : Safe s ∧ s.broken = false := by
  refine h.invariant (fun s => Safe s ∧ s.broken = false) ?_ ?_
  · rintro s rfl
    exact ⟨trivial, rfl⟩
  · rintro s t ⟨hsafe, hbroken⟩ ⟨hst, hwaits⟩
    obtain ⟨hsafe', heq⟩ := hsafe.step hst hwaits
    exact ⟨hsafe', heq.trans hbroken⟩

/-! ### Without waiting -/

/-- The engine can break before the destructor goes on. -/
def CanBreak (requests : List MEClientRequest) (s : State) : Prop :=
  ∃ u, Relation.ReflTransGen (Step requests) s u ∧ u.phase = s.phase ∧ u.broken = true

theorem canBreak_of_gone {k : ℕ} {p : Thread} (hp : s.engine.threads[k]? = some p)
    (hgone : Gone s.phase p) : CanBreak requests s :=
  ⟨_, .single (.touch hp hgone), rfl, rfl⟩

theorem canBreak_of_step {k : ℕ} {p p' : Thread} {q : LFQueue (Option MEClientRequest)}
    {l : List (Option MEClientRequest)} (hp : s.engine.threads[k]? = some p)
    (hrun : RunStep s.engine.run s.engine.incomingRequests p s.engine.processed q p' l)
    (hgone : ¬ Gone s.phase p)
    (hnext : ∀ t : State, t.phase = s.phase → t.engine.threads[k]? = some p' →
      CanBreak requests t) : CanBreak requests s := by
  have hintact : Intact s (.run k) := by
    intro p₁ hp₁
    rwa [← Option.some.inj (hp.symm.trans hp₁)]
  have hset : (s.engine.threads.set k p')[k]? = some p' :=
    List.getElem?_set_self (List.getElem?_eq_some_iff.mp hp).1
  obtain ⟨u, htu, hphase, hbroken⟩ := hnext { s with engine := { s.engine with
    incomingRequests := q, threads := s.engine.threads.set k p', processed := l } } rfl hset
  exact ⟨u, .head (.engine (.run hp hrun) hintact) htu, hphase, hbroken⟩

/-- The pointers are gone and the thread is on its way to one. -/
theorem canBreak_of_inside (hphase : s.phase = .cleared ∨ s.phase = .freed) {k : ℕ} {p : Thread}
    (hp : s.engine.threads[k]? = some p) (hin : ¬ Outside p) : CanBreak requests s := by
  have hpointer : ∀ {t : State} {p : Thread}, t.phase = s.phase → usesPointer p →
      Gone t.phase p := by
    intro t p ht hp
    rw [ht]
    rcases hphase with h | h <;> rw [h]
    · exact hp
    · exact .inl hp
  cases p with
  | getNextToRead | holding | processed => exact canBreak_of_gone hp (hpointer rfl rfl)
  | sizeSeen =>
      refine canBreak_of_step hp .getNextToRead ?_ fun t ht hp' =>
        canBreak_of_gone hp' (hpointer ht rfl)
      rcases hphase with h | h <;> simp [h, Gone, usesPointer]
  | _ => exact absurd trivial hin

/-- The memory is gone and the thread will look at the flag again. -/
theorem canBreak_of_not_ended (hphase : s.phase = .freed) {k : ℕ} {p : Thread}
    (hp : s.engine.threads[k]? = some p) (hrest : ¬ Ended p) : CanBreak requests s := by
  have htest : ∀ t : State, t.phase = .freed → t.engine.threads[k]? = some .testRun →
      CanBreak requests t := fun t ht hp => canBreak_of_gone hp (ht ▸ .inr rfl)
  have hstored : ∀ (c : ℕ) (t : State), t.phase = .freed →
      t.engine.threads[k]? = some (.stored c) → CanBreak requests t := fun c t ht hp =>
    canBreak_of_step hp .decSize (by simp [ht, Gone, usesPointer])
      fun u hu hp' => htest u (hu.trans ht) hp'
  have hincremented : ∀ (c idx : ℕ) (t : State), t.phase = .freed →
      t.engine.threads[k]? = some (.incremented c idx) → CanBreak requests t :=
    fun c idx t ht hp => canBreak_of_step hp .storeReadIdx (by simp [ht, Gone, usesPointer])
      fun u hu hp' => hstored c u (hu.trans ht) hp'
  cases p with
  | testRun => exact htest s hphase hp
  | checked c =>
      exact canBreak_of_step hp .incReadIdx (by simp [hphase, Gone, usesPointer])
        fun u hu hp' => hincremented c _ u (hu.trans hphase) hp'
  | incremented c idx => exact hincremented c idx s hphase hp
  | stored c => exact hstored c s hphase hp
  | exited => exact absurd (.inl rfl) hrest
  | failed => exact absurd (.inr rfl) hrest
  | getNextToRead | sizeSeen | holding | processed =>
      exact canBreak_of_inside (.inr hphase) hp id

theorem not_canBreak (h : Safe s) (hbroken : s.broken = false)
    (hphase : s.phase = .cleared ∨ s.phase = .freed) : ¬ CanBreak requests s := by
  rintro ⟨u, hrun, hsame, hu⟩
  have hkeeps : (u.phase = s.phase ∧ Safe u ∧ u.broken = false) ∨
      (s.phase = .cleared ∧ u.phase = .freed) := by
    clear hsame hu
    induction hrun with
    | refl => exact .inl ⟨rfl, h, hbroken⟩
    | @tail t u _ hst ih =>
        cases hst with
        | engine hengine hintact =>
            exact ih.imp_left fun ⟨ht, hsafe, hb⟩ => ⟨ht, hsafe.engine hengine hintact, hb⟩
        | touch hp hgone =>
            refine ih.imp_left fun ⟨_, hsafe, _⟩ => ?_
            exact absurd hgone (hsafe.not_gone _ (List.mem_of_getElem? hp))
        | stop ht | clear ht =>
            rcases ih with ⟨hts, -⟩ | ⟨-, hfreed⟩
            · rcases hphase with hs | hs <;> simp [hts, hs] at ht
            · simp [hfreed] at ht
        | free ht =>
            rcases ih with ⟨hts, -⟩ | ⟨-, hfreed⟩
            · exact .inr ⟨hts.symm.trans ht, rfl⟩
            · simp [hfreed] at ht
  rcases hkeeps with ⟨-, -, hb⟩ | ⟨hs, hfreed⟩
  · simp [hb] at hu
  · simp [hsame, hs] at hfreed

/-- **The sleep is enough.** In every run in which no thread is on its way to a pointer
when the pointers go, and none is left when the memory goes, no thread uses what is
gone. -/
theorem never_broken (h : (system n requests).Reachable s) : s.broken = false :=
  (safe_of_reachable h).2

theorem never_broken_exited : ∃ s : State, (system ⟨1, by decide⟩ []).Reachable s ∧
    s.engine.threads = [.exited] ∧ s.phase = .freed ∧ s.broken = false := by
  have h₀ : (system ⟨1, by decide⟩ []).Reachable (start ⟨1, by decide⟩) := .init rfl
  have h₁ := h₀.step ⟨.engine .start rfl, nofun, nofun⟩
  have h₂ := h₁.step ⟨.engine (.launch (by decide)) rfl, nofun, nofun⟩
  have h₃ := h₂.step ⟨.stop rfl, nofun, nofun⟩
  have h₄ := h₃.step ⟨.engine (.run (k := 0) rfl (.leave rfl)) fun _ _ => id, nofun, nofun⟩
  have h₅ := h₄.step ⟨.clear rfl, fun _ _ p hp => List.mem_singleton.mp hp ▸ trivial, nofun⟩
  have h₆ := h₅.step ⟨.free rfl, nofun, fun _ _ p hp => .inl (List.mem_singleton.mp hp)⟩
  exact ⟨_, h₆, rfl, rfl, never_broken h₆⟩

/-- **And it is needed.** If the destructor goes on earlier, there is always a way for
the engine to break. -/
theorem canBreak_iff (h : (system n requests).Reachable s) :
    (s.phase = .stopped → (CanBreak requests { s with phase := .cleared } ↔
      ∃ p ∈ s.engine.threads, ¬ Outside p)) ∧
    (s.phase = .cleared → (CanBreak requests { s with phase := .freed } ↔
      ∃ p ∈ s.engine.threads, ¬ Ended p)) := by
  obtain ⟨hsafe, hbroken⟩ := safe_of_reachable h
  constructor
  · intro hphase
    rw [Safe, hphase] at hsafe
    constructor
    · intro hbreak
      by_contra hall
      have hout : ∀ p ∈ s.engine.threads, Outside p := by simpa using hall
      exact not_canBreak (s := { s with phase := .cleared }) ⟨hsafe, hout⟩ hbroken (.inl rfl) hbreak
    · rintro ⟨p, hp, hin⟩
      obtain ⟨k, hk⟩ := List.mem_iff_getElem?.mp hp
      exact canBreak_of_inside (.inl rfl) hk hin
  · intro hphase
    constructor
    · intro hbreak
      by_contra hall
      have hended : ∀ p ∈ s.engine.threads, Ended p := by simpa using hall
      exact not_canBreak (s := { s with phase := .freed }) hended hbroken (.inr rfl) hbreak
    · rintro ⟨p, hp, hrest⟩
      obtain ⟨k, hk⟩ := List.mem_iff_getElem?.mp hp
      exact canBreak_of_not_ended rfl hk hrest

/-- A thread that has seen the flag up, and a destructor that does not wait for it. -/
theorem canBreak_iff_polling : ∃ s : State, (system ⟨1, by decide⟩ []).Reachable s ∧
    s.phase = .stopped ∧ CanBreak [] { s with phase := .cleared } := by
  have h₀ : (system ⟨1, by decide⟩ []).Reachable (start ⟨1, by decide⟩) := .init rfl
  have h₁ := h₀.step ⟨.engine .start rfl, nofun, nofun⟩
  have h₂ := h₁.step ⟨.engine (.launch (by decide)) rfl, nofun, nofun⟩
  have h₃ := h₂.step ⟨.engine (.run (k := 0) rfl (.enter rfl)) fun _ _ => id, nofun, nofun⟩
  have h₄ := h₃.step ⟨.stop rfl, nofun, nofun⟩
  exact ⟨_, h₄, rfl, ((canBreak_iff h₄).1 rfl).mpr ⟨_, List.mem_singleton_self _, id⟩⟩

end Shutdown

end LowLatency.Exchange
