import LowLatency.Lib.Execution
import LowLatency.Lib.Transition

/-!
A server: it takes inputs one at a time, and what it puts out for them leaves
it one piece at a time.

This is what any program between an input queue and output queues is for. The
two kinds of step are not in lockstep: an input may be taken while pieces for
earlier ones are still to leave. What has left and what is still to leave are
nevertheless what the inputs taken lead to when they are run one after the
other, and nothing else.
-/

namespace LowLatency.Lib

variable {ε σ ι β : Type}

/-- `served` are the inputs taken, `pending` what is still to leave, `sent` what
has left. -/
structure Server (σ ι β : Type) where
  state : σ
  served : List ι
  pending : List β
  sent : List β

namespace Server

inductive Step (step : σ → ι → Except ε (σ × List β)) : Server σ ι β → Server σ ι β → Prop
  | serve {s : Server σ ι β} {i t out} : step s.state i = .ok (t, out) →
      Step step s { s with
        state := t, served := s.served ++ [i], pending := s.pending ++ out }
  | send {s : Server σ ι β} {b rest} : s.pending = b :: rest →
      Step step s { s with pending := rest, sent := s.sent ++ [b] }

def system (step : σ → ι → Except ε (σ × List β)) (s₀ : σ) : System (Server σ ι β) where
  init s := s = ⟨s₀, [], [], []⟩
  step := Step step

variable {step : σ → ι → Except ε (σ × List β)} {s₀ : σ} {s : Server σ ι β}

/-- The server is where a run over the inputs taken ends, and the log of this
run is what has left followed by what is to leave. -/
theorem runLog_eq (h : (system step s₀).Reachable s) :
    runLog step s₀ s.served = .ok (s.state, s.sent ++ s.pending) := by
  refine h.invariant
    (fun s => runLog step s₀ s.served = .ok (s.state, s.sent ++ s.pending)) ?_ ?_
  · rintro s rfl
    rfl
  · intro s t hs hst
    cases hst with
    | serve hserve =>
        exact runLog_snoc_eq_ok.mpr ⟨_, _, _, hs, hserve, (List.append_assoc ..).symm⟩
    | send hpending =>
        rw [hpending] at hs
        rw [hs, List.append_assoc]
        rfl

end Server

end LowLatency.Lib
