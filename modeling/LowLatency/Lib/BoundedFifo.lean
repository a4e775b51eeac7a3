import LowLatency.Lib.Transition
import Mathlib.Data.List.Infix

/-!
A queue of bounded length between a sender and a receiver.

This is what any such queue is for: the sender has a list of values to send,
the queue takes the next one when there is room, and the receiver gets them
from the other end. No value can be lost, repeated or overtaken, because every
step only moves a value across one of the two borders of the list it started
in.
-/

namespace LowLatency.Lib

variable {T : Type}

structure Fifo (T : Type) where
  pending : List T
  content : List T
  received : List T

namespace Fifo

inductive Step (n : ℕ) : Fifo T → Fifo T → Prop
  | send {v pending content received} : content.length < n →
      Step n ⟨v :: pending, content, received⟩ ⟨pending, content ++ [v], received⟩
  | receive {v pending content received} :
      Step n ⟨pending, v :: content, received⟩ ⟨pending, content, received ++ [v]⟩

def bounded (n : ℕ) (vals : List T) : System (Fifo T) where
  init s := s = ⟨vals, [], []⟩
  step := Step n

variable {n : ℕ} {vals : List T} {s : Fifo T}

theorem append_eq (h : (bounded n vals).Reachable s) :
    s.received ++ s.content ++ s.pending = vals := by
  refine h.invariant (fun s => s.received ++ s.content ++ s.pending = vals) ?_ ?_
  · rintro s rfl
    rfl
  · intro s t hs hst
    cases hst with
    | send _ => simpa using hs
    | receive => simpa using hs

theorem received_isPrefix (h : (bounded n vals).Reachable s) : s.received <+: vals :=
  ⟨s.content ++ s.pending, by rw [← List.append_assoc, append_eq h]⟩

end Fifo

end LowLatency.Lib
