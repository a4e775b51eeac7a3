import LowLatency.Lib.Execution

/-!
Two computations in lockstep: both stop with the same failure, or both return
and their results are related.

The rules follow the shape of a computation, so a relation that every step of
a program respects is carried through its runs.
-/

namespace LowLatency.Lib

variable {ε α α' β β' γ ι σ σ' : Type}

inductive Lockstep (R : α → α' → Prop) : Except ε α → Except ε α' → Prop
  | ok {a : α} {a' : α'} : R a a' → Lockstep R (.ok a) (.ok a')
  | error (e : ε) : Lockstep R (.error e) (.error e)

namespace Lockstep

variable {R : α → α' → Prop} {S : β → β' → Prop}

theorem bind {x : Except ε α} {x' : Except ε α'} {f : α → Except ε β} {f' : α' → Except ε β'}
    (h : Lockstep R x x') (hf : ∀ a a', R a a' → Lockstep S (f a) (f' a')) :
    Lockstep S (x >>= f) (x' >>= f') := by
  cases h with
  | ok ha => exact hf _ _ ha
  | error e => exact .error e

theorem bind_same {x : Except ε γ} {f : γ → Except ε β} {f' : γ → Except ε β'}
    (hf : ∀ a, Lockstep S (f a) (f' a)) : Lockstep S (x >>= f) (x >>= f') := by
  cases x with
  | ok a => exact hf a
  | error e => exact .error e

theorem foldlM {R : σ → σ' → Prop} {step : σ → ι → Except ε σ} {step' : σ' → ι → Except ε σ'}
    (hstep : ∀ s s' i, R s s' → Lockstep R (step s i) (step' s' i)) {s : σ} {s' : σ'}
    (h : R s s') (l : List ι) : Lockstep R (l.foldlM step s) (l.foldlM step' s') := by
  induction l generalizing s s' with
  | nil => exact .ok h
  | cons i l ih => exact (hstep s s' i h).bind fun t t' ht => ih ht

theorem runLog {R : σ → σ' → Prop} {step : σ → ι → Except ε (σ × List β)}
    {step' : σ' → ι → Except ε (σ' × List β)}
    (hstep : ∀ s s' i, R s s' →
      Lockstep (fun r r' => R r.1 r'.1 ∧ r.2 = r'.2) (step s i) (step' s' i))
    {s : σ} {s' : σ'} (h : R s s') (l : List ι) :
    Lockstep (fun r r' => R r.1 r'.1 ∧ r.2 = r'.2) (runLog step s l) (runLog step' s' l) := by
  apply foldlM _ ⟨h, rfl⟩ l
  rintro ⟨s, log⟩ ⟨s', log'⟩ i ⟨hs, rfl⟩
  refine (hstep s s' i hs).bind ?_
  rintro ⟨t, out⟩ ⟨t', out'⟩ ⟨ht, rfl⟩
  exact .ok ⟨ht, rfl⟩

end Lockstep

end LowLatency.Lib
