import LowLatency.Lib.Execution
import Mathlib.Logic.Function.Basic

/-!
Components that do not share anything.

A system of components, one for each key, handles an input by the component
that the key of the input names. Seen from one component, a run of the system
is a run on the inputs with its key. So the order in which the inputs of
different components come in does not matter.
-/

namespace LowLatency.Lib

variable {ε κ α β τ : Type} [DecidableEq κ]

/-- One input is handled by the component its key names. -/
def route (key : α → κ) (step : τ → α → Except ε (τ × List β)) (s : κ → τ) (a : α) :
    Except ε ((κ → τ) × List β) := do
  let (t, out) ← step (s (key a)) a
  .ok (Function.update s (key a) t, out)

variable {key : α → κ} {step : τ → α → Except ε (τ × List β)}

theorem route_eq_ok {s s' : κ → τ} {a : α} {out : List β} :
    route key step s a = .ok (s', out) ↔
      ∃ t, step (s (key a)) a = .ok (t, out) ∧ s' = Function.update s (key a) t := by
  simp only [route, bind_eq_ok]
  constructor
  · rintro ⟨⟨t, out'⟩, hstep, h⟩
    rw [Except.ok.injEq, Prod.mk.injEq] at h
    obtain ⟨rfl, rfl⟩ := h
    exact ⟨t, hstep, rfl⟩
  · rintro ⟨t, hstep, rfl⟩
    exact ⟨(t, out), hstep, rfl⟩

/-- What a component puts out can be told from what the others put out: every
component keeps its own invariant, and under it tags its output with its key. -/
structure Tagged (key : α → κ) (step : τ → α → Except ε (τ × List β)) (tag : β → κ)
    (ok : α → Prop) (I : κ → τ → Prop) : Prop where
  keep : ∀ {t t' : τ} {a : α} {out : List β}, ok a → I (key a) t → step t a = .ok (t', out) →
    I (key a) t'
  out : ∀ {t t' : τ} {a : α} {out : List β}, ok a → I (key a) t → step t a = .ok (t', out) →
    ∀ o ∈ out, tag o = key a

variable {tag : β → κ} {ok : α → Prop} {I : κ → τ → Prop}

theorem Tagged.invariant (h : Tagged key step tag ok I) {s : κ → τ} (hs : ∀ k, I k (s k))
    {l : List α} (hl : ∀ a ∈ l, ok a) {s' : κ → τ} {out : List β}
    (hrun : runLog (route key step) s l = .ok (s', out)) : ∀ k, I k (s' k) := by
  refine runLog_invariant (fun _ s _ => ∀ k, I k (s k)) hs ?_ hrun
  intro pre a s out s' out' hpre hI ha k
  obtain ⟨t, ht, rfl⟩ := route_eq_ok.mp ha
  have hak : a ∈ l := hpre.subset (by simp)
  by_cases hk : k = key a
  · subst hk
    rw [Function.update_self]
    exact h.keep (hl a hak) (hI _) ht
  · rw [Function.update_of_ne hk]
    exact hI k

/-- **The run of one component** is the run of the system on its own inputs. -/
theorem Tagged.project (h : Tagged key step tag ok I) {s : κ → τ} (hs : ∀ k, I k (s k))
    {l : List α} (hl : ∀ a ∈ l, ok a) {s' : κ → τ} {out : List β}
    (hrun : runLog (route key step) s l = .ok (s', out)) (k : κ) :
    runLog step (s k) (l.filter fun a => key a = k) =
      .ok (s' k, out.filter fun o => tag o = k) := by
  induction l using List.reverseRecOn generalizing s' out with
  | nil =>
      rw [runLog, List.foldlM_nil, pure_eq_ok, Except.ok.injEq, Prod.mk.injEq] at hrun
      obtain ⟨rfl, rfl⟩ := hrun
      rfl
  | append_singleton l a ih =>
      have hl' : ∀ a ∈ l, ok a := fun c hc => hl c (List.mem_append_left _ hc)
      obtain ⟨m, before, new, hm, ha, rfl⟩ := runLog_snoc_eq_ok.mp hrun
      obtain ⟨t, ht, rfl⟩ := route_eq_ok.mp ha
      have hI := h.invariant hs hl' hm
      have htag := h.out (hl a (by simp)) (hI _) ht
      have hk := ih hl' hm
      by_cases hak : key a = k
      · subst hak
        have hnew : new.filter (fun o => tag o = key a) = new :=
          List.filter_eq_self.mpr fun o ho => decide_eq_true (htag o ho)
        have hone : [a].filter (fun c => key c = key a) = [a] := by simp
        rw [List.filter_append, List.filter_append, hnew, hone, Function.update_self]
        exact runLog_snoc_eq_ok.mpr ⟨_, _, new, hk, ht, rfl⟩
      · have hnew : new.filter (fun o => tag o = k) = [] :=
          List.filter_eq_nil_iff.mpr fun o ho => by simp [htag o ho, hak]
        have hone : [a].filter (fun c => key c = k) = [] := by simp [hak]
        rw [List.filter_append, List.filter_append, hnew, hone, List.append_nil,
          List.append_nil, Function.update_of_ne (Ne.symm hak)]
        exact hk

/-- **Interleavings do not matter**: two runs that agree on the inputs of every
component end in the same state, and put out the same for every component. -/
theorem Tagged.eq_of_filter_eq (h : Tagged key step tag ok I) {s : κ → τ}
    (hs : ∀ k, I k (s k)) {l l' : List α} (hl : ∀ a ∈ l, ok a) (hl' : ∀ a ∈ l', ok a)
    (hsame : ∀ k, (l.filter fun a => key a = k) = l'.filter fun a => key a = k)
    {t t' : κ → τ} {out out' : List β} (hrun : runLog (route key step) s l = .ok (t, out))
    (hrun' : runLog (route key step) s l' = .ok (t', out')) :
    t = t' ∧ ∀ k, (out.filter fun o => tag o = k) = out'.filter fun o => tag o = k := by
  have hboth : ∀ k, t k = t' k ∧
      (out.filter fun o => tag o = k) = out'.filter fun o => tag o = k := by
    intro k
    have hk := h.project hs hl hrun k
    rw [hsame k, h.project hs hl' hrun' k, Except.ok.injEq, Prod.mk.injEq] at hk
    exact ⟨hk.1.symm, hk.2.symm⟩
  refine ⟨?_, fun k => (hboth k).2⟩
  ext k
  exact (hboth k).1

end LowLatency.Lib
