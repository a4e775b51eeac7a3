import Mathlib.Data.List.Infix
import Mathlib.Tactic.Common

/-!
Running a fallible step function over a list of inputs.

A program that may stop early is a function into `Except ε`; a run of it
over a list of inputs is `List.foldlM`. The two rules of this file are the
only inductions a property of such a run needs: `run_invariant` for what
holds whenever the run comes to its end, `run_total` for showing that it
does, up to tolerated errors. In both, the invariant sees the inputs
consumed so far, and the step obligation is only asked for prefixes of the
list that is run.
-/

namespace LowLatency.Lib

variable {ε α β σ : Type}

@[simp] theorem ok_bind (a : α) (f : α → Except ε β) :
    (Except.ok a >>= f) = f a := rfl

@[simp] theorem error_bind (e : ε) (f : α → Except ε β) :
    ((Except.error e : Except ε α) >>= f) = .error e := rfl

@[simp] theorem pure_eq_ok (a : α) : (pure a : Except ε α) = .ok a := rfl

theorem bind_eq_ok {x : Except ε α} {f : α → Except ε β} {r : β} :
    x >>= f = .ok r ↔ ∃ a, x = .ok a ∧ f a = .ok r := by
  cases x with
  | ok a => simp
  | error e => simp

/-- The run succeeds and its result passes the test `p`: what evaluating a run
on a fixed input can show. -/
def succeedsWith (x : Except ε α) (p : α → Bool) : Bool :=
  match x with
  | .ok a => p a
  | .error _ => false

theorem exists_of_succeedsWith {x : Except ε α} {p : α → Bool}
    (h : succeedsWith x p = true) : ∃ a, x = .ok a ∧ p a = true := by
  cases x with
  | ok a => exact ⟨a, rfl, h⟩
  | error e => contradiction

theorem run_snoc_eq_ok {step : σ → α → Except ε σ} {s r : σ} {l : List α} {a : α} :
    (l ++ [a]).foldlM step s = .ok r ↔
      ∃ m, l.foldlM step s = .ok m ∧ step m a = .ok r := by
  rw [List.foldlM_append, bind_eq_ok]
  simp only [List.foldlM_cons, List.foldlM_nil]
  constructor
  · rintro ⟨m, hm, h⟩
    obtain ⟨r', hr', h⟩ := bind_eq_ok.mp h
    rw [pure_eq_ok, Except.ok.injEq] at h
    exact ⟨m, hm, h ▸ hr'⟩
  · rintro ⟨m, hm, h⟩
    exact ⟨m, hm, bind_eq_ok.mpr ⟨r, h, rfl⟩⟩

theorem run_prefix {step : σ → α → Except ε σ} {s r : σ} {pre l : List α}
    (hpre : pre <+: l) (h : l.foldlM step s = .ok r) :
    ∃ m, pre.foldlM step s = .ok m := by
  obtain ⟨rest, rfl⟩ := hpre
  rw [List.foldlM_append, bind_eq_ok] at h
  obtain ⟨m, hm, -⟩ := h
  exact ⟨m, hm⟩

/-- The invariant rule: an invariant that holds at the start and survives
every step holds at the end of every completed run. -/
theorem run_invariant {step : σ → α → Except ε σ} {s₀ s : σ} {l : List α}
    (I : List α → σ → Prop) (h0 : I [] s₀)
    (hstep : ∀ pre a t t', pre ++ [a] <+: l → I pre t → step t a = .ok t' →
      I (pre ++ [a]) t')
    (h : l.foldlM step s₀ = .ok s) : I l s := by
  induction l using List.reverseRecOn generalizing s with
  | nil =>
      simp only [List.foldlM_nil, pure_eq_ok, Except.ok.injEq] at h
      exact h ▸ h0
  | append_singleton l a ih =>
      obtain ⟨m, hm, ha⟩ := run_snoc_eq_ok.mp h
      refine hstep l a m s (List.prefix_refl _) (ih ?_ hm) ha
      intro pre b t t' hpre
      exact hstep pre b t t' (hpre.trans (List.prefix_append l [a]))

/-- The totality rule: when every step from an invariant state either
succeeds into an invariant state or fails in a tolerated way, the whole run
does the same. -/
theorem run_total (step : σ → α → Except ε σ) (s₀ : σ) (l : List α) (tolerated : ε → Prop)
    (I : List α → σ → Prop) (h0 : I [] s₀)
    (hstep : ∀ pre a t, pre ++ [a] <+: l → I pre t →
      (∃ t', step t a = .ok t' ∧ I (pre ++ [a]) t') ∨
        ∃ e, tolerated e ∧ step t a = .error e) :
    (∃ s, l.foldlM step s₀ = .ok s ∧ I l s) ∨
      ∃ e, tolerated e ∧ l.foldlM step s₀ = .error e := by
  induction l using List.reverseRecOn with
  | nil => exact .inl ⟨s₀, rfl, h0⟩
  | append_singleton l a ih =>
      rw [List.foldlM_append]
      have hl := ih fun pre b t hpre =>
        hstep pre b t (hpre.trans (List.prefix_append l [a]))
      rcases hl with ⟨m, hm, hI⟩ | ⟨e, he, hm⟩
      · rw [hm, ok_bind]
        rcases hstep l a m (List.prefix_refl _) hI with ⟨t', ht', hI'⟩ | ⟨e, he, ht'⟩
        · exact .inl ⟨t', by simp [ht'], hI'⟩
        · exact .inr ⟨e, he, by simp [ht']⟩
      · exact .inr ⟨e, he, by rw [hm, error_bind]⟩

theorem run_ok (step : σ → α → Except ε σ) (s₀ : σ) (l : List α)
    (I : List α → σ → Prop) (h0 : I [] s₀)
    (hstep : ∀ pre a t, pre ++ [a] <+: l → I pre t →
      ∃ t', step t a = .ok t' ∧ I (pre ++ [a]) t') :
    ∃ s, l.foldlM step s₀ = .ok s ∧ I l s := by
  have htotal := run_total step s₀ l (fun _ => False) I h0 fun pre a t hpre hI =>
    .inl (hstep pre a t hpre hI)
  exact htotal.resolve_right fun ⟨_, hfalse, _⟩ => hfalse

/-! ### Runs with a log -/

/-- One step of a run that keeps everything its steps put out. -/
def logStep (step : σ → α → Except ε (σ × List β)) (s : σ × List β) (a : α) :
    Except ε (σ × List β) := do
  let (t, out) ← step s.1 a
  .ok (t, s.2 ++ out)

/-- A run together with what its steps put out, in order. -/
def runLog (step : σ → α → Except ε (σ × List β)) (s : σ) (l : List α) :
    Except ε (σ × List β) :=
  l.foldlM (logStep step) (s, [])

variable {step : σ → α → Except ε (σ × List β)}

theorem logStep_eq_ok {s r : σ × List β} {a : α} :
    logStep step s a = .ok r ↔ ∃ out, step s.1 a = .ok (r.1, out) ∧ r.2 = s.2 ++ out := by
  obtain ⟨t, log⟩ := r
  simp only [logStep, bind_eq_ok]
  constructor
  · rintro ⟨⟨t', out⟩, hstep, h⟩
    rw [Except.ok.injEq, Prod.mk.injEq] at h
    obtain ⟨rfl, rfl⟩ := h
    exact ⟨out, hstep, rfl⟩
  · rintro ⟨out, hstep, rfl⟩
    exact ⟨(t, out), hstep, rfl⟩

theorem runLog_snoc_eq_ok {s t : σ} {l : List α} {a : α} {log : List β} :
    runLog step s (l ++ [a]) = .ok (t, log) ↔
      ∃ m before out, runLog step s l = .ok (m, before) ∧ step m a = .ok (t, out) ∧
        log = before ++ out := by
  rw [runLog, run_snoc_eq_ok]
  constructor
  · rintro ⟨⟨m, before⟩, hm, ha⟩
    obtain ⟨out, hout, hlog⟩ := logStep_eq_ok.mp ha
    exact ⟨m, before, out, hm, hout, hlog⟩
  · rintro ⟨m, before, out, hm, hout, hlog⟩
    exact ⟨(m, before), hm, logStep_eq_ok.mpr ⟨out, hout, hlog⟩⟩

theorem runLog_snoc_of_error {s : σ} {l : List α} {e : ε} (h : runLog step s l = .error e)
    (a : α) : runLog step s (l ++ [a]) = .error e := by
  rw [runLog] at h
  rw [runLog, List.foldlM_append, h, error_bind]

theorem runLog_snoc_error {s t : σ} {l : List α} {a : α} {log : List β} {e : ε}
    (h : runLog step s l = .ok (t, log)) (ha : step t a = .error e) :
    runLog step s (l ++ [a]) = .error e := by
  rw [runLog] at h
  rw [runLog, List.foldlM_append, h, ok_bind, List.foldlM_cons, logStep, ha, error_bind,
    error_bind]

theorem runLog_append {s t : σ} {l l' : List α} {log : List β}
    (h : runLog step s (l ++ l') = .ok (t, log)) :
    ∃ m before after, runLog step s l = .ok (m, before) ∧
      runLog step m l' = .ok (t, after) ∧ log = before ++ after := by
  induction l' using List.reverseRecOn generalizing t log with
  | nil =>
      rw [List.append_nil] at h
      exact ⟨t, log, [], h, rfl, by simp⟩
  | append_singleton l' a ih =>
      rw [← List.append_assoc] at h
      obtain ⟨n, log', out, hn, ha, rfl⟩ := runLog_snoc_eq_ok.mp h
      obtain ⟨m, before, after, hm, hrest, rfl⟩ := ih hn
      exact ⟨m, before, after ++ out, hm, runLog_snoc_eq_ok.mpr ⟨n, after, out, hrest, ha, rfl⟩,
        List.append_assoc ..⟩

/-- The invariant rule, for an invariant that also sees the log. -/
theorem runLog_invariant {s₀ : σ} {l : List α} {r : σ × List β}
    (I : List α → σ → List β → Prop) (h0 : I [] s₀ [])
    (hstep : ∀ pre a t log t' out, pre ++ [a] <+: l → I pre t log →
      step t a = .ok (t', out) → I (pre ++ [a]) t' (log ++ out))
    (h : runLog step s₀ l = .ok r) : I l r.1 r.2 := by
  refine run_invariant (fun pre r => I pre r.1 r.2) h0 ?_ h
  intro pre a s t hpre hI ha
  obtain ⟨out, hout, hlog⟩ := logStep_eq_ok.mp ha
  rw [hlog]
  exact hstep pre a s.1 s.2 t.1 out hpre hI hout

/-- The totality rule, for an invariant that also sees the log. -/
theorem runLog_total (step : σ → α → Except ε (σ × List β)) (s₀ : σ) (l : List α)
    (tolerated : ε → Prop)
    (I : List α → σ → List β → Prop) (h0 : I [] s₀ [])
    (hstep : ∀ pre a t log, pre ++ [a] <+: l → I pre t log →
      (∃ t' out, step t a = .ok (t', out) ∧ I (pre ++ [a]) t' (log ++ out)) ∨
        ∃ e, tolerated e ∧ step t a = .error e) :
    (∃ s log, runLog step s₀ l = .ok (s, log) ∧ I l s log) ∨
      ∃ e, tolerated e ∧ runLog step s₀ l = .error e := by
  have htotal := run_total (logStep step) (s₀, []) l tolerated (fun pre r => I pre r.1 r.2) h0 ?_
  · exact htotal.imp_left fun ⟨r, hrun, hI⟩ => ⟨r.1, r.2, hrun, hI⟩
  · rintro pre a ⟨t, log⟩ hpre hI
    rcases hstep pre a t log hpre hI with ⟨t', out, ha, hI'⟩ | ⟨e, he, ha⟩
    · exact .inl ⟨(t', log ++ out), logStep_eq_ok.mpr ⟨out, ha, rfl⟩, hI'⟩
    · exact .inr ⟨e, he, by rw [logStep, ha, error_bind]⟩

end LowLatency.Lib
