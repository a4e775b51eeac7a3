import Mathlib.Data.Prod.Lex
import LowLatency.Common.LogFile
import LowLatency.Lib.Progress

/-!
`logging.hpp`: a logger that is destroyed in a signal handler.

The handler runs on the thread that logs, so the destructor may begin between any two
accesses of a `pushValue`, and this call of `log` never goes on. What `log` computes
before it pushes is no access and has no state of its own. The flush thread takes no
notice: to it, the run is one in which the other thread happens to be slow
(`refines_system`). So the destructor is not held up, and what was put into the queue
before the signal is in the file.
-/

namespace LowLatency.Common

open LowLatency.Lib

namespace Logger

/-- Before the signal nobody calls the destructor, and behind it the thread that logs
does not go on. -/
inductive SignalStep (vals : List LogElement) : State → State → Prop
  | signal {s : State} : s.destructor = .notStarted →
      SignalStep vals s { s with destructor := .testSize }
  | logger {s t : State} : Step vals s t →
      (s.destructor = .notStarted → t.destructor = .notStarted) →
      (s.destructor ≠ .notStarted → t.producer = s.producer) → SignalStep vals s t

def signalSystem (n : Capacity) (pushes : List PushValue) : System State where
  init s := s = start n
  step := SignalStep (pushes.flatMap PushValue.elements)

variable {n : Capacity} {pushes : List PushValue} {vals : List LogElement} {s t : State}

/-! ### What the flush thread sees -/

/-- A thread that has left its loop, as one that is about to look at the flag. -/
def Flusher.awake : Flusher → Flusher
  | .exited => .testRunning
  | f => f

def State.undisturbed (s : State) : State :=
  { s with flusher := s.flusher.awake, running := true, destructor := .notStarted }

/-- A step that is not the destructor's is one of the logger that nobody destroys, or is
not seen there. -/
theorem undisturbed_step (hst : Step vals s t) :
    t.undisturbed = s.undisturbed ∨ Step vals s.undisturbed t.undisturbed := by
  cases hst with
  | push hp => exact .inr (.push hp)
  | enter hf _ => exact .inr (.enter (congrArg Flusher.awake hf) rfl)
  | leave hf _ => exact .inl (by simp [State.undisturbed, Flusher.awake, hf])
  | getNull hf hsize => exact .inr (.getNull (congrArg Flusher.awake hf) hsize)
  | seeSize hf hsize => exact .inr (.seeSize (congrArg Flusher.awake hf) hsize)
  | getNextToRead hf => exact .inr (.getNextToRead (congrArg Flusher.awake hf))
  | sizeZero hf hsize => exact .inr (.sizeZero (congrArg Flusher.awake hf) hsize)
  | nextNull hf hsize => exact .inr (.nextNull (congrArg Flusher.awake hf) hsize)
  | useNext hf hsize => exact .inr (.useNext (congrArg Flusher.awake hf) hsize)
  | write hf => exact .inr (.write (congrArg Flusher.awake hf))
  | check hf hsize => exact .inr (.check (congrArg Flusher.awake hf) hsize)
  | fail hf hsize => exact .inr (.fail (congrArg Flusher.awake hf) hsize)
  | storeReadIdx hf => exact .inr (.storeReadIdx (congrArg Flusher.awake hf))
  | decSize hf => exact .inr (.decSize (congrArg Flusher.awake hf))
  | flush hf => exact .inr (.flush (congrArg Flusher.awake hf))
  | destroy | seeEmpty | stop | join | close => exact .inl rfl

theorem refines_system : (signalSystem n pushes).Refines (system n pushes) State.undisturbed where
  init := by
    rintro s rfl
    rfl
  step := by
    intro s t _ hst
    cases hst with
    | signal => exact .inl rfl
    | logger hst _ _ => exact undisturbed_step hst

theorem toQueue_undisturbed (s : State) : s.undisturbed.toQueue = s.toQueue := by
  cases hf : s.flusher <;> simp [State.toQueue, State.undisturbed, Flusher.awake, hf,
    Flusher.consumer]

theorem queue_of_signal (h : (signalSystem n pushes).Reachable s) :
    (ProducerConsumer.system n (pushes.flatMap PushValue.elements)).Reachable s.toQueue := by
  rw [← toQueue_undisturbed]
  exact reachable_toQueue (refines_system.reachable h)

theorem producer_ne_of_pushStep {q q' : LFQueue (Option LogElement)}
    {p p' : ProducerConsumer.Producer} {next next' : ℕ}
    (h : ProducerConsumer.PushStep vals q p next q' p' next') : p' ≠ p := by
  cases h <;> nofun

/-! ### The handler -/

/-- The flag is down. -/
def Destructor.stopped : Destructor → Bool
  | .joining | .joined | .closed => true
  | _ => false

/-- What holds while the handler runs, and before it. -/
structure Handled (s : State) : Prop where
  running : s.running = !s.destructor.stopped
  exited : s.flusher = .exited → s.destructor.stopped
  drained : s.destructor ≠ .notStarted → s.destructor ≠ .testSize → s.next ≤ s.elements.length

theorem Handled.step (h : Handled s) (hs : (signalSystem n pushes).Reachable s)
    (hst : SignalStep (pushes.flatMap PushValue.elements) s t) : Handled t := by
  cases hst with
  | signal hd =>
      refine ⟨?_, fun hf => ?_, fun _ hd => absurd rfl hd⟩
      · rw [h.running, hd]
        rfl
      · have hstopped := h.exited hf
        rw [hd] at hstopped
        exact absurd hstopped Bool.false_ne_true
  | logger hst hbefore hbehind =>
      cases hst with
      | push hp =>
          exact ⟨h.running, h.exited, fun hd _ => absurd (hbehind hd) (producer_ne_of_pushStep hp)⟩
      | leave hf hrunning =>
          refine ⟨h.running, fun _ => ?_, h.drained⟩
          rw [h.running, Bool.not_eq_false'] at hrunning
          exact hrunning
      | write hf =>
          refine ⟨h.running, nofun, fun hd hd' => (h.drained hd hd').trans ?_⟩
          rw [List.length_append]
          exact Nat.le_add_right _ _
      | destroy hd _ _ => exact absurd (hbefore hd) (by simp)
      | seeEmpty hd hsize =>
          have hle : s.undisturbed.next ≤ s.undisturbed.elements.length :=
            next_le_of_empty (refines_system.reachable hs) hsize
          refine ⟨?_, fun hf => ?_, fun _ _ => hle⟩
          · rw [h.running, hd]
            rfl
          · have hstopped := h.exited hf
            rw [hd] at hstopped
            exact absurd hstopped Bool.false_ne_true
      | stop hd => exact ⟨rfl, fun _ => rfl, fun _ _ => h.drained (by simp [hd]) (by simp [hd])⟩
      | join hd _ | close hd =>
          refine ⟨?_, fun _ => rfl, fun _ _ => h.drained (by simp [hd]) (by simp [hd])⟩
          rw [h.running, hd]
          rfl
      | _ => exact ⟨h.running, nofun, h.drained⟩

theorem handled_of_reachable (h : (signalSystem n pushes).Reachable s) : Handled s := by
  induction h with
  | init hs =>
      subst hs
      exact ⟨rfl, nofun, fun hd => absurd rfl hd⟩
  | step hs hst ih => exact ih.step hs hst

/-! ### The handler comes to its end -/

/-- The steps of the flush thread to the end of the value it is at, or out of its
loop. -/
def flusherLeft (running : Bool) : Flusher → ℕ
  | .stored _ => 4
  | .checked _ => 5
  | .written _ => 6
  | .holding _ => 7
  | .testSize (some _) => 8
  | .sizeSeen => 9
  | .getNextToRead => 10
  | .testRunning => if running then 11 else 1
  | .flushing => if running then 12 else 2
  | .testSize none => if running then 13 else 3
  | .exited | .failed => 0

def destructorLeft : Destructor → ℕ
  | .notStarted => 5
  | .testSize => 4
  | .sizeZero => 3
  | .joining => 2
  | .joined => 1
  | .closed => 0

/-- The flush thread gets nearer to the end of its value, or has one less to take. -/
structure Flushes (s t : State) : Prop where
  destructor : t.destructor = s.destructor
  producer : t.producer = s.producer
  running : t.running = s.running
  left : t.q.qSize < s.q.qSize ∨ t.q.qSize = s.q.qSize ∧
    flusherLeft s.running t.flusher < flusherLeft s.running s.flusher

/-- Until it is told to stop and is out of its loop, the flush thread gets on with what
is in the queue. -/
theorem exists_flushes (h : (signalSystem n pushes).Reachable s) (hexited : s.flusher ≠ .exited)
    (hgo : s.running = true → s.q.size ≠ 0) : ∃ t, Step vals s t ∧ Flushes s t := by
  have hqueue := queue_of_signal h
  obtain ⟨r, hinv⟩ := ProducerConsumer.exists_inv hqueue
  have hpos : s.flusher.consumer ≠ .idle → 0 < s.q.qSize := by
    intro hc
    have hlt := hinv.reading hc
    have hq : s.q.qSize + r = s.next := hinv.qSize
    have hnext : s.toQueue.next = s.next := rfl
    omega
  cases hf : s.flusher with
  | testRunning =>
      cases hrunning : s.running with
      | true =>
          exact ⟨_, .enter hf hrunning, rfl, rfl, rfl,
            .inr ⟨rfl, by simp [flusherLeft, hf, hrunning]⟩⟩
      | false =>
          exact ⟨_, .leave hf hrunning, rfl, rfl, rfl,
            .inr ⟨rfl, by simp [flusherLeft, hf, hrunning]⟩⟩
  | getNextToRead =>
      by_cases hsize : s.q.size = 0
      · have hstopped : s.running = false := by
          by_contra hrunning
          exact hgo (Bool.not_eq_false _ ▸ hrunning) hsize
        exact ⟨_, .getNull hf hsize, rfl, rfl, rfl, .inr ⟨rfl, by simp [flusherLeft, hf, hstopped]⟩⟩
      · exact ⟨_, .seeSize hf hsize, rfl, rfl, rfl, .inr ⟨rfl, by simp [flusherLeft, hf]⟩⟩
  | sizeSeen => exact ⟨_, .getNextToRead hf, rfl, rfl, rfl, .inr ⟨rfl, by simp [flusherLeft, hf]⟩⟩
  | testSize next =>
      cases next with
      | none =>
          have hlt : flusherLeft s.running .flushing < flusherLeft s.running s.flusher := by
            rw [hf]
            cases s.running <;> decide
          by_cases hsize : s.q.size = 0
          · exact ⟨_, .sizeZero hf hsize, rfl, rfl, rfl, .inr ⟨rfl, hlt⟩⟩
          · exact ⟨_, .nextNull hf hsize, rfl, rfl, rfl, .inr ⟨rfl, hlt⟩⟩
      | some c =>
          exact ⟨_, .useNext hf (size_ne_zero hqueue hf), rfl, rfl, rfl,
            .inr ⟨rfl, by simp [flusherLeft, hf]⟩⟩
  | holding c => exact ⟨_, .write hf, rfl, rfl, rfl, .inr ⟨rfl, by simp [flusherLeft, hf]⟩⟩
  | written c =>
      exact ⟨_, .check hf (hpos (by simp [hf, Flusher.consumer])), rfl, rfl, rfl,
        .inr ⟨rfl, by simp [flusherLeft, hf]⟩⟩
  | checked c => exact ⟨_, .storeReadIdx hf, rfl, rfl, rfl, .inr ⟨rfl, by simp [flusherLeft, hf]⟩⟩
  | stored c =>
      have hsize := hpos (by simp [hf, Flusher.consumer])
      refine ⟨_, .decSize hf, rfl, rfl, rfl, .inl ?_⟩
      show predT s.q.qSize < s.q.qSize
      rw [predT, if_neg hsize.ne']
      exact Nat.sub_lt hsize Nat.one_pos
  | flushing =>
      have hlt : flusherLeft s.running .testRunning < flusherLeft s.running s.flusher := by
        rw [hf]
        cases s.running <;> decide
      exact ⟨_, .flush hf, rfl, rfl, rfl, .inr ⟨rfl, hlt⟩⟩
  | exited => exact absurd hf hexited
  | failed => exact absurd (congrArg Flusher.consumer hf) hinv.ok

/-- What is left to do, the destructor's steps first. -/
def left (s : State) : ℕ ×ₗ ℕ ×ₗ ℕ :=
  toLex (destructorLeft s.destructor, toLex (s.q.qSize, flusherLeft s.running s.flusher))

theorem exists_handlerStep (h : (signalSystem n pushes).Reachable s)
    (hd : s.destructor ≠ .notStarted) : s.destructor = .closed ∨
      ∃ t, (signalSystem n pushes).step s t ∧ t.destructor ≠ .notStarted ∧ left t < left s := by
  have hhandled := handled_of_reachable h
  -- a step of the destructor
  have hnext : ∀ t, Step (pushes.flatMap PushValue.elements) s t → t.producer = s.producer →
      t.destructor ≠ .notStarted → destructorLeft t.destructor < destructorLeft s.destructor →
      ∃ t, (signalSystem n pushes).step s t ∧ t.destructor ≠ .notStarted ∧ left t < left s := by
    intro t hst hproducer hd' hlt
    refine ⟨t, .logger hst (fun hd'' => absurd hd'' hd) fun _ => hproducer, hd', ?_⟩
    rw [left, left, Prod.Lex.toLex_lt_toLex]
    exact .inl hlt
  -- a step of the flush thread
  have hflush : s.flusher ≠ .exited → (s.running = true → s.q.size ≠ 0) →
      ∃ t, (signalSystem n pushes).step s t ∧ t.destructor ≠ .notStarted ∧ left t < left s := by
    intro hexited hgo
    obtain ⟨t, hst, hflushes⟩ := exists_flushes h hexited hgo
    refine ⟨t, .logger hst (fun hd' => absurd hd' hd) fun _ => hflushes.producer,
      hflushes.destructor ▸ hd, ?_⟩
    rw [left, left, hflushes.destructor, hflushes.running, Prod.Lex.toLex_lt_toLex,
      Prod.Lex.toLex_lt_toLex]
    exact .inr ⟨rfl, hflushes.left⟩
  cases hs : s.destructor with
  | notStarted => exact absurd hs hd
  | testSize =>
      right
      by_cases hsize : s.q.size = 0
      · exact hnext _ (.seeEmpty hs hsize) rfl (by simp) (by simp [destructorLeft, hs])
      · refine hflush (fun hf => ?_) fun _ => hsize
        have hstopped := hhandled.exited hf
        rw [hs] at hstopped
        exact absurd hstopped Bool.false_ne_true
  | sizeZero => exact .inr (hnext _ (.stop hs) rfl (by simp) (by simp [destructorLeft, hs]))
  | joining =>
      right
      by_cases hf : s.flusher = .exited
      · exact hnext _ (.join hs hf) rfl (by simp) (by simp [destructorLeft, hs])
      · refine hflush hf fun hrunning => ?_
        rw [hhandled.running, hs] at hrunning
        exact absurd hrunning Bool.false_ne_true
  | joined => exact .inr (hnext _ (.close hs) rfl (by simp) (by simp [destructorLeft, hs]))
  | closed => exact .inl rfl

theorem exists_closed_of_signal (h : (signalSystem n pushes).Reachable s)
    (hd : s.destructor ≠ .notStarted) :
    ∃ t, Relation.ReflTransGen (signalSystem n pushes).step s t ∧ t.destructor = .closed :=
  h.exists_goal left (fun s => s.destructor ≠ .notStarted) (fun s => s.destructor = .closed)
    (fun _ h hd => exists_handlerStep h hd) hd

/-! ### The file it leaves -/

theorem next_eq_of_run (hd : s.destructor ≠ .notStarted)
    (hrun : Relation.ReflTransGen (signalSystem n pushes).step s t) :
    t.destructor ≠ .notStarted ∧ t.next = s.next := by
  induction hrun with
  | refl => exact ⟨hd, rfl⟩
  | tail _ hst ih =>
      obtain ⟨hd, hnext⟩ := ih
      cases hst with
      | signal hnone => exact absurd hnone hd
      | logger hst _ hstays =>
          cases hst with
          | push hp => exact absurd (hstays hd) (producer_ne_of_pushStep hp)
          | destroy | seeEmpty | stop | join | close => exact ⟨nofun, hnext⟩
          | _ => exact ⟨hd, hnext⟩

theorem elements_of_signal (h : (signalSystem n pushes).Reachable s)
    (hclosed : s.destructor = .closed) :
    s.elements = ((pushes.flatMap PushValue.elements).take s.next).map some := by
  have hused : s.elements <+: ((pushes.flatMap PushValue.elements).take s.next).map some :=
    ProducerConsumer.used_isPrefix (queue_of_signal h)
  have hdrained := (handled_of_reachable h).drained (by simp [hclosed]) (by simp [hclosed])
  refine hused.eq_of_length_le ?_
  rw [List.length_map]
  exact (List.length_take_le _ _).trans hdrained

theorem pushed_take (calls : List LogCall) (j : ℕ) :
    (logs (calls.take j)).pushed <+: (logs calls).pushed := by
  induction calls generalizing j with
  | nil => rw [List.take_nil]
  | cons c calls ih =>
      cases j with
      | zero => exact List.nil_prefix
      | succ j =>
          rw [List.take_succ_cons, logs_cons, logs_cons]
          by_cases hok : (log c.args c.format).result = .ok ()
          · rw [andThen_of_ok hok, andThen_of_ok hok]
            exact (List.prefix_append_right_inj _).mpr (ih j)
          · rw [pushed_andThen_of_ne hok, pushed_andThen_of_ne hok]

/-- The logger of a thread that makes the calls until a signal comes. -/
abbrev logSignalSystem (n : Capacity) (calls : List LogCall) : System State :=
  signalSystem n ((logs calls).pushed.map .element)

/-- Everything the first `j` calls push has been put into the queue. -/
def Returned (calls : List LogCall) (j : ℕ) (s : State) : Prop :=
  (logs (calls.take j)).pushed.length ≤ s.next

/-- Nothing of a call behind the first `j` has been put into the queue. -/
def NotBegun (calls : List LogCall) (j : ℕ) (s : State) : Prop :=
  s.next ≤ (logs (calls.take j)).pushed.length

variable {calls : List LogCall}

/-- The file holds all of the calls that had returned when the signal came, and nothing of
those that had not begun. -/
theorem file_of_signal (p : FloatText) (h : ∀ c ∈ calls, c.Clean)
    (hs : (logSignalSystem n calls).Reachable s) (hd : s.destructor ≠ .notStarted)
    (hrun : Relation.ReflTransGen (logSignalSystem n calls).step s t)
    (hclosed : t.destructor = .closed) : ∃ content, t.file p = some content ∧
      ∀ j, (Returned calls j s → p.texts (calls.take j) <+: content) ∧
        (NotBegun calls j s → content <+: p.texts (calls.take j)) := by
  have helements := elements_of_signal (hs.trans hrun) hclosed
  rw [elements_pushed, (next_eq_of_run hd hrun).2] at helements
  have hput : (logs calls).pushed.take s.next <+: (logs calls).pushed := List.take_prefix _ _
  refine ⟨_, file_of_elements p helements fun e he => (pushed_logs p h).1 e (hput.subset he),
    fun j => ?_⟩
  have hmade := pushed_take calls j
  rw [← (pushed_logs p fun c hc => h c (List.mem_of_mem_take hc)).2]
  constructor
  · intro hreturned
    exact (List.prefix_take_iff.mpr ⟨hmade, hreturned⟩).flatMap _
  · intro hnone
    exact (List.prefix_of_prefix_length_le hput hmade
      ((List.length_take_le _ _).trans hnone)).flatMap _

/-! ### Runs with a signal -/

theorem reachable_signal (h : (system n pushes).Reachable s) (hd : s.destructor = .notStarted) :
    (signalSystem n pushes).Reachable s := by
  induction h with
  | init hs => exact .init hs
  | @step s t _ hst ih =>
      have hbefore : s.destructor = .notStarted := by
        cases hst with
        | destroy | seeEmpty | stop | join | close => cases hd
        | _ => exact hd
      exact (ih hbefore).step (.logger hst (fun _ => hd) fun hne => absurd hbefore hne)

theorem exists_signal (n : Capacity) (pushes : List PushValue) {k : ℕ}
    (hk : k ≤ (pushes.flatMap PushValue.elements).length) :
    ∃ s, (signalSystem n pushes).Reachable s ∧ s.destructor = .testSize ∧ s.next = k := by
  obtain ⟨s, hs, hquiet⟩ := exists_quiet n pushes hk
  exact ⟨_, (reachable_signal hs hquiet.destructor).step (.signal hquiet.destructor), rfl,
    hquiet.next⟩

end Logger

end LowLatency.Common
