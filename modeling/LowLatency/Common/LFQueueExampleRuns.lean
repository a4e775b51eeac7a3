import LowLatency.Common.LFQueueExample
import LowLatency.Lib.Progress

/-!
The runs of `lf_queue_example.cpp`.

What the consumer prints can be torn, but only for the record the producer is
writing at that moment, and only between what the cell had before and what it gets.
Nothing else can go wrong: no assertion fails, and both threads come to their end.
-/

namespace LowLatency.Common

open LowLatency.Lib

namespace LFQueueExample

variable {n : Capacity} {count : ℕ} {s t : State}

/-- **The threads agree on the cells.** In every state of every interleaving no
assertion has failed and no null pointer has been followed; the producer has
added its records in order and complete; and the k-th record consumed has in each
field what the k-th record added has there, or what was there before. -/
theorem consumed_stale (hcount : count ≤ n) (h : (system n count).Reachable s) :
    s.consumer ≠ .failed ∧ s.consumer ≠ .crashed ∧
      s.added.map Prod.fst = (List.range s.i).map record ∧
      s.consumed.length ≤ s.i + 1 ∧
      ∀ k l, s.consumed[k]? = some l → ∀ f, l.1 f = 0 ∨ l.1 f = record k f := by
  have hinv := inv_of_reachable hcount h
  refine ⟨hinv.ok.1, hinv.ok.2, hinv.added, ?_, hinv.stale⟩
  have hq := hinv.qSize
  have hle : s.producer.counted ≤ 1 := by cases s.producer <;> simp [Producer.counted]
  omega

def hundred : Capacity := ⟨100, by decide⟩

/-- The consumer takes what the producer has published and not yet written. -/
theorem exists_torn : ∃ s, (system hundred 50).Reachable s ∧
    s.consumed = [(fun _ => 0, 0)] := by
  have h₀ : (system hundred 50).Reachable (start hundred) := .init rfl
  have h₁ := h₀.step (.inl (.getNextToWrite rfl (by decide)))
  have h₂ := h₁.step (.inl (.storeWriteIdx rfl))
  have h₃ := h₂.step (.inl (.incSize rfl))
  have h₄ := h₃.step (.inr (.loadSize rfl (by decide)))
  have h₅ := h₄.step (.inr (.getNextToRead rfl))
  have h₆ := h₅.step (.inr (.check rfl (by decide)))
  have h₇ := h₆.step (.inr (.storeReadIdx rfl))
  have h₈ := h₇.step (.inr (.decSize rfl))
  have h₉ := h₈.step (.inr (.readField (by decide) rfl))
  have h₁₀ := h₉.step (.inr (.readField (by decide) rfl))
  have h₁₁ := h₁₀.step (.inr (.readField (by decide) rfl))
  have h₁₂ := h₁₁.step (.inr (.print rfl))
  refine ⟨_, h₁₂, ?_⟩
  have hread : ∀ l : Data × ℕ, l.2 = 0 → (∀ g, l.1 g = 0) → [l] = [(fun _ => 0, 0)] := by
    rintro ⟨d, m⟩ rfl hd
    rw [show d = fun _ => 0 from funext hd]
  exact hread _ rfl (by decide)

/-- A line that shows no field of its record. -/
theorem consumed_stale_torn : ∃ (s : State) (l : Data × ℕ), s.consumed = [l] ∧
    l.1 ≠ record 0 ∧ ∀ f, l.1 f = 0 ∨ l.1 f = record 0 f := by
  obtain ⟨s, h, hconsumed⟩ := exists_torn
  obtain ⟨-, -, -, -, hstale⟩ := consumed_stale (by decide) h
  exact ⟨s, _, hconsumed, fun heq => absurd (congrFun heq 1) (by decide),
    hstale 0 _ (by rw [hconsumed]; rfl)⟩

theorem Produce.keeps (hst : Produce count s t) :
    t.consumer = s.consumer ∧ t.consumed = s.consumed ∧ s.i ≤ t.i := by
  cases hst with
  | print => exact ⟨rfl, rfl, Nat.le_succ _⟩
  | getNextToWrite | storeWriteIdx | incSize | writeField | exit => exact ⟨rfl, rfl, le_rfl⟩

theorem Consume.keeps (hst : Consume s t) : t.i = s.i ∧ s.consumed <+: t.consumed := by
  cases hst with
  | print => exact ⟨rfl, List.prefix_append _ _⟩
  | loadSize | exit | getNextToRead | check | fail | storeReadIdx | decSize | readField | crash =>
      exact ⟨rfl, List.prefix_refl _⟩

/-- The producer has left the `k`-th record, and all that the consumer has of it is
right. -/
def Whole (k : ℕ) (s : State) : Prop :=
  k < s.i ∧ ((s.consumed.length = k ∧ ∃ c f d, s.consumer = .reading c f d ∧
      ∀ g : Fin 3, (g : ℕ) < f → d g = record k g) ∨
    ∃ m, s.consumed[k]? = some (record k, m))

theorem Whole.step {k : ℕ} (h : Whole k s) (hcount : count ≤ n)
    (hinv : Inv n count s) (hst : (system n count).step s t) : Whole k t := by
  obtain ⟨hlt, hwhole⟩ := h
  rcases hst with hst | hst
  · obtain ⟨hconsumer, hconsumed, hle⟩ := hst.keeps
    rw [← hconsumer, ← hconsumed] at hwhole
    exact ⟨hlt.trans_le hle, hwhole⟩
  · obtain ⟨hi, hprefix⟩ := hst.keeps
    refine ⟨hi ▸ hlt, ?_⟩
    rcases hwhole with ⟨hlen, c, f, d, hc, hd⟩ | ⟨m, hm⟩
    · cases hst with
      | @readField c' f' d' hf hc' =>
          obtain ⟨rfl, rfl, rfl⟩ := Consumer.reading.inj (hc'.symm.trans hc)
          have hpointer := hinv.pointer (some c') (by rw [hc']; rfl)
          have hcell : c' = k := (Option.some.inj hpointer).trans hlen
          refine .inl ⟨hlen, _, _, _, rfl, fun g hg => ?_⟩
          by_cases hgf : g = ⟨f', hf⟩
          · subst hgf
            rw [Function.update_self, hcell, hinv.cell_eq ?_ hlt]
            exact (hlt.trans_le hinv.i_le).trans_le hcount
          · have hne : (g : ℕ) ≠ f' := fun e => hgf (Fin.ext e)
            rw [Function.update_of_ne hgf]
            exact hd g (by omega)
      | @print c' d' hc' =>
          obtain ⟨rfl, rfl, rfl⟩ := Consumer.reading.inj (hc'.symm.trans hc)
          have hdk : d' = record k := funext fun g => hd g g.2
          refine .inr ⟨s.q.size, ?_⟩
          show (s.consumed ++ [(d', s.q.size)])[k]? = _
          rw [← hlen, List.getElem?_append_right le_rfl, Nat.sub_self, hdk, hlen]
          rfl
      | crash hc' => exact absurd (hinv.pointer none (by rw [hc']; rfl)) (by simp)
      | loadSize hc' | exit hc' | getNextToRead hc' | check hc' | fail hc' | storeReadIdx hc'
        | decSize hc' =>
          rw [hc] at hc'
          contradiction
    · refine .inr ⟨m, ?_⟩
      have hk := (List.getElem?_eq_some_iff.mp hm).1
      obtain ⟨rest, hrest⟩ := hprefix
      rw [← hrest, List.getElem?_append_left hk, hm]

/-- **A record is whole when it is not the one being written.** When the consumer begins
to read a record that the producer has left, it prints it as it was added,
whatever the two threads do next. -/
theorem consumed_whole (hcount : count ≤ n) (h : (system n count).Reachable s)
    {c : Option ℕ} {d : Data} (hc : s.consumer = .reading c 0 d) (hlt : s.consumed.length < s.i)
    (hrun : Relation.ReflTransGen (system n count).step s t) :
    ∀ l, t.consumed[s.consumed.length]? = some l → l.1 = record s.consumed.length := by
  have hall : (system n count).Reachable t ∧ Whole s.consumed.length t := by
    induction hrun with
    | refl => exact ⟨h, hlt, .inl ⟨rfl, c, 0, d, hc, fun g hg => absurd hg (Nat.not_lt_zero _)⟩⟩
    | tail _ hst ih =>
        exact ⟨ih.1.step hst, ih.2.step hcount (inv_of_reachable hcount ih.1) hst⟩
  intro l hl
  rcases hall.2.2 with ⟨hlen, -⟩ | ⟨m, hm⟩
  · have hlt' := (List.getElem?_eq_some_iff.mp hl).1
    omega
  · rw [hl, Option.some.injEq] at hm
    rw [hm]

theorem exists_first : ∃ (s t : State) (l : Data × ℕ), (system hundred 50).Reachable s ∧
    s.consumer = .reading (some 0) 0 default ∧ s.consumed.length = 0 ∧ 0 < s.i ∧
    Relation.ReflTransGen (system hundred 50).step s t ∧ t.consumed = [l] := by
  have h₀ : (system hundred 50).Reachable (start hundred) := .init rfl
  have h₁ := h₀.step (.inl (.getNextToWrite rfl (by decide)))
  have h₂ := h₁.step (.inl (.storeWriteIdx rfl))
  have h₃ := h₂.step (.inl (.incSize rfl))
  have h₄ := h₃.step (.inl (.writeField (by decide) rfl))
  have h₅ := h₄.step (.inl (.writeField (by decide) rfl))
  have h₆ := h₅.step (.inl (.writeField (by decide) rfl))
  have h₇ := h₆.step (.inl (.print rfl))
  have h₈ := h₇.step (.inr (.loadSize rfl (by decide)))
  have h₉ := h₈.step (.inr (.getNextToRead rfl))
  have h₁₀ := h₉.step (.inr (.check rfl (by decide)))
  have h₁₁ := h₁₀.step (.inr (.storeReadIdx rfl))
  have h₁₂ := h₁₁.step (.inr (.decSize rfl))
  exact ⟨_, _, _, h₁₂, rfl, rfl, by decide, .head (.inr (.readField (f := 0) (by decide) rfl))
    (.head (.inr (.readField (f := 1) (by decide) rfl))
      (.head (.inr (.readField (f := 2) (by decide) rfl)) (.single (.inr (.print rfl))))), rfl⟩

theorem consumed_whole_first : ∃ (s : State) (l : Data × ℕ), s.consumed = [l] ∧
    l.1 = record 0 := by
  obtain ⟨s, t, l, h, hc, hlen, hi, hrun, ht⟩ := exists_first
  refine ⟨t, l, ht, ?_⟩
  rw [← hlen]
  exact consumed_whole (by decide) h hc (hlen ▸ hi) hrun l (by rw [hlen, ht]; rfl)

/-! ### The end -/

/-- The steps the producer still has at its record. -/
def Producer.left : Producer → ℕ
  | .loop => 8
  | .holding _ => 7
  | .stored _ => 6
  | .published _ f => 5 - f
  | .exited => 0

/-- The steps the consumer still has at its record. -/
def Consumer.left : Consumer → ℕ
  | .loop => 9
  | .nonEmpty => 8
  | .holding _ => 7
  | .checked _ => 6
  | .stored _ => 5
  | .reading _ f _ => 4 - f
  | .exited | .failed | .crashed => 0

def left (count : ℕ) (s : State) : ℕ :=
  8 * (count - s.i) + s.producer.left + (9 * (count - s.consumed.length) + s.consumer.left)

theorem left_lt (hinv : Inv n count s) (hst : (system n count).step s t) :
    left count t < left count s := by
  rcases hst with hst | hst
  · cases hst with
    | getNextToWrite hp | storeWriteIdx hp | incSize hp | exit hp =>
        simp [left, hp, Producer.left]
    | writeField hf hp =>
        simp only [left, hp, Producer.left]
        omega
    | print hp =>
        have hlt := hinv.active (by rw [hp]; simp [Producer.cell])
        simp only [left, hp, Producer.left]
        omega
  · cases hst with
    | loadSize hc | exit hc | getNextToRead hc | check hc | fail hc | storeReadIdx hc
      | decSize hc =>
        simp [left, hc, Consumer.left]
    | crash hc => exact absurd (hinv.pointer none (by rw [hc]; rfl)) (by simp)
    | readField hf hc =>
        simp only [left, hc, Consumer.left]
        omega
    | print hc =>
        have hlt := (hinv.busy (by rw [hc]; trivial)).trans_le hinv.published_le
        simp only [left, hc, Consumer.left, List.length_append, List.length_singleton]
        omega

theorem exists_produce (hinv : Inv n count s) (h : s.producer ≠ .exited) :
    ∃ t, Produce count s t := by
  cases hp : s.producer with
  | loop =>
      by_cases hlt : s.i < count
      · exact ⟨_, .getNextToWrite hp hlt⟩
      · exact ⟨_, .exit hp hlt⟩
  | holding c => exact ⟨_, .storeWriteIdx hp⟩
  | stored c => exact ⟨_, .incSize hp⟩
  | published c f =>
      have hle := hinv.fields_le
      rw [hp] at hle
      rcases (show f ≤ 3 from hle).eq_or_lt with rfl | hf
      · exact ⟨_, .print hp⟩
      · exact ⟨_, .writeField hf hp⟩
  | exited => exact absurd hp h

theorem exists_consume (hinv : Inv n count s) (h : s.consumer ≠ .exited) :
    ∃ t, Consume s t := by
  cases hc : s.consumer with
  | loop =>
      by_cases hsize : s.q.size = 0
      · exact ⟨_, .exit hc hsize⟩
      · exact ⟨_, .loadSize hc hsize⟩
  | nonEmpty => exact ⟨_, .getNextToRead hc⟩
  | holding c =>
      by_cases hpos : s.q.qSize > 0
      · exact ⟨_, .check hc hpos⟩
      · exact ⟨_, .fail hc hpos⟩
  | checked c => exact ⟨_, .storeReadIdx hc⟩
  | stored c => exact ⟨_, .decSize hc⟩
  | reading c f d =>
      cases c with
      | none => exact ⟨_, .crash hc⟩
      | some c =>
          rcases (hinv.reading _ _ _ hc).1.eq_or_lt with rfl | hf
          · exact ⟨_, .print hc⟩
          · exact ⟨_, .readField hf hc⟩
  | exited => exact absurd hc h
  | failed => exact absurd hc hinv.ok.1
  | crashed => exact absurd hc hinv.ok.2

/-- **The example always ends.** Under every schedule the two threads take no more than
17 steps for each record and for the end, and when neither has a step left, both
have returned and every record has been added. -/
theorem ends (hcount : count ≤ n) {run : ℕ → State} {k : ℕ} (hstart : run 0 = start n)
    (hrun : ∀ j < k, (system n count).step (run j) (run (j + 1))) :
    k ≤ 17 * (count + 1) ∧ ((∀ t, ¬ (system n count).step (run k) t) →
      (run k).producer = .exited ∧ (run k).consumer = .exited ∧
        (run k).added.map Prod.fst = (List.range count).map record) := by
  obtain ⟨hreach, hle⟩ := System.length_le_of_decreasing (S := system n count) (left count)
    (fun s t hs hst => left_lt (inv_of_reachable hcount hs) hst) hstart hrun
  have hinv := inv_of_reachable hcount hreach
  refine ⟨?_, fun hstuck => ?_⟩
  · have hleft : left count (run 0) = 8 * count + 8 + (9 * count + 9) := by
      rw [hstart]
      rfl
    omega
  · have hproducer : (run k).producer = .exited := by
      by_contra hne
      obtain ⟨t, hst⟩ := exists_produce hinv hne
      exact hstuck t (.inl hst)
    have hconsumer : (run k).consumer = .exited := by
      by_contra hne
      obtain ⟨t, hst⟩ := exists_consume hinv hne
      exact hstuck t (.inr hst)
    exact ⟨hproducer, hconsumer, by rw [hinv.added, hinv.done hproducer]⟩

theorem not_step_of_exited (hp : s.producer = .exited) (hc : s.consumer = .exited) :
    ¬ (system n count).step s t := by
  rintro (hst | hst)
  · cases hst <;> simp_all
  · cases hst <;> simp_all

theorem exists_ended : ∃ s : State,
    Relation.ReflTransGen (system hundred 1).step (start hundred) s ∧
      s.producer = .exited ∧ s.consumer = .exited ∧ s.consumed.length = 1 := by
  have h₀ : Relation.ReflTransGen (system hundred 1).step (start hundred) (start hundred) := .refl
  have h₁ := h₀.tail (.inl (.getNextToWrite rfl (by decide)))
  have h₂ := h₁.tail (.inl (.storeWriteIdx rfl))
  have h₃ := h₂.tail (.inl (.incSize rfl))
  have h₄ := h₃.tail (.inr (.loadSize rfl (by decide)))
  have h₅ := h₄.tail (.inr (.getNextToRead rfl))
  have h₆ := h₅.tail (.inl (.writeField (by decide) rfl))
  have h₇ := h₆.tail (.inl (.writeField (by decide) rfl))
  have h₈ := h₇.tail (.inl (.writeField (by decide) rfl))
  have h₉ := h₈.tail (.inr (.check rfl (by decide)))
  have h₁₀ := h₉.tail (.inr (.storeReadIdx rfl))
  have h₁₁ := h₁₀.tail (.inr (.decSize rfl))
  have h₁₂ := h₁₁.tail (.inr (.readField (by decide) rfl))
  have h₁₃ := h₁₂.tail (.inr (.readField (by decide) rfl))
  have h₁₄ := h₁₃.tail (.inr (.readField (by decide) rfl))
  have h₁₅ := h₁₄.tail (.inr (.print rfl))
  have h₁₆ := h₁₅.tail (.inl (.print rfl))
  have h₁₇ := h₁₆.tail (.inl (.exit rfl (by decide)))
  have h₁₈ := h₁₇.tail (.inr (.exit rfl (by decide)))
  exact ⟨_, h₁₈, rfl, rfl, rfl⟩

theorem ends_one : ∃ (run : ℕ → State) (k : ℕ), run 0 = start hundred ∧
    (run k).consumed.length = 1 ∧ k ≤ 17 * (1 + 1) ∧
      (run k).producer = .exited ∧ (run k).consumer = .exited ∧
        (run k).added.map Prod.fst = (List.range 1).map record := by
  obtain ⟨s, hreach, hproducer, hconsumer, hconsumed⟩ := exists_ended
  obtain ⟨run, k, hstart, rfl, hrun⟩ := exists_run hreach
  obtain ⟨hle, hend⟩ := ends (by decide) hstart hrun
  exact ⟨run, k, hstart, hconsumed, hle, hend fun t => not_step_of_exited hproducer hconsumer⟩

end LFQueueExample

end LowLatency.Common
