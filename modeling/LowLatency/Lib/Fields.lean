import Mathlib.Data.List.Forall2

/-!
A text made of labels and values in turn.

Such a text can be taken apart again when no value contains a symbol that a label
begins with: each value then ends where the next label begins. So two texts with
the same labels are equal only if their values are.

A text that says where it ends can stand in a row with others of its kind, and the
row says what they are (`Delimited.flatMap_inj`).
-/

namespace LowLatency.Lib

variable {α : Type}

theorem map_inj_of_forall {β : Type} {f : α → β} {P : α → Prop}
    (hf : ∀ a b, P a → P b → f a = f b → a = b) {l l' : List α} (hl : ∀ a ∈ l, P a)
    (hl' : ∀ a ∈ l', P a) (h : l.map f = l'.map f) : l = l' := by
  induction l generalizing l' with
  | nil => exact (List.map_eq_nil_iff.mp h.symm).symm
  | cons a l ih =>
      cases l' with
      | nil => simp at h
      | cons a' l' =>
          rw [List.map_cons, List.map_cons, List.cons.injEq] at h
          rw [hf a a' (hl a List.mem_cons_self) (hl' a' List.mem_cons_self) h.1,
            ih (fun b hb => hl b (List.mem_cons_of_mem _ hb))
              (fun b hb => hl' b (List.mem_cons_of_mem _ hb)) h.2]

/-- Each label with its value, and what stands behind the last. -/
def labelled (labels values : List (List α)) (tail : List α) : List α :=
  (List.zipWith (· ++ ·) labels values).flatten ++ tail

/-- The text begins with a delimiter. -/
def Begins (delimiter : α → Prop) (l : List α) : Prop := ∃ d rest, l = d :: rest ∧ delimiter d

variable {delimiter : α → Prop} {labels values values' : List (List α)} {tail : List α}

theorem labelled_cons (label value : List α) :
    labelled (label :: labels) (value :: values) tail =
      label ++ (value ++ labelled labels values tail) := by
  simp [labelled]

theorem begins_of_head? {l : List α} {d : α} (h : l.head? = some d) (hd : delimiter d) :
    Begins delimiter l := by
  obtain ⟨rest, rfl⟩ := List.head?_eq_some_iff.mp h
  exact ⟨d, rest, rfl, hd⟩

theorem begins_labelled (hlabels : ∀ l ∈ labels, Begins delimiter l)
    (htail : Begins delimiter tail) (hlen : values.length = labels.length) :
    Begins delimiter (labelled labels values tail) := by
  cases labels with
  | nil => exact htail
  | cons label labels =>
      cases values with
      | nil => simp at hlen
      | cons value values =>
          obtain ⟨d, rest, rfl, hd⟩ := hlabels label List.mem_cons_self
          exact ⟨d, _, labelled_cons _ _, hd⟩

theorem value_inj {v w s t : List α} (hv : ∀ c ∈ v, ¬ delimiter c) (hw : ∀ c ∈ w, ¬ delimiter c)
    (hs : Begins delimiter s) (ht : Begins delimiter t) : v ++ s = w ++ t ↔ v = w ∧ s = t := by
  refine ⟨fun h => ?_, fun ⟨hvw, hst⟩ => hvw ▸ hst ▸ rfl⟩
  obtain ⟨d, s, rfl, hd⟩ := hs
  obtain ⟨e, t, rfl, he⟩ := ht
  induction v generalizing w with
  | nil =>
      cases w with
      | nil => exact ⟨rfl, h⟩
      | cons c w =>
          obtain ⟨rfl, -⟩ := List.cons.inj h
          exact absurd hd (hw d List.mem_cons_self)
  | cons c v ih =>
      cases w with
      | nil =>
          obtain ⟨rfl, -⟩ := List.cons.inj h
          exact absurd he (hv c List.mem_cons_self)
      | cons c' w =>
          rw [List.cons_append, List.cons_append, List.cons.injEq] at h
          obtain ⟨rfl, h⟩ := h
          obtain ⟨rfl, hst⟩ := ih (fun x hx => hv x (List.mem_cons_of_mem _ hx))
            (fun x hx => hw x (List.mem_cons_of_mem _ hx)) h
          exact ⟨rfl, hst⟩

/-- **The values can be read off the text**, whatever stands behind it. -/
theorem labelled_inj {tail' : List α} (hlabels : ∀ l ∈ labels.tail, Begins delimiter l)
    (htail : Begins delimiter tail) (htail' : Begins delimiter tail')
    (hlen : values.length = labels.length) (hlen' : values'.length = labels.length)
    (hvalues : ∀ v ∈ values, ∀ c ∈ v, ¬ delimiter c)
    (hvalues' : ∀ v ∈ values', ∀ c ∈ v, ¬ delimiter c) :
    labelled labels values tail = labelled labels values' tail' ↔
      values = values' ∧ tail = tail' := by
  induction labels generalizing values values' with
  | nil =>
      rw [List.length_nil, List.length_eq_zero_iff] at hlen hlen'
      rw [hlen, hlen']
      exact ⟨fun h => ⟨rfl, h⟩, fun h => h.2⟩
  | cons label labels ih =>
      cases values with
      | nil => simp at hlen
      | cons value values =>
          cases values' with
          | nil => simp at hlen'
          | cons value' values' =>
              rw [List.length_cons, List.length_cons, Nat.succ_inj] at hlen hlen'
              rw [List.tail_cons] at hlabels
              have hrest := ih (fun l hl => hlabels l (List.mem_of_mem_tail hl)) hlen hlen'
                (fun v hv => hvalues v (List.mem_cons_of_mem _ hv))
                fun v hv => hvalues' v (List.mem_cons_of_mem _ hv)
              rw [labelled_cons, labelled_cons, List.append_cancel_left_eq,
                value_inj (hvalues _ List.mem_cons_self) (hvalues' _ List.mem_cons_self)
                  (begins_labelled hlabels htail hlen) (begins_labelled hlabels htail' hlen'),
                hrest, List.cons.injEq, and_assoc]

/-! ### Rows of entries -/

theorem append_ne_append {v w : List α} (hvw : ¬ v <+: w) (hwv : ¬ w <+: v) (s t : List α) :
    v ++ s ≠ w ++ t := by
  intro h
  rcases List.prefix_or_prefix_of_prefix (List.prefix_append v s) (h ▸ List.prefix_append w t) with
    hprefix | hprefix
  · exact hvw hprefix
  · exact hwv hprefix

variable {β : Type} {enc : β → List α} {R : β → β → Prop}

/-- What begins like an entry is that entry, up to `R`, and then the same. -/
def Delimited (enc : β → List α) (R : β → β → Prop) : Prop :=
  ∀ b b' rest rest', enc b ++ rest = enc b' ++ rest' ↔ R b b' ∧ rest = rest'

/-- **The entries can be read off a row of them**, if what stands behind it is not
taken for one more. -/
theorem Delimited.flatMap_inj (h : Delimited enc R) {tail' : List α}
    (htail : ∀ b rest, tail ≠ enc b ++ rest) (htail' : ∀ b rest, tail' ≠ enc b ++ rest)
    {l l' : List β} :
    l.flatMap enc ++ tail = l'.flatMap enc ++ tail' ↔ List.Forall₂ R l l' ∧ tail = tail' := by
  induction l generalizing l' with
  | nil =>
      cases l' with
      | nil => simp
      | cons b' l' =>
          rw [List.flatMap_nil, List.nil_append, List.flatMap_cons, List.append_assoc]
          exact iff_of_false (htail b' _) fun h => by cases h.1
  | cons b l ih =>
      cases l' with
      | nil =>
          rw [List.flatMap_nil, List.nil_append, List.flatMap_cons, List.append_assoc]
          exact iff_of_false (fun heq => htail' b _ heq.symm) fun h => by cases h.1
      | cons b' l' =>
          rw [List.flatMap_cons, List.flatMap_cons, List.append_assoc, List.append_assoc, h, ih,
            List.forall₂_cons, and_assoc]

end LowLatency.Lib
