import LowLatency.Common.Types
import LowLatency.Lib.Fields

/-!
`types.hpp`: values as text, and text as bytes.

The texts are short and plain: ASCII, without a null byte, without the space and the
bracket that end a value where it is shown. A number has a text of its own, and so
has the largest value of its type, which stands for "none".
-/

namespace LowLatency.Common

open LowLatency.Lib

/-- `ToString<T>(arg)`, where `max` is the largest value of `T`. -/
def toStringOf (max arg : ℕ) : String := if arg = max then "INVALID" else arg.repr

def toString32 (arg : UInt32) : String := toStringOf max32.toNat arg.toNat

def toString64 (arg : UInt64) : String := toStringOf max64.toNat arg.toNat

def sideToString : Side → String
  | .buy => "BUY"
  | .sell => "SELL"
  | .invalid => "INVALID"
  | .unnamed _ => "UNKNOWN"

/-- The enumerator, if the byte has a name. -/
def Side.named : Side → Option Side
  | .unnamed _ => none
  | s => some s

/-! ### Bytes -/

/-- An ASCII character as a `char`. -/
def byte (c : Char) : Int8 := Int8.ofNat c.toNat

def bytes (s : String) : List Int8 := s.toList.map byte

theorem bytes_join (l : List String) : bytes (String.join l) = l.flatMap bytes := by
  rw [bytes, String.toList_join, List.map_flatMap]
  rfl

theorem byte_inj {c d : Char} (hc : c.toNat < 128) (hd : d.toNat < 128) :
    byte c = byte d ↔ c = d := by
  refine ⟨fun h => ?_, fun h => h ▸ rfl⟩
  have hint := congrArg Int8.toInt h
  rw [byte, byte, Int8.toInt_ofNat_of_lt (by omega), Int8.toInt_ofNat_of_lt (by omega)] at hint
  exact Char.toNat_inj.mp (by omega)

def Ends (b : Int8) : Prop := b = byte ' ' ∨ b = byte ']'

/-- The character is ASCII, not null, and ends no value. -/
def PlainChar (c : Char) : Prop := c.toNat < 128 ∧ c ≠ '\x00' ∧ c ≠ ' ' ∧ c ≠ ']'

instance (c : Char) : Decidable (PlainChar c) := inferInstanceAs (Decidable (_ ∧ _))

def Plain (s : String) : Prop := ∀ c ∈ s.toList, PlainChar c

instance (s : String) : Decidable (Plain s) := List.decidableBAll PlainChar s.toList

theorem PlainChar.not_ends {c : Char} (h : PlainChar c) : ¬ Ends (byte c) := by
  rintro (heq | heq)
  · exact h.2.2.1 ((byte_inj h.1 (by decide)).mp heq)
  · exact h.2.2.2 ((byte_inj h.1 (by decide)).mp heq)

theorem PlainChar.byte_ne_zero {c : Char} (h : PlainChar c) : byte c ≠ 0 := fun heq =>
  h.2.1 ((byte_inj (d := '\x00') h.1 (by decide)).mp heq)

theorem Plain.zero_notMem {s : String} (h : Plain s) : 0 ∉ bytes s := by
  intro hmem
  obtain ⟨c, hc, hzero⟩ := List.mem_map.mp hmem
  exact (h c hc).byte_ne_zero hzero

theorem Plain.not_ends {s : String} (h : Plain s) : ∀ b ∈ bytes s, ¬ Ends b := by
  intro b hb
  obtain ⟨c, hc, rfl⟩ := List.mem_map.mp hb
  exact (h c hc).not_ends

theorem Plain.bytes_inj {s t : String} (hs : Plain s) (ht : Plain t) :
    bytes s = bytes t ↔ s = t :=
  ⟨fun h => String.toList_inj.mp
    (map_inj_of_forall (fun _ _ ha hb => (byte_inj ha.1 hb.1).mp) hs ht h), fun h => h ▸ rfl⟩

/-! ### Numbers -/

theorem plainChar_of_isDigit {c : Char} (h : c.isDigit = true) : PlainChar c := by
  refine ⟨?_, ?_, ?_, ?_⟩
  · rw [Char.isDigit, Bool.and_eq_true, decide_eq_true_eq, decide_eq_true_eq] at h
    have hle : c.toNat ≤ 57 := h.2
    omega
  all_goals
    rintro rfl
    exact absurd h (by decide)

theorem plain_repr (n : ℕ) : Plain n.repr := by
  intro c hc
  rw [Nat.toList_repr] at hc
  exact plainChar_of_isDigit (Nat.isDigit_of_mem_toDigits (by decide) le_rfl hc)

theorem repr_inj {m n : ℕ} (h : m.repr = n.repr) : m = n := by
  have hdigits : Nat.toDigits 10 m = Nat.toDigits 10 n := by
    rw [← Nat.toList_repr, ← Nat.toList_repr, h]
  rw [← Nat.ofDigitChars_ten_toDigits (n := m), hdigits, Nat.ofDigitChars_ten_toDigits]

theorem repr_ne_invalid (n : ℕ) : n.repr ≠ "INVALID" := by
  intro h
  have hmem : 'I' ∈ n.repr.toList := by
    rw [h]
    simp
  rw [Nat.toList_repr] at hmem
  exact absurd (Nat.isDigit_of_mem_toDigits (by decide) le_rfl hmem) (by decide)

theorem plain_toStringOf (max arg : ℕ) : Plain (toStringOf max arg) := by
  rw [toStringOf]
  split
  · decide +kernel
  · exact plain_repr arg

/-- The largest value has a text of its own. -/
theorem toStringOf_inj {max m n : ℕ} : toStringOf max m = toStringOf max n ↔ m = n := by
  refine ⟨fun h => ?_, fun h => h ▸ rfl⟩
  rw [toStringOf, toStringOf] at h
  by_cases hm : m = max <;> by_cases hn : n = max
  · rw [hm, hn]
  · rw [if_pos hm, if_neg hn] at h
    exact absurd h.symm (repr_ne_invalid n)
  · rw [if_neg hm, if_pos hn] at h
    exact absurd h (repr_ne_invalid m)
  · rw [if_neg hm, if_neg hn] at h
    exact repr_inj h

theorem plain_toString32 (a : UInt32) : Plain (toString32 a) := plain_toStringOf _ _

theorem plain_toString64 (a : UInt64) : Plain (toString64 a) := plain_toStringOf _ _

theorem toString32_inj {a b : UInt32} : toString32 a = toString32 b ↔ a = b :=
  toStringOf_inj.trans UInt32.toNat_inj

theorem toString64_inj {a b : UInt64} : toString64 a = toString64 b ↔ a = b :=
  toStringOf_inj.trans UInt64.toNat_inj

theorem plain_sideToString (s : Side) : Plain (sideToString s) := by
  cases s <;> (simp only [sideToString]; decide +kernel)

theorem sideToString_inj {s t : Side} : sideToString s = sideToString t ↔ s.named = t.named := by
  cases s <;> cases t <;> simp [sideToString, Side.named]

end LowLatency.Common
