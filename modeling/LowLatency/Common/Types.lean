import LowLatency.Lib.Execution

/-!
`macros.hpp` and `types.hpp`: how a run can end early, and the scalar types of
the exchange.

The exchange methods are `noexcept`, so whatever stops one of them stops the
process. `Failure` keeps the ways apart: an `ASSERT` or a `FATAL` that prints
its message and exits, the exception of a bounds-checked `at()`, an access
with no defined meaning, and a loop that never ends.
-/

namespace LowLatency.Common

inductive Failure
  | exit (msg : String)
  | outOfRange
  | undefined
  | endless
  deriving DecidableEq, Repr

abbrev Exec (α : Type) := Except Failure α

/-- `ASSERT(cond, msg)`. -/
def assert (cond : Bool) (msg : String) : Exec Unit :=
  if cond then .ok () else .error (.exit msg)

/-- `FATAL(msg)`. -/
def fatal {α : Type} (msg : String) : Exec α := .error (.exit msg)

@[simp] theorem assert_true (msg : String) : assert true msg = .ok () := rfl

@[simp] theorem assert_false (msg : String) : assert false msg = .error (.exit msg) := rfl

/-! ### Arrays

A `std::array` of `n` elements is a function on indices; only the access
functions know `n`. -/

/-- `a.at(i)` as a value. -/
def arrayAt {α : Type} (n : ℕ) (a : ℕ → α) (i : ℕ) : Exec α :=
  if i < n then .ok (a i) else .error .outOfRange

/-- `a[i]` as a value. The index is not checked: past the end the access has no
meaning. -/
def arrayGet {α : Type} (n : ℕ) (a : ℕ → α) (i : ℕ) : Exec α :=
  if i < n then .ok (a i) else .error .undefined

/-- `a.at(i) = v`. -/
def arraySet {α : Type} (n : ℕ) (a : ℕ → α) (i : ℕ) (v : α) : Exec (ℕ → α) :=
  if i < n then .ok (Function.update a i v) else .error .outOfRange

theorem arrayAt_eq_ok {α : Type} {n i : ℕ} {a : ℕ → α} {v : α} :
    arrayAt n a i = .ok v ↔ i < n ∧ a i = v := by
  by_cases h : i < n <;> simp [arrayAt, h]

theorem arrayGet_eq_ok {α : Type} {n i : ℕ} {a : ℕ → α} {v : α} :
    arrayGet n a i = .ok v ↔ i < n ∧ a i = v := by
  by_cases h : i < n <;> simp [arrayGet, h]

theorem arraySet_eq_ok {α : Type} {n i : ℕ} {a a' : ℕ → α} {v : α} :
    arraySet n a i v = .ok a' ↔ i < n ∧ a' = Function.update a i v := by
  by_cases h : i < n <;> simp [arraySet, h, eq_comm]

/-! ### Scalars -/

abbrev OrderId := UInt64
abbrev TickerId := UInt32
abbrev ClientId := UInt32
abbrev Price := UInt64
abbrev Qty := UInt32
abbrev Priority := UInt64

/-- `std::numeric_limits<uint64_t>::max()`. -/
def max64 : UInt64 := 0xFFFFFFFFFFFFFFFF

/-- `std::numeric_limits<uint32_t>::max()`. -/
def max32 : UInt32 := 0xFFFFFFFF

def orderIdInvalid : OrderId := max64
def tickerIdInvalid : TickerId := max32
def clientIdInvalid : ClientId := max32
def priceInvalid : Price := max64
def qtyInvalid : Qty := max32
def priorityInvalid : Priority := max64

/-- `enum Side : int8_t`. The underlying type is fixed, so any byte is a value
of the type; `unnamed` stands for the bytes no enumerator has. -/
inductive Side
  | invalid
  | buy
  | sell
  | unnamed (byte : {b : Int8 // b ≠ 0 ∧ b ≠ 1 ∧ b ≠ -1})
  deriving DecidableEq

def meMaxTickers : ℕ := 8
def meMaxNumClients : ℕ := 256
def meMaxOrderIds : ℕ := 1024 * 1024
def meMaxPriceLevels : ℕ := 256

end LowLatency.Common
