import Mathlib.Data.List.TakeWhile
import LowLatency.Common.Logger

/-!
`Logger::log`: a format, and its arguments one at a time.

The overload with arguments scans the format up to a placeholder, pushes its
first argument and leaves the rest of both to the next call; the overload
without arguments pushes what is left. `tokens` and `render` say what the two
are for.
-/

namespace LowLatency.Common

open LowLatency.Lib

namespace Logger

/-- `'%'`. -/
def percent : Int8 := 37

/-- What a call of `log` does: the elements it pushes, and how it ends. -/
structure Logged where
  pushed : List LogElement
  result : Exec Unit

/-- Elements that are pushed before anything else is done. -/
def pushThen (elements : List LogElement) (next : Logged) : Logged :=
  ⟨elements ++ next.pushed, next.result⟩

/-- `FATAL(msg)`, before anything is pushed. -/
def stop (msg : String) : Logged := ⟨[], fatal msg⟩

/-- The loop `while(*str)` of both overloads. They differ in what they do at a
placeholder, with the format behind it, and at the end. -/
def scan (placeholder : List Int8 → Logged) (finish : Logged) : List Int8 → Logged
  | [] => finish
  | c :: str =>
      if c = 0 then
        finish
      else if c = percent then
        match str with
        | [] => placeholder []
        | d :: str =>
            if d = percent then
              pushThen (PushValue.char d).elements (scan placeholder finish str)
            else
              placeholder (d :: str)
      else
        pushThen (PushValue.char c).elements (scan placeholder finish str)

def logPlain (str : List Int8) : Logged :=
  scan (fun _ => stop "Missing arguments after %") ⟨[], .ok ()⟩ str

/-- `log(str, args...)`. A format is given by its bytes, as a C string. -/
def log : List PushValue → List Int8 → Logged
  | [], str => logPlain str
  | val :: args, str =>
      scan (fun str => pushThen val.elements (log args str))
        (stop "Extra arguments provided to log() function") str

/-! ### What a format means -/

inductive Token
  | literal (c : Int8)
  | placeholder
  deriving DecidableEq

/-- `%%` is one percent sign, and any other `%` a placeholder. -/
def tokens : List Int8 → List Token
  | [] => []
  | c :: str =>
      if c = percent then
        match str with
        | [] => [.placeholder]
        | d :: str =>
            if d = percent then .literal percent :: tokens str
            else .placeholder :: tokens (d :: str)
      else
        .literal c :: tokens str

def charElement (c : Int8) : LogElement := ⟨.char, .c c⟩

/-- What an argument yields: a string all of its characters, any other value the
element that holds it. -/
def argument : PushValue → List LogElement
  | .cString value | .string value => value.map charElement
  | val => val.elements

/-- The rendering, up to the first placeholder without an argument. -/
def render : List Token → List PushValue → List LogElement
  | [], _ => []
  | .literal c :: ts, args => charElement c :: render ts args
  | .placeholder :: ts, val :: args => argument val ++ render ts args
  | .placeholder :: _, [] => []

/-- The number of arguments the format asks for. -/
def placeholders (str : List Int8) : ℕ := (tokens str).count .placeholder

theorem tokens_literal {c : Int8} (h : c ≠ percent) (str : List Int8) :
    tokens (c :: str) = .literal c :: tokens str := by
  rw [tokens.eq_def]
  exact if_neg h

theorem tokens_escape (str : List Int8) :
    tokens (percent :: percent :: str) = .literal percent :: tokens str := by
  simp [tokens]

theorem tokens_placeholder {str : List Int8} (h : str.head? ≠ some percent) :
    tokens (percent :: str) = .placeholder :: tokens str := by
  cases str with
  | nil => rfl
  | cons d str =>
      have hd : d ≠ percent := fun hd => h (congrArg some hd)
      simp [tokens, hd]

/-! ### One character of the format -/

theorem percent_ne_zero : percent ≠ 0 := by decide

section

variable {placeholder : List Int8 → Logged} {finish : Logged}

theorem scan_literal {c : Int8} (h0 : c ≠ 0) (h : c ≠ percent) (str : List Int8) :
    scan placeholder finish (c :: str) =
      pushThen [charElement c] (scan placeholder finish str) := by
  rw [scan.eq_def]
  simp only [if_neg h0, if_neg h]
  rfl

theorem scan_escape (str : List Int8) :
    scan placeholder finish (percent :: percent :: str) =
      pushThen [charElement percent] (scan placeholder finish str) := by
  simp only [scan, if_neg percent_ne_zero, if_true]
  rfl

theorem scan_placeholder {str : List Int8} (h : str.head? ≠ some percent) :
    scan placeholder finish (percent :: str) = placeholder str := by
  cases str with
  | nil => simp [scan, percent_ne_zero]
  | cons d str =>
      have hd : d ≠ percent := fun hd => h (congrArg some hd)
      simp [scan, percent_ne_zero, hd]

end

theorem log_literal (args : List PushValue) {c : Int8} (h0 : c ≠ 0) (h : c ≠ percent)
    (str : List Int8) : log args (c :: str) = pushThen [charElement c] (log args str) := by
  cases args with
  | nil => exact scan_literal h0 h str
  | cons val args => exact scan_literal h0 h str

theorem log_escape (args : List PushValue) (str : List Int8) :
    log args (percent :: percent :: str) = pushThen [charElement percent] (log args str) := by
  cases args with
  | nil => exact scan_escape str
  | cons val args => exact scan_escape str

/-! ### The whole format -/

/-- How `log` ends, by the number of placeholders and of arguments. -/
def verdict (placeholders args : ℕ) : Exec Unit :=
  if placeholders = args then .ok ()
  else if args < placeholders then fatal "Missing arguments after %"
  else fatal "Extra arguments provided to log() function"

theorem verdict_succ (p n : ℕ) : verdict (p + 1) (n + 1) = verdict p n := by
  simp [verdict]

theorem verdict_eq_ok {p n : ℕ} : verdict p n = .ok () ↔ p = n := by
  rw [verdict]
  split
  · rename_i h
    exact iff_of_true rfl h
  · rename_i h
    refine iff_of_false ?_ h
    split <;> simp [fatal]

/-- The value is no string with a null inside. -/
def NulFree : PushValue → Prop
  | .cString value | .string value => 0 ∉ value
  | _ => True

theorem elements_of_nulFree {val : PushValue} (h : NulFree val) :
    val.elements = argument val := by
  cases val with
  | cString value | string value =>
      rw [PushValue.elements, pushChars, List.takeWhile_eq_self_iff.mpr]
      · rfl
      · intro c hc
        exact decide_eq_true fun h0 => h (h0 ▸ hc)
  | _ => rfl

def Renders (str : List Int8) (args : List PushValue) : Prop :=
  log args str = ⟨render (tokens str) args, verdict (placeholders str) args.length⟩

theorem renders_nil (args : List PushValue) : Renders [] args := by
  cases args with
  | nil => rfl
  | cons val args => rfl

theorem Renders.literal {str : List Int8} {args : List PushValue} (h : Renders str args)
    {c : Int8} {str' : List Int8} (htokens : tokens str' = .literal c :: tokens str)
    (hlog : log args str' = pushThen [charElement c] (log args str)) : Renders str' args := by
  have hcount : placeholders str' = placeholders str := by
    rw [placeholders, htokens, List.count_cons_of_ne (by simp), placeholders]
  rw [Renders, hlog, h, htokens, hcount]
  rfl

theorem renders_placeholder {str : List Int8} (hhead : str.head? ≠ some percent)
    (h : ∀ args, (∀ val ∈ args, NulFree val) → Renders str args) {args : List PushValue}
    (hargs : ∀ val ∈ args, NulFree val) : Renders (percent :: str) args := by
  have hcount : placeholders (percent :: str) = placeholders str + 1 := by
    rw [placeholders, tokens_placeholder hhead, List.count_cons_self, placeholders]
  rw [Renders, hcount, tokens_placeholder hhead]
  cases args with
  | nil =>
      rw [log, logPlain, scan_placeholder hhead]
      rfl
  | cons val args =>
      have hrest := h args fun v hv => hargs v (List.mem_cons_of_mem val hv)
      rw [log, scan_placeholder hhead, hrest, List.length_cons, verdict_succ,
        elements_of_nulFree (hargs val List.mem_cons_self)]
      rfl

/-- The induction is on the tokens of the format. -/
theorem renders {str : List Int8} (hstr : 0 ∉ str) {args : List PushValue}
    (hargs : ∀ val ∈ args, NulFree val) : Renders str args := by
  induction str using tokens.induct generalizing args with
  | case1 => exact renders_nil args
  | case2 => exact renders_placeholder (by simp) (fun args _ => renders_nil args) hargs
  | case3 str ih =>
      have hrest : 0 ∉ str := fun h => hstr (by simp [h])
      exact (ih hrest hargs).literal (tokens_escape str) (log_escape args str)
  | case4 d str hd ih =>
      have hrest : 0 ∉ d :: str := fun h => hstr (List.mem_cons_of_mem percent h)
      exact renders_placeholder (by simp [hd]) (fun args hargs => ih hrest hargs) hargs
  | case5 c str hc ih =>
      have hrest : 0 ∉ str := fun h => hstr (List.mem_cons_of_mem c h)
      have h0 : c ≠ 0 := fun h => hstr (by simp [h])
      exact (ih hrest hargs).literal (tokens_literal hc str) (log_literal args h0 hc str)

/-- **The format is rendered exactly.** `log` pushes the rendering, up to the first
placeholder without an argument; it returns exactly when there are as many
arguments as placeholders, and otherwise stops with the message of the branch it
has come to. -/
theorem log_renders {str : List Int8} (hstr : 0 ∉ str) {args : List PushValue}
    (hargs : ∀ val ∈ args, NulFree val) :
    (log args str).pushed = render (tokens str) args ∧
    ((log args str).result = .ok () ↔ placeholders str = args.length) ∧
    (args.length < placeholders str →
      (log args str).result = .error (.exit "Missing arguments after %")) ∧
    (placeholders str < args.length →
      (log args str).result = .error (.exit "Extra arguments provided to log() function")) := by
  have hlog : log args str = _ := renders hstr hargs
  rw [hlog]
  refine ⟨rfl, verdict_eq_ok, fun h => ?_, fun h => ?_⟩
  · exact (if_neg (by omega)).trans (if_pos h)
  · exact (if_neg (by omega)).trans (if_neg (by omega))

/-- `"a%%%b%"` with a number and a string that holds a percent sign. -/
theorem log_renders_two :
    (log [.int 5, .string [104, 37]] [97, 37, 37, 37, 98, 37]).pushed =
        [charElement 97, charElement 37, ⟨.integer, .i 5⟩, charElement 98, charElement 104,
          charElement 37] ∧
      (log [.int 5, .string [104, 37]] [97, 37, 37, 37, 98, 37]).result = .ok () := by
  have hstr : (0 : Int8) ∉ [97, 37, 37, 37, 98, 37] := by decide
  have hargs : ∀ val ∈ [PushValue.int 5, .string [104, 37]], NulFree val := by simp [NulFree]
  obtain ⟨hpushed, hresult, -⟩ := log_renders hstr hargs
  exact ⟨hpushed, hresult.mpr (by decide)⟩

end Logger

end LowLatency.Common
