import GonkaProxy.Sanitize.Token

/-!
# `encoding/json`'s scanner: what a valid JSON document is

`json.Valid` and `json.Unmarshal` first run `checkValid`: the scanner's state machine, one byte at
a time, with a stack of open objects and arrays.  The states are those of `scanner.go`.

* `ScanState`, `ParseState`, `Scanner`   the step function's state, the stack, the scanner;
* `Scanner.step`                         one byte;
* `checkValid`                           every byte, then `eof`;
* `Scanner.step_nonascii`                a byte `≥ 0x80` is an error outside a string;
* `run_replaceAll`                       replacing a placeholder by bytes that may stand inside a
                                         string literal does not change the run of a scanner
                                         that reads the text without error.
-/

set_option linter.unusedSectionVars false
set_option linter.unusedVariables false

namespace GonkaProxy

/-- the step functions of `scanner`, one constructor each -/
inductive ScanState where
  | beginValueOrEmpty | beginValue | beginStringOrEmpty | beginString
  | endValue | endTop
  | inString | inStringEsc | inStringEscU | inStringEscU1 | inStringEscU12 | inStringEscU123
  | neg | one | zero | dot | dot0 | e | eSign | e0
  | t | tr | tru | f | fa | fal | fals | n | nu | nul
  | error
  deriving DecidableEq, Repr

/-- `parseObjectKey`, `parseObjectValue`, `parseArrayValue` -/
inductive ParseState where
  | objectKey | objectValue | arrayValue
  deriving DecidableEq, Repr

/-- the scanner: its step function (`state`), the stack of open containers (innermost first) and
`endTop` -/
structure Scanner where
  state : ScanState
  parseState : List ParseState
  endTop : Bool
  deriving DecidableEq, Repr

/-- `isSpace` -/
def isSpace (c : UInt8) : Bool := c == 0x20 || c == 0x09 || c == 0x0D || c == 0x0A

/-- a hexadecimal digit -/
def isHex (c : UInt8) : Bool := isDigit c || (0x61 ≤ c && c ≤ 0x66) || (0x41 ≤ c && c ≤ 0x46)

/-- `maxNestingDepth` -/
def maxNestingDepth : Nat := 10000

namespace Scanner

/-- `reset`: at the beginning of a value, nothing open -/
def init : Scanner := ⟨.beginValue, [], false⟩

def goto (s : Scanner) (st : ScanState) : Scanner := { s with state := st }

/-- `error`: the step function becomes `stateError` -/
def fail (s : Scanner) : Scanner := s.goto .error

/-- `pushParseState` -/
def push (s : Scanner) (ps : ParseState) (st : ScanState) : Scanner :=
  let s' : Scanner := { s with parseState := ps :: s.parseState, state := st }
  if s'.parseState.length ≤ maxNestingDepth then s' else s'.fail

/-- `popParseState` -/
def pop (s : Scanner) (rest : List ParseState) : Scanner :=
  if rest = [] then { s with parseState := [], state := .endTop, endTop := true }
  else { s with parseState := rest, state := .endValue }

/-- `stateEndTop` -/
def endTopStep (s : Scanner) (c : UInt8) : Scanner := if isSpace c then s else s.fail

/-- `stateEndValue` -/
def endValue (s : Scanner) (c : UInt8) : Scanner :=
  match s.parseState with
  | [] => endTopStep { s with state := .endTop, endTop := true } c
  | ps :: rest =>
    if isSpace c then s.goto .endValue
    else match ps with
      | .objectKey =>
        if c = 0x3A then { s with parseState := .objectValue :: rest, state := .beginValue }
        else s.fail
      | .objectValue =>
        if c = 0x2C then { s with parseState := .objectKey :: rest, state := .beginString }
        else if c = 0x7D then s.pop rest
        else s.fail
      | .arrayValue =>
        if c = 0x2C then s.goto .beginValue
        else if c = 0x5D then s.pop rest
        else s.fail

/-- `stateBeginValue` -/
def beginValue (s : Scanner) (c : UInt8) : Scanner :=
  if isSpace c then s
  else if c = 0x7B then s.push .objectKey .beginStringOrEmpty
  else if c = 0x5B then s.push .arrayValue .beginValueOrEmpty
  else if c = 0x22 then s.goto .inString
  else if c = 0x2D then s.goto .neg
  else if c = 0x30 then s.goto .zero
  else if c = 0x74 then s.goto .t
  else if c = 0x66 then s.goto .f
  else if c = 0x6E then s.goto .n
  else if 0x31 ≤ c ∧ c ≤ 0x39 then s.goto .one
  else s.fail

/-- `stateBeginString` -/
def beginString (s : Scanner) (c : UInt8) : Scanner :=
  if isSpace c then s else if c = 0x22 then s.goto .inString else s.fail

/-- `state0`: after the integer part of a number -/
def zeroStep (s : Scanner) (c : UInt8) : Scanner :=
  if c = 0x2E then s.goto .dot
  else if c = 0x65 ∨ c = 0x45 then s.goto .e
  else s.endValue c

/-- `stateESign`: a digit of the exponent must follow -/
def eSignStep (s : Scanner) (c : UInt8) : Scanner := if isDigit c then s.goto .e0 else s.fail

/-- one byte of a literal: `c` must be `d`, then go to `next` -/
def expect (s : Scanner) (c d : UInt8) (next : ScanState) : Scanner :=
  if c = d then s.goto next else s.fail

/-- `scan.step(scan, c)` -/
def step (s : Scanner) (c : UInt8) : Scanner :=
  match s.state with
  | .beginValueOrEmpty => if isSpace c then s else if c = 0x5D then s.endValue c else s.beginValue c
  | .beginValue => s.beginValue c
  | .beginStringOrEmpty =>
    if isSpace c then s
    else if c = 0x7D then
      ({ s with parseState := .objectValue :: s.parseState.tail } : Scanner).endValue c
    else s.beginString c
  | .beginString => s.beginString c
  | .endValue => s.endValue c
  | .endTop => s.endTopStep c
  | .inString =>
    if c = 0x22 then s.goto .endValue
    else if c = 0x5C then s.goto .inStringEsc
    else if c < 0x20 then s.fail
    else s
  | .inStringEsc =>
    if c ∈ [0x62, 0x66, 0x6E, 0x72, 0x74, 0x5C, 0x2F, 0x22] then s.goto .inString
    else if c = 0x75 then s.goto .inStringEscU
    else s.fail
  | .inStringEscU => if isHex c then s.goto .inStringEscU1 else s.fail
  | .inStringEscU1 => if isHex c then s.goto .inStringEscU12 else s.fail
  | .inStringEscU12 => if isHex c then s.goto .inStringEscU123 else s.fail
  | .inStringEscU123 => if isHex c then s.goto .inString else s.fail
  | .neg => if c = 0x30 then s.goto .zero else if 0x31 ≤ c ∧ c ≤ 0x39 then s.goto .one else s.fail
  | .one => if isDigit c then s else s.zeroStep c
  | .zero => s.zeroStep c
  | .dot => if isDigit c then s.goto .dot0 else s.fail
  | .dot0 => if isDigit c then s else if c = 0x65 ∨ c = 0x45 then s.goto .e else s.endValue c
  | .e => if c = 0x2B ∨ c = 0x2D then s.goto .eSign else s.eSignStep c
  | .eSign => s.eSignStep c
  | .e0 => if isDigit c then s else s.endValue c
  | .t => s.expect c 0x72 .tr
  | .tr => s.expect c 0x75 .tru
  | .tru => s.expect c 0x65 .endValue
  | .f => s.expect c 0x61 .fa
  | .fa => s.expect c 0x6C .fal
  | .fal => s.expect c 0x73 .fals
  | .fals => s.expect c 0x65 .endValue
  | .n => s.expect c 0x75 .nu
  | .nu => s.expect c 0x6C .nul
  | .nul => s.expect c 0x6C .endValue
  | .error => s

/-- the scanner after the bytes `data` -/
def run (s : Scanner) (data : Bytes) : Scanner := data.foldl step s

/-- `eof`: the document is complete, possibly once a space ends a number -/
def eof (s : Scanner) : Bool :=
  if s.state = .error then false else if s.endTop then true else (s.step 0x20).endTop

end Scanner

/-- `checkValid(data, scan)` -/
def checkValid (data : Bytes) : Bool := (Scanner.init.run data).eof

/-- a byte that may stand unescaped inside a string literal -/
def stringSafe (c : UInt8) : Bool := 0x20 ≤ c && c != 0x22 && c != 0x5C

namespace Scanner

@[simp] theorem run_nil (s : Scanner) : s.run [] = s := rfl
@[simp] theorem run_cons (s : Scanner) (c : UInt8) (x : Bytes) : s.run (c :: x) = (s.step c).run x := rfl

theorem run_append (s : Scanner) (a b : Bytes) : s.run (a ++ b) = (s.run a).run b :=
  List.foldl_append _ _ _ _

theorem run_error {s : Scanner} (h : s.state = .error) : ∀ x : Bytes, s.run x = s
  | [] => rfl
  | c :: x => by simp only [run_cons, step, h]; exact run_error h x

theorem run_inString {s : Scanner} (h : s.state = .inString) :
    ∀ x : Bytes, (∀ c ∈ x, stringSafe c = true) → s.run x = s
  | [], _ => rfl
  | c :: x, hx => by
    have hc := hx c (List.mem_cons_self _ _)
    simp only [stringSafe, Bool.and_eq_true, decide_eq_true_eq, bne_iff_ne, ne_eq] at hc
    have hlt : ¬ c < 0x20 := fun h' => by
      have h1 : 32 ≤ c.toNat := hc.1.1
      have h2 : c.toNat < 32 := h'
      omega
    simp only [run_cons, step, h, if_neg hc.1.2, if_neg hc.2, if_neg hlt]
    exact run_inString h x fun c' hc' => hx c' (List.mem_cons_of_mem _ hc')

section
variable {c : UInt8}

theorem ne_of_nonascii (hc : 128 ≤ c.toNat) {d : UInt8} (hd : d.toNat < 128) : c ≠ d := by
  rintro rfl; omega

theorem isSpace_nonascii (hc : 128 ≤ c.toNat) : isSpace c = false := by
  simp [isSpace, ne_of_nonascii hc (by decide : (0x20 : UInt8).toNat < 128),
    ne_of_nonascii hc (by decide : (0x09 : UInt8).toNat < 128),
    ne_of_nonascii hc (by decide : (0x0D : UInt8).toNat < 128),
    ne_of_nonascii hc (by decide : (0x0A : UInt8).toNat < 128)]

theorem isDigit_nonascii (hc : 128 ≤ c.toNat) : isDigit c = false := by
  simp only [isDigit, digitBytes, decide_eq_false_iff_not, List.mem_cons, List.mem_singleton,
    List.not_mem_nil, or_false]
  rintro (rfl | rfl | rfl | rfl | rfl | rfl | rfl | rfl | rfl | rfl) <;> exact absurd hc (by decide)

theorem isHex_nonascii (hc : 128 ≤ c.toNat) : isHex c = false := by
  have h1 : ¬ c ≤ 0x66 := fun h => by have : c.toNat ≤ 102 := h; omega
  have h2 : ¬ c ≤ 0x46 := fun h => by have : c.toNat ≤ 70 := h; omega
  simp [isHex, isDigit_nonascii hc, h1, h2]

theorem endValue_nonascii (hc : 128 ≤ c.toNat) (s : Scanner) : (s.endValue c).state = .error := by
  unfold endValue
  rcases s.parseState with _ | ⟨ps, rest⟩
  · simp [endTopStep, isSpace_nonascii hc, fail, goto]
  · simp only [isSpace_nonascii hc, Bool.false_eq_true, if_false]
    cases ps <;>
      simp [fail, goto, ne_of_nonascii hc (by decide : (0x3A : UInt8).toNat < 128),
        ne_of_nonascii hc (by decide : (0x2C : UInt8).toNat < 128),
        ne_of_nonascii hc (by decide : (0x7D : UInt8).toNat < 128),
        ne_of_nonascii hc (by decide : (0x5D : UInt8).toNat < 128)]

theorem beginValue_nonascii (hc : 128 ≤ c.toNat) (s : Scanner) : (s.beginValue c).state = .error := by
  have h : ¬ (0x31 ≤ c ∧ c ≤ 0x39) := fun h => by have : c.toNat ≤ 57 := h.2; omega
  simp [beginValue, isSpace_nonascii hc, h, fail, goto,
    ne_of_nonascii hc (by decide : (0x7B : UInt8).toNat < 128),
    ne_of_nonascii hc (by decide : (0x5B : UInt8).toNat < 128),
    ne_of_nonascii hc (by decide : (0x22 : UInt8).toNat < 128),
    ne_of_nonascii hc (by decide : (0x2D : UInt8).toNat < 128),
    ne_of_nonascii hc (by decide : (0x30 : UInt8).toNat < 128),
    ne_of_nonascii hc (by decide : (0x74 : UInt8).toNat < 128),
    ne_of_nonascii hc (by decide : (0x66 : UInt8).toNat < 128),
    ne_of_nonascii hc (by decide : (0x6E : UInt8).toNat < 128)]

/-- **Outside a string, a byte `≥ 0x80` is a syntax error.** -/
theorem step_nonascii (hc : 128 ≤ c.toNat) (s : Scanner) (hs : s.state ≠ .inString) :
    (s.step c).state = .error := by
  have ne : ∀ {d : UInt8}, d.toNat < 128 → c ≠ d := fun hd => ne_of_nonascii hc hd
  have hr : ¬ (0x31 ≤ c ∧ c ≤ 0x39) := fun h => by have : c.toNat ≤ 57 := h.2; omega
  cases h : s.state <;>
    simp (disch := decide) [step, h, ne, hr, isSpace_nonascii hc, isDigit_nonascii hc,
      isHex_nonascii hc, endValue_nonascii hc, beginValue_nonascii hc, beginString, endTopStep,
      zeroStep, eSignStep, expect, fail, goto] at hs ⊢

end

theorem stringSafe_of_placeholder {u : Bytes} (hu : IsPlaceholder u) :
    ∀ c ∈ u, stringSafe c = true := by
  have hall : ∀ d ∈ tokenPrefix ++ digitBytes ++ tokenSuffix, stringSafe d = true := by decide
  intro c hc
  rcases hu.mem hc with h | h | h
  · exact hall c (by simp [h])
  · exact hall c (by simp only [isDigit, decide_eq_true_eq] at h; simp [h])
  · exact hall c (by simp [h])

theorem inString_of_placeholder {u : Bytes} (hu : IsPlaceholder u) {s : Scanner} {rest : Bytes}
    (h : ((s.run u).run rest).state ≠ .error) : s.state = .inString := by
  by_contra hs
  obtain ⟨w, hw⟩ := hu.starts_guillemet
  have herr := step_nonascii (by decide : 128 ≤ (0xC2 : UInt8).toNat) s hs
  rw [← hw, List.cons_append, run_cons, run_error herr, run_error herr] at h
  exact h herr

/-- **Replacing a placeholder inside strings.**  If a scanner reads `x` without error, every
occurrence of the placeholder `u` in `x` lies inside a string literal, and replacing each by
string-safe bytes leaves the run unchanged. -/
theorem run_replaceAll {u o : Bytes} (hu : IsPlaceholder u) (ho : ∀ c ∈ o, stringSafe c = true) :
    ∀ (x : Bytes) (s : Scanner), (s.run x).state ≠ .error → s.run (replaceAll x u o) = s.run x
  | [], s, _ => rfl
  | c :: x, s, h => by
    by_cases hp : u <+: c :: x
    · obtain ⟨rest, hrest⟩ := hp
      have hlen : rest.length < x.length + 1 := by
        have h1 := congrArg List.length hrest
        have h2 := List.length_pos.mpr hu.ne_nil
        simp only [List.length_append, List.length_cons] at h1
        omega
      rw [← hrest] at h ⊢
      rw [run_append] at h
      have hin := inString_of_placeholder hu h
      rw [run_inString hin u (stringSafe_of_placeholder hu)] at h
      rw [replaceAll_at_occurrence hu.ne_nil, run_append, run_append,
        run_inString hin u (stringSafe_of_placeholder hu), run_inString hin o ho]
      exact run_replaceAll hu ho rest s h
    · rw [replaceAll_cons hp, run_cons, run_cons]
      exact run_replaceAll hu ho x (s.step c) h
termination_by x => x.length

end Scanner

end GonkaProxy
