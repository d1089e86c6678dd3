import GonkaProxy.Strings
import GonkaProxy.Json.Decode
import GonkaProxy.Sanitize.Redact

/-!
# The LLM classifier

`Classify` asks a model for the sensitive strings of a text, cleans the reply (think block, code
fence, a last-resort extraction of the array), unmarshals it as a `[]string`, then looks for each
value in the text: `strings.Index` from `start`, a span when the match is delimited, and `start`
moved past the match either way.  `Classify` never reports an error: every failure gives no
spans.

* `isBoundary`, `isInsideToken`    the delimiter test around a match;
* `searchLoop`, `valueSpans`       the search for one value; the loop moves forward by at least
                                   one byte a round, so one round per byte of the text is enough
                                   (`searchLoop_fuel`);
* `sensitiveSpans`                 the loop over the values: trimmed, empty ones and placeholders
                                   skipped;
* `valueSpans_sound`, `valueSpans_isolated`   what the search finds: only delimited occurrences,
                                   and every delimited occurrence that no earlier occurrence
                                   overlaps;
* `sensitiveSpans_overlapping`     an occurrence that an earlier one overlaps is never looked at;
* `stripThinkBlock`, `stripCodeFence`, `extractJSONArray`, `cleanReply`   the reply cleaning;
* `classify`, `llmClassifier`      `Classify` from the model's first message, and the classifier
                                   the sanitizer runs;
* `classifyReply_embedded_array`   the extraction never runs on a reply that holds a `[`.
-/

set_option linter.unusedSectionVars false
set_option linter.unusedVariables false

namespace GonkaProxy

/-- `isBoundary(b)` -/
def isBoundary (b : UInt8) : Bool :=
  decide (b ∈ [0x20, 0x09, 0x0A, 0x0D, 0x3C, 0x3E, 0x2C, 0x3B, 0x28, 0x29, 0x5B, 0x5D, 0x7B, 0x7D,
    0x22, 0x27, 0x60])

/-- `isInsideToken(text, start, end)`: the match `[start, end)` sits inside a longer word -/
def isInsideToken (text : Bytes) (start e : Nat) : Bool :=
  (decide (start > 0) && !isBoundary (text.getD (start - 1) 0)) ||
    (decide (e < text.length) && !isBoundary (text.getD e 0))

/-- the search loop for one value from offset `start`, with `fuel` rounds left -/
def searchLoop (text val : Bytes) : Nat → Nat → List Span
  | 0, _ => []
  | fuel + 1, start =>
    match index (text.drop start) val with
    | none => []
    | some idx =>
      if isInsideToken text (start + idx) (start + idx + val.length) then
        searchLoop text val fuel (start + idx + val.length)
      else
        ⟨↑(start + idx), ↑(start + idx + val.length), "LLM"⟩ ::
          searchLoop text val fuel (start + idx + val.length)

/-- the spans of one value: `start := 0` and the loop, which runs at most once per byte -/
def valueSpans (text val : Bytes) : List Span := searchLoop text val (text.length + 1) 0

/-- the loop over the model's values: trimmed, empty values and placeholders skipped -/
def sensitiveSpans (text : Bytes) (values : List Bytes) : List Span :=
  values.flatMap fun val =>
    if trimSpace val = [] then []
    else if tokenPrefix <+: trimSpace val then []
    else valueSpans text (trimSpace val)

section
variable {text val : Bytes}

theorem index_drop_some {start idx : Nat} (h : index (text.drop start) val = some idx) :
    val <+: text.drop (start + idx) ∧ ∀ j, start ≤ j → j < start + idx → ¬ val <+: text.drop j := by
  obtain ⟨h1, h2⟩ := index_eq_some.mp h
  refine ⟨by simpa [List.drop_drop, Nat.add_comm] using h1, fun j hj hj' hp => h2 (j - start) (by omega) ?_⟩
  simpa [List.drop_drop, Nat.add_sub_cancel' hj] using hp

theorem occurrence_fits (hv : val ≠ []) {i : Nat} (h : val <+: text.drop i) : i + val.length ≤ text.length := by
  have h1 := h.length_le
  rw [List.length_drop] at h1
  have := List.length_pos.mpr hv
  omega

/-- **Fuel.**  One round per byte left is enough: with more rounds the loop gives the same
spans, so `valueSpans` is what the unbounded `for` loop of `Classify` computes. -/
theorem searchLoop_fuel (hv : val ≠ []) : ∀ (n start k : Nat), text.length + 1 ≤ n + start →
    searchLoop text val (n + k) start = searchLoop text val n start
  | 0, start, k, h => by
    have hnone : index (text.drop start) val = none := by
      rw [List.drop_eq_nil_of_le (by omega)]
      simp [index, List.prefix_nil, hv]
    cases k <;> simp [searchLoop, hnone]
  | n + 1, start, k, h => by
    rw [show n + 1 + k = n + k + 1 by omega]
    simp only [searchLoop]
    split
    · rfl
    · rename_i idx hidx
      have := occurrence_fits hv (index_drop_some hidx).1
      have hpos := List.length_pos.mpr hv
      rw [searchLoop_fuel hv n _ k (by omega)]

theorem searchLoop_sound : ∀ (fuel start : Nat), ∀ sp ∈ searchLoop text val fuel start,
    ∃ i : Nat, sp = ⟨↑i, ↑(i + val.length), "LLM"⟩ ∧ val <+: text.drop i ∧
      isInsideToken text i (i + val.length) = false
  | 0, _, sp, hsp => absurd hsp (List.not_mem_nil sp)
  | fuel + 1, start, sp, hsp => by
    simp only [searchLoop] at hsp
    split at hsp
    · exact absurd hsp (List.not_mem_nil sp)
    · rename_i idx hidx
      split at hsp
      · exact searchLoop_sound fuel _ sp hsp
      · rename_i hin
        rcases List.mem_cons.mp hsp with rfl | hsp
        · exact ⟨start + idx, rfl, (index_drop_some hidx).1, by simpa using hin⟩
        · exact searchLoop_sound fuel _ sp hsp

theorem searchLoop_isolated (hv : val ≠ []) {i : Nat} (hocc : val <+: text.drop i)
    (hdel : isInsideToken text i (i + val.length) = false)
    (hiso : ∀ j, j < i → i < j + val.length → ¬ val <+: text.drop j) :
    ∀ (fuel start : Nat), text.length + 1 ≤ fuel + start → start ≤ i →
      (⟨↑i, ↑(i + val.length), "LLM"⟩ : Span) ∈ searchLoop text val fuel start
  | 0, start, h, hs => absurd (occurrence_fits hv hocc) (by omega)
  | fuel + 1, start, h, hs => by
    have hpos := List.length_pos.mpr hv
    simp only [searchLoop]
    split
    · rename_i hnone
      exact absurd (by simpa [List.drop_drop, Nat.add_sub_cancel' hs] using hocc)
        (index_eq_none.mp hnone (i - start))
    · rename_i idx hidx
      obtain ⟨hp, hfirst⟩ := index_drop_some hidx
      have hle : start + idx ≤ i := by
        by_contra hlt; exact hfirst i hs (by omega) hocc
      have hnext : start + idx = i ∨ start + idx + val.length ≤ i := by
        by_contra hc; exact hiso (start + idx) (by omega) (by omega) hp
      have ih : text.length + 1 ≤ fuel + (start + idx + val.length) → start + idx + val.length ≤ i →
          (⟨↑i, ↑(i + val.length), "LLM"⟩ : Span) ∈ searchLoop text val fuel (start + idx + val.length) :=
        searchLoop_isolated hv hocc hdel hiso fuel _
      rcases hnext with heq | hlt
      · subst heq
        rw [if_neg (by simp [hdel])]
        exact List.mem_cons_self _ _
      · split
        · exact ih (by omega) hlt
        · exact List.mem_cons_of_mem _ (ih (by omega) hlt)

end

/-- **What the search finds.**  For every text and every non-empty value, the spans of the value
are delimited occurrences of it (a word-boundary byte or an edge of the text on both sides), each
labelled `LLM`; and every delimited occurrence that no occurrence starting before it overlaps is
among them. -/
theorem valueSpans_spec (text val : Bytes) (hv : val ≠ []) :
    (∀ sp ∈ valueSpans text val, ∃ i : Nat, sp = ⟨↑i, ↑(i + val.length), "LLM"⟩ ∧ val <+: text.drop i ∧
      isInsideToken text i (i + val.length) = false) ∧
    ∀ i : Nat, val <+: text.drop i → isInsideToken text i (i + val.length) = false →
      (∀ j, j < i → i < j + val.length → ¬ val <+: text.drop j) →
      (⟨↑i, ↑(i + val.length), "LLM"⟩ : Span) ∈ valueSpans text val :=
  ⟨searchLoop_sound _ _, fun i hocc hdel hiso =>
    searchLoop_isolated hv hocc hdel hiso _ _ (by omega) (Nat.zero_le i)⟩

/-- `"Bob"` in `"Bob and Bobby"`: the first occurrence is found -/
theorem valueSpans_spec_bob :
    ascii "Bob" ≠ [] ∧
    (∀ sp ∈ valueSpans (ascii "Bob and Bobby") (ascii "Bob"), ∃ i : Nat,
      sp = ⟨↑i, ↑(i + (ascii "Bob").length), "LLM"⟩ ∧ ascii "Bob" <+: (ascii "Bob and Bobby").drop i ∧
      isInsideToken (ascii "Bob and Bobby") i (i + (ascii "Bob").length) = false) ∧
    ∀ i : Nat, ascii "Bob" <+: (ascii "Bob and Bobby").drop i →
      isInsideToken (ascii "Bob and Bobby") i (i + (ascii "Bob").length) = false →
      (∀ j, j < i → i < j + (ascii "Bob").length → ¬ ascii "Bob" <+: (ascii "Bob and Bobby").drop j) →
      (⟨↑i, ↑(i + (ascii "Bob").length), "LLM"⟩ : Span) ∈ valueSpans (ascii "Bob and Bobby") (ascii "Bob") :=
  ⟨by decide, valueSpans_spec _ _ (by decide)⟩

/-- `"a a"` occurs in `"a a a"` at 0 and at 2, and in `"ba a a"` at 1 and at 3; the occurrences
at 0 and 2 and the one at 3 are delimited by the text's edges and spaces.  After the match at 0,
and after the rejected match at 1, the search resumes past its end and never sees the next
occurrence. -/
theorem sensitiveSpans_overlapping :
    (ascii "a a" <+: (ascii "a a a").drop 0 ∧ isInsideToken (ascii "a a a") 0 3 = false) ∧
    (ascii "a a" <+: (ascii "a a a").drop 2 ∧ isInsideToken (ascii "a a a") 2 5 = false) ∧
    sensitiveSpans (ascii "a a a") [ascii "a a"] = [⟨0, 3, "LLM"⟩] ∧
    (ascii "a a" <+: (ascii "ba a a").drop 3 ∧ isInsideToken (ascii "ba a a") 3 6 = false) ∧
    sensitiveSpans (ascii "ba a a") [ascii "a a"] = [] := by
  decide

/-! ## the reply -/

/-- `stripThinkBlock(s)` -/
def stripThinkBlock (s : Bytes) : Bytes :=
  match index s (ascii "<think>") with
  | none => s
  | some start =>
    match index s (ascii "</think>") with
    | none => trimSpace (s.take start)
    | some e => trimSpace (s.take start ++ s.drop (e + (ascii "</think>").length))

/-- `stripCodeFence(s)` -/
def stripCodeFence (s : Bytes) : Bytes :=
  if ascii "```" <+: trimSpace s then
    let s₁ := match index (trimSpace s) [0x0A] with
      | some i => (trimSpace s).drop (i + 1)
      | none => trimSpace s
    let s₂ := match lastIndex s₁ (ascii "```") with
      | some i => s₁.take i
      | none => s₁
    trimSpace s₂
  else trimSpace s

/-- `extractJSONArray(s)`: from the first `[` to the last `]` -/
def extractJSONArray (s : Bytes) : Bytes :=
  match index s (ascii "[") with
  | none => s
  | some start =>
    match lastIndex s (ascii "]") with
    | none => s
    | some e => if e < start then s else slice s start (e + 1)

/-- the fields of `choices[0].message` the classifier reads -/
structure ReplyMessage where
  content : Bytes
  reasoning : Bytes
  reasoningContent : Bytes

/-- `raw`: the trimmed content, else the trimmed reasoning, else the trimmed reasoning content -/
def replyText (m : ReplyMessage) : Bytes :=
  if trimSpace m.content ≠ [] then trimSpace m.content
  else if trimSpace m.reasoning ≠ [] then trimSpace m.reasoning
  else trimSpace m.reasoningContent

/-- the `content` that is unmarshalled: think block and code fence stripped, then the last-resort
extraction, which runs when the content holds no `[` -/
def cleanReply (raw : Bytes) : Bytes :=
  if !contains (stripCodeFence (stripThinkBlock raw)) (ascii "[") then
    extractJSONArray (stripCodeFence (stripThinkBlock raw))
  else stripCodeFence (stripThinkBlock raw)

/-- `Classify(text)`, given the first message of the model's reply, `none` when the exchange gave
none (the model unreachable, a status other than 200, a body that does not decode, no choices) -/
def classify (text : Bytes) (reply : Option ReplyMessage) : List Span :=
  if trimSpace text = [] then []
  else match reply with
    | none => []
    | some m =>
      match unmarshalStrings (cleanReply (replyText m)) with
      | none => []
      | some values => sensitiveSpans text values

/-- the LLM classifier as the sanitizer runs it, `reply text` being what the model answers for
`text`: it never reports an error -/
def llmClassifier (reply : Bytes → Option ReplyMessage) : Classifier :=
  ⟨fun text => some (classify text (reply text))⟩

/-- A reply that puts prose before the array: from the first `[` to the last `]` it holds the
array `["a"]`, but the extraction runs only on content without a `[`, so the whole reply is
unmarshalled, rejected, and no value is used. -/
theorem classifyReply_embedded_array :
    extractJSONArray (ascii "Found: [\"a\"]") = ascii "[\"a\"]" ∧
    unmarshalStrings (ascii "[\"a\"]") = some [ascii "a"] ∧
    cleanReply (replyText ⟨ascii "Found: [\"a\"]", [], []⟩) = ascii "Found: [\"a\"]" ∧
    unmarshalStrings (ascii "Found: [\"a\"]") = none ∧
    classify (ascii "a b") (some ⟨ascii "Found: [\"a\"]", [], []⟩) = [] ∧
    classify (ascii "a b") (some ⟨ascii "[\"a\"]", [], []⟩) = [⟨0, 1, "LLM"⟩] := by
  decide

end GonkaProxy
