import GonkaProxy.Sanitize.Spans
import GonkaProxy.Sanitize.TokenMap

/-!
# `runClassifiers`, `redactText`, `redactTextWithNER`

A classifier is modelled by what `Classify(text)` returns (`none` for an error).  The goroutines
of `runClassifiers` send their results on a channel with room for all of them; what the loop
receives depends only on the order in which the results reach the channel and on how many
receives complete before `ctx.Done()` wins the `select`: a `Schedule`.

* `runClassifiers`           the fan-out under a schedule;
* `keptSpans`                `deduplicateSpans (sortSpansDesc (validSpans ...))`;
* `applySpans`               the splice loop, one `register` per kept span;
* `redactSpans`              the body `redactText` and `redactTextWithNER` share;
* `historyClassifiers`       the classifiers `redactTextWithNER` runs: all but the last, or none
                             when there are fewer than two;
* `keptSpans_cover`          the spans both functions replace are disjoint valid spans, and every
                             valid span contains the first byte of one of them.
-/

set_option linter.unusedSectionVars false
set_option linter.unusedVariables false

namespace GonkaProxy

/-- a classifier, by what `Classify(text)` returns: its spans, or `none` for an error -/
structure Classifier where
  classify : Bytes → Option (List Span)

/-- `Sanitizer`: the ordered classifier list -/
structure Sanitizer where
  classifiers : List Classifier

/-- how one call of `runClassifiers` went: `arrival` is the order in which the classifiers'
results reached the channel, `received` how many receives the loop completed before
`ctx.Done()` won the `select` -/
structure Schedule (cs : List Classifier) where
  arrival : List Classifier
  perm : arrival.Perm cs
  received : Nat

/-- the receive loop: `all = append(all, r.spans...)` per result until the deadline -/
def receiveLoop : List (Option (List Span)) → Nat → List Span
  | [], _ => []
  | _ :: _, 0 => []
  | r :: rs, k + 1 => r.getD [] ++ receiveLoop rs k

/-- `runClassifiers(text, classifiers)` under the schedule `sch` -/
def runClassifiers (text : Bytes) (classifiers : List Classifier) (sch : Schedule classifiers) :
    List Span :=
  if classifiers.length = 0 then []
  else receiveLoop (sch.arrival.map fun c => c.classify text) sch.received

/-- the spans `redactText` applies -/
def keptSpans (original : Bytes) (allSpans : List Span) : List Span :=
  deduplicateSpans (sortSpansDesc (validSpans original allSpans))

/-- the loop `for _, sp := range allSpans { ... }`: register `text[sp.Start:sp.End]` and splice
its placeholder in; the result is the text, the map and `globalCounter` after the loop -/
def applySpans : List Span → Bytes → TokenMap → Nat → Bytes × TokenMap × Nat
  | [], text, tm, c => (text, tm, c)
  | sp :: rest, text, tm, c =>
    let r := tm.register c (slice text sp.start.toNat sp.end.toNat)
    applySpans rest (text.take sp.start.toNat ++ r.1 ++ text.drop sp.end.toNat) r.2.1 r.2.2

/-- what `redactText` and `redactTextWithNER` do with the spans their classifiers returned -/
def redactSpans (original : Bytes) (allSpans : List Span) (tm : TokenMap) (c : Nat) :
    Bytes × TokenMap × Nat :=
  if allSpans.length = 0 then (original, tm, c)
  else applySpans (keptSpans original allSpans) original tm c

/-- `redactText(original, tm)`, with `globalCounter` `c` before the call -/
def Sanitizer.redactText (s : Sanitizer) (sch : Schedule s.classifiers) (original : Bytes)
    (tm : TokenMap) (c : Nat) : Bytes × TokenMap × Nat :=
  redactSpans original (runClassifiers original s.classifiers sch) tm c

/-- the classifiers `redactTextWithNER` keeps: "LLM classifier is always appended last" -/
def historyClassifiers (cs : List Classifier) : List Classifier :=
  if cs.length > 1 then cs.dropLast else []

/-- `redactTextWithNER(original, tm)` -/
def Sanitizer.redactTextWithNER (s : Sanitizer) (sch : Schedule (historyClassifiers s.classifiers))
    (original : Bytes) (tm : TokenMap) (c : Nat) : Bytes × TokenMap × Nat :=
  redactSpans original (runClassifiers original (historyClassifiers s.classifiers) sch) tm c

/-! ## what the redaction covers -/

theorem keptSpans_sublist (original : Bytes) (allSpans : List Span) :
    (keptSpans original allSpans).Sublist (sortSpansDesc (validSpans original allSpans)) :=
  deduplicateSpans_sublist _

theorem keptSpans_valid {original : Bytes} {allSpans : List Span} {k : Span}
    (hk : k ∈ keptSpans original allSpans) : k ∈ validSpans original allSpans :=
  (sortSpansDesc_perm _).subset ((keptSpans_sublist original allSpans).subset hk)

theorem validSpans_bounds {original : Bytes} {allSpans : List Span} :
    ∀ v ∈ sortSpansDesc (validSpans original allSpans), 0 ≤ v.start ∧ v.start < v.end := by
  intro v hv
  have h := (mem_validSpans.mp ((sortSpansDesc_perm _).subset hv)).2
  exact ⟨h.start_nonneg, h.start_lt_end⟩

/-- **What a redaction covers.**  For every text and every list of spans the classifiers return,
the spans `redactText` and `redactTextWithNER` replace are valid and pairwise disjoint (each one
ends before the previous one starts), and every valid span contains the first byte of one of
them. -/
theorem keptSpans_cover (original : Bytes) (allSpans : List Span) :
    (∀ k ∈ keptSpans original allSpans, k ∈ validSpans original allSpans) ∧
    (keptSpans original allSpans).Pairwise (fun a b => b.end ≤ a.start) ∧
    ∀ v ∈ validSpans original allSpans,
      ∃ k ∈ keptSpans original allSpans, v.start ≤ k.start ∧ k.start < v.end := by
  refine ⟨fun k hk => keptSpans_valid hk,
    deduplicateSpans_pairwise _ (sortSpansDesc_sorted _) validSpans_bounds, fun v hv => ?_⟩
  have hv' := (sortSpansDesc_perm (validSpans original allSpans)).symm.subset hv
  rcases dedupFrom_covers (-1) _ (sortSpansDesc_sorted _) validSpans_bounds
      (fun h => absurd rfl h) v hv' with h | ⟨h, -⟩
  · exact h
  · exact absurd rfl h

/-- A span nested in another: the inner one is kept, the outer one dropped, and the bytes of the
outer span around the inner one are forwarded in clear. -/
theorem redactText_nested_spans :
    (∃ v ∈ validSpans (ascii "a b c") [⟨0, 5, "PER"⟩, ⟨2, 3, "PER"⟩], v.start ≤ 0 ∧ 0 < v.end) ∧
    ¬ (∃ k ∈ keptSpans (ascii "a b c") [⟨0, 5, "PER"⟩, ⟨2, 3, "PER"⟩], k.start ≤ 0 ∧ 0 < k.end) ∧
    ((Sanitizer.mk [⟨fun _ => some [⟨0, 5, "PER"⟩, ⟨2, 3, "PER"⟩]⟩]).redactText
      ⟨_, List.Perm.refl _, 1⟩ (ascii "a b c") newTokenMap 0).1 =
      ascii "a " ++ formatToken 1 ++ ascii " c" := by
  decide

/-! ## arrival order -/

/-- Two classifiers return spans with the same `Start`: the stable sort keeps them in arrival
order and `deduplicateSpans` keeps the first, so the text sent upstream depends on which
classifier answered first. -/
theorem redactText_arrival_order :
    ((Sanitizer.mk [⟨fun _ => some [⟨0, 5, "PER"⟩]⟩, ⟨fun _ => some [⟨0, 2, "LLM"⟩]⟩]).redactText
      ⟨_, List.Perm.refl _, 2⟩ (ascii "ab cd") newTokenMap 0).1 = formatToken 1 ∧
    ((Sanitizer.mk [⟨fun _ => some [⟨0, 5, "PER"⟩]⟩, ⟨fun _ => some [⟨0, 2, "LLM"⟩]⟩]).redactText
      ⟨_, List.Perm.swap _ _ _, 2⟩ (ascii "ab cd") newTokenMap 0).1 =
      formatToken 1 ++ ascii " cd" := by
  decide

end GonkaProxy
