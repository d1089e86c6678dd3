import GonkaProxy.Sanitize.Token
import Mathlib.Data.List.Sort

/-!
# The span pipeline: `validSpans`, `sortSpansDesc`, `deduplicateSpans`

* `Span`                     `Start`, `End`, `Label` (`Score` is read by no function of the
                             pipeline and is left out);
* `isWordBoundaryByte`, `isRuneBoundary`   the two byte tests;
* `Span.Valid t sp`          what `validSpans` checks of one span, and `spanPasses_iff`: the loop
                             body keeps exactly the spans with `Span.Valid`;
* `sinkBy`, `foldl_insert_perm`, `foldl_insert_sorted`   the inner loop of an insertion sort and
                             what folding it does, shared with `Redactions`;
* `sortSpansDesc`            the insertion sort of `sanitize.go`, one `sinkSpan` per outer step;
                             `sortSpansDesc_perm`, `sortSpansDesc_sorted`;
* `deduplicateSpans`         the greedy walk with `lastStart`; `deduplicateSpans_sublist`,
                             `dedupFrom_covers` (every span of a descending list contains the start
                             of a kept span), `deduplicateSpans_pairwise` (kept spans are disjoint).
-/

set_option linter.unusedSectionVars false
set_option linter.unusedVariables false

namespace GonkaProxy

/-- `Span`: a byte range `[Start, End)` of the text and the classifier's label -/
structure Span where
  start : Int
  «end» : Int
  label : String
  deriving DecidableEq, Repr

/-- the bytes of `wordBoundaryBytes`: space, tab, newline, carriage return and
`< > ( ) , ; [ ] { } " '` and the backquote -/
def wordBoundaryBytes : Bytes :=
  [0x20, 0x09, 0x0A, 0x0D, 0x3C, 0x3E, 0x28, 0x29, 0x2C, 0x3B, 0x5B, 0x5D, 0x7B, 0x7D, 0x22, 0x27,
    0x60]

def isWordBoundaryByte (b : UInt8) : Bool := decide (b ∈ wordBoundaryBytes)

/-- `isRuneBoundary(s, i)`: `i` is an end of `s`, or `s[i]` is not a UTF-8 continuation byte -/
def isRuneBoundary (s : Bytes) (i : Nat) : Bool :=
  i == 0 || i == s.length || (s.getD i 0 &&& 0xC0) != 0x80

/-- `text[s:e]` -/
def slice (text : Bytes) (s e : Nat) : Bytes := (text.take e).drop s

/-- the body of the loop of `validSpans`: whether `sp` survives every `continue` -/
def spanPasses (text : Bytes) (sp : Span) : Bool :=
  if sp.start < 0 ∨ sp.end > text.length ∨ sp.start ≥ sp.end then false
  else if !isRuneBoundary text sp.start.toNat || !isRuneBoundary text sp.end.toNat then false
  else if matchString (slice text sp.start.toNat sp.end.toNat) then false
  else if sp.start.toNat > 0 && !isWordBoundaryByte (text.getD (sp.start.toNat - 1) 0) then false
  else if sp.end.toNat < text.length && !isWordBoundaryByte (text.getD sp.end.toNat 0) then false
  else true

/-- `validSpans(text, spans)` -/
def validSpans (text : Bytes) (spans : List Span) : List Span := spans.filter (spanPasses text)

/-- what `validSpans` checks of a span -/
structure Span.Valid (text : Bytes) (sp : Span) : Prop where
  start_nonneg : 0 ≤ sp.start
  start_lt_end : sp.start < sp.end
  end_le : sp.end ≤ text.length
  rune_start : isRuneBoundary text sp.start.toNat = true
  rune_end : isRuneBoundary text sp.end.toNat = true
  no_placeholder : matchString (slice text sp.start.toNat sp.end.toNat) = false
  word_before : sp.start.toNat > 0 → isWordBoundaryByte (text.getD (sp.start.toNat - 1) 0) = true
  word_after : sp.end.toNat < text.length → isWordBoundaryByte (text.getD sp.end.toNat 0) = true

theorem spanPasses_iff (text : Bytes) (sp : Span) : spanPasses text sp = true ↔ sp.Valid text := by
  unfold spanPasses
  constructor
  · intro h
    split at h; · cases h
    split at h; · cases h
    split at h; · cases h
    split at h; · cases h
    split at h; · cases h
    rename_i h1 h2 h3 h4 h5
    simp only [not_or, not_lt, not_le, Bool.or_eq_true, Bool.not_eq_true', not_and,
      Bool.and_eq_true, decide_eq_true_eq, Bool.not_eq_false, Bool.not_eq_true] at h1 h2 h3 h4 h5
    exact ⟨h1.1, h1.2.2, h1.2.1, h2.1, h2.2, by simpa using h3, fun hs => by simpa using h4 hs,
      fun he => by simpa using h5 he⟩
  · intro h
    have := h.start_nonneg; have := h.start_lt_end; have := h.end_le
    rw [if_neg (by omega), if_neg (by simp [h.rune_start, h.rune_end]),
      if_neg (by simp [h.no_placeholder]),
      if_neg (by simp only [Bool.and_eq_true, Bool.not_eq_true', decide_eq_true_eq, not_and]
                 intro hs; simpa using h.word_before hs),
      if_neg (by simp only [Bool.and_eq_true, Bool.not_eq_true', decide_eq_true_eq, not_and]
                 intro he; simpa using h.word_after he)]

theorem mem_validSpans {text : Bytes} {spans : List Span} {sp : Span} :
    sp ∈ validSpans text spans ↔ sp ∈ spans ∧ sp.Valid text := by
  simp [validSpans, spanPasses_iff]

/-! ## insertion sorts -/

theorem foldl_insert_perm {α β : Type} (f : β → α) (ins : β → List α → List α)
    (h : ∀ x acc, (ins x acc).Perm (f x :: acc)) :
    ∀ (l : List β) (acc : List α), (l.foldl (fun acc x => ins x acc) acc).Perm (l.map f ++ acc)
  | [], acc => List.Perm.refl _
  | x :: l, acc => by
    rw [List.foldl_cons]
    exact (foldl_insert_perm f ins h l _).trans (((h x acc).append_left _).trans List.perm_middle)

theorem foldl_insert_sorted {α β : Type} {R : α → α → Prop} (ins : β → List α → List α)
    (h : ∀ x acc, acc.Sorted R → (ins x acc).Sorted R) :
    ∀ (l : List β) (acc : List α), acc.Sorted R → (l.foldl (fun acc x => ins x acc) acc).Sorted R
  | [], _, hs => hs
  | x :: l, acc, hs => foldl_insert_sorted ins h l _ (h x acc hs)

/-- the inner loop of an insertion sort: the sorted prefix is kept right to left in `acc`, and `x`
moves left past every element it is `lt` -/
def sinkBy {α : Type} (lt : α → α → Prop) [DecidableRel lt] (x : α) : List α → List α
  | [] => [x]
  | y :: ys => if lt x y then y :: sinkBy lt x ys else x :: y :: ys

section
variable {α : Type} (lt : α → α → Prop) [DecidableRel lt]

theorem sinkBy_perm (x : α) : ∀ acc : List α, (sinkBy lt x acc).Perm (x :: acc)
  | [] => List.Perm.refl _
  | y :: ys => by
    unfold sinkBy
    split
    · exact ((sinkBy_perm x ys).cons y).trans (List.Perm.swap x y ys)
    · exact List.Perm.refl _

theorem sinkBy_sorted {R : α → α → Prop} (x : α) (hpass : ∀ y, lt x y → R y x)
    (hstop : ∀ y, ¬ lt x y → R x y) (htrans : ∀ y b, ¬ lt x y → R y b → R x b) :
    ∀ acc : List α, acc.Sorted R → (sinkBy lt x acc).Sorted R
  | [] => fun _ => List.sorted_singleton x
  | y :: ys => fun h => by
    have hy := List.sorted_cons.mp h
    unfold sinkBy
    split
    · rename_i hxy
      refine List.sorted_cons.mpr ⟨fun b hb => ?_, sinkBy_sorted x hpass hstop htrans ys hy.2⟩
      rcases List.mem_cons.mp ((sinkBy_perm lt x ys).subset hb) with rfl | hb
      · exact hpass _ hxy
      · exact hy.1 b hb
    · rename_i hxy
      refine List.sorted_cons.mpr ⟨fun b hb => ?_, h⟩
      rcases List.mem_cons.mp hb with rfl | hb
      · exact hstop _ hxy
      · exact htrans y b hxy (hy.1 b hb)

end

/-! ## `sortSpansDesc` -/

/-- the inner loop of `sortSpansDesc`: the sorted prefix is kept right to left in `acc`, and the
new span moves left past every span whose `Start` is smaller -/
def sinkSpan (x : Span) : List Span → List Span
  | [] => [x]
  | y :: ys => if x.start > y.start then y :: sinkSpan x ys else x :: y :: ys

/-- `sortSpansDesc`: insertion sort, descending by `Start`, stable -/
def sortSpansDesc (spans : List Span) : List Span :=
  (spans.foldl (fun acc x => sinkSpan x acc) []).reverse

/-- the order of the sorted prefix, read right to left -/
def startLe (a b : Span) : Prop := a.start ≤ b.start

theorem sinkSpan_eq (x : Span) : ∀ acc, sinkSpan x acc = sinkBy (fun a b : Span => a.start > b.start) x acc
  | [] => rfl
  | y :: ys => by simp only [sinkSpan, sinkBy, sinkSpan_eq x ys]

theorem sinkSpan_perm (x : Span) (acc : List Span) : (sinkSpan x acc).Perm (x :: acc) :=
  sinkSpan_eq x acc ▸ sinkBy_perm _ x acc

theorem sinkSpan_sorted (x : Span) (acc : List Span) (h : acc.Sorted startLe) :
    (sinkSpan x acc).Sorted startLe := by
  rw [sinkSpan_eq]
  exact @sinkBy_sorted _ _ _ startLe x (fun _ hxy => le_of_lt hxy) (fun _ hxy => not_lt.mp hxy)
    (fun _ _ hxy hyb => le_trans (not_lt.mp hxy) hyb) acc h

theorem sortSpansDesc_perm (l : List Span) : (sortSpansDesc l).Perm l :=
  (List.reverse_perm _).trans (by simpa using foldl_insert_perm id sinkSpan sinkSpan_perm l [])

theorem sortSpansDesc_sorted (l : List Span) :
    (sortSpansDesc l).Sorted (fun a b => b.start ≤ a.start) :=
  List.pairwise_reverse.mpr (foldl_insert_sorted sinkSpan sinkSpan_sorted l [] List.sorted_nil)

/-! ## `deduplicateSpans` -/

/-- the loop of `deduplicateSpans` from `lastStart`, the `Start` of the span kept last (`-1`
before the first) -/
def dedupFrom (lastStart : Int) : List Span → List Span
  | [] => []
  | sp :: rest =>
    if lastStart = -1 ∨ sp.end ≤ lastStart then sp :: dedupFrom sp.start rest
    else dedupFrom lastStart rest

/-- `deduplicateSpans` -/
def deduplicateSpans (spans : List Span) : List Span := dedupFrom (-1) spans

theorem dedupFrom_sublist (last : Int) : ∀ l : List Span, (dedupFrom last l).Sublist l
  | [] => List.Sublist.slnil
  | sp :: rest => by
    unfold dedupFrom
    split
    · exact (dedupFrom_sublist _ rest).cons₂ sp
    · exact (dedupFrom_sublist _ rest).cons sp

theorem deduplicateSpans_sublist (l : List Span) : (deduplicateSpans l).Sublist l :=
  dedupFrom_sublist _ l

theorem dedupFrom_covers : ∀ (last : Int) (l : List Span),
    l.Sorted (fun a b => b.start ≤ a.start) → (∀ v ∈ l, 0 ≤ v.start ∧ v.start < v.end) →
    (last ≠ -1 → ∀ v ∈ l, v.start ≤ last) →
    ∀ v ∈ l, (∃ k ∈ dedupFrom last l, v.start ≤ k.start ∧ k.start < v.end) ∨
      (last ≠ -1 ∧ v.start ≤ last ∧ last < v.end)
  | _, [], _, _, _, v, hv => absurd hv (List.not_mem_nil v)
  | last, sp :: rest, hs, hw, hl, v, hv => by
    have hsr := List.sorted_cons.mp hs
    have hsp := hw sp (List.mem_cons_self _ _)
    have hwr : ∀ w ∈ rest, 0 ≤ w.start ∧ w.start < w.end :=
      fun w hw' => hw w (List.mem_cons_of_mem _ hw')
    unfold dedupFrom
    split
    · rename_i hkeep
      rcases List.mem_cons.mp hv with rfl | hv
      · exact .inl ⟨v, List.mem_cons_self _ _, le_refl _, hsp.2⟩
      · have ih := dedupFrom_covers sp.start rest hsr.2 hwr (fun _ w hw' => hsr.1 w hw') v hv
        rcases ih with ⟨k, hk, h1, h2⟩ | ⟨-, h1, h2⟩
        · exact .inl ⟨k, List.mem_cons_of_mem _ hk, h1, h2⟩
        · exact .inl ⟨sp, List.mem_cons_self _ _, h1, h2⟩
    · rename_i hdrop
      simp only [not_or, not_le] at hdrop
      rcases List.mem_cons.mp hv with rfl | hv
      · exact .inr ⟨hdrop.1, hl hdrop.1 v (List.mem_cons_self _ _), hdrop.2⟩
      · exact dedupFrom_covers last rest hsr.2 hwr
          (fun hne w hw' => hl hne w (List.mem_cons_of_mem _ hw')) v hv

theorem dedupFrom_pairwise : ∀ (last : Int) (l : List Span),
    l.Sorted (fun a b => b.start ≤ a.start) → (∀ v ∈ l, 0 ≤ v.start ∧ v.start < v.end) →
    (∀ k ∈ dedupFrom last l, last ≠ -1 → k.end ≤ last) ∧
      (dedupFrom last l).Pairwise (fun a b => b.end ≤ a.start)
  | _, [], _, _ => ⟨fun _ h => absurd h (List.not_mem_nil _), List.Pairwise.nil⟩
  | last, sp :: rest, hs, hw => by
    have hsr := List.sorted_cons.mp hs
    have hsp := hw sp (List.mem_cons_self _ _)
    have hwr : ∀ w ∈ rest, 0 ≤ w.start ∧ w.start < w.end :=
      fun w hw' => hw w (List.mem_cons_of_mem _ hw')
    unfold dedupFrom
    split
    · rename_i hkeep
      obtain ⟨ih1, ih2⟩ := dedupFrom_pairwise sp.start rest hsr.2 hwr
      have hrest : ∀ k ∈ dedupFrom sp.start rest, k.end ≤ sp.start :=
        fun k hk => ih1 k hk (by omega)
      refine ⟨fun k hk hne => ?_, List.Pairwise.cons hrest ih2⟩
      have hle : sp.end ≤ last := hkeep.resolve_left hne
      rcases List.mem_cons.mp hk with rfl | hk
      · exact hle
      · have := hrest k hk; omega
    · exact dedupFrom_pairwise last rest hsr.2 hwr

theorem deduplicateSpans_pairwise (l : List Span) (hs : l.Sorted (fun a b => b.start ≤ a.start))
    (hw : ∀ v ∈ l, 0 ≤ v.start ∧ v.start < v.end) :
    (deduplicateSpans l).Pairwise (fun a b => b.end ≤ a.start) :=
  (dedupFrom_pairwise _ l hs hw).2

end GonkaProxy
