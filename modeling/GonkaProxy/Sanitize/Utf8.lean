import GonkaProxy.Sanitize.Placeholders

/-!
# Redaction keeps a text valid UTF-8

`validSpans` keeps a span only when both its ends pass `isRuneBoundary`: an end of the text, or a
byte that is not a continuation byte `10xxxxxx`.  On valid UTF-8 that is exactly a place where
the text splits into two valid halves, so every piece the splice loop keeps is valid, and so is
every placeholder it puts in.

* `Tail`, `Rune`, `Utf8`           RFC 3629, section 4: the byte sequences of one code point, and
                                   texts made of them;
* `CodePointBoundary t i`          `t` splits at `i` into two valid UTF-8 texts;
* `Utf8.split`                     on valid UTF-8, `isRuneBoundary` marks code-point boundaries;
* `IsPlaceholder.utf8`             a placeholder is valid UTF-8;
* `spliceSegs_utf8`                the run lemma;
* `redactSpans_utf8`               a redacted valid text is valid, cut only at code-point
                                   boundaries.
-/

set_option linter.unusedSectionVars false
set_option linter.unusedVariables false

namespace GonkaProxy

/-- `UTF8-tail = %x80-BF` -/
def Tail (b : UInt8) : Prop := 0x80 ≤ b ∧ b ≤ 0xBF

/-- the encoding of one code point, one constructor per alternative of RFC 3629's grammar -/
inductive Rune : Bytes → Prop
  | one {a : UInt8} : a ≤ 0x7F → Rune [a]
  | two {a b : UInt8} : 0xC2 ≤ a → a ≤ 0xDF → Tail b → Rune [a, b]
  | e0 {b c : UInt8} : 0xA0 ≤ b → b ≤ 0xBF → Tail c → Rune [0xE0, b, c]
  | e1ec {a b c : UInt8} : 0xE1 ≤ a → a ≤ 0xEC → Tail b → Tail c → Rune [a, b, c]
  | ed {b c : UInt8} : 0x80 ≤ b → b ≤ 0x9F → Tail c → Rune [0xED, b, c]
  | eeef {a b c : UInt8} : 0xEE ≤ a → a ≤ 0xEF → Tail b → Tail c → Rune [a, b, c]
  | f0 {b c d : UInt8} : 0x90 ≤ b → b ≤ 0xBF → Tail c → Tail d → Rune [0xF0, b, c, d]
  | f1f3 {a b c d : UInt8} : 0xF1 ≤ a → a ≤ 0xF3 → Tail b → Tail c → Tail d → Rune [a, b, c, d]
  | f4 {b c d : UInt8} : 0x80 ≤ b → b ≤ 0x8F → Tail c → Tail d → Rune [0xF4, b, c, d]

/-- valid UTF-8: a sequence of encoded code points -/
inductive Utf8 : Bytes → Prop
  | nil : Utf8 []
  | cons {r s : Bytes} : Rune r → Utf8 s → Utf8 (r ++ s)

/-- `t` splits at `i` into two valid UTF-8 texts: on a valid text, `i` is a code-point boundary -/
def CodePointBoundary (t : Bytes) (i : Nat) : Prop := i ≤ t.length ∧ Utf8 (t.take i) ∧ Utf8 (t.drop i)

/-! ## continuation bytes -/

private theorem land_c0_of_range : ∀ r, r < 64 → (128 + r) &&& 192 = 128 := by decide

theorem Tail.land {b : UInt8} (h : Tail b) : b &&& 0xC0 = 0x80 := by
  have h1 : 128 ≤ b.toNat := h.1
  have h2 : b.toNat ≤ 191 := h.2
  apply UInt8.eq_of_val_eq
  apply Fin.ext
  show b.toNat &&& 192 = 128
  have := land_c0_of_range (b.toNat - 128) (by omega)
  rwa [Nat.add_sub_cancel' h1] at this

theorem tail_of_le {b lo hi : UInt8} (h1 : lo ≤ b) (h2 : b ≤ hi) (hlo : 0x80 ≤ lo)
    (hhi : hi ≤ 0xBF) : Tail b := by
  have h1' : lo.toNat ≤ b.toNat := h1
  have h2' : b.toNat ≤ hi.toNat := h2
  have h3 : 128 ≤ lo.toNat := hlo
  have h4 : hi.toNat ≤ 191 := hhi
  exact ⟨show 128 ≤ b.toNat by omega, show b.toNat ≤ 191 by omega⟩

theorem Rune.land_of_pos {r : Bytes} (h : Rune r) {j : Nat} (hj : 0 < j) (hjr : j < r.length) :
    r.getD j 0 &&& 0xC0 = 0x80 := by
  cases h with
  | one => simp at hjr; omega
  | two _ _ hb =>
    obtain rfl : j = 1 := by simp at hjr; omega
    exact hb.land
  | e0 h1 h2 hc | ed h1 h2 hc =>
    simp at hjr
    obtain rfl | rfl : j = 1 ∨ j = 2 := by omega
    · exact (tail_of_le h1 h2 (by decide) (by decide)).land
    · exact hc.land
  | e1ec _ _ hb hc | eeef _ _ hb hc =>
    simp at hjr
    obtain rfl | rfl : j = 1 ∨ j = 2 := by omega
    · exact hb.land
    · exact hc.land
  | f0 h1 h2 hc hd | f4 h1 h2 hc hd =>
    simp at hjr
    obtain rfl | rfl | rfl : j = 1 ∨ j = 2 ∨ j = 3 := by omega
    · exact (tail_of_le h1 h2 (by decide) (by decide)).land
    · exact hc.land
    · exact hd.land
  | f1f3 _ _ hb hc hd =>
    simp at hjr
    obtain rfl | rfl | rfl : j = 1 ∨ j = 2 ∨ j = 3 := by omega
    · exact hb.land
    · exact hc.land
    · exact hd.land

theorem Rune.length_pos {r : Bytes} (h : Rune r) : 0 < r.length := by
  cases h <;> simp

/-! ## splitting and joining -/

theorem Utf8.append {a b : Bytes} (ha : Utf8 a) (hb : Utf8 b) : Utf8 (a ++ b) := by
  induction ha with
  | nil => exact hb
  | cons hr _ ih => rw [List.append_assoc]; exact .cons hr ih

theorem utf8_of_ascii : ∀ {l : Bytes}, (∀ b ∈ l, b ≤ 0x7F) → Utf8 l
  | [], _ => .nil
  | b :: l, h => .cons (r := [b]) (.one (h b (List.mem_cons_self _ _)))
      (utf8_of_ascii fun x hx => h x (List.mem_cons_of_mem _ hx))

/-- **On valid UTF-8, `isRuneBoundary` marks code-point boundaries**: a valid text splits into
two valid texts wherever `isRuneBoundary` holds. -/
theorem Utf8.split {t : Bytes} (ht : Utf8 t) :
    ∀ {i : Nat}, isRuneBoundary t i = true → i ≤ t.length → CodePointBoundary t i := by
  induction ht with
  | nil => intro i _ hi; simp at hi; subst hi; exact ⟨le_rfl, .nil, .nil⟩
  | @cons r s hr hs ih =>
    intro i hb hi
    have hpos := hr.length_pos
    by_cases h0 : i = 0
    · subst h0; exact ⟨Nat.zero_le _, .nil, .cons hr hs⟩
    by_cases hlt : i < r.length
    · have hget : (r ++ s).getD i 0 = r.getD i 0 := by
        simp [List.getD_eq_getElem?_getD, List.getElem?_append_left hlt]
      simp only [isRuneBoundary, hget, hr.land_of_pos (Nat.pos_of_ne_zero h0) hlt, bne_self_eq_false,
        Bool.or_false, Bool.or_eq_true, beq_iff_eq, List.length_append] at hb
      omega
    obtain ⟨j, rfl⟩ : ∃ j, i = r.length + j := ⟨i - r.length, by omega⟩
    have hget : (r ++ s).getD (r.length + j) 0 = s.getD j 0 := by
      simp [List.getD_eq_getElem?_getD, List.getElem?_append_right]
    have hb' : isRuneBoundary s j = true := by
      simp only [isRuneBoundary, hget, List.length_append, Bool.or_eq_true, beq_iff_eq] at hb ⊢
      rcases hb with (h | h) | h
      · omega
      · exact .inl (.inr (by omega))
      · exact .inr h
    obtain ⟨-, h1, h2⟩ := ih hb' (by simp at hi; omega)
    refine ⟨hi, ?_, ?_⟩
    · rw [List.take_append]; exact .cons hr h1
    · rw [List.drop_append]; exact h2

theorem isDigit_le {d : UInt8} (h : isDigit d = true) : d ≤ 0x7F := by
  have hall : ∀ x ∈ digitBytes, x ≤ 0x7F := by decide
  exact hall d (by simpa [isDigit] using h)

theorem IsPlaceholder.utf8 {u : Bytes} (hu : IsPlaceholder u) : Utf8 u := by
  obtain ⟨ds, -, hd, rfl⟩ := hu
  have hguil {b : UInt8} (h1 : 0x80 ≤ b) (h2 : b ≤ 0xBF) : Rune [0xC2, b] :=
    .two (by decide) (by decide) ⟨h1, h2⟩
  have hpre : Utf8 tokenPrefix :=
    .cons (r := [0xC2, 0xAB]) (hguil (by decide) (by decide)) (utf8_of_ascii (by decide))
  have hsuf : Utf8 tokenSuffix := .cons (r := [0xC2, 0xBB]) (hguil (by decide) (by decide)) .nil
  exact (hpre.append (utf8_of_ascii fun d h => isDigit_le (hd d h))).append hsuf

/-! ## the run -/

theorem Span.Valid.codePointBoundary {t : Bytes} {sp : Span} (hv : sp.Valid t) (ht : Utf8 t) :
    CodePointBoundary t sp.start.toNat ∧ CodePointBoundary t sp.end.toNat := by
  have h1 := hv.start_lt_end; have h2 := hv.end_le
  exact ⟨ht.split hv.rune_start (by omega), ht.split hv.rune_end (by omega)⟩

/-- **Run lemma.**  Splicing nested spans of a valid text from a clean map spells a valid text. -/
theorem spliceSegs_utf8 : ∀ (K : List Span) (text : Bytes) (tm : TokenMap) (c : Nat),
    Nested K text → tm.Clean → Utf8 text → Utf8 (flat (spliceSegs K text tm c).1)
  | [], text, _, _, _, _, ht => by simpa [spliceSegs] using ht
  | sp :: rest, text, tm, c, hK, hm, ht => by
    have hv := hK.valid sp (List.mem_cons_self _ _)
    obtain ⟨hm', hu⟩ := hm.register hv.no_placeholder c
    obtain ⟨⟨-, hpre, -⟩, ⟨-, -, hpost⟩⟩ := hv.codePointBoundary ht
    have ih := spliceSegs_utf8 rest _ _ (tm.register c (slice text sp.start.toNat sp.end.toNat)).2.2
      hK.tail_take hm' hpre
    simp only [spliceSegs, flat_append, flat_cons, flat_litSeg, Seg.bytes_tok]
    exact ih.append (hu.utf8.append hpost)

/-- **Redaction keeps UTF-8 valid.**  For every valid UTF-8 text, every list of classifier spans
and every clean map (every map redaction reaches, `TokenMap.Sound.clean`), the text `redactText`
and `redactTextWithNER` build is valid UTF-8, and every span they apply starts and ends at a
code-point boundary of the text. -/
theorem redactSpans_utf8 (t : Bytes) (allSpans : List Span) (tm : TokenMap) (c : Nat) (ht : Utf8 t)
    (hm : tm.Clean) :
    Utf8 (redactSpans t allSpans tm c).1 ∧
    ∀ k ∈ keptSpans t allSpans, CodePointBoundary t k.start.toNat ∧ CodePointBoundary t k.end.toNat := by
  have hK := keptSpans_nested t allSpans
  rw [redactSpans_eq_applySpans_kept, applySpans_eq_splice _ _ _ _ hK]
  exact ⟨spliceSegs_utf8 _ t tm c hK hm ht, fun k hk => (hK.valid k hk).codePointBoundary ht⟩

/-- a name in an ASCII text, from a new map -/
theorem redactSpans_utf8_bob :
    Utf8 (ascii "Bob is here") ∧ newTokenMap.Clean ∧
    Utf8 (redactSpans (ascii "Bob is here") [⟨0, 3, "PER"⟩] newTokenMap 0).1 ∧
    ∀ k ∈ keptSpans (ascii "Bob is here") [⟨0, 3, "PER"⟩],
      CodePointBoundary (ascii "Bob is here") k.start.toNat ∧
      CodePointBoundary (ascii "Bob is here") k.end.toNat :=
  ⟨utf8_of_ascii (by decide), newTokenMap_clean,
    redactSpans_utf8 _ _ _ _ (utf8_of_ascii (by decide)) newTokenMap_clean⟩

end GonkaProxy
