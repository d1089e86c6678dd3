import GonkaProxy.Sanitize.Simultaneous

/-!
# Placeholders are never redacted again

A text may already hold placeholders: the assistant's earlier turns, or a user who pastes one.
`validSpans` drops every span with a placeholder in it (`tokenPlaceholderRe.MatchString`), and a
span that starts or ends inside one is dropped by the word-boundary test, since no byte of a
placeholder is a word-boundary byte.  So a redaction leaves every placeholder of the text whole,
and the placeholders of its output are those of the text and the ones it spliced in.

* `placeholderAt`, `placeholdersIn`   the matches of `tokenPlaceholderRe`, left to right, as
                                     `FindAllString` lists them;
* `placeholdersIn_append`            a cut no placeholder crosses splits the list;
* `Span.Valid.disjoint_placeholder`  a valid span overlaps no placeholder of the text;
* `TokenMap.Clean`                   every placeholder `toToken` hands out has the placeholder
                                     shape and no original holds a placeholder; kept by
                                     `register` whatever the counter does, implied by
                                     `TokenMap.Sound`;
* `spliceSegs_placeholders`          the run lemma;
* `redactSpans_placeholders`         the placeholders of a redacted text.
-/

set_option linter.unusedSectionVars false
set_option linter.unusedVariables false

namespace GonkaProxy

/-! ## the placeholders of a text -/

/-- the placeholder that starts at the front of `x`, if one does: `«TOKEN_`, its digits, `»` -/
def placeholderAt (x : Bytes) : Option Bytes :=
  if placeholderAtFront x then
    some (tokenPrefix ++ (x.drop tokenPrefix.length).takeWhile isDigit ++ tokenSuffix)
  else none

/-- the matches of `tokenPlaceholderRe` in `b`, left to right: one per position where a
placeholder starts.  Two never overlap (`IsPlaceholder.noCrossing`), so these are the matches
`FindAllString(b, -1)` returns. -/
def placeholdersIn : Bytes → List Bytes
  | [] => []
  | c :: s => (placeholderAt (c :: s)).toList ++ placeholdersIn s

theorem takeWhile_isDigit : ∀ (ds : Bytes), (∀ d ∈ ds, isDigit d = true) → ∀ r : Bytes,
    (ds ++ tokenSuffix ++ r).takeWhile isDigit = ds
  | [], _, r => by simp [tokenSuffix, List.takeWhile, not_isDigit_c2]
  | d :: ds, h, r => by
    rw [List.cons_append, List.cons_append, List.takeWhile_cons_of_pos (h d (List.mem_cons_self _ _)),
      takeWhile_isDigit ds (fun x hx => h x (List.mem_cons_of_mem _ hx)) r]

section
variable {x y u : Bytes}

theorem placeholderAt_of_startsWith (hu : IsPlaceholder u) (h : u <+: x) : placeholderAt x = some u := by
  have hf : placeholderAtFront x = true := (placeholderAtFront_iff x).mpr ⟨u, hu, h⟩
  obtain ⟨ds, -, hd, rfl⟩ := hu
  obtain ⟨r, rfl⟩ := h
  rw [placeholderAt, if_pos hf, show tokenPrefix ++ ds ++ tokenSuffix ++ r =
    tokenPrefix ++ (ds ++ tokenSuffix ++ r) by simp only [List.append_assoc], List.drop_left,
    takeWhile_isDigit ds hd r]

theorem placeholderAt_spec (h : placeholderAt x = some u) : IsPlaceholder u ∧ u <+: x := by
  cases hf : placeholderAtFront x
  · simp [placeholderAt, hf] at h
  · obtain ⟨t, ht, htx⟩ := (placeholderAtFront_iff x).mp hf
    rw [placeholderAt_of_startsWith ht htx, Option.some.injEq] at h
    exact h ▸ ⟨ht, htx⟩

theorem placeholderAt_eq_none (h : placeholderAt x = none) (hu : IsPlaceholder u) : ¬ u <+: x :=
  fun hux => by rw [placeholderAt_of_startsWith hu hux] at h; cases h

theorem placeholderAt_congr (h : ∀ u, IsPlaceholder u → (u <+: x ↔ u <+: y)) :
    placeholderAt x = placeholderAt y := by
  cases hx : placeholderAt x with
  | some u =>
    obtain ⟨hu, hux⟩ := placeholderAt_spec hx
    exact (placeholderAt_of_startsWith hu ((h u hu).mp hux)).symm
  | none =>
    cases hy : placeholderAt y with
    | none => rfl
    | some u =>
      obtain ⟨hu, huy⟩ := placeholderAt_spec hy
      exact absurd ((h u hu).mpr huy) (placeholderAt_eq_none hx hu)

/-- **Cut lemma.**  When no placeholder crosses from `a` into `b`, the placeholders of `a ++ b`
are those of `a`, then those of `b`. -/
theorem placeholdersIn_append : ∀ {a : Bytes}, (∀ u, IsPlaceholder u → NoCrossing u a b) →
    placeholdersIn (a ++ b) = placeholdersIn a ++ placeholdersIn b
  | [], _ => rfl
  | c :: s, h => by
    have hfront : placeholderAt (c :: (s ++ b)) = placeholderAt (c :: s) :=
      placeholderAt_congr fun u hu =>
        ⟨h u hu _ (List.suffix_refl _) (List.cons_ne_nil _ _), fun hp => hp.trans (by simp)⟩
    rw [List.cons_append, placeholdersIn, placeholdersIn, hfront,
      placeholdersIn_append fun u hu => (h u hu).tail, List.append_assoc]

theorem placeholdersIn_eq_nil : ∀ {x : Bytes}, matchString x = false → placeholdersIn x = []
  | [], _ => rfl
  | c :: s, h => by
    simp only [matchString, Bool.or_eq_false_iff] at h
    simp [placeholdersIn, placeholderAt, h.1, placeholdersIn_eq_nil h.2]

theorem placeholdersIn_of_isPlaceholder (hu : IsPlaceholder u) : placeholdersIn u = [u] := by
  obtain ⟨c, s, rfl⟩ := List.exists_cons_of_ne_nil hu.ne_nil
  have hs : matchString s = false := by
    by_contra hm
    obtain ⟨t, ht, hts⟩ := (matchString_iff s).mp (by simpa using hm)
    have h1 := congrArg List.length (hu.infix_eq ht (hts.trans (List.suffix_cons c s).isInfix))
    have h2 := hts.length_le
    rw [List.length_cons] at h1
    omega
  rw [placeholdersIn, placeholderAt_of_startsWith hu (List.prefix_refl _), placeholdersIn_eq_nil hs]
  rfl

theorem placeholdersIn_around (hu : IsPlaceholder u) (a b : Bytes) :
    placeholdersIn (a ++ (u ++ b)) = placeholdersIn a ++ u :: placeholdersIn b := by
  rw [placeholdersIn_append fun v hv => hu.noCrossing_into hv a b,
    placeholdersIn_append fun v hv => hu.noCrossing hv, placeholdersIn_of_isPlaceholder hu]
  rfl

end

/-! ## a valid span and the placeholders of its text -/

section
variable {t u : Bytes} {sp : Span}

theorem getD_mem_of_prefix_drop {i j : Nat} (hi : u <+: t.drop i) (h1 : i ≤ j)
    (h2 : j < i + u.length) : t.getD j 0 ∈ u := by
  have hk : j - i < u.length := by omega
  have hget : u[j - i]? = t[j]? := by
    rw [List.prefix_iff_eq_take.mp hi, List.getElem?_take_of_lt hk, List.getElem?_drop,
      Nat.add_sub_cancel' h1]
  rw [List.getD_eq_getElem?_getD, ← hget, List.getElem?_eq_getElem hk, Option.getD_some]
  exact List.getElem_mem hk

/-- **A valid span overlaps no placeholder of its text**: it ends before the occurrence or starts
after it.  Around it, the placeholder would hold the word-boundary byte before or after the span;
over it, the span would hold the placeholder. -/
theorem Span.Valid.disjoint_placeholder (hv : sp.Valid t) (hu : IsPlaceholder u) {i : Nat}
    (hi : u <+: t.drop i) : sp.end.toNat ≤ i ∨ i + u.length ≤ sp.start.toNat := by
  have h0 := hv.start_nonneg; have h1 := hv.start_lt_end; have h2 := hv.end_le
  have hlen : i + u.length ≤ t.length := by
    have h3 := hi.length_le; have := List.length_pos.mpr hu.ne_nil
    rw [List.length_drop] at h3; omega
  by_contra hover
  by_cases hs : sp.start.toNat ≤ i
  · by_cases he : i + u.length ≤ sp.end.toNat
    · have hpre : u <+: (t.take sp.end.toNat).drop i := by
        rw [List.drop_take]; exact List.prefix_take_iff.mpr ⟨hi, by omega⟩
      have hin : u <:+: slice t sp.start.toNat sp.end.toNat :=
        hpre.isInfix.trans (List.drop_suffix_drop_left _ hs).isInfix
      have := hv.no_placeholder
      rw [(matchString_iff _).mpr ⟨u, hu, hin⟩] at this
      cases this
    · exact hu.not_foreign (getD_mem_of_prefix_drop hi (by omega) (by omega))
        (foreign_of_wordBoundary (hv.word_after (by omega)))
  · exact hu.not_foreign (getD_mem_of_prefix_drop hi (by omega) (by omega))
      (foreign_of_wordBoundary (hv.word_before (by omega)))

theorem Span.Valid.noCrossing_start (hv : sp.Valid t) (hu : IsPlaceholder u) :
    NoCrossing u (t.take sp.start.toNat) (t.drop sp.start.toNat) := by
  have h0 := hv.start_nonneg; have h1 := hv.start_lt_end; have h2 := hv.end_le
  by_cases hs : sp.start.toNat = 0
  · intro a ha hne; rw [hs, List.take_zero] at ha; exact absurd (List.eq_nil_of_suffix_nil ha) hne
  have hlast : (t.take sp.start.toNat).getLast? = some (t.getD (sp.start.toNat - 1) 0) := by
    rw [List.getLast?_eq_getElem?]
    simp [List.getElem?_take, List.getD_eq_getElem?_getD,
      List.getElem?_eq_getElem (show sp.start.toNat - 1 < t.length by omega),
      show min sp.start.toNat t.length = sp.start.toNat by omega,
      show sp.start.toNat - 1 < sp.start.toNat by omega]
  simpa using sep_of_foreign_last hlast (foreign_of_wordBoundary (hv.word_before (by omega))) u [] hu

theorem Span.Valid.noCrossing_end (hv : sp.Valid t) (hu : IsPlaceholder u) :
    NoCrossing u (slice t sp.start.toNat sp.end.toNat) (t.drop sp.end.toNat) := by
  have h2 := hv.end_le
  by_cases he : sp.end.toNat < t.length
  · have hhead : (t.drop sp.end.toNat).head? = some (t.getD sp.end.toNat 0) := by
      simp [List.head?_drop, List.getD_eq_getElem?_getD, List.getElem?_eq_getElem he]
    simpa using sep_of_foreign_head hhead (foreign_of_wordBoundary (hv.word_after he)) u [] hu
  · rw [List.drop_eq_nil_of_le (by omega)]; exact NoCrossing.nil_right u _

theorem Span.Valid.placeholdersIn_eq (hv : sp.Valid t) :
    placeholdersIn t = placeholdersIn (t.take sp.start.toNat) ++ placeholdersIn (t.drop sp.end.toNat) := by
  have h1 := hv.start_lt_end; have h2 := hv.end_le
  have hdrop : t.drop sp.start.toNat = slice t sp.start.toNat sp.end.toNat ++ t.drop sp.end.toNat := by
    conv_lhs => rw [← List.take_append_drop sp.end.toNat t]
    rw [slice, List.drop_append_of_le_length (by simp; omega)]
  conv_lhs => rw [← List.take_append_drop sp.start.toNat t]
  rw [placeholdersIn_append fun v hv' => hv.noCrossing_start hv', hdrop,
    placeholdersIn_append fun v hv' => hv.noCrossing_end hv', placeholdersIn_eq_nil hv.no_placeholder,
    List.nil_append]

end

/-! ## the map -/

/-- what a map must hold for the placeholder count of a redaction: every placeholder `toToken`
hands out has the placeholder shape, and no original, in `toToken` or in `fromToken`, holds a
placeholder -/
structure TokenMap.Clean (tm : TokenMap) : Prop where
  token : ∀ o u, tm.toToken.get? o = some u → IsPlaceholder u
  original : ∀ o u, tm.toToken.get? o = some u → matchString o = false
  restores : ∀ u o, tm.fromToken.get? u = some o → matchString o = false

theorem newTokenMap_clean : newTokenMap.Clean :=
  ⟨fun _ _ h => by simp [newTokenMap] at h, fun _ _ h => by simp [newTokenMap] at h,
    fun _ _ h => by simp [newTokenMap] at h⟩

theorem TokenMap.Sound.clean {tm : TokenMap} {c : Nat} (h : tm.Sound c) : tm.Clean where
  token o u hu := by
    obtain ⟨id, -, hid⟩ := h.issued _ (GoMap.mem_of_get? ((h.inverse o u).mp hu))
    rw [show u = formatToken id from hid]
    exact formatToken_isPlaceholder id
  original o u hu := (h.orig _ (GoMap.mem_of_get? ((h.inverse o u).mp hu))).2
  restores u o ho := (h.orig _ (GoMap.mem_of_get? ho)).2

/-- **Step lemma.**  `register` of an original with no placeholder keeps the map clean, whatever
the counter, and hands out a placeholder. -/
theorem TokenMap.Clean.register {tm : TokenMap} (h : tm.Clean) {o : Bytes} (ho : matchString o = false)
    (c : Nat) : (tm.register c o).2.1.Clean ∧ IsPlaceholder (tm.register c o).1 := by
  cases hg : tm.toToken.get? o with
  | some t => rw [TokenMap.register_of_get? hg]; exact ⟨h, h.token o t hg⟩
  | none =>
    rw [TokenMap.register_of_get?_none hg]
    refine ⟨⟨fun o' u hu => ?_, fun o' u hu => ?_, fun u o' hu => ?_⟩, formatToken_isPlaceholder _⟩
    all_goals simp only [GoMap.get?_set] at hu; split at hu
    · cases hu; exact formatToken_isPlaceholder _
    · exact h.token o' u hu
    · rename_i heq; exact heq ▸ ho
    · exact h.original o' u hu
    · cases hu; exact ho
    · exact h.restores u o' hu

/-! ## the run -/

/-- **Run lemma.**  A splice run of nested spans from a clean map keeps it clean, keeps the
placeholders of the text in order, and adds exactly the placeholder bound to each span. -/
theorem spliceSegs_placeholders : ∀ (K : List Span) (text : Bytes) (tm : TokenMap) (c : Nat),
    Nested K text → tm.Clean →
    (spliceSegs K text tm c).2.1.Clean ∧
    (placeholdersIn text).Sublist (placeholdersIn (flat (spliceSegs K text tm c).1)) ∧
    (placeholdersIn (flat (spliceSegs K text tm c).1)).Perm
      (placeholdersIn text ++ K.map (tokenOf (spliceSegs K text tm c).2.1 text))
  | [], text, tm, c, _, hm => by simp [spliceSegs, hm]
  | sp :: rest, text, tm, c, hK, hm => by
    have hv := hK.valid sp (List.mem_cons_self _ _)
    obtain ⟨hm', hu⟩ := hm.register hv.no_placeholder c
    obtain ⟨ih1, ih2, ih3⟩ := spliceSegs_placeholders rest _ _
      (tm.register c (slice text sp.start.toNat sp.end.toNat)).2.2 hK.tail_take hm'
    have hhead : tokenOf (spliceSegs (sp :: rest) text tm c).2.1 text sp =
        (tm.register c (slice text sp.start.toNat sp.end.toNat)).1 := by
      simp [tokenOf, spliceSegs, spliceSegs_keeps_toToken rest _ _ _ TokenMap.register_get]
    have hrest : rest.map (tokenOf (spliceSegs (sp :: rest) text tm c).2.1 text) =
        rest.map (tokenOf (spliceSegs (sp :: rest) text tm c).2.1 (text.take sp.start.toNat)) :=
      List.map_congr_left fun k hk => by
        have hkd := (List.pairwise_cons.mp hK.desc).1 k hk
        obtain ⟨k0, k1, -⟩ := hK.bounds k (List.mem_cons_of_mem _ hk)
        rw [tokenOf, tokenOf, slice_take (by omega)]
    have hout : flat (spliceSegs (sp :: rest) text tm c).1 =
        flat (spliceSegs rest (text.take sp.start.toNat) (tm.register c (slice text sp.start.toNat
          sp.end.toNat)).2.1 (tm.register c (slice text sp.start.toNat sp.end.toNat)).2.2).1 ++
          ((tm.register c (slice text sp.start.toNat sp.end.toNat)).1 ++ text.drop sp.end.toNat) := by
      simp [spliceSegs, flat_append]
    have hE : (spliceSegs (sp :: rest) text tm c).2.1 = (spliceSegs rest (text.take sp.start.toNat)
        (tm.register c (slice text sp.start.toNat sp.end.toNat)).2.1
        (tm.register c (slice text sp.start.toNat sp.end.toNat)).2.2).2.1 := rfl
    rw [hout, placeholdersIn_around hu, hv.placeholdersIn_eq, List.map_cons, hhead, hrest, hE]
    refine ⟨ih1, ih2.append (List.sublist_cons_self _ _), ?_⟩
    refine (ih3.append_right _).trans ?_
    rw [List.perm_iff_count]
    intro a
    simp only [List.count_append, List.count_cons]
    omega

/-- **Placeholders are never redacted again.**  For every text `t`, placeholders in it included,
every list of classifier spans, and every map whose placeholders have the placeholder shape and
whose originals hold none (every map redaction reaches, `TokenMap.Sound.clean`): no span the
redaction applies overlaps an occurrence of a placeholder in `t`; the placeholders of `t` appear,
whole and in order, among those of the output; the output's placeholders are those of `t` and one
more for each applied span, the one registered for its bytes; and the map after the call still
holds no original with a placeholder in it. -/
theorem redactSpans_placeholders (t : Bytes) (allSpans : List Span) (tm : TokenMap) (c : Nat)
    (hm : tm.Clean) :
    (∀ k ∈ keptSpans t allSpans, ∀ i u, IsPlaceholder u → u <+: t.drop i →
      k.end.toNat ≤ i ∨ i + u.length ≤ k.start.toNat) ∧
    (placeholdersIn t).Sublist (placeholdersIn (redactSpans t allSpans tm c).1) ∧
    (placeholdersIn (redactSpans t allSpans tm c).1).Perm
      (placeholdersIn t ++ (keptSpans t allSpans).map (tokenOf (redactSpans t allSpans tm c).2.1 t)) ∧
    (redactSpans t allSpans tm c).2.1.Clean := by
  have hK := keptSpans_nested t allSpans
  obtain ⟨h1, h2, h3⟩ := spliceSegs_placeholders _ t tm c hK hm
  rw [redactSpans_eq_applySpans_kept, applySpans_eq_splice _ _ _ _ hK]
  exact ⟨fun k hk i u hu hi => (hK.valid k hk).disjoint_placeholder hu hi, h2, h3, h1⟩

/-- a text that already holds `«TOKEN_000001»`, with a span over it and one on `"x"` -/
theorem redactSpans_placeholders_pasted :
    newTokenMap.Clean ∧
    (∀ k ∈ keptSpans (formatToken 1 ++ ascii " x") [⟨0, 16, "PER"⟩, ⟨17, 18, "PER"⟩], ∀ i u,
      IsPlaceholder u → u <+: (formatToken 1 ++ ascii " x").drop i →
      k.end.toNat ≤ i ∨ i + u.length ≤ k.start.toNat) ∧
    (placeholdersIn (formatToken 1 ++ ascii " x")).Sublist (placeholdersIn (redactSpans
      (formatToken 1 ++ ascii " x") [⟨0, 16, "PER"⟩, ⟨17, 18, "PER"⟩] newTokenMap 5).1) ∧
    (placeholdersIn (redactSpans (formatToken 1 ++ ascii " x") [⟨0, 16, "PER"⟩, ⟨17, 18, "PER"⟩]
      newTokenMap 5).1).Perm (placeholdersIn (formatToken 1 ++ ascii " x") ++
      (keptSpans (formatToken 1 ++ ascii " x") [⟨0, 16, "PER"⟩, ⟨17, 18, "PER"⟩]).map
        (tokenOf (redactSpans (formatToken 1 ++ ascii " x") [⟨0, 16, "PER"⟩, ⟨17, 18, "PER"⟩]
          newTokenMap 5).2.1 (formatToken 1 ++ ascii " x"))) ∧
    (redactSpans (formatToken 1 ++ ascii " x") [⟨0, 16, "PER"⟩, ⟨17, 18, "PER"⟩]
      newTokenMap 5).2.1.Clean :=
  ⟨newTokenMap_clean, redactSpans_placeholders _ _ _ _ newTokenMap_clean⟩

/- The span over the pasted placeholder is dropped, the placeholder comes through whole, and the
one for `"x"` is added. -/
example : placeholdersIn (redactSpans (formatToken 1 ++ ascii " x")
    [⟨0, 16, "PER"⟩, ⟨17, 18, "PER"⟩] newTokenMap 5).1 = [formatToken 1, formatToken 6] := by
  decide

end GonkaProxy
