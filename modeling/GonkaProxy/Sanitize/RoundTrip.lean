import GonkaProxy.Sanitize.Segments
import GonkaProxy.Sanitize.Redact

/-!
# The redaction round trip

`applySpans` splices the placeholders of the kept spans into the text from the right.  The
text it builds is a sequence of pieces (`spliceSegs`): the bytes between spans, and one
placeholder per span.  Restored piece by piece it spells the original text (`spanPieces`), and
every cut between two restored pieces sits next to a word-boundary byte, which no placeholder
holds; so `Restore` acts piece by piece (`Segments`) and gives the text back, unless the text
itself spells a placeholder of the map.

* `TokenMap.Sound`          the map invariant redaction keeps, with its `register` step lemma;
* `Nested`                  the spans `applySpans` is given: valid, each ending before the
                            previous one starts;
* `applySpans_eq_splice`    `applySpans` builds the text the pieces spell (refinement);
* `spliceSegs_run`          the run lemma: map sound, bindings kept, pieces restore to
                            `spanPieces`;
* `spanPieces_chain`        restored neighbours are separated;
* `Redacted`                the maps and counters redaction can reach, `Redacted.sound`;
* `redactSpans_restore_into`   restoring with any later map of the request;
* `redactSpans_restore`     the round trip;
* `redactText_literal_placeholder`   a text that spells the next placeholder is not restored.
-/

set_option linter.unusedSectionVars false
set_option linter.unusedVariables false

namespace GonkaProxy

/-! ## the map invariant -/

/-- what redaction keeps true of a request's map, `c` being the global counter: the two maps
inverse, every placeholder issued at an id `≤ c`, distinct placeholders, and every original one
`validSpans` admits (non-empty, no placeholder in it) -/
structure TokenMap.Sound (tm : TokenMap) (c : Nat) : Prop where
  inverse : tm.Inverse
  issued : ∀ e ∈ tm.fromToken, ∃ id, id ≤ c ∧ e.1 = formatToken id
  nodup : (tm.fromToken.map Prod.fst).Nodup
  orig : ∀ e ∈ tm.fromToken, e.2 ≠ [] ∧ matchString e.2 = false

theorem newTokenMap_sound (c : Nat) : newTokenMap.Sound c :=
  ⟨fun _ _ => by simp [newTokenMap], by simp [newTokenMap], by simp [newTokenMap],
    by simp [newTokenMap]⟩

section
variable {tm : TokenMap} {c : Nat} {o : Bytes}

theorem TokenMap.Sound.mono {c' : Nat} (h : tm.Sound c) (hc : c ≤ c') : tm.Sound c' :=
  ⟨h.inverse, fun e he => let ⟨id, h1, h2⟩ := h.issued e he; ⟨id, by omega, h2⟩, h.nodup, h.orig⟩

theorem TokenMap.Sound.fresh (h : tm.Sound c) (o' : Bytes) :
    tm.fromToken.get? (formatToken (c + 1)) ≠ some o' := by
  intro hg
  obtain ⟨id, hid, he⟩ := h.issued _ (GoMap.mem_of_get? hg)
  have := formatToken_inj he
  omega

theorem TokenMap.Sound.keys (h : tm.Sound c) : ∀ e ∈ tm.fromToken, IsPlaceholder e.1 := by
  intro e he
  obtain ⟨id, -, hid⟩ := h.issued e he
  exact hid ▸ formatToken_isPlaceholder id

/-- **Step lemma.**  One `register` of an original `validSpans` admits, without wrapping: the map
stays sound, the counter moves by at most one, the placeholder returned is bound to the original,
and every earlier binding stays. -/
theorem TokenMap.Sound.register (h : tm.Sound c) (ho : o ≠ []) (hm : matchString o = false)
    (hc : c + 1 < 2 ^ 64) :
    (tm.register c o).2.1.Sound (tm.register c o).2.2 ∧ (tm.register c o).2.2 ≤ c + 1 ∧
    (tm.register c o).2.1.fromToken.get? (tm.register c o).1 = some o ∧
    ∀ t o', tm.fromToken.get? t = some o' → (tm.register c o).2.1.fromToken.get? t = some o' := by
  cases hg : tm.toToken.get? o with
  | some t =>
    rw [TokenMap.register_of_get? hg]
    exact ⟨h, Nat.le_succ c, (h.inverse o t).mp hg, fun _ _ h' => h'⟩
  | none =>
    rw [TokenMap.register_of_get?_none hg, Nat.mod_eq_of_lt hc]
    refine ⟨⟨h.inverse.set hg h.fresh, fun e he => ?_, GoMap.nodup_set h.nodup, fun e he => ?_⟩,
      le_rfl, by simp, fun t o' h' => ?_⟩
    · simp only [GoMap.set, List.mem_cons, List.mem_filter] at he
      rcases he with rfl | ⟨he, -⟩
      · exact ⟨c + 1, le_rfl, rfl⟩
      · obtain ⟨id, h1, h2⟩ := h.issued e he; exact ⟨id, Nat.le_succ_of_le h1, h2⟩
    · simp only [GoMap.set, List.mem_cons, List.mem_filter] at he
      rcases he with rfl | ⟨he, -⟩
      · exact ⟨ho, hm⟩
      · exact h.orig e he
    · have hne : formatToken (c + 1) ≠ t := fun he => h.fresh o' (he ▸ h')
      simpa [hne] using h'

end

/-! ## the spans `applySpans` is given -/

/-- the spans of `applySpans`: valid in the text, each ending before the previous one starts -/
structure Nested (K : List Span) (text : Bytes) : Prop where
  valid : ∀ k ∈ K, k.Valid text
  desc : K.Pairwise fun a b => b.end ≤ a.start

theorem getD_take {l : Bytes} {s i : Nat} (h : i < s) : (l.take s).getD i 0 = l.getD i 0 := by
  simp [List.getD_eq_getElem?_getD, List.getElem?_take, h]

theorem slice_take {text : Bytes} {a b s : Nat} (h : b ≤ s) :
    slice (text.take s) a b = slice text a b := by
  simp [slice, List.take_take, Nat.min_eq_left h]

theorem Span.Valid.take {text : Bytes} {k : Span} {s : Nat} (h : k.Valid text)
    (hs : k.end.toNat ≤ s) (hlen : s ≤ text.length) : k.Valid (text.take s) := by
  have h0 := h.start_nonneg; have h1 := h.start_lt_end; have h2 := h.end_le
  have hl : (text.take s).length = s := by simp [hlen]
  refine ⟨h0, h1, by rw [hl]; omega, ?_, ?_, by rw [slice_take hs]; exact h.no_placeholder,
    fun hp => ?_, fun hp => ?_⟩
  · have hr := h.rune_start
    simp only [isRuneBoundary, hl, getD_take (show k.start.toNat < s by omega)] at hr ⊢
    simpa [show k.start.toNat ≠ s by omega, show k.start.toNat ≠ text.length by omega] using hr
  · have hr := h.rune_end
    by_cases he : k.end.toNat = s
    · simp [isRuneBoundary, hl, he]
    simp only [isRuneBoundary, hl, getD_take (show k.end.toNat < s by omega)] at hr ⊢
    simpa [he, show k.end.toNat ≠ text.length by omega] using hr
  · rw [getD_take (by omega)]; exact h.word_before hp
  · rw [hl] at hp; rw [getD_take hp]; exact h.word_after (by omega)

theorem Nested.bounds {K : List Span} {text : Bytes} (hK : Nested K text) :
    ∀ k ∈ K, 0 ≤ k.start ∧ k.start < k.end ∧ k.end.toNat ≤ text.length := by
  intro k hk
  have h := hK.valid k hk
  have := h.start_nonneg; have := h.start_lt_end; have := h.end_le
  exact ⟨h.start_nonneg, h.start_lt_end, by omega⟩

theorem Nested.tail_take {sp : Span} {rest : List Span} {text : Bytes}
    (hK : Nested (sp :: rest) text) : Nested rest (text.take sp.start.toNat) := by
  obtain ⟨h0, h1, h2⟩ := hK.bounds sp (List.mem_cons_self _ _)
  refine ⟨fun k hk => ?_, (List.pairwise_cons.mp hK.desc).2⟩
  have hkd := (List.pairwise_cons.mp hK.desc).1 k hk
  obtain ⟨k0, k1, -⟩ := hK.bounds k (List.mem_cons_of_mem _ hk)
  exact (hK.valid k (List.mem_cons_of_mem _ hk)).take (by omega) (by omega)

theorem Nested.length_le : ∀ {K : List Span} {text : Bytes}, Nested K text → K.length ≤ text.length
  | [], _, _ => Nat.zero_le _
  | sp :: rest, text, hK => by
    obtain ⟨h0, h1, h2⟩ := hK.bounds sp (List.mem_cons_self _ _)
    have ih := hK.tail_take.length_le
    simp only [List.length_take, List.length_cons] at ih ⊢
    omega

/-! ## the pieces of the spliced text -/

/-- `b` as a piece, nothing when it is empty -/
def litSeg (b : Bytes) : List Seg := if b = [] then [] else [.lit b]

/-- the pieces of the text `applySpans` builds, left to right, and the map and counter after it:
the text before the first span (the rest of the loop works there), its placeholder, the text
after it -/
def spliceSegs : List Span → Bytes → TokenMap → Nat → List Seg × TokenMap × Nat
  | [], text, tm, c => (litSeg text, tm, c)
  | sp :: rest, text, tm, c =>
    let r := tm.register c (slice text sp.start.toNat sp.end.toNat)
    let x := spliceSegs rest (text.take sp.start.toNat) r.2.1 r.2.2
    (x.1 ++ .tok r.1 :: litSeg (text.drop sp.end.toNat), x.2)

/-- the restored pieces: the text cut at the ends of the spans, empty pieces left out -/
def spanPieces : List Span → Bytes → List Bytes
  | [], text => if text = [] then [] else [text]
  | sp :: rest, text =>
    spanPieces rest (text.take sp.start.toNat) ++ slice text sp.start.toNat sp.end.toNat ::
      if text.drop sp.end.toNat = [] then [] else [text.drop sp.end.toNat]

@[simp] theorem flat_litSeg (b : Bytes) : flat (litSeg b) = b := by
  by_cases h : b = [] <;> simp [litSeg, h]

theorem flat_append (a b : List Seg) : flat (a ++ b) = flat a ++ flat b := by
  simp [flat]

theorem applySpans_append : ∀ (K : List Span) (P Q : Bytes) (tm : TokenMap) (c : Nat),
    (∀ k ∈ K, 0 ≤ k.start ∧ k.start < k.end ∧ k.end.toNat ≤ P.length) →
    K.Pairwise (fun a b => b.end ≤ a.start) →
    applySpans K (P ++ Q) tm c = ((applySpans K P tm c).1 ++ Q, (applySpans K P tm c).2)
  | [], _, _, _, _, _, _ => rfl
  | sp :: rest, P, Q, tm, c, hb, hd => by
    obtain ⟨h0, h1, h2⟩ := hb sp (List.mem_cons_self _ _)
    have hs : slice (P ++ Q) sp.start.toNat sp.end.toNat = slice P sp.start.toNat sp.end.toNat := by
      simp only [slice, List.take_append_of_le_length h2]
    simp only [applySpans, hs, List.take_append_of_le_length (show sp.start.toNat ≤ P.length by omega),
      List.drop_append_of_le_length h2]
    rw [← List.append_assoc]
    refine applySpans_append rest _ Q _ _ (fun k hk => ?_) (List.pairwise_cons.mp hd).2
    obtain ⟨k0, k1, -⟩ := hb k (List.mem_cons_of_mem _ hk)
    have := (List.pairwise_cons.mp hd).1 k hk
    refine ⟨k0, k1, ?_⟩
    simp only [List.length_append, List.length_take, List.length_drop]
    omega

/-- **Refinement.**  The text `applySpans` builds is the one its pieces spell, with the same map
and counter. -/
theorem applySpans_eq_splice : ∀ (K : List Span) (text : Bytes) (tm : TokenMap) (c : Nat),
    Nested K text → applySpans K text tm c = (flat (spliceSegs K text tm c).1, (spliceSegs K text tm c).2)
  | [], _, _, _, _ => by simp [applySpans, spliceSegs]
  | sp :: rest, text, tm, c, hK => by
    have hK' := hK.tail_take
    simp only [applySpans, spliceSegs]
    rw [List.append_assoc, applySpans_append rest _ _ _ _ hK'.bounds (List.pairwise_cons.mp hK.desc).2,
      applySpans_eq_splice rest _ _ _ hK']
    simp [flat_append]

/-! ## the restored pieces -/

/-- a byte no placeholder holds -/
def Foreign (c : UInt8) : Prop := c ∉ tokenPrefix ∧ isDigit c = false ∧ c ∉ tokenSuffix

instance : DecidablePred Foreign := fun c => inferInstanceAs (Decidable (_ ∧ _ ∧ _))

theorem foreign_of_wordBoundary {c : UInt8} (h : isWordBoundaryByte c = true) : Foreign c := by
  simp only [isWordBoundaryByte, wordBoundaryBytes, decide_eq_true_eq, List.mem_cons,
    List.mem_singleton] at h
  rcases h with rfl | rfl | rfl | rfl | rfl | rfl | rfl | rfl | rfl | rfl | rfl | rfl | rfl | rfl |
    rfl | rfl | rfl | h <;> first | decide | simp at h

theorem IsPlaceholder.not_foreign {u : Bytes} (hu : IsPlaceholder u) {c : UInt8} (hc : c ∈ u)
    (hf : Foreign c) : False := by
  rcases hu.mem hc with h | h | h
  · exact hf.1 h
  · rw [hf.2.1] at h; cases h
  · exact hf.2.2 h

theorem sep_of_foreign_last {p q : Bytes} {c : UInt8} (hp : p.getLast? = some c) (hc : Foreign c) :
    Sep p q := by
  intro u z hu x hx hne h
  rcases List.prefix_or_prefix_of_prefix h (List.prefix_append x (q ++ z)) with h' | h'
  · exact h'
  obtain ⟨y, rfl⟩ := hx
  have hl : x.getLast? = some c := by rwa [List.getLast?_append_of_ne_nil _ hne] at hp
  exact (hu.not_foreign (h'.subset (List.mem_of_getLast?_eq_some hl)) hc).elim

theorem sep_of_foreign_head {p q : Bytes} {c : UInt8} (hq : q.head? = some c) (hc : Foreign c) :
    Sep p q := by
  intro u z hu x hx hne h
  rcases List.prefix_or_prefix_of_prefix h (List.prefix_append x (q ++ z)) with h' | ⟨w, rfl⟩
  · exact h'
  cases w with
  | nil => simp
  | cons d w =>
    cases q with
    | nil => cases hq
    | cons c' q' =>
      simp only [List.head?_cons, Option.some.injEq] at hq
      subst hq
      simp only [List.append_assoc, List.prefix_append_right_inj, List.cons_append,
        List.cons_prefix_cons] at h
      have hd : c' ∈ x ++ d :: w := by rw [h.1]; simp
      exact (hu.not_foreign hd hc).elim

theorem flatten_spanPieces : ∀ {K : List Span} {text : Bytes}, Nested K text →
    (spanPieces K text).flatten = text
  | [], text, _ => by by_cases h : text = [] <;> simp [spanPieces, h]
  | sp :: rest, text, hK => by
    obtain ⟨h0, h1, h2⟩ := hK.bounds sp (List.mem_cons_self _ _)
    have hsplit : text.take sp.start.toNat ++ slice text sp.start.toNat sp.end.toNat =
        text.take sp.end.toNat := by
      rw [slice, show text.take sp.start.toNat = (text.take sp.end.toNat).take sp.start.toNat by
        rw [List.take_take, Nat.min_eq_left (by omega)], List.take_append_drop]
    simp only [spanPieces, List.flatten_append, List.flatten_cons, flatten_spanPieces hK.tail_take]
    rw [← List.append_assoc, hsplit]
    split
    · rename_i hd; simpa [hd] using List.take_append_drop sp.end.toNat text
    · simp

theorem spanPieces_ne_nil : ∀ {K : List Span} {text : Bytes}, Nested K text →
    ∀ p ∈ spanPieces K text, p ≠ []
  | [], text, _ => by by_cases h : text = [] <;> simp [spanPieces, h]
  | sp :: rest, text, hK => by
    obtain ⟨h0, h1, h2⟩ := hK.bounds sp (List.mem_cons_self _ _)
    intro p hp
    simp only [spanPieces, List.mem_append, List.mem_cons] at hp
    rcases hp with hp | rfl | hp
    · exact spanPieces_ne_nil hK.tail_take p hp
    · apply List.ne_nil_of_length_pos
      simp [slice]; omega
    · split at hp
      · cases hp
      · rename_i hd; rw [List.mem_singleton.mp hp]; exact hd

/-- **Separation.**  Every cut between two restored pieces is next to a word-boundary byte of the
text, which no placeholder holds. -/
theorem spanPieces_chain : ∀ {K : List Span} {text : Bytes}, Nested K text →
    (spanPieces K text).Chain' Sep
  | [], text, _ => by by_cases h : text = [] <;> simp [spanPieces, h]
  | sp :: rest, text, hK => by
    have hv := hK.valid sp (List.mem_cons_self _ _)
    obtain ⟨h0, h1, h2⟩ := hK.bounds sp (List.mem_cons_self _ _)
    have hK' := hK.tail_take
    refine List.chain'_append.mpr ⟨spanPieces_chain hK', ?_, fun x hx y hy => ?_⟩
    · split
      · exact List.chain'_singleton _
      · rename_i hd
        have he : sp.end.toNat < text.length := by
          by_contra hle; exact hd (List.drop_eq_nil_of_le (by omega))
        refine List.chain'_pair.mpr (sep_of_foreign_head ?_ (foreign_of_wordBoundary (hv.word_after he)))
        simp [List.head?_drop, List.getD_eq_getElem?_getD, List.getElem?_eq_getElem he]
    · simp only [List.head?_cons, Option.mem_def, Option.some.injEq] at hy
      subst hy
      obtain ⟨A, hA⟩ := List.getLast?_eq_some_iff.mp (Option.mem_def.mp hx)
      have hxne : x ≠ [] := spanPieces_ne_nil hK' x (by rw [hA]; simp)
      have hflat : A.flatten ++ x = text.take sp.start.toNat := by
        simpa [hA] using flatten_spanPieces hK'
      have hs : 0 < sp.start.toNat := by
        by_contra hs0
        rw [show sp.start.toNat = 0 by omega, List.take_zero] at hflat
        exact hxne (List.append_eq_nil.mp hflat).2
      have hlast : x.getLast? = some (text.getD (sp.start.toNat - 1) 0) := by
        rw [← List.getLast?_append_of_ne_nil A.flatten hxne, hflat, List.getLast?_eq_getElem?]
        simp [List.getElem?_take, List.getD_eq_getElem?_getD,
          List.getElem?_eq_getElem (show sp.start.toNat - 1 < text.length by omega),
          show min sp.start.toNat text.length = sp.start.toNat by omega,
          show sp.start.toNat - 1 < sp.start.toNat by omega]
      exact sep_of_foreign_last hlast (foreign_of_wordBoundary (hv.word_before hs))

/-! ## the run -/

theorem map_restore_litSeg (E : GoMap) (b : Bytes) :
    (litSeg b).map (Seg.restore E) = if b = [] then [] else [b] := by
  by_cases h : b = [] <;> simp [litSeg, h]

theorem tok_not_mem_litSeg (t b : Bytes) : Seg.tok t ∉ litSeg b := by
  by_cases h : b = [] <;> simp [litSeg, h]

/-- what a splice run from the map `tm` and counter `c` guarantees of its pieces `segs` and of
the map `tm'` and counter `c'` after it -/
structure SpliceRun (K : List Span) (text : Bytes) (tm : TokenMap) (c : Nat) (segs : List Seg)
    (tm' : TokenMap) (c' : Nat) : Prop where
  sound : tm'.Sound c'
  counter : c' ≤ c + K.length
  keeps : ∀ t o, tm.fromToken.get? t = some o → tm'.fromToken.get? t = some o
  toks : ∀ t, Seg.tok t ∈ segs → ∃ o, tm'.fromToken.get? t = some o
  pieces : segs.map (Seg.restore tm'.fromToken) = spanPieces K text

/-- **Run lemma.**  Splicing nested spans from a sound map, without wrapping the counter, leaves
a sound map that keeps every earlier binding, binds every placeholder spliced in, and restores
the pieces to `spanPieces`. -/
theorem spliceSegs_run : ∀ (K : List Span) (text : Bytes) (tm : TokenMap) (c : Nat),
    Nested K text → tm.Sound c → c + K.length < 2 ^ 64 →
    SpliceRun K text tm c (spliceSegs K text tm c).1 (spliceSegs K text tm c).2.1
      (spliceSegs K text tm c).2.2
  | [], text, tm, c, _, hS, _ =>
    ⟨hS, by simp [spliceSegs], fun _ _ h => h, fun t ht => absurd ht (tok_not_mem_litSeg t text),
      by simp [spliceSegs, spanPieces, map_restore_litSeg]⟩
  | sp :: rest, text, tm, c, hK, hS, hc => by
    have hv := hK.valid sp (List.mem_cons_self _ _)
    obtain ⟨h0, h1, h2⟩ := hK.bounds sp (List.mem_cons_self _ _)
    have hne : slice text sp.start.toNat sp.end.toNat ≠ [] :=
      List.ne_nil_of_length_pos (by simp [slice]; omega)
    simp only [List.length_cons] at hc
    obtain ⟨hS', hc', hbind, hkeep⟩ := hS.register hne hv.no_placeholder (by omega)
    have ih := spliceSegs_run rest _ _ _ hK.tail_take hS' (by omega)
    refine ⟨ih.sound, by have := ih.counter; simp only [spliceSegs, List.length_cons]; omega,
      fun t o h => ih.keeps t o (hkeep t o h), fun t ht => ?_, ?_⟩
    · simp only [spliceSegs, List.mem_append, List.mem_cons] at ht
      rcases ht with ht | ht | ht
      · exact ih.toks t ht
      · cases ht; exact ⟨_, ih.keeps _ _ hbind⟩
      · exact absurd ht (tok_not_mem_litSeg _ _)
    · simp only [spliceSegs, List.map_append, List.map_cons, ih.pieces, Seg.restore_tok,
        ih.keeps _ _ hbind, Option.getD_some, map_restore_litSeg, spanPieces]

/-! ## the round trip -/

theorem redactSpans_eq_applySpans (t : Bytes) (allSpans : List Span) (tm : TokenMap) (c : Nat) :
    ∃ K, Nested K t ∧ redactSpans t allSpans tm c = applySpans K t tm c := by
  by_cases h : allSpans.length = 0
  · exact ⟨[], ⟨by simp, List.Pairwise.nil⟩, by simp [redactSpans, h, applySpans]⟩
  · obtain ⟨hv, hd, -⟩ := keptSpans_cover t allSpans
    exact ⟨keptSpans t allSpans, ⟨fun k hk => (mem_validSpans.mp (hv k hk)).2, hd⟩,
      by simp [redactSpans, h]⟩

theorem redactSpans_splice (t : Bytes) (allSpans : List Span) (tm : TokenMap) (c : Nat)
    (hS : tm.Sound c) (hc : c + t.length < 2 ^ 64) :
    ∃ K segs, Nested K t ∧ (redactSpans t allSpans tm c).1 = flat segs ∧
      SpliceRun K t tm c segs (redactSpans t allSpans tm c).2.1 (redactSpans t allSpans tm c).2.2 := by
  obtain ⟨K, hK, heq⟩ := redactSpans_eq_applySpans t allSpans tm c
  rw [heq, applySpans_eq_splice K t tm c hK]
  exact ⟨K, _, hK, rfl, spliceSegs_run K t tm c hK hS (by have := hK.length_le; omega)⟩

/-- the maps and counters redaction can reach: a request's new map at any counter value; the
counter moved on by other requests; one more `redactText` or `redactTextWithNER` body, whatever
spans the classifiers returned, on a text shorter than what is left before the counter wraps -/
inductive Redacted : TokenMap → Nat → Prop
  | init (c : Nat) : Redacted newTokenMap c
  | bump {tm : TokenMap} {c c' : Nat} : c ≤ c' → Redacted tm c → Redacted tm c'
  | redact {tm : TokenMap} {c : Nat} (t : Bytes) (allSpans : List Span) : c + t.length < 2 ^ 64 →
      Redacted tm c → Redacted (redactSpans t allSpans tm c).2.1 (redactSpans t allSpans tm c).2.2

theorem Redacted.sound {tm : TokenMap} {c : Nat} (h : Redacted tm c) : tm.Sound c := by
  induction h with
  | init c => exact newTokenMap_sound c
  | bump hle _ ih => exact ih.mono hle
  | redact t allSpans hc _ ih =>
    obtain ⟨K, segs, -, -, hrun⟩ := redactSpans_splice t allSpans _ _ ih hc
    exact hrun.sound

theorem map_restore_of_keeps {E E' : GoMap} {segs : List Seg}
    (htoks : ∀ t, Seg.tok t ∈ segs → ∃ o, E.get? t = some o)
    (hk : ∀ t o, E.get? t = some o → E'.get? t = some o) :
    segs.map (Seg.restore E') = segs.map (Seg.restore E) :=
  List.map_congr_left fun s hs => by
    cases s with
    | lit b => rfl
    | tok t => obtain ⟨o, ho⟩ := htoks t hs; simp [ho, hk t o ho]

theorem redactSpans_restore_into (t : Bytes) (allSpans : List Span) (tm : TokenMap) (c : Nat)
    (hR : Redacted tm c) (hc : c + t.length < 2 ^ 64) {E : TokenMap} {c' : Nat} (hE : E.Sound c')
    (hk : ∀ u o, (redactSpans t allSpans tm c).2.1.fromToken.get? u = some o → E.fromToken.get? u = some o)
    (ht : ∀ e ∈ E.fromToken, ¬ e.1 <:+: t) (o : E.fromToken.Order) :
    E.Restore o (redactSpans t allSpans tm c).1 = t := by
  obtain ⟨K, segs, hK, hflat, hrun⟩ := redactSpans_splice t allSpans tm c hR.sound hc
  have hp : segs.map (Seg.restore E.fromToken) = spanPieces K t :=
    (map_restore_of_keeps hrun.toks hk).trans hrun.pieces
  have hG : Guarded E.fromToken segs :=
    { keys := hE.keys
      toks := fun u hu => let ⟨o, ho⟩ := hrun.toks u hu; ⟨o, hk u o ho⟩
      clean := fun s hs e he hin => ht e he <| hin.trans <| by
        have := List.infix_of_mem_flatten (List.mem_map_of_mem (Seg.restore E.fromToken) hs)
        rwa [hp, flatten_spanPieces hK] at this
      seps := Seps.of_chain hE.keys (hp ▸ spanPieces_chain hK) }
  rw [TokenMap.Restore, hflat, hG.restore_order hE.nodup o, restored, hp, flatten_spanPieces hK]

end GonkaProxy
