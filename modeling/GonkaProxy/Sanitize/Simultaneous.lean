import GonkaProxy.Sanitize.RoundTrip

/-!
# The splice loop is a simultaneous replacement

`redactText` splices the placeholders of the kept spans into the text one after the other, from
the rightmost span to the leftmost, so that no splice moves the offsets of a span still to come.
Said without any order: every kept span is replaced at once by the placeholder registered for its
bytes.

* `replaceAt`, `replaceSimul`    the simultaneous replacement of a list of ranges, byte by byte:
                                 the start of a range gives its replacement, the rest of the range
                                 nothing, every other byte itself;
* `replaceSimul_cons`            the rightmost range of a descending list comes off at the end;
* `tokenOf`                      the placeholder a map binds to the bytes of a span;
* `spliceSegs_simultaneous`      the splice run spells the simultaneous replacement (refinement);
* `redactSpans_simultaneous`     the span pipeline's postcondition and the refinement, for every
                                 text and every list of classifier spans.
-/

set_option linter.unusedSectionVars false
set_option linter.unusedVariables false

namespace GonkaProxy

/-! ## replacing ranges at once -/

/-- what the byte `b` at position `i` becomes when every range of `rs` is replaced at once: the
replacement of the range that starts at `i`, nothing inside a range, `b` elsewhere -/
def replaceAt (rs : List (Span × Bytes)) (i : Nat) (b : UInt8) : Bytes :=
  match rs.find? (fun r => r.1.start.toNat == i) with
  | some r => r.2
  | none => if rs.any (fun r => r.1.start.toNat < i && i < r.1.end.toNat) then [] else [b]

/-- the simultaneous replacement in the bytes from position `i` on -/
def replaceFrom (rs : List (Span × Bytes)) : Nat → Bytes → Bytes
  | _, [] => []
  | i, b :: rest => replaceAt rs i b ++ replaceFrom rs (i + 1) rest

/-- `t` with every range `[k.Start, k.End)` of `rs` replaced by its bytes, all at once -/
def replaceSimul (t : Bytes) (rs : List (Span × Bytes)) : Bytes := replaceFrom rs 0 t

section
variable {rs : List (Span × Bytes)} {sp : Span} {u : Bytes} {i : Nat} {b : UInt8}

theorem replaceFrom_append (rs : List (Span × Bytes)) :
    ∀ (i : Nat) (x y : Bytes), replaceFrom rs i (x ++ y) = replaceFrom rs i x ++ replaceFrom rs (i + x.length) y
  | _, [], _ => rfl
  | i, c :: x, y => by
    rw [List.cons_append, replaceFrom, replaceFrom, replaceFrom_append rs (i + 1) x y,
      List.append_assoc, List.length_cons, Nat.add_right_comm, Nat.add_assoc]

theorem replaceFrom_congr {rs' : List (Span × Bytes)} :
    ∀ {i : Nat} {x : Bytes}, (∀ j c, i ≤ j → j < i + x.length → replaceAt rs j c = replaceAt rs' j c) →
      replaceFrom rs i x = replaceFrom rs' i x
  | _, [], _ => rfl
  | i, c :: x, h => by
    simp only [replaceFrom, h i c le_rfl (by simp)]
    rw [replaceFrom_congr fun j d h1 h2 => h j d (by omega) (by simp at h2 ⊢; omega)]

theorem replaceFrom_self : ∀ {i : Nat} {x : Bytes},
    (∀ j c, i ≤ j → j < i + x.length → replaceAt rs j c = [c]) → replaceFrom rs i x = x
  | _, [], _ => rfl
  | i, c :: x, h => by
    simp only [replaceFrom, h i c le_rfl (by simp), List.singleton_append]
    rw [replaceFrom_self fun j d h1 h2 => h j d (by omega) (by simp at h2 ⊢; omega)]

theorem replaceFrom_eq_nil : ∀ {i : Nat} {x : Bytes},
    (∀ j c, i ≤ j → j < i + x.length → replaceAt rs j c = []) → replaceFrom rs i x = []
  | _, [], _ => rfl
  | i, c :: x, h => by
    simp only [replaceFrom, h i c le_rfl (by simp), List.nil_append]
    exact replaceFrom_eq_nil fun j d h1 h2 => h j d (by omega) (by simp at h2 ⊢; omega)

@[simp] theorem replaceSimul_nil (t : Bytes) : replaceSimul t [] = t :=
  replaceFrom_self fun _ _ _ _ => by simp [replaceAt]

theorem replaceAt_cons_of_lt (h : i < sp.start.toNat) :
    replaceAt ((sp, u) :: rs) i b = replaceAt rs i b := by
  have h1 : (sp.start.toNat == i) = false := by simp; omega
  have h2 : (decide (sp.start.toNat < i) && decide (i < sp.end.toNat)) = false := by simp; omega
  simp only [replaceAt, List.find?_cons, h1, List.any_cons, h2, Bool.false_or]

theorem replaceAt_head : replaceAt ((sp, u) :: rs) sp.start.toNat b = u := by
  simp [replaceAt]

theorem replaceAt_inside (h1 : sp.start.toNat < i) (h2 : i < sp.end.toNat)
    (hrs : ∀ r ∈ rs, r.1.start.toNat < sp.start.toNat) : replaceAt ((sp, u) :: rs) i b = [] := by
  have hf : rs.find? (fun r => r.1.start.toNat == i) = none :=
    List.find?_eq_none.mpr fun r hr => by have := hrs r hr; simp; omega
  have hs : (sp.start.toNat == i) = false := by simp; omega
  simp [replaceAt, List.find?_cons, hs, hf, h1, h2]

theorem replaceAt_of_ge (hrs : ∀ r ∈ rs, r.1.start.toNat < r.1.end.toNat ∧ r.1.end.toNat ≤ i) :
    replaceAt rs i b = [b] := by
  have hf : rs.find? (fun r => r.1.start.toNat == i) = none :=
    List.find?_eq_none.mpr fun r hr => by have := hrs r hr; simp; omega
  have ha : rs.any (fun r => r.1.start.toNat < i && i < r.1.end.toNat) = false :=
    List.any_eq_false.mpr fun r hr => by have := hrs r hr; simp only [Bool.and_eq_true, decide_eq_true_eq]; omega
  simp only [replaceAt, hf, ha, if_false, Bool.false_eq_true]

/-- **One range off a descending list.**  The rightmost range of a list whose other ranges end
before it starts is replaced after the rest: what the splice loop does first is the last piece of
the simultaneous replacement. -/
theorem replaceSimul_cons {t : Bytes} (h1 : sp.start.toNat < sp.end.toNat)
    (h2 : sp.end.toNat ≤ t.length)
    (hrs : ∀ r ∈ rs, r.1.start.toNat < r.1.end.toNat ∧ r.1.end.toNat ≤ sp.start.toNat) :
    replaceSimul t ((sp, u) :: rs) =
      replaceSimul (t.take sp.start.toNat) rs ++ u ++ t.drop sp.end.toNat := by
  obtain ⟨c, sl, hsl⟩ : ∃ c sl, slice t sp.start.toNat sp.end.toNat = c :: sl := by
    refine List.exists_cons_of_ne_nil (List.ne_nil_of_length_pos ?_)
    simp [slice]; omega
  have hlen : sl.length = sp.end.toNat - sp.start.toNat - 1 := by
    have := congrArg List.length hsl; simp [slice] at this; omega
  have ht : t.take sp.start.toNat ++ (slice t sp.start.toNat sp.end.toNat ++ t.drop sp.end.toNat) = t := by
    rw [← List.append_assoc, slice, show t.take sp.start.toNat = (t.take sp.end.toNat).take sp.start.toNat by
      rw [List.take_take, Nat.min_eq_left (by omega)], List.take_append_drop, List.take_append_drop]
  have hs : (t.take sp.start.toNat).length = sp.start.toNat := by simp; omega
  conv_lhs => rw [← ht]
  rw [replaceSimul, replaceSimul, replaceFrom_append, replaceFrom_append, hs, hsl, Nat.zero_add,
    ← List.append_assoc]
  congr 2
  · exact replaceFrom_congr fun j d _ hj => replaceAt_cons_of_lt (by rw [hs] at hj; omega)
  · rw [replaceFrom, replaceAt_head, replaceFrom_eq_nil fun j d hj hj' =>
      replaceAt_inside (by omega) (by omega) fun r hr => by have := hrs r hr; omega,
      List.append_nil]
  · refine replaceFrom_self fun j d hj _ => replaceAt_of_ge fun r hr => ?_
    simp only [List.length_cons] at hj
    rcases List.mem_cons.mp hr with rfl | hr
    · exact ⟨h1, by dsimp only; omega⟩
    · have := hrs r hr; omega

end

/-! ## the splice loop -/

/-- the placeholder `tm` binds to the bytes of the span `k` of `t`, nothing when it binds none -/
def tokenOf (tm : TokenMap) (t : Bytes) (k : Span) : Bytes :=
  (tm.toToken.get? (slice t k.start.toNat k.end.toNat)).getD []

theorem spliceSegs_keeps_toToken : ∀ (K : List Span) (text : Bytes) (tm : TokenMap) (c : Nat)
    {o u : Bytes}, tm.toToken.get? o = some u → (spliceSegs K text tm c).2.1.toToken.get? o = some u
  | [], _, _, _, _, _, h => h
  | _ :: rest, _, _, _, _, _, h => spliceSegs_keeps_toToken rest _ _ _ (TokenMap.register_keeps h)

theorem spliceSegs_registers : ∀ (K : List Span) (text : Bytes) (tm : TokenMap) (c : Nat),
    Nested K text → ∀ k ∈ K,
      ∃ u, (spliceSegs K text tm c).2.1.toToken.get? (slice text k.start.toNat k.end.toNat) = some u
  | [], _, _, _, _, k, hk => absurd hk (List.not_mem_nil k)
  | sp :: rest, text, tm, c, hK, k, hk => by
    rcases List.mem_cons.mp hk with rfl | hk
    · exact ⟨_, spliceSegs_keeps_toToken rest _ _ _ TokenMap.register_get⟩
    · have hkd := (List.pairwise_cons.mp hK.desc).1 k hk
      obtain ⟨k0, k1, -⟩ := hK.bounds k (List.mem_cons_of_mem _ hk)
      rw [← slice_take (show k.end.toNat ≤ sp.start.toNat by omega)]
      exact spliceSegs_registers rest _ _ _ hK.tail_take k hk

/-- **Refinement.**  The text a splice run of nested spans spells is the simultaneous replacement
of every span by the placeholder the final map binds to its bytes. -/
theorem spliceSegs_simultaneous : ∀ (K : List Span) (text : Bytes) (tm : TokenMap) (c : Nat),
    Nested K text → flat (spliceSegs K text tm c).1 =
      replaceSimul text (K.map fun k => (k, tokenOf (spliceSegs K text tm c).2.1 text k))
  | [], text, _, _, _ => by simp [spliceSegs]
  | sp :: rest, text, tm, c, hK => by
    obtain ⟨h0, h1, h2⟩ := hK.bounds sp (List.mem_cons_self _ _)
    have hK' := hK.tail_take
    have hhead : tokenOf (spliceSegs (sp :: rest) text tm c).2.1 text sp =
        (tm.register c (slice text sp.start.toNat sp.end.toNat)).1 := by
      simp [tokenOf, spliceSegs, spliceSegs_keeps_toToken rest _ _ _ TokenMap.register_get]
    have hrest : ∀ k ∈ rest, tokenOf (spliceSegs (sp :: rest) text tm c).2.1 text k =
        tokenOf (spliceSegs (sp :: rest) text tm c).2.1 (text.take sp.start.toNat) k := fun k hk => by
      have hkd := (List.pairwise_cons.mp hK.desc).1 k hk
      obtain ⟨k0, k1, -⟩ := hK.bounds k (List.mem_cons_of_mem _ hk)
      rw [tokenOf, tokenOf, slice_take (by omega)]
    rw [List.map_cons, hhead, replaceSimul_cons (by omega) (by omega), List.map_congr_left
      fun k hk => congrArg (Prod.mk k) (hrest k hk)]
    · simp only [spliceSegs, flat_append, flat_cons, flat_litSeg, Seg.bytes_tok, List.append_assoc]
      rw [spliceSegs_simultaneous rest _ _ _ hK']
    · intro r hr
      obtain ⟨k, hk, rfl⟩ := List.mem_map.mp hr
      have hkd := (List.pairwise_cons.mp hK.desc).1 k hk
      obtain ⟨k0, k1, -⟩ := hK.bounds k (List.mem_cons_of_mem _ hk)
      dsimp only
      omega

theorem redactSpans_eq_applySpans_kept (t : Bytes) (allSpans : List Span) (tm : TokenMap) (c : Nat) :
    redactSpans t allSpans tm c = applySpans (keptSpans t allSpans) t tm c := by
  by_cases h : allSpans = []
  · subst h; rfl
  · simp [redactSpans, h]

theorem keptSpans_nested (t : Bytes) (allSpans : List Span) : Nested (keptSpans t allSpans) t :=
  ⟨fun k hk => (mem_validSpans.mp (keptSpans_valid hk)).2, (keptSpans_cover t allSpans).2.1⟩

/-- **The span pipeline and its splice loop.**  For every text `t` and every list of classifier
spans, the spans `redactText` applies, `deduplicateSpans (sortSpansDesc (validSpans t spans))`,
are spans of the list, valid in `t` (in range, on rune and word boundaries, no placeholder in
them), with strictly decreasing starts and pairwise disjoint; every valid span, kept or not,
overlaps one of them; and the right-to-left splice loop gives `t` with each of them replaced at
once by the placeholder the map binds to its bytes. -/
theorem redactSpans_simultaneous (t : Bytes) (allSpans : List Span) (tm : TokenMap) (c : Nat) :
    (∀ k ∈ keptSpans t allSpans, k ∈ allSpans ∧ k.Valid t) ∧
    (keptSpans t allSpans).Pairwise (fun a b => b.start < a.start ∧ b.end ≤ a.start) ∧
    (∀ v ∈ validSpans t allSpans, ∃ k ∈ keptSpans t allSpans, v.start < k.end ∧ k.start < v.end) ∧
    (∀ k ∈ keptSpans t allSpans, ∃ u,
      (redactSpans t allSpans tm c).2.1.toToken.get? (slice t k.start.toNat k.end.toNat) = some u) ∧
    (redactSpans t allSpans tm c).1 = replaceSimul t ((keptSpans t allSpans).map fun k =>
      (k, tokenOf (redactSpans t allSpans tm c).2.1 t k)) := by
  have hK := keptSpans_nested t allSpans
  obtain ⟨-, hd, hcov⟩ := keptSpans_cover t allSpans
  rw [redactSpans_eq_applySpans_kept, applySpans_eq_splice _ _ _ _ hK]
  refine ⟨fun k hk => mem_validSpans.mp (keptSpans_valid hk), hd.imp_of_mem fun {a b} _ hb h =>
      ⟨lt_of_lt_of_le (hK.valid b hb).start_lt_end h, h⟩, fun v hv => ?_,
    spliceSegs_registers _ _ _ _ hK, spliceSegs_simultaneous _ _ _ _ hK⟩
  obtain ⟨k, hk, h1, h2⟩ := hcov v hv
  exact ⟨k, hk, lt_of_le_of_lt h1 (hK.valid k hk).start_lt_end, h2⟩

end GonkaProxy
