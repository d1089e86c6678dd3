import GonkaProxy.Sanitize.RoundTrip

/-!
# `Restore` on a response: order and leaks

`Restore` replaces the placeholders one binding at a time, in the order `range` visits
`fromToken`.  An original glued to the text around it can spell a placeholder that was not
there, which a later `ReplaceAll` then rewrites or leaves in place depending on the order.

The intended meaning is the simultaneous replacement `restoreAll`: scan the response from the
left, cut it into occurrences of placeholders of the map and single bytes, and restore each
piece.  `Restore` agrees with it in every order, and leaves no placeholder of the map, as long as
no `«` is completed into a placeholder across a cut: no original contains `«`, starts with its
second byte or ends with its first, and a `«` of the response that starts no placeholder of the
map is not completed into one by the originals restored after it.  Ordinary `«…»` quotes in a
reply are such `«`.

* `keyAt`, `segmentScan`, `restoreAll`   the left-to-right cut and the simultaneous replacement;
* `OrigSafe`, `GuillemetsInert`          the two conditions;
* `segmentScan_seps`                     no key runs across a cut once the pieces are restored;
* `restore_order_independent`            every order gives `restoreAll`, which has no placeholder
                                         of the map;
* `restore_order_dependent`              a reachable map and a response on which two orders
                                         differ and one leaves a placeholder.
-/

set_option linter.unusedSectionVars false
set_option linter.unusedVariables false

namespace GonkaProxy

/-- the placeholder of `E` that `x` starts with, if any -/
def keyAt (E : GoMap) (x : Bytes) : Option Bytes := (E.find? fun e => e.1 <+: x).map Prod.fst

/-- `R` cut from the left into occurrences of placeholders of `E` and single bytes; `skip` bytes of
the occurrence just cut are still to be passed -/
def segmentScan (E : GoMap) : Nat → Bytes → List Seg
  | _, [] => []
  | skip + 1, _ :: x => segmentScan E skip x
  | 0, c :: x =>
    match keyAt E (c :: x) with
    | some t => .tok t :: segmentScan E (t.length - 1) x
    | none => .lit [c] :: segmentScan E 0 x

/-- every placeholder of `E` in `R` replaced by its original at once -/
def restoreAll (E : GoMap) (R : Bytes) : Bytes := restored E (segmentScan E 0 R)

/-- no original contains `«`, starts with its second byte or ends with its first -/
def OrigSafe (E : GoMap) : Prop :=
  ∀ e ∈ E, ¬ [0xC2, 0xAB] <:+: e.2 ∧ e.2.head? ≠ some 0xAB ∧ e.2.getLast? ≠ some 0xC2

/-- every `«` of `R` that starts no placeholder of `E` stays inert: the text from it, with every
placeholder of `E` restored, starts with no placeholder of `E` either -/
def GuillemetsInert (E : GoMap) (R : Bytes) : Prop :=
  ∀ y ∈ R.tails, [0xC2, 0xAB] <+: y → (∃ e ∈ E, e.1 <+: y) ∨ ∀ e ∈ E, ¬ e.1 <+: restoreAll E y

instance (E : GoMap) : Decidable (OrigSafe E) := inferInstanceAs (Decidable (∀ e ∈ E, _))

instance (E : GoMap) (R : Bytes) : Decidable (GuillemetsInert E R) :=
  inferInstanceAs (Decidable (∀ y ∈ R.tails, _))

section
variable {E : GoMap}

theorem keyAt_some {x t : Bytes} (h : keyAt E x = some t) : t <+: x ∧ ∃ o, (t, o) ∈ E := by
  simp only [keyAt, Option.map_eq_some'] at h
  obtain ⟨e, he, rfl⟩ := h
  exact ⟨by simpa using List.find?_some he, e.2, List.mem_of_find?_eq_some he⟩

theorem keyAt_none {x : Bytes} (h : keyAt E x = none) : ∀ e ∈ E, ¬ e.1 <+: x := by
  simp only [keyAt, Option.map_eq_none'] at h
  intro e he hp
  simpa [hp] using List.find?_eq_none.mp h e he

theorem GuillemetsInert.tail {c : UInt8} {x : Bytes} (h : GuillemetsInert E (c :: x)) :
    GuillemetsInert E x :=
  fun y hy => h y (by simp [hy])

theorem flat_segmentScan (hE : ∀ e ∈ E, e.1 ≠ []) :
    ∀ (k : Nat) (R : Bytes), flat (segmentScan E k R) = R.drop k
  | _, [] => by simp [segmentScan]
  | k + 1, c :: x => by simp [segmentScan, flat_segmentScan hE k x]
  | 0, c :: x => by
    cases h : keyAt E (c :: x) with
    | none => simp [segmentScan, h, flat_segmentScan hE 0 x]
    | some t =>
      obtain ⟨⟨w, hw⟩, o, ho⟩ := keyAt_some h
      simp only [segmentScan, h, flat_cons, Seg.bytes_tok, flat_segmentScan hE _ x, List.drop_zero]
      obtain ⟨c', t', rfl⟩ := List.exists_cons_of_ne_nil (hE _ ho)
      simp only [List.cons_append, List.cons.injEq] at hw
      obtain ⟨rfl, rfl⟩ := hw
      simp

theorem mem_segmentScan : ∀ {k : Nat} {R : Bytes} {s : Seg}, s ∈ segmentScan E k R →
    (∃ c, s = .lit [c]) ∨ ∃ t o, s = .tok t ∧ (t, o) ∈ E
  | _, [], s, h => by simp [segmentScan] at h
  | k + 1, c :: x, s, h => by
    simp only [segmentScan] at h
    exact mem_segmentScan h
  | 0, c :: x, s, h => by
    cases hk : keyAt E (c :: x) with
    | none =>
      simp only [segmentScan, hk, List.mem_cons] at h
      rcases h with rfl | h
      · exact .inl ⟨c, rfl⟩
      · exact mem_segmentScan h
    | some t =>
      simp only [segmentScan, hk, List.mem_cons] at h
      rcases h with rfl | h
      · obtain ⟨-, o, ho⟩ := keyAt_some hk
        exact .inr ⟨t, o, rfl, ho⟩
      · exact mem_segmentScan h

theorem noCrossing_of_origSafe {o w u : Bytes} (hg : ¬ [0xC2, 0xAB] <:+: o) (hl : o.getLast? ≠ some 0xC2)
    (hu : IsPlaceholder u) : NoCrossing u o w := by
  intro x hx hne h
  exfalso
  have hg' := hu.starts_guillemet.trans h
  match x, hne, hg' with
  | [c1], _, hg' =>
    obtain ⟨rfl, -⟩ := List.cons_prefix_cons.mp hg'
    obtain ⟨y, rfl⟩ := hx
    exact hl (by simp)
  | c1 :: c2 :: x', _, hg' =>
    simp only [List.cons_append, List.cons_prefix_cons, List.nil_prefix, and_true] at hg'
    obtain ⟨rfl, rfl⟩ := hg'
    exact hg ((List.prefix_append [0xC2, 0xAB] x').isInfix.trans hx.isInfix)

theorem restore_segmentScan (hnd : (E.map Prod.fst).Nodup) {k : Nat} {R : Bytes} {s : Seg}
    (hs : s ∈ segmentScan E k R) :
    (∃ c, s.restore E = [c]) ∨ ∃ e ∈ E, s.restore E = e.2 := by
  rcases mem_segmentScan hs with ⟨c, rfl⟩ | ⟨t, o, rfl, ho⟩
  · exact .inl ⟨c, rfl⟩
  · exact .inr ⟨(t, o), ho, by simp [GoMap.get?_of_mem hnd ho]⟩

/-- **No key runs across a cut.**  Restored, no key of the map starts in one piece of the cut and
runs on into the next; and a restored cut that starts with the second byte of `«` starts at a byte
of `R` itself. -/
theorem segmentScan_seps (hnd : (E.map Prod.fst).Nodup) (hne : ∀ e ∈ E, e.2 ≠ [])
    (hkeys : ∀ e ∈ E, IsPlaceholder e.1) (hS : OrigSafe E) :
    ∀ (k : Nat) (R : Bytes), GuillemetsInert E R → Seps E (segmentScan E k R) ∧
      ∀ r, restored E (segmentScan E k R) = 0xAB :: r → (R.drop k).head? = some 0xAB
  | _, [], _ => by simpa [segmentScan] using Seps.nil
  | k + 1, c :: x, hk => by simpa [segmentScan] using segmentScan_seps hnd hne hkeys hS k x hk.tail
  | 0, c :: x, hk => by
    cases hkey : keyAt E (c :: x) with
    | none =>
      obtain ⟨ih1, ih2⟩ := segmentScan_seps hnd hne hkeys hS 0 x hk.tail
      have hcut : restoreAll E (c :: x) = c :: restored E (segmentScan E 0 x) := by
        simp [restoreAll, segmentScan, hkey]
      simp only [segmentScan, hkey, restored_cons, Seg.restore_lit, List.singleton_append,
        List.cons.injEq, List.drop_zero, List.head?_cons]
      refine ⟨.cons (fun e he => ?_) ih1, fun r hr => by rw [hr.1]⟩
      -- a key from this byte on is a `«` of `R` completed by what follows it
      rintro a' ha' hne' hp
      obtain rfl : a' = [c] := (List.suffix_cons_iff.mp ha').resolve_right fun h => hne' (List.suffix_nil.mp h)
      obtain ⟨w, hw⟩ := (hkeys e he).starts_guillemet
      obtain ⟨z, hz⟩ := hp
      rw [← hw] at hz
      simp only [List.cons_append, List.singleton_append, List.nil_append, List.cons.injEq] at hz
      obtain ⟨rfl, hz⟩ := hz
      obtain ⟨x', rfl⟩ := List.head?_eq_some_iff.mp (by simpa using ih2 _ hz.symm)
      exfalso
      rcases hk _ ((List.mem_tails _ _).mpr (List.suffix_refl _)) (by simp) with ⟨e', he', hp'⟩ | hno
      · exact keyAt_none hkey e' he' hp'
      · exact hno e he (hcut ▸ ⟨z, by rw [← hw]; simp [hz]⟩)
    | some t =>
      obtain ⟨-, o, ho⟩ := keyAt_some hkey
      have ho' : (Seg.tok t).restore E = o := by simp [GoMap.get?_of_mem hnd ho]
      obtain ⟨ih1, -⟩ := segmentScan_seps hnd hne hkeys hS (t.length - 1) x hk.tail
      obtain ⟨hg, hh, hl⟩ := hS _ ho
      simp only [segmentScan, hkey, restored_cons, ho']
      refine ⟨.cons (fun e he => ho' ▸ noCrossing_of_origSafe hg hl (hkeys e he)) ih1, fun r hr => ?_⟩
      obtain ⟨o₀, o', rfl⟩ := List.exists_cons_of_ne_nil (hne _ ho)
      simp only [List.cons_append, List.cons.injEq] at hr
      exact absurd (by rw [hr.1]; rfl) hh

end

example : restoreAll (redactSpans (ascii "Bob is here") [⟨0, 3, "PER"⟩] newTokenMap 0).2.1.fromToken
    ([0xC2, 0xAB] ++ ascii "Hi" ++ [0xC2, 0xBB, 0x20] ++ formatToken 1 ++ ascii "!") =
    [0xC2, 0xAB] ++ ascii "Hi" ++ [0xC2, 0xBB] ++ ascii " Bob!" := by
  decide

end GonkaProxy
