import GonkaProxy.Sanitize.TokenMap

/-!
# Restoration piece by piece

`Restore` runs `strings.ReplaceAll` once per binding of `fromToken`, in the order `range` visits
the map.  Cut the text into pieces, literal bytes and occurrences of placeholders of the map.
When no placeholder occurrence can straddle two neighbouring pieces once they are restored,
each `ReplaceAll` acts on each piece alone, whatever the order, and the result is every piece
restored on its own.

* `Seg`, `flat`, `restored`   the pieces, the text they spell, the text restored piece by piece;
* `Sep`                       no placeholder that starts in one piece runs into the next,
                              whatever follows it;
* `Seps`                      no key of the map that starts in a restored piece runs past it;
* `Guarded`                   the invariant: placeholder keys, every `tok` piece bound, no key
                              inside a restored piece, `Seps`;
* `replaceAll_flat`           one `ReplaceAll` acts on each piece (step lemma);
* `restoreIn_flat`            so does a whole `Restore`, for every order of the map (run lemma);
* `Guarded.not_infix_restored`   the restored text holds no key of the map.
-/

set_option linter.unusedSectionVars false
set_option linter.unusedVariables false

namespace GonkaProxy

/-- a piece of a text under restoration: bytes no `ReplaceAll` touches, or one occurrence of a
placeholder -/
inductive Seg where
  | lit (b : Bytes)
  | tok (t : Bytes)

namespace Seg

/-- the bytes of the piece -/
def bytes : Seg → Bytes
  | lit b => b
  | tok t => t

/-- the piece with its placeholder replaced by its original -/
def restore (E : GoMap) : Seg → Bytes
  | lit b => b
  | tok t => (E.get? t).getD t

/-- the piece after `strings.ReplaceAll(·, u, o)` -/
def subst (u o : Bytes) : Seg → Seg
  | lit b => lit b
  | tok t => if t = u then lit o else tok t

@[simp] theorem bytes_lit (b : Bytes) : (lit b).bytes = b := rfl
@[simp] theorem bytes_tok (t : Bytes) : (tok t).bytes = t := rfl
@[simp] theorem restore_lit (E : GoMap) (b : Bytes) : (lit b).restore E = b := rfl
@[simp] theorem restore_tok (E : GoMap) (t : Bytes) : (tok t).restore E = (E.get? t).getD t := rfl

theorem restore_subst {E : GoMap} {u o : Bytes} (hu : E.get? u = some o) (s : Seg) :
    (s.subst u o).restore E = s.restore E := by
  cases s with
  | lit b => rfl
  | tok t => by_cases h : t = u <;> simp [subst, restore, h, hu]

end Seg

/-- the text the pieces spell -/
def flat (segs : List Seg) : Bytes := (segs.map Seg.bytes).flatten

/-- the text with every piece restored on its own -/
def restored (E : GoMap) (segs : List Seg) : Bytes := (segs.map (Seg.restore E)).flatten

@[simp] theorem flat_nil : flat [] = [] := rfl
@[simp] theorem flat_cons (s : Seg) (segs : List Seg) : flat (s :: segs) = s.bytes ++ flat segs := rfl
@[simp] theorem restored_nil (E : GoMap) : restored E [] = [] := rfl
@[simp] theorem restored_cons (E : GoMap) (s : Seg) (segs : List Seg) :
    restored E (s :: segs) = s.restore E ++ restored E segs := rfl

/-- no placeholder occurrence that starts in `b` runs into `c`, whatever follows `c` -/
def Sep (b c : Bytes) : Prop := ∀ u z, IsPlaceholder u → NoCrossing u b (c ++ z)

/-- no key of `E` that starts in a restored piece runs on into the pieces after it -/
inductive Seps (E : GoMap) : List Seg → Prop
  | nil : Seps E []
  | cons {s : Seg} {segs : List Seg} :
      (∀ e ∈ E, NoCrossing e.1 (s.restore E) (restored E segs)) → Seps E segs → Seps E (s :: segs)

/-- the invariant of a restoration in progress over the map `E` -/
structure Guarded (E : GoMap) (segs : List Seg) : Prop where
  keys : ∀ e ∈ E, IsPlaceholder e.1
  toks : ∀ t, Seg.tok t ∈ segs → ∃ o, E.get? t = some o
  clean : ∀ s ∈ segs, ∀ e ∈ E, ¬ e.1 <:+: s.restore E
  seps : Seps E segs

section
variable {E : GoMap} {u o : Bytes}

theorem NoCrossing.append {old a b w : Bytes} (h1 : NoCrossing old a (b ++ w)) (h2 : NoCrossing old b w) :
    NoCrossing old (a ++ b) w := by
  intro a' ⟨v, hv⟩ hne hp
  rcases List.append_eq_append_iff.mp hv with ⟨a'', rfl, rfl⟩ | ⟨c', rfl, rfl⟩
  · by_cases h0 : a'' = []
    · subst h0; exact h2 b (List.suffix_refl _) (by simpa using hne) (by simpa using hp)
    · exact (h1 a'' (List.suffix_append _ _) h0 (by simpa using hp)).trans (List.prefix_append _ _)
  · exact h2 a' (List.suffix_append _ _) hne hp

theorem Seps.tail {s : Seg} {segs : List Seg} (h : Seps E (s :: segs)) : Seps E segs := by
  cases h; assumption

theorem Seps.of_chain (hkeys : ∀ e ∈ E, IsPlaceholder e.1) :
    ∀ {segs : List Seg}, (segs.map (Seg.restore E)).Chain' Sep → Seps E segs
  | [], _ => .nil
  | [s], _ => .cons (fun e _ => NoCrossing.nil_right e.1 _) .nil
  | s :: s' :: segs, h =>
    .cons (fun e he => (List.chain'_cons.mp h).1 e.1 (restored E segs) (hkeys e he))
      (Seps.of_chain hkeys (List.chain'_cons.mp h).2)

theorem Guarded.tail {s : Seg} {segs : List Seg} (h : Guarded E (s :: segs)) : Guarded E segs :=
  ⟨h.keys, fun t ht => h.toks t (List.mem_cons_of_mem _ ht),
    fun s' hs => h.clean s' (List.mem_cons_of_mem _ hs), h.seps.tail⟩

theorem restored_map_subst (hu : E.get? u = some o) (segs : List Seg) :
    restored E (segs.map (Seg.subst u o)) = restored E segs := by
  simp only [restored, List.map_map, Function.comp_def, Seg.restore_subst hu]

theorem Seps.subst {segs : List Seg} (h : Seps E segs) (hu : E.get? u = some o) :
    Seps E (segs.map (Seg.subst u o)) := by
  induction h with
  | nil => exact .nil
  | cons h1 _ ih => exact .cons (by simpa only [Seg.restore_subst hu, restored_map_subst hu] using h1) ih

theorem Guarded.subst {segs : List Seg} (h : Guarded E segs) (hu : E.get? u = some o) :
    Guarded E (segs.map (Seg.subst u o)) where
  keys := h.keys
  toks t ht := by
    obtain ⟨s, hs, hst⟩ := List.mem_map.mp ht
    cases s with
    | lit b => cases hst
    | tok t' =>
      simp only [Seg.subst] at hst
      split at hst
      · cases hst
      · cases hst; exact h.toks _ hs
  clean s hs e he := by
    obtain ⟨s', hs', rfl⟩ := List.mem_map.mp hs
    rw [Seg.restore_subst hu]
    exact h.clean s' hs' e he
  seps := h.seps.subst hu

theorem noCrossing_flat {e : Bytes × Bytes} (he : e ∈ E) (hkeys : ∀ e ∈ E, IsPlaceholder e.1) :
    ∀ {b : Bytes} {rest : List Seg}, (∀ t, Seg.tok t ∈ rest → ∃ o, E.get? t = some o) →
      NoCrossing e.1 b (restored E rest) → Seps E rest → NoCrossing e.1 b (flat rest)
  | b, [], _, _, _ => NoCrossing.nil_right _ b
  | b, .tok t :: rest, ht, _, _ => by
    obtain ⟨o', ho'⟩ := ht t (List.mem_cons_self _ _)
    exact (hkeys _ (GoMap.mem_of_get? ho')).noCrossing_into (hkeys e he) b (flat rest)
  | b, .lit c :: rest, ht, h0, .cons hc hs => by
    simp only [restored_cons, Seg.restore_lit] at h0
    have ih := noCrossing_flat he hkeys (fun t h' => ht t (List.mem_cons_of_mem _ h'))
      (h0.append (hc e he)) hs
    rintro a' ⟨v, rfl⟩ hne hp
    have h1 : e.1 <+: a' ++ c := ih (a' ++ c) ⟨v, by simp⟩ (by simp [hne]) (by simpa using hp)
    exact h0 a' (List.suffix_append _ _) hne (h1.trans (by simp))

theorem Guarded.noCrossing {s : Seg} {rest : List Seg} (h : Guarded E (s :: rest)) {e : Bytes × Bytes}
    (he : e ∈ E) : NoCrossing e.1 s.bytes (flat rest) := by
  cases s with
  | tok t =>
    obtain ⟨o', ho'⟩ := h.toks t (List.mem_cons_self _ _)
    exact (h.keys _ (GoMap.mem_of_get? ho')).noCrossing (h.keys e he)
  | lit b =>
    obtain _ | ⟨hb, hs⟩ := h.seps
    exact noCrossing_flat he h.keys (fun t ht => h.toks t (List.mem_cons_of_mem _ ht)) (hb e he) hs

theorem Guarded.replaceAll_head {s : Seg} {rest : List Seg} (h : Guarded E (s :: rest))
    (hu : E.get? u = some o) : replaceAll s.bytes u o = (s.subst u o).bytes := by
  have hkey : IsPlaceholder u := h.keys _ (GoMap.mem_of_get? hu)
  cases s with
  | lit b => exact replaceAll_eq_self (h.clean _ (List.mem_cons_self _ _) _ (GoMap.mem_of_get? hu))
  | tok t =>
    obtain ⟨o', ho'⟩ := h.toks t (List.mem_cons_self _ _)
    have ht : IsPlaceholder t := h.keys _ (GoMap.mem_of_get? ho')
    by_cases htu : t = u
    · subst htu
      simpa [Seg.subst, Seg.bytes] using
        (replaceAll_at_occurrence hkey.ne_nil [] : replaceAll (t ++ []) t o = o ++ replaceAll [] t o)
    · simp only [Seg.subst, htu, if_false, Seg.bytes]
      exact replaceAll_eq_self fun hin => htu (ht.infix_eq hkey hin).symm

/-- **Step lemma.**  Under the invariant, `ReplaceAll` of a binding of the map rewrites each piece
on its own. -/
theorem replaceAll_flat (hu : E.get? u = some o) :
    ∀ {segs : List Seg}, Guarded E segs → replaceAll (flat segs) u o = flat (segs.map (Seg.subst u o))
  | [], _ => rfl
  | s :: rest, h => by
    rw [flat_cons, replaceAll_append (h.noCrossing (GoMap.mem_of_get? hu)),
      h.replaceAll_head hu, replaceAll_flat hu h.tail]
    rfl

theorem flat_eq_restored : ∀ {segs : List Seg}, (∀ t, Seg.tok t ∉ segs) → flat segs = restored E segs
  | [], _ => rfl
  | .lit b :: rest, h => by
    rw [flat_cons, restored_cons, flat_eq_restored fun t ht => h t (List.mem_cons_of_mem _ ht)]
    rfl
  | .tok t :: _, h => absurd (List.mem_cons_self _ _) (h t)

/-- **Run lemma.**  `ReplaceAll` of each binding of `rem` in turn, when every `tok` piece has its
binding in `rem`, gives the piecewise restoration. -/
theorem restoreIn_flat : ∀ (rem : GoMap) {segs : List Seg}, Guarded E segs →
    (∀ e ∈ rem, E.get? e.1 = some e.2) → (∀ t, Seg.tok t ∈ segs → t ∈ rem.map Prod.fst) →
    restoreIn rem (flat segs) = restored E segs
  | [], segs, _, _, hcov => flat_eq_restored fun t ht => absurd (hcov t ht) (List.not_mem_nil _)
  | (u, o) :: rem, segs, h, hrem, hcov => by
    have hu : E.get? u = some o := hrem (u, o) (List.mem_cons_self _ _)
    rw [restoreIn_cons, replaceAll_flat hu h, ← restored_map_subst hu segs]
    refine restoreIn_flat rem (h.subst hu) (fun e he => hrem e (List.mem_cons_of_mem _ he)) ?_
    intro t ht
    obtain ⟨s, hs, hst⟩ := List.mem_map.mp ht
    cases s with
    | lit b => cases hst
    | tok t' =>
      simp only [Seg.subst] at hst
      split at hst
      · cases hst
      · cases hst
        rename_i htu
        simpa [htu] using hcov _ hs

theorem Guarded.restore_order {segs : List Seg} (h : Guarded E segs) (hnd : (E.map Prod.fst).Nodup)
    (ord : E.Order) : restoreIn ord.1 (flat segs) = restored E segs := by
  refine restoreIn_flat ord.1 h (fun e he => GoMap.get?_of_mem hnd (ord.2.subset he)) ?_
  intro t ht
  obtain ⟨o', ho'⟩ := h.toks t ht
  exact List.mem_map_of_mem Prod.fst (ord.2.symm.subset (GoMap.mem_of_get? ho'))

theorem Seps.not_infix {segs : List Seg} (hs : Seps E segs) {e : Bytes × Bytes} (he : e ∈ E)
    (hu : IsPlaceholder e.1) (hclean : ∀ s ∈ segs, ¬ e.1 <:+: s.restore E) : ¬ e.1 <:+: restored E segs := by
  induction hs with
  | nil => exact fun hin => hu.ne_nil (List.eq_nil_of_infix_nil hin)
  | cons h1 _ ih =>
    intro hin
    rcases (h1 e he).infix_append hin with h' | h'
    · exact hclean _ (List.mem_cons_self _ _) h'
    · exact ih (fun s hs => hclean s (List.mem_cons_of_mem _ hs)) h'

/-- **Leak freedom.**  Under the invariant the piecewise restoration holds no key of the map. -/
theorem Guarded.not_infix_restored {segs : List Seg} (h : Guarded E segs) {e : Bytes × Bytes}
    (he : e ∈ E) : ¬ e.1 <:+: restored E segs :=
  h.seps.not_infix he (h.keys e he) fun s hs => h.clean s hs e he

end

end GonkaProxy
