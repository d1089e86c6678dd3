import GonkaProxy.Sanitize.Response
import GonkaProxy.ToolSim.Protocol

/-!
# Restoring placeholders in a JSON text restores them in its strings

`RestoreBytes` works on the bytes of a response body: every placeholder is replaced by its
original wherever it stands, with no regard for the JSON around it.  On the text `json.Marshal`
writes this is the same as restoring inside every string and key of the value and marshalling
again, as long as the originals are texts `json.Marshal` writes as they are: a placeholder needs
no escape, so it stands in the text byte for byte, and no occurrence starts inside an escape or a
piece of JSON syntax.

* `EscapeFree`                   valid UTF-8 that `appendString` copies unchanged;
* `encodeScan_append`            `appendString` writes a valid text code point by code point;
* `prefix_of_prefix_encodeScan`  a text without a backslash that starts an encoded string starts
                                 the string;
* `replaceAll_encodeScan`        replacing a placeholder inside an encoded string is replacing it
                                 in the string and encoding the result;
* `JValue.mapStrings`            a function applied to every string and key of a value;
* `JValue.restoreIn_marshal`     restoring on the marshalled text is marshalling the restored value;
* `RestoreBytes_marshal`         the same for `RestoreBytes` with a map redaction builds; the
                                 restored text decodes to the restored value;
* `restoreBytes_toolCallMsgs`    the `tool_calls` the simulation writes come back with the
                                 originals in every name and in the strings of every arguments
                                 value, through both levels of encoding.
-/

set_option linter.unusedSectionVars false
set_option linter.unusedVariables false

namespace GonkaProxy

/-- texts `json.Marshal` writes as they are: valid UTF-8 with no byte or code point that
`appendString` escapes -/
def EscapeFree (o : Bytes) : Prop := Utf8 o ∧ encodeScan 0 o = o

/-! ## `appendString`, code point by code point -/

theorem Rune.c2_not_mem_tail {r : Bytes} (hr : Rune r) : (0xC2 : UInt8) ∉ r.tail := by
  cases hr <;> simp only [Tail, u8_le, u8_eq, toNat_lit_u8, Nat.reduceMod] at * <;>
    simp [u8_eq, UInt8.size] <;> omega

theorem Rune.eq_of_append {r₁ r₂ x y : Bytes} (h₁ : Rune r₁) (h₂ : Rune r₂) (h : r₁ ++ x = r₂ ++ y) :
    r₁ = r₂ ∧ x = y :=
  List.append_inj h (by rw [← runeWidth_rune h₁ x, ← runeWidth_rune h₂ y, h])

theorem Utf8.of_append {a t : Bytes} (ha : Utf8 a) (h : Utf8 (a ++ t)) : Utf8 t := by
  induction ha with
  | nil => exact h
  | @cons r s hr _ ih =>
    generalize hw : r ++ s ++ t = w at h
    cases h with
    | nil => simp at hw; exact absurd hw.1 (List.ne_nil_of_length_pos hr.length_pos)
    | @cons r₂ s₂ hr₂ hs₂ =>
      obtain ⟨rfl, hst⟩ := Rune.eq_of_append hr hr₂ (by rw [← List.append_assoc]; exact hw)
      exact ih (hst ▸ hs₂)

theorem encodeScan_rune_append {r : Bytes} (hr : Rune r) (t : Bytes) :
    encodeScan 0 (r ++ t) = encodeScan 0 r ++ encodeScan 0 t := by
  rcases encodeScan_rune_cases hr [] with ⟨c, rfl, hc⟩ | rfl | rfl | ⟨hc, h0⟩
  · exact (encodeScan_ascii hc t).2
  · rfl
  · rfl
  · rcases encodeScan_rune_cases hr t with ⟨c, rfl, hc'⟩ | rfl | rfl | ⟨-, h⟩
    · exact absurd hc' (UInt8.not_lt.mpr hc)
    · exact absurd h0 (by decide)
    · exact absurd h0 (by decide)
    · rw [List.append_nil, show encodeScan 0 ([] : Bytes) = [] from rfl, List.append_nil] at h0
      rw [h, h0]

theorem encodeScan_append {a : Bytes} (ha : Utf8 a) (t : Bytes) :
    encodeScan 0 (a ++ t) = encodeScan 0 a ++ encodeScan 0 t := by
  induction ha with
  | nil => rfl
  | @cons r s hr _ ih =>
    rw [List.append_assoc, encodeScan_rune_append hr, encodeScan_rune_append hr, ih, List.append_assoc]

theorem encodeScan_ascii_shape {c : UInt8} (hc : c < 0x80) :
    encodeScan 0 [c] = [c] ∨ ∃ x, encodeScan 0 [c] = 0x5C :: x := by
  have hE : c ≠ 0xE2 := u8_ne_of_lt hc (by decide)
  rw [encodeScan.eq_5 c [] (fun _ h => absurd h hE) (fun _ h => absurd h hE), if_pos hc,
    show encodeScan 0 ([] : Bytes) = [] from rfl, List.append_nil]
  by_cases hs : htmlSafe c
  · exact .inl (if_pos hs)
  · -- every escape starts with a backslash
    refine .inr (List.head?_eq_some_iff.1 ?_)
    simp [hs, apply_ite List.head?, ascii, escapeU00]
    exact fun _ _ => rfl

theorem encodeScan_rune_shape {r : Bytes} (hr : Rune r) :
    ∃ c x, encodeScan 0 r = c :: x ∧ (0xC2 : UInt8) ∉ x ∧ (c :: x = r ∨ c = 0x5C) := by
  rcases encodeScan_rune_cases hr [] with ⟨c, rfl, hc⟩ | rfl | rfl | ⟨-, h0⟩
  · rcases encodeScan_ascii_shape hc with h | ⟨x, h⟩
    · exact ⟨c, [], h, List.not_mem_nil _, .inl rfl⟩
    · refine ⟨0x5C, x, h, fun hm => ?_, .inr rfl⟩
      exact absurd ((encodeScan_ascii hc []).1 _ (h ▸ List.mem_cons_of_mem _ hm)) (by decide)
  · exact ⟨_, _, rfl, by decide, .inr rfl⟩
  · exact ⟨_, _, rfl, by decide, .inr rfl⟩
  · obtain ⟨c, x, rfl⟩ := List.exists_cons_of_ne_nil (List.ne_nil_of_length_pos hr.length_pos)
    rw [List.append_nil, show encodeScan 0 ([] : Bytes) = [] from rfl, List.append_nil] at h0
    exact ⟨c, x, h0, hr.c2_not_mem_tail, .inl rfl⟩

theorem prefix_of_prefix_encodeScan {p : Bytes} (hp : (0x5C : UInt8) ∉ p) {s : Bytes} (hs : Utf8 s)
    (h : p <+: encodeScan 0 s) : p <+: s := by
  induction hs generalizing p with
  | nil => exact h
  | @cons r s hr _ ih =>
    obtain ⟨c, x, hcx, -, hc⟩ := encodeScan_rune_shape hr
    rw [encodeScan_rune_append hr, hcx] at h
    rcases hc with hr' | rfl
    · rw [hr'] at h
      rcases List.prefix_or_prefix_of_prefix h (List.prefix_append r _) with h' | ⟨p', rfl⟩
      · exact h'.trans (List.prefix_append r s)
      · exact (List.prefix_append_right_inj r).mpr
          (ih (fun hm => hp (List.mem_append_right r hm)) ((List.prefix_append_right_inj r).mp h))
    · cases p with
      | nil => exact List.nil_prefix
      | cons q p => exact absurd (by rw [(List.cons_prefix_cons.mp h).1]; exact List.mem_cons_self _ _) hp

/-! ## placeholders in encoded strings -/

theorem IsPlaceholder.exists_c2_cons {u : Bytes} (hu : IsPlaceholder u) : ∃ t, u = 0xC2 :: t := by
  obtain ⟨t, ht⟩ := hu.starts_guillemet
  exact ⟨0xAB :: t, ht.symm⟩

theorem IsPlaceholder.not_mem {u : Bytes} (hu : IsPlaceholder u) {c : UInt8}
    (hc : c ∉ tokenPrefix ∧ isDigit c = false ∧ c ∉ tokenSuffix) : c ∉ u := fun h => by
  rcases hu.mem h with h | h | h
  · exact hc.1 h
  · exact absurd h (by rw [hc.2.1]; decide)
  · exact hc.2.2 h

theorem IsPlaceholder.encodeScan_eq {u : Bytes} (hu : IsPlaceholder u) : encodeScan 0 u = u := by
  obtain ⟨ds, -, hd, rfl⟩ := hu
  have hpre : Utf8 tokenPrefix :=
    .cons (r := [0xC2, 0xAB]) (.two (by decide) (by decide) ⟨by decide, by decide⟩) (utf8_of_ascii (by decide))
  have hdig : ∀ d ∈ digitBytes, encodeScan 0 [d] = [d] := by decide
  have hds : ∀ ds : Bytes, (∀ d ∈ ds, isDigit d = true) → encodeScan 0 ds = ds := by
    intro ds hd
    induction ds with
    | nil => rfl
    | cons d ds ih =>
      obtain ⟨hd1, hds⟩ := List.forall_mem_cons.mp hd
      show encodeScan 0 ([d] ++ ds) = [d] ++ ds
      rw [encodeScan_rune_append (.one (isDigit_le hd1)), hdig d (by simpa [isDigit] using hd1), ih hds]
  rw [encodeScan_append (hpre.append (utf8_of_ascii fun d h => isDigit_le (hd d h))),
    encodeScan_append hpre, hds ds hd]
  rfl

section
variable {u o : Bytes} (hu : IsPlaceholder u)
include hu

theorem replaceAll_cons_of_ne {c : UInt8} (hc : c ≠ 0xC2) (s : Bytes) :
    replaceAll (c :: s) u o = c :: replaceAll s u o :=
  replaceAll_cons fun h => by
    obtain ⟨t, rfl⟩ := hu.exists_c2_cons
    exact hc (List.cons_prefix_cons.mp h).1.symm

theorem replaceAll_append_of_not_mem {x : Bytes} (hx : (0xC2 : UInt8) ∉ x) (b : Bytes) :
    replaceAll (x ++ b) u o = x ++ replaceAll b u o := by
  induction x with
  | nil => rfl
  | cons c x ih =>
    rw [List.mem_cons, not_or] at hx
    rw [List.cons_append, replaceAll_cons_of_ne hu (Ne.symm hx.1), ih hx.2]
    rfl

theorem replaceAll_of_not_mem {x : Bytes} (hx : (0xC2 : UInt8) ∉ x) : replaceAll x u o = x := by
  simpa using replaceAll_append_of_not_mem hu (o := o) hx []

theorem replaceAll_cons_append {c : UInt8} {x : Bytes} (hx : (0xC2 : UInt8) ∉ x) {b : Bytes}
    (h : ¬ u <+: c :: (x ++ b)) : replaceAll (c :: (x ++ b)) u o = c :: (x ++ replaceAll b u o) := by
  rw [replaceAll_cons h, replaceAll_append_of_not_mem hu hx]

variable (ho : EscapeFree o)
include ho

/-- **One replacement inside an encoded string.**  Replacing a placeholder in what `appendString`
writes for a valid string is replacing it in the string and writing the result, and the result is
valid: the placeholder is written as it is, an escape never holds one, and none runs across the
encoding of a code point. -/
theorem replaceAll_encodeScan {s : Bytes} (hs : Utf8 s) :
    replaceAll (encodeScan 0 s) u o = encodeScan 0 (replaceAll s u o) ∧ Utf8 (replaceAll s u o) := by
  cases hs with
  | nil => exact ⟨rfl, .nil⟩
  | @cons r s hr hs =>
    by_cases hp : u <+: r ++ s
    · -- an occurrence at the front: it is written as it is, and the rest is shorter
      obtain ⟨t, ht⟩ := hp
      have ht' : Utf8 t := Utf8.of_append hu.utf8 (ht ▸ .cons hr hs)
      have : t.length < r.length + s.length := by
        have := congrArg List.length ht; simp only [List.length_append] at this
        have := hu.ne_nil; have := List.length_pos.mpr this; omega
      obtain ⟨ih1, ih2⟩ := replaceAll_encodeScan ht'
      rw [← ht, encodeScan_append hu.utf8, hu.encodeScan_eq, replaceAll_at_occurrence hu.ne_nil,
        replaceAll_at_occurrence hu.ne_nil, encodeScan_append ho.1, ho.2, ih1]
      exact ⟨rfl, ho.1.append ih2⟩
    · -- no occurrence at the front: the first code point stays, and so does its encoding
      have : s.length < r.length + s.length := by have := hr.length_pos; omega
      obtain ⟨ih1, ih2⟩ := replaceAll_encodeScan hs
      obtain ⟨c, x, rfl⟩ := List.exists_cons_of_ne_nil (List.ne_nil_of_length_pos hr.length_pos)
      obtain ⟨d, y, hdy, hy, -⟩ := encodeScan_rune_shape hr
      have hq : ¬ u <+: d :: (y ++ encodeScan 0 s) := fun h =>
        hp (prefix_of_prefix_encodeScan (hu.not_mem (by decide)) (.cons hr hs)
          (by rw [encodeScan_rune_append hr, hdy]; exact h))
      rw [List.cons_append] at hp
      rw [encodeScan_rune_append hr, hdy, List.cons_append d y, replaceAll_cons_append hu hy hq, ih1,
        List.cons_append c x, replaceAll_cons_append hu (x := x) hr.c2_not_mem_tail hp, ← List.cons_append c x,
        encodeScan_rune_append hr, hdy]
      exact ⟨rfl, .cons hr ih2⟩
termination_by s.length

end

/-! ## values with their strings restored -/

mutual
/-- the value with `f` applied to every string and every key -/
def JValue.mapStrings (f : Bytes → Bytes) : JValue → JValue
  | .string s => .string (f s)
  | .array items => .array (mapItemStrings f items)
  | .object ms => .object (mapMemberStrings f ms)
  | v => v
/-- the elements, `f` applied to their strings and keys -/
def mapItemStrings (f : Bytes → Bytes) : List JValue → List JValue
  | [] => []
  | x :: xs => x.mapStrings f :: mapItemStrings f xs
/-- the members, `f` applied to their keys and to the strings and keys of their values -/
def mapMemberStrings (f : Bytes → Bytes) : List (Bytes × JValue) → List (Bytes × JValue)
  | [] => []
  | (k, v) :: ms => (f k, v.mapStrings f) :: mapMemberStrings f ms
end

mutual
theorem JValue.depth_mapStrings (f : Bytes → Bytes) : ∀ v : JValue, (v.mapStrings f).depth = v.depth
  | .null | .bool _ | .number _ | .string _ => rfl
  | .array items => congrArg (· + 1) (itemsDepth_mapStrings f items)
  | .object ms => congrArg (· + 1) (membersDepth_mapStrings f ms)
theorem itemsDepth_mapStrings (f : Bytes → Bytes) :
    ∀ xs : List JValue, itemsDepth (mapItemStrings f xs) = itemsDepth xs
  | [] => rfl
  | x :: xs => congrArg₂ max (x.depth_mapStrings f) (itemsDepth_mapStrings f xs)
theorem membersDepth_mapStrings (f : Bytes → Bytes) :
    ∀ ms : List (Bytes × JValue), membersDepth (mapMemberStrings f ms) = membersDepth ms
  | [] => rfl
  | (_, v) :: ms => congrArg₂ max (v.depth_mapStrings f) (membersDepth_mapStrings f ms)
end

theorem JValue.eq_null_of_mapStrings {f : Bytes → Bytes} : ∀ {v : JValue}, v.mapStrings f = .null → v = .null
  | .null, _ => rfl
  | .bool _, h | .number _, h | .string _, h | .array _, h | .object _, h => by cases h

theorem JValue.eq_null_of_marshal {v : JValue} (hv : v.Canon) (h : v.marshal = ascii "null") : v = .null := by
  match v, hv with
  | .null, _ => rfl
  | .number _, hv =>
    obtain ⟨c, r, rfl, hc⟩ := NumberLit.cons hv
    obtain rfl : c = 0x6E := (List.cons.inj h).1
    rcases hc with hc | hc <;> exact absurd hc (by decide)
  | .bool true, _ | .bool false, _ | .string _, _ | .array [], _ | .array (_ :: _), _ | .object [], _
  | .object (_ :: _), _ => exact absurd (List.cons.inj h).1 (by decide)

theorem callArguments_marshal {v : JValue} (hv : v.Canon) (hn : v ≠ .null) : callArguments v.marshal = v.marshal := by
  obtain ⟨c, r, h, -⟩ := v.marshal_cons hv
  exact if_neg (not_or.mpr ⟨h ▸ List.cons_ne_nil c r, fun h' => hn (JValue.eq_null_of_marshal hv h')⟩)

/-! ## `Restore` on the text `json.Marshal` writes -/

theorem restoreIn_nil_text (E : GoMap) : restoreIn E [] = [] := by
  induction E with
  | nil => rfl
  | cons e E ih => exact ih

section
variable {E : GoMap} (hk : ∀ e ∈ E, IsPlaceholder e.1)
include hk

theorem restoreIn_of_not_mem {x : Bytes} (hx : (0xC2 : UInt8) ∉ x) : restoreIn E x = x := by
  induction E with
  | nil => rfl
  | cons e E ih =>
    rw [restoreIn_cons, replaceAll_of_not_mem (hk e (List.mem_cons_self _ _)) hx]
    exact ih fun e he => hk e (List.mem_cons_of_mem _ he)

theorem restoreIn_cons_byte {c : UInt8} (hc : c ≠ 0xC2) (b : Bytes) :
    restoreIn E (c :: b) = c :: restoreIn E b := by
  induction E generalizing b with
  | nil => rfl
  | cons e E ih =>
    rw [restoreIn_cons, restoreIn_cons, replaceAll_cons_of_ne (hk e (List.mem_cons_self _ _)) hc]
    exact ih (fun e he => hk e (List.mem_cons_of_mem _ he)) _

theorem restoreIn_append {c : UInt8} (hc : c ∉ tokenPrefix ∧ isDigit c = false ∧ c ∉ tokenSuffix)
    (a b : Bytes) : restoreIn E (a ++ c :: b) = restoreIn E a ++ c :: restoreIn E b := by
  induction E generalizing a b with
  | nil => rfl
  | cons e E ih =>
    have he := hk e (List.mem_cons_self _ _)
    rw [restoreIn_cons, restoreIn_cons, restoreIn_cons, replaceAll_append (NoCrossing.of_not_mem (he.not_mem hc)),
      replaceAll_cons_of_ne he (fun h => hc.1 (by rw [h]; decide))]
    exact ih (fun e he => hk e (List.mem_cons_of_mem _ he)) _ _

theorem restoreIn_append_itemsTail (a : Bytes) (xs : List JValue) :
    restoreIn E (a ++ marshalItemsTail xs) = restoreIn E a ++ restoreIn E (marshalItemsTail xs) := by
  cases xs with
  | nil => rw [marshalItemsTail, restoreIn_append hk (c := 0x5D) (by decide), restoreIn_cons_byte hk (by decide)]
  | cons x xs => rw [marshalItemsTail, restoreIn_append hk (c := 0x2C) (by decide), restoreIn_cons_byte hk (by decide)]

theorem restoreIn_append_membersTail (a : Bytes) (ms : List (Bytes × JValue)) :
    restoreIn E (a ++ marshalMembersTail ms) = restoreIn E a ++ restoreIn E (marshalMembersTail ms) := by
  cases ms with
  | nil => rw [marshalMembersTail, restoreIn_append hk (c := 0x7D) (by decide), restoreIn_cons_byte hk (by decide)]
  | cons m ms => rw [marshalMembersTail, restoreIn_append hk (c := 0x2C) (by decide), restoreIn_cons_byte hk (by decide)]

variable (ho : ∀ e ∈ E, EscapeFree e.2)
include ho

theorem restoreIn_encodeScan {s : Bytes} (hs : Utf8 s) :
    restoreIn E (encodeScan 0 s) = encodeScan 0 (restoreIn E s) ∧ Utf8 (restoreIn E s) := by
  induction E generalizing s with
  | nil => exact ⟨rfl, hs⟩
  | cons e E ih =>
    obtain ⟨h1, h2⟩ :=
      replaceAll_encodeScan (hk e (List.mem_cons_self _ _)) (ho e (List.mem_cons_self _ _)) hs
    rw [restoreIn_cons, restoreIn_cons, h1]
    exact ih (fun e he => hk e (List.mem_cons_of_mem _ he)) (fun e he => ho e (List.mem_cons_of_mem _ he)) h2

theorem restoreIn_encodeString {s : Bytes} (hs : Utf8 s) :
    restoreIn E (encodeString s) = encodeString (restoreIn E s) ∧ Utf8 (restoreIn E s) := by
  obtain ⟨h1, h2⟩ := restoreIn_encodeScan hk ho hs
  refine ⟨?_, h2⟩
  rw [encodeString, List.singleton_append, List.cons_append, restoreIn_cons_byte hk (c := 0x22) (by decide),
    restoreIn_append hk (c := 0x22) (by decide), h1, restoreIn_nil_text]
  rfl

mutual
/-- **Restoring on the text is restoring in the value.**  With placeholders as keys and originals
`json.Marshal` writes as they are, `Restore` on the text `json.Marshal` writes for a value, in any
order of the bindings, is the text of the value with every string and key restored, and that
value is again one `json.Marshal` writes. -/
theorem JValue.restoreIn_marshal : ∀ v : JValue, v.Canon →
    restoreIn E v.marshal = (v.mapStrings (restoreIn E)).marshal ∧ (v.mapStrings (restoreIn E)).Canon
  | .null, _ | .bool true, _ | .bool false, _ | .array [], _ | .object [], _ =>
    ⟨restoreIn_of_not_mem hk (by decide), trivial⟩
  | .number _, hv => ⟨restoreIn_of_not_mem hk fun h => absurd (hv.bytes_le _ h) (by decide), hv⟩
  | .string _, hv => restoreIn_encodeString hk ho hv
  | .array (x :: xs), ⟨hx, hxs⟩ => by
    obtain ⟨h1, h2⟩ := x.restoreIn_marshal hx
    obtain ⟨h3, h4⟩ := restoreIn_itemsTail xs hxs
    refine ⟨?_, h2, h4⟩
    rw [JValue.marshal, restoreIn_cons_byte hk (c := 0x5B) (by decide), restoreIn_append_itemsTail hk, h1, h3]
    rfl
  | .object ((k, v) :: ms), ⟨hk', hv, hms⟩ => by
    obtain ⟨h1, h2⟩ := restoreIn_encodeString hk ho hk'
    obtain ⟨h3, h4⟩ := v.restoreIn_marshal hv
    obtain ⟨h5, h6⟩ := restoreIn_membersTail ms hms
    refine ⟨?_, h2, h4, h6⟩
    rw [JValue.marshal, restoreIn_cons_byte hk (c := 0x7B) (by decide), restoreIn_append hk (c := 0x3A) (by decide),
      restoreIn_append_membersTail hk, h1, h3, h5]
    rfl
theorem restoreIn_itemsTail : ∀ xs : List JValue, ItemsCanon xs →
    restoreIn E (marshalItemsTail xs) = marshalItemsTail (mapItemStrings (restoreIn E) xs) ∧
      ItemsCanon (mapItemStrings (restoreIn E) xs)
  | [], _ => ⟨restoreIn_of_not_mem hk (by decide), trivial⟩
  | x :: xs, ⟨hx, hxs⟩ => by
    obtain ⟨h1, h2⟩ := x.restoreIn_marshal hx
    obtain ⟨h3, h4⟩ := restoreIn_itemsTail xs hxs
    refine ⟨?_, h2, h4⟩
    rw [marshalItemsTail, restoreIn_cons_byte hk (c := 0x2C) (by decide), restoreIn_append_itemsTail hk, h1, h3]
    rfl
theorem restoreIn_membersTail : ∀ ms : List (Bytes × JValue), MembersCanon ms →
    restoreIn E (marshalMembersTail ms) = marshalMembersTail (mapMemberStrings (restoreIn E) ms) ∧
      MembersCanon (mapMemberStrings (restoreIn E) ms)
  | [], _ => ⟨restoreIn_of_not_mem hk (by decide), trivial⟩
  | (k, v) :: ms, ⟨hk', hv, hms⟩ => by
    obtain ⟨h1, h2⟩ := restoreIn_encodeString hk ho hk'
    obtain ⟨h3, h4⟩ := v.restoreIn_marshal hv
    obtain ⟨h5, h6⟩ := restoreIn_membersTail ms hms
    refine ⟨?_, h2, h4, h6⟩
    rw [marshalMembersTail, restoreIn_cons_byte hk (c := 0x2C) (by decide), restoreIn_append hk (c := 0x3A) (by decide),
      restoreIn_append_membersTail hk, h1, h3, h5]
    rfl
end

theorem restoreIn_callArguments {v : JValue} (hv : v.Canon) :
    restoreIn E (callArguments v.marshal) = callArguments (v.mapStrings (restoreIn E)).marshal := by
  obtain ⟨h1, h2⟩ := v.restoreIn_marshal hk ho hv
  by_cases hn : v = .null
  · subst hn
    exact restoreIn_of_not_mem hk (by decide)
  · rw [callArguments_marshal hv hn, callArguments_marshal h2 fun h => hn (JValue.eq_null_of_mapStrings h), h1]

end

/-! ## `RestoreBytes` -/

theorem TokenMap.Sound.fromToken_eq_nil {tm : TokenMap} {c : Nat} (h : tm.Sound c) (he : tm.toToken = []) :
    tm.fromToken = [] := by
  cases hf : tm.fromToken with
  | nil => rfl
  | cons e m =>
    obtain ⟨t, o⟩ := e
    have hget : tm.fromToken.get? t = some o := by rw [hf]; simp [GoMap.get?]
    have := (h.inverse o t).mpr hget
    rw [he] at this
    cases this

theorem RestoreBytes_eq_restore {tm : TokenMap} {c : Nat} (h : tm.Sound c) (o : tm.fromToken.Order)
    (R : Bytes) : RestoreBytes R tm o = tm.Restore o R := by
  unfold RestoreBytes
  split
  · rename_i he
    have ho : o.1 = [] := List.Perm.eq_nil (h.fromToken_eq_nil he ▸ o.2)
    rw [TokenMap.Restore, ho]
    rfl
  · rfl

/-- **`RestoreBytes` on a marshalled body restores inside the value.**  For every map redaction can
reach whose originals `json.Marshal` writes as they are, in every order of the bindings, restoring
the text `json.Marshal` writes for a value gives the text of the value with every string and key
restored, and `json.Unmarshal` reads that value back from it. -/
theorem RestoreBytes_marshal {tm : TokenMap} {c : Nat} (hR : Redacted tm c)
    (ho : ∀ e ∈ tm.fromToken, EscapeFree e.2) (o : tm.fromToken.Order) {v : JValue} (hv : v.Canon)
    (hd : v.depth ≤ maxNestingDepth) :
    RestoreBytes v.marshal tm o = (v.mapStrings (tm.Restore o)).marshal ∧
      decode (RestoreBytes v.marshal tm o) = some (v.mapStrings (tm.Restore o)).toRaw := by
  obtain ⟨h1, h2⟩ := v.restoreIn_marshal (E := o.1) (fun e he => hR.sound.keys e (o.2.subset he))
    (fun e he => ho e (o.2.subset he)) hv
  have h : RestoreBytes v.marshal tm o = (v.mapStrings (tm.Restore o)).marshal :=
    (RestoreBytes_eq_restore hR.sound o _).trans h1
  refine ⟨h, ?_⟩
  rw [h]
  exact decode_marshal h2 (by rw [JValue.depth_mapStrings]; exact hd)

theorem redacted_bob :
    Redacted (redactSpans (ascii "Bob is here") [⟨0, 3, "PER"⟩] newTokenMap 0).2.1
      (redactSpans (ascii "Bob is here") [⟨0, 3, "PER"⟩] newTokenMap 0).2.2 ∧
    ∀ e ∈ (redactSpans (ascii "Bob is here") [⟨0, 3, "PER"⟩] newTokenMap 0).2.1.fromToken, EscapeFree e.2 := by
  refine ⟨.redact _ _ (by decide) (.init 0), ?_⟩
  have hL : ∀ e ∈ (redactSpans (ascii "Bob is here") [⟨0, 3, "PER"⟩] newTokenMap 0).2.1.fromToken,
      e = (formatToken 1, ascii "Bob") := by decide
  intro e he
  rw [hL e he]
  exact ⟨utf8_of_ascii (by decide), by decide⟩

/-- `"Bob"` redacted; the body `{"a":"«TOKEN_000001»"}` -/
theorem RestoreBytes_marshal_bob :
    let tm := (redactSpans (ascii "Bob is here") [⟨0, 3, "PER"⟩] newTokenMap 0).2.1
    let v := JValue.object [(ascii "a", .string (formatToken 1))]
    Redacted tm (redactSpans (ascii "Bob is here") [⟨0, 3, "PER"⟩] newTokenMap 0).2.2 ∧
      (∀ e ∈ tm.fromToken, EscapeFree e.2) ∧ v.Canon ∧ v.depth ≤ maxNestingDepth ∧
      RestoreBytes v.marshal tm (GoMap.Order.self _) = (v.mapStrings (tm.Restore (GoMap.Order.self _))).marshal ∧
      decode (RestoreBytes v.marshal tm (GoMap.Order.self _)) =
        some (v.mapStrings (tm.Restore (GoMap.Order.self _))).toRaw := by
  intro tm v
  obtain ⟨hR, ho⟩ := redacted_bob
  have hv : v.Canon := ⟨utf8_of_ascii (by decide), (formatToken_isPlaceholder 1).utf8, trivial⟩
  have hd : v.depth ≤ maxNestingDepth := by decide
  exact ⟨hR, ho, hv, hd, RestoreBytes_marshal hR ho _ hv hd⟩

/-! ## the `tool_calls` of a simulated reply -/

theorem mapItemStrings_toolCallMsgs (f : Bytes → Bytes) (hf : ∀ x : Bytes, (∀ b ∈ x, b ≤ 0x7F) → f x = x)
    (rnd : Nat → Bytes) : ∀ (i : Nat) (calls : List ParsedToolCall),
    mapItemStrings f ((toolCallMsgs rnd i calls).map ToolCallMsg.toJValue) =
      (toolCallMsgs rnd i (calls.map fun c => ⟨f c.name, f c.arguments⟩)).map ToolCallMsg.toJValue
  | _, [] => rfl
  | i, c :: cs => by
    simp only [toolCallMsgs, List.map_cons, mapItemStrings, mapItemStrings_toolCallMsgs f hf rnd (i + 1) cs,
      ToolCallMsg.toJValue, JValue.mapStrings, mapMemberStrings, hf _ (generateToolCallID_ascii _),
      hf (ascii "id") (by decide), hf (ascii "type") (by decide), hf (ascii "function") (by decide),
      hf (ascii "name") (by decide), hf (ascii "arguments") (by decide)]

/-- **The `tool_calls` of a simulated reply come back with the originals.**  For every map
redaction can reach whose originals `json.Marshal` writes as they are, in every order of the
bindings, and all well-formed calls: `RestoreBytes` on the `tool_calls` text `ParseResponse` writes
for the calls is the text it writes for the same calls with every placeholder restored in each
name and in every string and key of each arguments value, although those stand there as JSON text
inside a JSON string; and `json.Unmarshal` reads these calls back from it. -/
theorem restoreBytes_toolCallMsgs {tm : TokenMap} {c : Nat} (hR : Redacted tm c)
    (ho : ∀ e ∈ tm.fromToken, EscapeFree e.2) (o : tm.fromToken.Order) (rnd : Nat → Bytes)
    (calls : List (Bytes × JValue)) (hcalls : ∀ c ∈ calls, WellFormedCall c) :
    let restored := calls.map fun c => (tm.Restore o c.1, c.2.mapStrings (tm.Restore o))
    let tcs := toolCallMsgs rnd 0 (restored.map fun c => ⟨c.1, callArguments c.2.marshal⟩)
    RestoreBytes (marshalToolCallMsgs (toolCallMsgs rnd 0 (calls.map fun c => ⟨c.1, callArguments c.2.marshal⟩)))
        tm o = marshalToolCallMsgs tcs ∧
      decode (RestoreBytes (marshalToolCallMsgs
        (toolCallMsgs rnd 0 (calls.map fun c => ⟨c.1, callArguments c.2.marshal⟩))) tm o) =
        some (JValue.array (tcs.map ToolCallMsg.toJValue)).toRaw := by
  intro restored tcs
  have hk : ∀ e ∈ o.1, IsPlaceholder e.1 := fun e he => hR.sound.keys e (o.2.subset he)
  have ho' : ∀ e ∈ o.1, EscapeFree e.2 := fun e he => ho e (o.2.subset he)
  have hwf : ∀ c ∈ restored, WellFormedCall c := by
    intro c' hc'
    obtain ⟨c, hc, rfl⟩ := List.mem_map.mp hc'
    obtain ⟨h1, h2, h3⟩ := hcalls c hc
    exact ⟨(restoreIn_encodeScan hk ho' h1).2, (c.2.restoreIn_marshal hk ho' h2).2,
      by rw [JValue.depth_mapStrings]; exact h3⟩
  have hargs : (calls.map fun c => (⟨c.1, callArguments c.2.marshal⟩ : ParsedToolCall)).map
      (fun c => (⟨tm.Restore o c.name, tm.Restore o c.arguments⟩ : ParsedToolCall)) =
      restored.map fun c => ⟨c.1, callArguments c.2.marshal⟩ := by
    simp only [List.map_map, restored]
    exact List.map_congr_left fun c hc => by
      simp only [Function.comp, TokenMap.Restore, restoreIn_callArguments hk ho' (hcalls c hc).2.1]
      rfl
  have htext : RestoreBytes (marshalToolCallMsgs
      (toolCallMsgs rnd 0 (calls.map fun c => ⟨c.1, callArguments c.2.marshal⟩))) tm o = marshalToolCallMsgs tcs := by
    obtain ⟨hv, -⟩ := canon_toolCallMsgs (utf8_toolCallMsgs rnd 0 calls hcalls)
    rw [RestoreBytes_eq_restore hR.sound, TokenMap.Restore, marshalToolCallMsgs_eq,
      (JValue.restoreIn_marshal hk ho' _ hv).1, marshalToolCallMsgs_eq]
    show (JValue.array (mapItemStrings _ _)).marshal = _
    rw [mapItemStrings_toolCallMsgs _ (fun x hx => restoreIn_of_not_mem hk fun h => absurd (hx _ h) (by decide))]
    exact congrArg (fun l => (JValue.array ((toolCallMsgs rnd 0 l).map ToolCallMsg.toJValue)).marshal) hargs
  exact ⟨htext, htext ▸ decode_marshalToolCallMsgs (utf8_toolCallMsgs rnd 0 restored hwf)⟩

/-- the call `f` with the arguments `{"who":"«TOKEN_000001»"}`, `"Bob"` redacted -/
theorem restoreBytes_toolCallMsgs_bob :
    let tm := (redactSpans (ascii "Bob is here") [⟨0, 3, "PER"⟩] newTokenMap 0).2.1
    let calls := [(ascii "f", JValue.object [(ascii "who", .string (formatToken 1))])]
    let restored := calls.map fun c =>
      (tm.Restore (GoMap.Order.self _) c.1, c.2.mapStrings (tm.Restore (GoMap.Order.self _)))
    let tcs := toolCallMsgs (fun _ => []) 0 (restored.map fun c => ⟨c.1, callArguments c.2.marshal⟩)
    Redacted tm (redactSpans (ascii "Bob is here") [⟨0, 3, "PER"⟩] newTokenMap 0).2.2 ∧
      (∀ e ∈ tm.fromToken, EscapeFree e.2) ∧ (∀ c ∈ calls, WellFormedCall c) ∧
      RestoreBytes (marshalToolCallMsgs (toolCallMsgs (fun _ => []) 0
        (calls.map fun c => ⟨c.1, callArguments c.2.marshal⟩))) tm (GoMap.Order.self _) =
        marshalToolCallMsgs tcs ∧
      decode (RestoreBytes (marshalToolCallMsgs (toolCallMsgs (fun _ => []) 0
        (calls.map fun c => ⟨c.1, callArguments c.2.marshal⟩))) tm (GoMap.Order.self _)) =
        some (JValue.array (tcs.map ToolCallMsg.toJValue)).toRaw := by
  intro tm calls restored tcs
  obtain ⟨hR, ho⟩ := redacted_bob
  have hw : ∀ c ∈ calls, WellFormedCall c := fun c hc => by
    rw [List.mem_singleton.mp hc]
    exact ⟨utf8_of_ascii (by decide), ⟨utf8_of_ascii (by decide), (formatToken_isPlaceholder 1).utf8, trivial⟩,
      by decide⟩
  exact ⟨hR, ho, hw, restoreBytes_toolCallMsgs hR ho _ _ calls hw⟩

example : RestoreBytes (marshalToolCallMsgs (toolCallMsgs (fun _ => []) 0
      [⟨ascii "f", callArguments (JValue.object [(ascii "who", .string (formatToken 1))]).marshal⟩]))
      (redactSpans (ascii "Bob is here") [⟨0, 3, "PER"⟩] newTokenMap 0).2.1 (GoMap.Order.self _) =
    ascii "[\x7b\"id\":\"call_\",\"type\":\"function\",\"function\":\x7b\"name\":\"f\",\"arguments\":\"\x7b\\\"who\\\":\\\"Bob\\\"\x7d\"\x7d\x7d]" := by
  decide

end GonkaProxy
