import GonkaProxy.Json.Codec

/-!
# The decoder's strings are valid UTF-8

`unquote` writes U+FFFD for every byte that does not start a valid UTF-8 sequence and for every
`\u` escape of a lone surrogate, so whatever the bytes between the quotes, the Go string it gives
is valid UTF-8.  Every string and every key of a value `decode` returns is one of these.  This is
what lets a decoded string be marshalled again and read back as it is (`decode_marshal` asks for
valid UTF-8).

* `rune_encodeRune`         `utf8.EncodeRune` writes one code point, whatever number it gets;
* `utf8_unquoteScan`        `unquote` gives valid UTF-8 from any bytes;
* `RawJson.Utf8Strings`     every string and key of a decoded value is valid UTF-8;
* `decode_utf8Strings`      `decode` only gives such values.
-/

set_option linter.unusedSectionVars false
set_option linter.unusedVariables false

namespace GonkaProxy

/-! ## `utf8.EncodeRune` -/

theorem le_toUInt8 {a : UInt8} {n : Nat} (h : n < 256) : a ≤ n.toUInt8 ↔ a.toNat ≤ n := by
  rw [u8_le, toNat_toUInt8 h]

theorem toUInt8_le {a : UInt8} {n : Nat} (h : n < 256) : n.toUInt8 ≤ a ↔ n ≤ a.toNat := by
  rw [u8_le, toNat_toUInt8 h]

theorem tail_toUInt8 {n : Nat} (h : n < 64) : Tail (0x80 + n).toUInt8 :=
  ⟨(le_toUInt8 (by omega)).2 (by simp only [toNat_lit_u8, Nat.reduceMod]; omega), (toUInt8_le (by omega)).2 (by simp only [toNat_lit_u8, Nat.reduceMod]; omega)⟩

theorem toUInt8_eq {n : Nat} {a : UInt8} (h : n < 256) (ha : a.toNat = n) : n.toUInt8 = a :=
  u8_eq.2 (by rw [toNat_toUInt8 h, ha])

/-- **`utf8.EncodeRune` writes one code point** for every number: a surrogate or a number past
U+10FFFF becomes U+FFFD, everything else its RFC 3629 encoding -/
theorem rune_encodeRune (r : Nat) : Rune (encodeRune r) := by
  unfold encodeRune
  split_ifs with h1 h2 h3 h4
  · exact .one ((toUInt8_le (by omega)).2 (by simp only [toNat_lit_u8, Nat.reduceMod]; omega))
  · exact .two ((le_toUInt8 (by omega)).2 (by simp only [toNat_lit_u8, Nat.reduceMod]; omega)) ((toUInt8_le (by omega)).2 (by simp only [toNat_lit_u8, Nat.reduceMod]; omega))
      (tail_toUInt8 (by omega))
  · exact .eeef (by decide) (by decide) ⟨by decide, by decide⟩ ⟨by decide, by decide⟩
  · have hb := tail_toUInt8 (n := r / 0x40 % 0x40) (by omega)
    have hc := tail_toUInt8 (n := r % 0x40) (by omega)
    rcases (by omega : r / 0x1000 = 0 ∨ r / 0x1000 = 13 ∨ 1 ≤ r / 0x1000 ∧ r / 0x1000 ≤ 12 ∨
        14 ≤ r / 0x1000 ∧ r / 0x1000 ≤ 15) with h | h | h | h
    · rw [toUInt8_eq (a := 0xE0) (by omega) (by simp only [toNat_lit_u8, Nat.reduceMod]; omega)]
      exact .e0 ((le_toUInt8 (by omega)).2 (by simp only [toNat_lit_u8, Nat.reduceMod]; omega)) hb.2 hc
    · rw [toUInt8_eq (a := 0xED) (by omega) (by simp only [toNat_lit_u8, Nat.reduceMod]; omega)]
      exact .ed hb.1 ((toUInt8_le (by omega)).2 (by simp only [toNat_lit_u8, Nat.reduceMod]; omega)) hc
    · exact .e1ec ((le_toUInt8 (by omega)).2 (by simp only [toNat_lit_u8, Nat.reduceMod]; omega)) ((toUInt8_le (by omega)).2 (by simp only [toNat_lit_u8, Nat.reduceMod]; omega)) hb hc
    · exact .eeef ((le_toUInt8 (by omega)).2 (by simp only [toNat_lit_u8, Nat.reduceMod]; omega)) ((toUInt8_le (by omega)).2 (by simp only [toNat_lit_u8, Nat.reduceMod]; omega)) hb hc
  · have hb := tail_toUInt8 (n := r / 0x1000 % 0x40) (by omega)
    have hc := tail_toUInt8 (n := r / 0x40 % 0x40) (by omega)
    have hd := tail_toUInt8 (n := r % 0x40) (by omega)
    rcases (by omega : r / 0x40000 = 0 ∨ r / 0x40000 = 4 ∨ 1 ≤ r / 0x40000 ∧ r / 0x40000 ≤ 3) with h | h | h
    · rw [toUInt8_eq (a := 0xF0) (by omega) (by simp only [toNat_lit_u8, Nat.reduceMod]; omega)]
      exact .f0 ((le_toUInt8 (by omega)).2 (by simp only [toNat_lit_u8, Nat.reduceMod]; omega)) hb.2 hc hd
    · rw [toUInt8_eq (a := 0xF4) (by omega) (by simp only [toNat_lit_u8, Nat.reduceMod]; omega)]
      exact .f4 hb.1 ((toUInt8_le (by omega)).2 (by simp only [toNat_lit_u8, Nat.reduceMod]; omega)) hc hd
    · exact .f1f3 ((le_toUInt8 (by omega)).2 (by simp only [toNat_lit_u8, Nat.reduceMod]; omega)) ((toUInt8_le (by omega)).2 (by simp only [toNat_lit_u8, Nat.reduceMod]; omega)) hb hc hd

/-! ## `unquote` -/

theorem Rune.utf8 {r : Bytes} (h : Rune r) : Utf8 r := by simpa using Utf8.cons h .nil

theorem Utf8.ascii_cons {c : UInt8} {s : Bytes} (hc : c ≤ 0x7F) (hs : Utf8 s) : Utf8 (c :: s) :=
  .cons (r := [c]) (.one hc) hs

/-- **`unquote` gives valid UTF-8** from any bytes, from any point of its scan -/
theorem utf8_unquoteScan (k : Nat) (s : Bytes) : Utf8 (unquoteScan k s) := by
  induction k, s using unquoteScan.induct with
  | case1 => rw [unquoteScan]; exact .nil
  | case2 skip c s ih => rwa [unquoteScan]
  | case3 c s hc ih =>
    rw [unquoteScan, if_pos hc]
    exact .ascii_cons (by rcases hc with rfl | rfl | rfl | rfl <;> decide) ih
  | case4 s h1 ih | case5 s h1 _ ih | case6 s h1 _ _ ih | case7 s h1 _ _ _ ih | case8 s h1 _ _ _ _ ih =>
    simp only [unquoteScan, if_neg h1, *, if_false, if_true]; exact .ascii_cons (by decide) ih
  | case9 s h1 h2 h3 h4 h5 h6 hu => simp only [unquoteScan, h1, h2, h3, h4, h5, h6, hu, if_false, if_true]; exact .nil
  | case10 s r hr r2 hr2 hd h1 h2 h3 h4 h5 h6 hu ih | case11 s r hr r2 hr2 hd h1 h2 h3 h4 h5 h6 hu ih =>
    simp only [unquoteScan, h1, h2, h3, h4, h5, h6, hu, hr, hr2, hd, if_false, if_true, and_self, ne_eq,
      not_false_eq_true, not_true_eq_false]
    exact (rune_encodeRune _).utf8.append ih
  | case12 s r hr hr2 h1 h2 h3 h4 h5 h6 hu ih =>
    simp only [unquoteScan, h1, h2, h3, h4, h5, h6, hu, hr, hr2, if_false, if_true, and_self]
    exact (rune_encodeRune _).utf8.append ih
  | case13 s r hr h1 h2 h3 h4 h5 h6 hu ih =>
    simp only [unquoteScan, h1, h2, h3, h4, h5, h6, hu, hr, if_false, if_true]
    exact (rune_encodeRune _).utf8.append ih
  | case14 c s h1 h2 h3 h4 h5 h6 h7 =>
    simp only [unquoteScan.eq_3, h1, h2, h3, h4, h5, h6, h7, if_false]; exact .nil
  | case15 c s hne hc ih =>
    rw [unquoteScan.eq_4 c s hne, if_pos hc]
    exact .ascii_cons (by simp only [u8_lt, u8_le, toNat_lit_u8, Nat.reduceMod] at hc ⊢; omega) ih
  | case16 c s hne hc hw ih =>
    rw [unquoteScan.eq_4 c s hne, if_neg hc, if_pos hw]
    exact .cons (.eeef (by decide) (by decide) ⟨by decide, by decide⟩ ⟨by decide, by decide⟩) ih
  | case17 c s hne hc hw ih =>
    rw [unquoteScan.eq_4 c s hne, if_neg hc, if_neg hw]
    exact (rune_take_runeWidth hw).utf8.append ih

theorem utf8_unquote (s : Bytes) : Utf8 (unquote s) := utf8_unquoteScan 0 s

/-! ## decoded values -/

mutual
/-- every string and every key of the value is valid UTF-8 -/
def RawJson.Utf8Strings : RawJson → Prop
  | .string s => Utf8 s
  | .array items => RawItemsUtf8 items
  | .object ms => RawMembersUtf8 ms
  | .null | .bool _ | .number _ => True
def RawItemsUtf8 : List (RawJson × Bytes) → Prop
  | [] => True
  | (x, _) :: xs => x.Utf8Strings ∧ RawItemsUtf8 xs
def RawMembersUtf8 : List (Bytes × RawJson × Bytes) → Prop
  | [] => True
  | (k, v, _) :: ms => Utf8 k ∧ v.Utf8Strings ∧ RawMembersUtf8 ms
end

theorem rawItemsUtf8_iff : ∀ {items : List (RawJson × Bytes)},
    RawItemsUtf8 items ↔ ∀ x ∈ items, x.1.Utf8Strings
  | [] => by simp [RawItemsUtf8]
  | (x, b) :: xs => by simp [RawItemsUtf8, rawItemsUtf8_iff]

theorem rawMembersUtf8_iff : ∀ {ms : List (Bytes × RawJson × Bytes)},
    RawMembersUtf8 ms ↔ ∀ m ∈ ms, Utf8 m.1 ∧ m.2.1.Utf8Strings
  | [] => by simp [RawMembersUtf8]
  | (k, v, b) :: ms => by simp [RawMembersUtf8, rawMembersUtf8_iff, and_assoc]

/-- **The walk only reads valid UTF-8 strings**: a value, the elements of an array and the members
of an object, given fuel, have valid UTF-8 strings and keys, as long as those read before did -/
theorem parse_utf8Strings : ∀ fuel : Nat,
    (∀ s v r, parseValue fuel s = some (v, r) → v.Utf8Strings) ∧
    (∀ s acc l r, (∀ x ∈ acc, x.1.Utf8Strings) → parseElements fuel s acc = some (l, r) →
      ∀ x ∈ l, x.1.Utf8Strings) ∧
    (∀ s acc l r, (∀ m ∈ acc, Utf8 m.1 ∧ m.2.1.Utf8Strings) → parseMembers fuel s acc = some (l, r) →
      ∀ m ∈ l, Utf8 m.1 ∧ m.2.1.Utf8Strings)
  | 0 => ⟨fun _ _ _ h => (by cases h), fun _ _ _ _ _ h => (by cases h), fun _ _ _ _ _ h => (by cases h)⟩
  | f + 1 => by
    obtain ⟨ihv, ihe, ihm⟩ := parse_utf8Strings f
    refine ⟨fun s v r h => ?_, fun s acc l r hacc h => ?_, fun s acc l r hacc h => ?_⟩
    · rw [parseValue] at h
      split at h
      · split at h
        · cases h; exact trivial
        · obtain ⟨⟨ms, r'⟩, hm, he⟩ := Option.map_eq_some'.1 h
          cases he; exact rawMembersUtf8_iff.2 (ihm _ [] _ _ (by simp) hm)
      · split at h
        · cases h; exact trivial
        · obtain ⟨⟨xs, r'⟩, hx, he⟩ := Option.map_eq_some'.1 h
          cases he; exact rawItemsUtf8_iff.2 (ihe _ [] _ _ (by simp) hx)
      · obtain ⟨⟨b, r'⟩, _, he⟩ := Option.map_eq_some'.1 h
        cases he; exact utf8_unquote b
      · cases h; exact trivial
      · cases h; exact trivial
      · cases h; exact trivial
      · split at h
        · cases h; exact trivial
        · cases h
      · cases h
    · rw [parseElements] at h
      split at h
      · cases h
      · rename_i v rest hv
        split at h
        · refine ihe _ _ _ _ ?_ h
          exact List.forall_mem_cons.2 ⟨ihv _ _ _ hv, hacc⟩
        · cases h
          intro x hm
          rcases List.mem_cons.1 (List.mem_reverse.1 hm) with rfl | hm
          · exact ihv _ _ _ hv
          · exact hacc x hm
        · cases h
    · rw [parseMembers] at h
      split at h
      · split at h
        · cases h
        · rename_i key rest' _
          split at h
          · split at h
            · cases h
            · rename_i v rest'' hv
              split at h
              · refine ihm _ _ _ _ ?_ h
                exact List.forall_mem_cons.2 ⟨⟨utf8_unquote key, ihv _ _ _ hv⟩, hacc⟩
              · cases h
                intro m hm
                rcases List.mem_cons.1 (List.mem_reverse.1 hm) with rfl | hm
                · exact ⟨utf8_unquote key, ihv _ _ _ hv⟩
                · exact hacc m hm
              · cases h
          · cases h
      · cases h

/-- **Every string and key `json.Unmarshal` hands the program is valid UTF-8** -/
theorem decode_utf8Strings {data : Bytes} {v : RawJson} (h : decode data = some v) : v.Utf8Strings := by
  unfold decode at h
  split at h
  · obtain ⟨⟨v', r⟩, hv, he⟩ := Option.map_eq_some'.1 h
    cases he; exact (parse_utf8Strings _).1 _ _ _ hv
  · cases h

end GonkaProxy
