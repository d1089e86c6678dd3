import GonkaProxy.Json.Encode
import GonkaProxy.Json.Value
import GonkaProxy.Sanitize.Utf8

/-!
# `json.Marshal` and `json.Unmarshal` invert each other

The program decodes what the client and the upstream send, and marshals what it builds: the
rewritten request, the `tool_calls` of a simulated reply, the redacted messages.  This module
proves that the two directions of `encoding/json`, as modelled in `Json.Encode`, `Json.Scanner`
and `Json.Decode`, fit together on every value `json.Marshal` writes.

* `LitBody`                      the bytes between the quotes of a string literal the encoder
                                 writes: plain bytes, two-byte escapes and `\u` escapes;
* `litBody_encodeScan`           `appendString` writes such a body, for every Go string;
* `unquote_encodeScan`           `unquote` gives a valid UTF-8 string back unchanged;
* `NumberLit`                    RFC 8259's number literals;
* `JValue.marshal`, `JValue.Canon`   the compact text of a value, members in their order (what
                                 `json.Marshal` writes for a struct, and for a map once its
                                 members are sorted), and the values whose numbers are literals and
                                 whose strings are valid UTF-8;
* `JValue.run_marshal`           the scanner reads a marshalled value inside any stack of open
                                 containers and ends where the value's end leaves it;
* `JValue.parseValue_marshal`    the decoder's walk reads it back, with the bytes of every element
                                 and member;
* `checkValid_marshal`, `decode_marshal`   the round trip: `json.Valid` accepts the text and
                                 `json.Unmarshal` returns the value;
* `JValue.utf8_marshal`          the text is valid UTF-8;
* `JValue.marshal_array`         a slice marshalled by hand, elements joined by commas, is the
                                 same text.
-/

set_option linter.unusedSectionVars false
set_option linter.unusedVariables false

namespace GonkaProxy

/-! ## bytes as numbers -/

@[simp] theorem toNat_lit_u8 (n : Nat) : (no_index (OfNat.ofNat n : UInt8)).toNat = n % 256 := rfl

theorem u8_le {a b : UInt8} : a ≤ b ↔ a.toNat ≤ b.toNat := Iff.rfl

theorem u8_lt {a b : UInt8} : a < b ↔ a.toNat < b.toNat := Iff.rfl

theorem u8_eq {a b : UInt8} : a = b ↔ a.toNat = b.toNat := ⟨congrArg _, UInt8.toNat.inj⟩

theorem toNat_toUInt8 {n : Nat} (h : n < 256) : n.toUInt8.toNat = n := by
  simp [Nat.toUInt8, UInt8.ofNat, UInt8.toNat, BitVec.toNat_ofNat]; omega

theorem hexVal_hexDigit : ∀ n, n < 16 → hexVal (hexDigit n) = some n := by decide

theorem isHex_hexDigit : ∀ n, n < 16 → isHex (hexDigit n) = true := by decide

/-! ## code points -/

theorem runeWidth_rune {r : Bytes} (hr : Rune r) (t : Bytes) : runeWidth (r ++ t) = r.length := by
  cases hr <;> simp only [Tail, u8_le, u8_lt, u8_eq, toNat_lit_u8, Nat.reduceMod] at * <;>
    simp [runeWidth, isTailByte, u8_le, u8_lt, u8_eq, UInt8.size] <;> (try split_ifs) <;> omega

theorem isTailByte_iff {b : UInt8} : isTailByte b = true ↔ Tail b := by simp [isTailByte, Tail]

theorem Rune.tails {c : UInt8} {s : Bytes} (h : Rune (c :: s)) : ∀ b ∈ s, 0x80 ≤ b := by
  have hlo {b lo : UInt8} (h1 : lo ≤ b) (h2 : 0x80 ≤ lo) : 0x80 ≤ b := UInt8.le_trans h2 h1
  cases h with
  | one => simp
  | two _ _ hb => simpa using hb.1
  | e0 hb _ hc | ed hb _ hc => simpa using ⟨hlo hb (by decide), hc.1⟩
  | e1ec _ _ hb hc | eeef _ _ hb hc => simpa using ⟨hb.1, hc.1⟩
  | f0 hb _ hc hd | f4 hb _ hc hd => simpa using ⟨hlo hb (by decide), hc.1, hd.1⟩
  | f1f3 _ _ hb hc hd => simpa using ⟨hb.1, hc.1, hd.1⟩

theorem rune_take_runeWidth : ∀ {l : Bytes}, runeWidth l ≠ 0 → Rune (l.take (runeWidth l))
  | [], h => absurd rfl h
  | c :: s, h => by
    by_cases h0 : c < 0x80
    · simp only [runeWidth, if_pos h0, List.take_succ_cons, List.take_zero]
      exact .one (by simp only [u8_lt, u8_le] at h0 ⊢; simp [UInt8.size] at h0 ⊢; omega)
    rcases s with _ | ⟨b1, s⟩
    · simp [runeWidth, h0] at h
    by_cases h2 : 0xC2 ≤ c ∧ c ≤ 0xDF
    · simp only [runeWidth, if_neg h0, if_pos h2] at h ⊢
      split_ifs at h ⊢ with ht
      · exact .two h2.1 h2.2 (isTailByte_iff.mp ht)
      · exact absurd rfl h
    rcases s with _ | ⟨b2, s⟩
    · simp [runeWidth, h0, h2] at h
    by_cases h3 : c = 0xE0 ∧ 0xA0 ≤ b1 ∧ b1 ≤ 0xBF ∨ (0xE1 ≤ c ∧ c ≤ 0xEC ∨ 0xEE ≤ c ∧ c ≤ 0xEF) ∧
        isTailByte b1 ∨ c = 0xED ∧ 0x80 ≤ b1 ∧ b1 ≤ 0x9F
    · simp only [runeWidth, if_neg h0, if_neg h2, if_pos h3] at h ⊢
      split_ifs at h ⊢ with ht
      · have hb2 := isTailByte_iff.mp ht
        rcases h3 with ⟨rfl, h4, h5⟩ | ⟨(⟨h4, h5⟩ | ⟨h4, h5⟩), hb1⟩ | ⟨rfl, h4, h5⟩
        · exact .e0 h4 h5 hb2
        · exact .e1ec h4 h5 (isTailByte_iff.mp hb1) hb2
        · exact .eeef h4 h5 (isTailByte_iff.mp hb1) hb2
        · exact .ed h4 h5 hb2
      · exact absurd rfl h
    rcases s with _ | ⟨b3, s⟩
    · simp [runeWidth, h0, h2, h3] at h
    simp only [runeWidth, if_neg h0, if_neg h2, if_neg h3] at h ⊢
    split_ifs at h ⊢ with h4
    · obtain ⟨h4 | h4 | h4, ht2, ht3⟩ := h4
      · obtain ⟨rfl, h5, h6⟩ := h4
        exact .f0 h5 h6 (isTailByte_iff.mp ht2) (isTailByte_iff.mp ht3)
      · obtain ⟨h5, h6, ht1⟩ := h4
        exact .f1f3 h5 h6 (isTailByte_iff.mp ht1) (isTailByte_iff.mp ht2) (isTailByte_iff.mp ht3)
      · obtain ⟨rfl, h5, h6⟩ := h4
        exact .f4 h5 h6 (isTailByte_iff.mp ht2) (isTailByte_iff.mp ht3)
    · exact absurd rfl h

theorem runeWidth_tails {c : UInt8} {s : Bytes} (h : runeWidth (c :: s) ≠ 0) :
    ∀ b ∈ s.take (runeWidth (c :: s) - 1), 0x80 ≤ b := by
  have hr := rune_take_runeWidth h
  obtain ⟨w, hw⟩ : ∃ w, runeWidth (c :: s) = w + 1 := ⟨_, (Nat.succ_pred_eq_of_ne_zero h).symm⟩
  rw [hw, List.take_succ_cons] at hr
  rw [hw, Nat.add_sub_cancel]
  exact hr.tails

/-! ## string literals -/

/-- the bytes between the quotes of a string literal as `appendString` writes it: bytes that stand
for themselves, one-byte escapes, and `\u` escapes of four hexadecimal digits -/
inductive LitBody : Bytes → Prop
  | nil : LitBody []
  | plain {c : UInt8} {s : Bytes} : stringSafe c = true → LitBody s → LitBody (c :: s)
  | esc {e : UInt8} {s : Bytes} : e ∈ [0x22, 0x5C, 0x62, 0x66, 0x6E, 0x72, 0x74] → LitBody s →
      LitBody (0x5C :: e :: s)
  | escU {a b c d : UInt8} {s : Bytes} : isHex a = true → isHex b = true → isHex c = true →
      isHex d = true → LitBody s → LitBody (0x5C :: 0x75 :: a :: b :: c :: d :: s)

theorem LitBody.append {a b : Bytes} (ha : LitBody a) (hb : LitBody b) : LitBody (a ++ b) := by
  induction ha with
  | nil => exact hb
  | plain hc _ ih => exact .plain hc ih
  | esc he _ ih => exact .esc he ih
  | escU h1 h2 h3 h4 _ ih => exact .escU h1 h2 h3 h4 ih

theorem stringSafe_of_high {c : UInt8} (h : 0x80 ≤ c) : stringSafe c = true := by
  simp only [u8_le, toNat_lit_u8, Nat.reduceMod] at h
  simp [stringSafe, u8_le, u8_eq, UInt8.size]; omega

theorem stringSafe_of_htmlSafe {c : UInt8} (h : htmlSafe c = true) : stringSafe c = true := by
  simp only [htmlSafe, stringSafe, Bool.and_eq_true, decide_eq_true_eq, bne_iff_ne] at h ⊢
  exact ⟨⟨h.1.1.1.1.1.1, h.1.1.1.1.2⟩, h.1.1.1.2⟩

theorem encodeScan_skip : ∀ (k : Nat) (s : Bytes), encodeScan k s = s.take k ++ encodeScan 0 (s.drop k)
  | 0, _ => rfl
  | _ + 1, [] => rfl
  | k + 1, c :: s => by rw [encodeScan, encodeScan_skip k s]; rfl

theorem unquoteScan_skip : ∀ (k : Nat) (s : Bytes), unquoteScan k s = unquoteScan 0 (s.drop k)
  | 0, _ => rfl
  | _ + 1, [] => rfl
  | k + 1, _ :: s => by rw [unquoteScan]; exact unquoteScan_skip k s

theorem litBody_escapeAscii {c : UInt8} (hc : c < 0x80) :
    LitBody (if htmlSafe c = true then [c] else if c = 0x5C ∨ c = 0x22 then [0x5C, c]
      else if c = 0x08 then ascii "\\b" else if c = 0x0C then ascii "\\f"
      else if c = 0x0A then ascii "\\n" else if c = 0x0D then ascii "\\r"
      else if c = 0x09 then ascii "\\t" else escapeU00 c) := by
  have hd : c.toNat / 16 < 16 := by simp only [u8_lt, toNat_lit_u8, Nat.reduceMod] at hc; omega
  split_ifs with h1 h2
  · exact .plain (stringSafe_of_htmlSafe h1) .nil
  · exact .esc (by rcases h2 with rfl | rfl <;> decide) .nil
  all_goals first
    | exact .esc (by decide) .nil
    | exact .escU (by decide) (by decide) (isHex_hexDigit _ hd) (isHex_hexDigit _ (Nat.mod_lt _ (by decide))) .nil

/-- **`appendString` writes a literal body**, for every Go string, valid UTF-8 or not -/
theorem litBody_encodeScan (s : Bytes) : LitBody (encodeScan 0 s) := by
  suffices h : ∀ k s, (∀ b ∈ s.take k, 0x80 ≤ b) → LitBody (encodeScan k s) from h 0 s (by simp)
  intro k s
  induction k, s using encodeScan.induct with
  | case1 k => intro; cases k <;> exact .nil
  | case2 k c s ih =>
    intro h
    rw [List.take_succ_cons, List.forall_mem_cons] at h
    exact .plain (stringSafe_of_high h.1) (ih h.2)
  | case3 s ih | case4 s ih =>
    intro
    rw [encodeScan]
    exact LitBody.append (.escU (by decide) (by decide) (by decide) (by decide) .nil) (ih (by simp))
  | case5 c s hn1 hn2 hc ih =>
    intro
    rw [encodeScan.eq_5 c s hn1 hn2, if_pos hc]
    exact (litBody_escapeAscii hc).append (ih (by simp))
  | case6 c s hn1 hn2 hc hw ih =>
    intro
    rw [encodeScan.eq_5 c s hn1 hn2, if_neg hc, if_pos hw]
    exact LitBody.append (.escU (by decide) (by decide) (by decide) (by decide) .nil) (ih (by simp))
  | case7 c s hn1 hn2 hc hw ih =>
    intro
    rw [encodeScan.eq_5 c s hn1 hn2, if_neg hc, if_neg hw]
    exact .plain (stringSafe_of_high (UInt8.not_lt.mp hc)) (ih (runeWidth_tails hw))

theorem Scanner.goto_self {s : Scanner} {st : ScanState} (h : s.state = st) : s.goto st = s := by
  cases s; cases h; rfl

theorem Scanner.step_safe {s : Scanner} (hs : s.state = .inString) {c : UInt8} (hc : stringSafe c = true) :
    s.step c = s :=
  Scanner.run_inString hs [c] (by simpa using hc)

theorem isDigit_iff {c : UInt8} : isDigit c = true ↔ 0x30 ≤ c.toNat ∧ c.toNat ≤ 0x39 := by
  simp only [isDigit, digitBytes, decide_eq_true_eq, List.mem_cons, List.mem_singleton, List.not_mem_nil,
    or_false, u8_eq, toNat_lit_u8, Nat.reduceMod]
  omega

theorem isHex_safe {c : UInt8} (h : isHex c = true) : c ≠ 0x22 ∧ c ≠ 0x5C ∧ stringSafe c = true := by
  simp only [isHex, Bool.or_eq_true, Bool.and_eq_true, decide_eq_true_eq, isDigit_iff, u8_le,
    toNat_lit_u8, Nat.reduceMod] at h
  simp only [stringSafe, ne_eq, u8_eq, u8_le, Bool.and_eq_true, decide_eq_true_eq, bne_iff_ne,
    toNat_lit_u8, Nat.reduceMod]
  omega

theorem LitBody.run {b : Bytes} (hb : LitBody b) {s : Scanner} (hs : s.state = .inString) : s.run b = s := by
  induction hb with
  | nil => rfl
  | plain hc _ ih => rw [Scanner.run_cons, Scanner.step_safe hs hc, ih]
  | @esc e _ he _ ih =>
    have he' : e ∈ [(0x62 : UInt8), 0x66, 0x6E, 0x72, 0x74, 0x5C, 0x2F, 0x22] := by
      simp only [List.mem_cons, List.mem_singleton, List.not_mem_nil, or_false] at he ⊢; tauto
    simp only [Scanner.run_cons, Scanner.step, hs, Scanner.goto, if_neg (show (0x5C : UInt8) ≠ 0x22 by decide),
      if_pos (show (0x5C : UInt8) = 0x5C from rfl), if_pos he']
    exact (congrArg (fun t => Scanner.run t _) (Scanner.goto_self hs)).trans ih
  | escU h1 h2 h3 h4 _ ih =>
    simp only [Scanner.run_cons, Scanner.step, hs, Scanner.goto, h1, h2, h3, h4, if_true]
    simp only [show (0x5C : UInt8) ≠ 0x22 by decide, show (0x75 : UInt8) ∉ [0x62, 0x66, 0x6E, 0x72, 0x74, 0x5C, 0x2F, 0x22] by decide,
      if_false, if_true]
    exact (congrArg (fun t => Scanner.run t _) (Scanner.goto_self hs)).trans ih

theorem LitBody.stringBody {b : Bytes} (hb : LitBody b) (rest : Bytes) :
    stringBody (b ++ 0x22 :: rest) = some (b, rest) := by
  induction hb with
  | nil => rfl
  | @plain c s hc _ ih =>
    have h1 : c ≠ 0x22 := by simp [stringSafe] at hc; exact hc.1.2
    have h2 : c ≠ 0x5C := by simp [stringSafe] at hc; exact hc.2
    rw [List.cons_append, stringBody.eq_4 _ _ h1 (fun _ _ h _ => h2 h), ih]; rfl
  | esc _ _ ih => rw [List.cons_append, List.cons_append, stringBody.eq_3, ih]; rfl
  | @escU a b c d s h1 h2 h3 h4 _ ih =>
    obtain ⟨q1, b1, -⟩ := isHex_safe h1; obtain ⟨q2, b2, -⟩ := isHex_safe h2
    obtain ⟨q3, b3, -⟩ := isHex_safe h3; obtain ⟨q4, b4, -⟩ := isHex_safe h4
    simp only [List.cons_append]
    rw [stringBody.eq_3, stringBody.eq_4 _ _ q1 (fun _ _ h _ => b1 h), stringBody.eq_4 _ _ q2 (fun _ _ h _ => b2 h),
      stringBody.eq_4 _ _ q3 (fun _ _ h _ => b3 h), stringBody.eq_4 _ _ q4 (fun _ _ h _ => b4 h), ih]
    rfl

/-! ## `unquote` inverts `appendString` -/

theorem u8_ne_of_lt {c d : UInt8} (hc : c < 0x80) (hd : 0x80 ≤ d) : c ≠ d := by
  rintro rfl; simp only [u8_lt, u8_le] at hc hd; omega

theorem unquoteScan_encodeScan_ascii {c : UInt8} (hc : c < 0x80) (s : Bytes) :
    unquoteScan 0 (encodeScan 0 (c :: s)) = c :: unquoteScan 0 (encodeScan 0 s) := by
  have hE : c ≠ 0xE2 := u8_ne_of_lt hc (by decide)
  rw [encodeScan.eq_5 c s (fun _ h => absurd h hE) (fun _ h => absurd h hE), if_pos hc]
  split_ifs with h1 h2 h3 h4 h5 h6 h7
  · have h5C : c ≠ 0x5C := by simp [htmlSafe] at h1; exact h1.1.1.1.2
    rw [List.singleton_append, unquoteScan.eq_4 c _ (fun _ _ h _ => h5C h), if_pos hc]
  · rw [List.cons_append, List.singleton_append, unquoteScan.eq_3, if_pos (by tauto)]
  all_goals first
    | (subst_vars; rfl)
    | skip
  have hr : c.toNat < 128 := by simpa only [u8_lt, toNat_lit_u8, Nat.reduceMod] using hc
  have hu : ∀ t, getu4 (0x5C :: 0x75 :: 0x30 :: 0x30 :: hexDigit (c.toNat / 16) :: hexDigit (c.toNat % 16) :: t) =
      some c.toNat := by
    intro t
    simp [getu4, hexVal_hexDigit _ (show c.toNat / 16 < 16 by omega),
      hexVal_hexDigit _ (Nat.mod_lt _ (show 16 > 0 by decide)), show hexVal 0x30 = some 0 from rfl]
    omega
  have hrune : encodeRune c.toNat = [c] := by
    simp only [encodeRune, if_pos hr, List.cons.injEq, and_true]
    exact UInt8.toNat.inj (toNat_toUInt8 (by omega))
  show unquoteScan 0 (0x5C :: 0x75 :: 0x30 :: 0x30 :: hexDigit (c.toNat / 16) :: hexDigit (c.toNat % 16) ::
    encodeScan 0 s) = _
  rw [unquoteScan.eq_3, if_neg (by decide), if_neg (by decide), if_neg (by decide), if_neg (by decide),
    if_neg (by decide), if_neg (by decide), if_pos rfl, hu]
  simp only [if_neg (show ¬ (55296 ≤ c.toNat ∧ c.toNat < 57344) by omega), hrune]
  rfl

theorem encodeScan_rune {c : UInt8} {rest : Bytes} (hr : Rune (c :: rest)) (hc : ¬ c < 0x80) (s : Bytes)
    (hn1 : ∀ s1, c = 0xE2 → rest ++ s = 0x80 :: 0xA8 :: s1 → False)
    (hn2 : ∀ s1, c = 0xE2 → rest ++ s = 0x80 :: 0xA9 :: s1 → False) :
    encodeScan 0 (c :: rest ++ s) = c :: rest ++ encodeScan 0 s := by
  have hw : runeWidth (c :: (rest ++ s)) = rest.length + 1 := runeWidth_rune hr s
  rw [List.cons_append, encodeScan.eq_5 c _ hn1 hn2, if_neg hc, hw, if_neg (Nat.succ_ne_zero _),
    Nat.add_sub_cancel, encodeScan_skip, List.take_left, List.drop_left, List.cons_append]

theorem unquoteScan_rune {c : UInt8} {rest : Bytes} (hr : Rune (c :: rest)) (hc : ¬ c < 0x80) (t : Bytes) :
    unquoteScan 0 (c :: rest ++ t) = c :: rest ++ unquoteScan 0 t := by
  have hw : runeWidth (c :: (rest ++ t)) = rest.length + 1 := runeWidth_rune hr t
  have h5C : c ≠ 0x5C := by rintro rfl; exact hc (by decide)
  rw [List.cons_append, unquoteScan.eq_4 c _ (fun _ _ h _ => h5C h), if_neg hc, hw, if_neg (Nat.succ_ne_zero _),
    Nat.add_sub_cancel, unquoteScan_skip, List.drop_left, ← List.cons_append, List.take_left' (by simp)]

theorem encodeScan_rune_cases {r : Bytes} (hr : Rune r) (s : Bytes) :
    (∃ c, r = [c] ∧ c < 0x80) ∨ r = [0xE2, 0x80, 0xA8] ∨ r = [0xE2, 0x80, 0xA9] ∨
      (0x80 ≤ r.headD 0 ∧ encodeScan 0 (r ++ s) = r ++ encodeScan 0 s) := by
  obtain ⟨c, rest, rfl⟩ : ∃ c rest, r = c :: rest :=
    List.exists_cons_of_ne_nil (List.ne_nil_of_length_pos hr.length_pos)
  have hw := runeWidth_rune hr s
  by_cases hc : c < 0x80
  · simp only [List.cons_append, runeWidth, if_pos hc, List.length_cons] at hw
    exact .inl ⟨c, by rw [List.eq_nil_of_length_eq_zero (by omega : rest.length = 0)], hc⟩
  by_cases h1 : ∃ s1, c = 0xE2 ∧ rest ++ s = 0x80 :: 0xA8 :: s1
  · obtain ⟨s1, rfl, hs1⟩ := h1
    have h3 : rest.length = 2 := by
      rw [List.cons_append, hs1] at hw; simp [runeWidth, isTailByte] at hw; omega
    exact .inr (.inl (by rw [← List.take_left rest s, h3, hs1]; rfl))
  by_cases h2 : ∃ s1, c = 0xE2 ∧ rest ++ s = 0x80 :: 0xA9 :: s1
  · obtain ⟨s1, rfl, hs1⟩ := h2
    have h3 : rest.length = 2 := by
      rw [List.cons_append, hs1] at hw; simp [runeWidth, isTailByte] at hw; omega
    exact .inr (.inr (.inl (by rw [← List.take_left rest s, h3, hs1]; rfl)))
  exact .inr (.inr (.inr ⟨UInt8.not_lt.mp hc,
    encodeScan_rune hr hc s (fun s1 hE h => h1 ⟨s1, hE, h⟩) (fun s1 hE h => h2 ⟨s1, hE, h⟩)⟩))

theorem unquoteScan_encodeScan_rune {r : Bytes} (hr : Rune r) (s : Bytes) :
    unquoteScan 0 (encodeScan 0 (r ++ s)) = r ++ unquoteScan 0 (encodeScan 0 s) := by
  rcases encodeScan_rune_cases hr s with ⟨c, rfl, hc⟩ | rfl | rfl | ⟨hc, h⟩
  · exact unquoteScan_encodeScan_ascii hc s
  · rfl
  · rfl
  · obtain ⟨c, rest, rfl⟩ : ∃ c rest, r = c :: rest :=
      List.exists_cons_of_ne_nil (List.ne_nil_of_length_pos hr.length_pos)
    rw [h, unquoteScan_rune hr (UInt8.not_lt.mpr hc)]

/-- **`unquote` inverts `appendString` on valid UTF-8**: decoding the literal `json.Marshal` writes
for a valid UTF-8 string gives the string back -/
theorem unquote_encodeScan {s : Bytes} (hs : Utf8 s) : unquote (encodeScan 0 s) = s := by
  unfold unquote
  induction hs with
  | nil => rfl
  | cons hr _ ih => rw [unquoteScan_encodeScan_rune hr, ih]

/-! ## number literals -/

/-- `1*DIGIT` -/
def Digits (ds : Bytes) : Prop := ds ≠ [] ∧ ∀ d ∈ ds, isDigit d = true

/-- `int = zero / ( digit1-9 *DIGIT )` -/
inductive IntPart : Bytes → Prop
  | zero : IntPart [0x30]
  | digits {d : UInt8} {ds : Bytes} : 0x31 ≤ d → d ≤ 0x39 → (∀ x ∈ ds, isDigit x = true) → IntPart (d :: ds)

/-- `[ frac ]`, where `frac = decimal-point 1*DIGIT` -/
inductive FracPart : Bytes → Prop
  | none : FracPart []
  | some {ds : Bytes} : Digits ds → FracPart (0x2E :: ds)

/-- `[ exp ]`, where `exp = e [ minus / plus ] 1*DIGIT` -/
inductive ExpPart : Bytes → Prop
  | none : ExpPart []
  | some {e : UInt8} {sign ds : Bytes} : (e = 0x65 ∨ e = 0x45) → (sign = [] ∨ sign = [0x2B] ∨ sign = [0x2D]) →
      Digits ds → ExpPart (e :: (sign ++ ds))

/-- RFC 8259, section 6: `number = [ minus ] int [ frac ] [ exp ]` -/
inductive NumberLit : Bytes → Prop
  | mk {m i f e : Bytes} : (m = [] ∨ m = [0x2D]) → IntPart i → FracPart f → ExpPart e →
      NumberLit (m ++ (i ++ (f ++ e)))

/-- the bytes that follow a value in what `json.Marshal` writes, the space `eof` feeds, and the
newline `json.Encoder` ends a value with -/
def Delim (d : UInt8) : Prop := d = 0x2C ∨ d = 0x5D ∨ d = 0x7D ∨ d = 0x20 ∨ d = 0x0A

namespace Scanner

@[simp] theorem goto_state (s : Scanner) (st : ScanState) : (s.goto st).state = st := rfl

@[simp] theorem goto_goto (s : Scanner) (a b : ScanState) : (s.goto a).goto b = s.goto b := rfl

@[simp] theorem endValue_goto (s : Scanner) (st : ScanState) (c : UInt8) : (s.goto st).endValue c = s.endValue c := rfl

/-- the states in which a number may end -/
def NumEnd (st : ScanState) : Prop := st = .zero ∨ st = .one ∨ st = .dot0 ∨ st = .e0

theorem run_digits {s : Scanner} {st : ScanState} (hst : st = .one ∨ st = .dot0 ∨ st = .e0) :
    ∀ ds : Bytes, (∀ d ∈ ds, isDigit d = true) → (s.goto st).run ds = s.goto st
  | [], _ => rfl
  | d :: ds, h => by
    rw [List.forall_mem_cons] at h
    have hstep : (s.goto st).step d = s.goto st := by
      rcases hst with rfl | rfl | rfl <;> simp only [step, goto_state, if_pos h.1]
    rw [run_cons, hstep, run_digits hst ds h.2]

theorem run_of_digits {s : Scanner} {st : ScanState} {ds : Bytes} (h : Digits ds) (hst : st = .one ∨ st = .dot0 ∨ st = .e0)
    (hfirst : ∀ d, isDigit d = true → s.step d = s.goto st) : s.run ds = s.goto st := by
  obtain ⟨d, ds, rfl⟩ := List.exists_cons_of_ne_nil h.1
  have h2 := h.2
  rw [List.forall_mem_cons] at h2
  rw [run_cons, hfirst d h2.1, run_digits hst ds h2.2]

theorem step_numEnd {s : Scanner} {st : ScanState} (hst : NumEnd st) {d : UInt8} (hd : Delim d) :
    (s.goto st).step d = s.endValue d := by
  have hnd : isDigit d = false := by rcases hd with rfl | rfl | rfl | rfl | rfl <;> rfl
  have hne : ¬ (d = 0x2E) ∧ ¬ (d = 0x65 ∨ d = 0x45) := by rcases hd with rfl | rfl | rfl | rfl | rfl <;> decide
  rcases hst with rfl | rfl | rfl | rfl <;>
    simp only [step, goto_state, zeroStep, hnd, if_neg hne.1, if_neg hne.2, endValue_goto, Bool.false_eq_true,
      if_false]

theorem isSpace_digit {d : UInt8} (h : isDigit d = true) : isSpace d = false := by
  rw [isDigit_iff] at h
  simp only [isSpace, Bool.or_eq_false_iff, beq_eq_false_iff_ne, ne_eq, u8_eq, toNat_lit_u8, Nat.reduceMod]
  omega

theorem step_intFirst {s : Scanner} (hs : s.state = .beginValue ∨ s.state = .neg) {d : UInt8}
    (h1 : 0x31 ≤ d) (h2 : d ≤ 0x39) : s.step d = s.goto .one := by
  have hd : 0x31 ≤ d.toNat ∧ d.toNat ≤ 0x39 := ⟨h1, h2⟩
  have hsp : isSpace d = false := isSpace_digit (isDigit_iff.mpr (by omega))
  rcases hs with hs | hs <;> simp only [step, hs, beginValue, hsp, u8_eq, u8_le, toNat_lit_u8, Nat.reduceMod,
    Bool.false_eq_true, if_false] <;> split_ifs <;> first | rfl | omega

theorem run_intPart {s : Scanner} (hs : s.state = .beginValue ∨ s.state = .neg) {i : Bytes} (hi : IntPart i) :
    ∃ st, (st = .zero ∨ st = .one) ∧ s.run i = s.goto st := by
  cases hi with
  | zero => exact ⟨.zero, .inl rfl, by rcases hs with hs | hs <;> simp [step, hs, beginValue, isSpace]⟩
  | digits h1 h2 hds => exact ⟨.one, .inr rfl, by rw [run_cons, step_intFirst hs h1 h2, run_digits (.inl rfl) _ hds]⟩

theorem run_fracPart {s : Scanner} {st : ScanState} (hst : st = .zero ∨ st = .one) {f : Bytes} (hf : FracPart f) :
    ∃ st', (st' = .zero ∨ st' = .one ∨ st' = .dot0) ∧ (s.goto st).run f = s.goto st' := by
  cases hf with
  | none => exact ⟨st, by rcases hst with rfl | rfl <;> simp, rfl⟩
  | some hds =>
    refine ⟨.dot0, .inr (.inr rfl), ?_⟩
    have hdot : (s.goto st).step 0x2E = s.goto .dot := by
      rcases hst with rfl | rfl <;> simp [step, zeroStep, isDigit, digitBytes]
    rw [run_cons, hdot, run_of_digits hds (.inr (.inl rfl)) fun d hd => by simp [step, hd]]; rfl

theorem run_expPart {s : Scanner} {st : ScanState} (hst : st = .zero ∨ st = .one ∨ st = .dot0) {e : Bytes}
    (he : ExpPart e) : ∃ st', NumEnd st' ∧ (s.goto st).run e = s.goto st' := by
  cases he with
  | none => exact ⟨st, by rcases hst with rfl | rfl | rfl <;> simp [NumEnd], rfl⟩
  | @some c sign ds hc hsign hds =>
    refine ⟨.e0, .inr (.inr (.inr rfl)), ?_⟩
    have he : (s.goto st).step c = s.goto .e := by
      rcases hst with rfl | rfl | rfl <;> rcases hc with rfl | rfl <;> simp [step, zeroStep, isDigit, digitBytes]
    have hesign : ∀ d, isDigit d = true → (s.goto .eSign).step d = s.goto .e0 := fun d hd => by
      simp [step, eSignStep, hd]
    rw [run_cons, he]
    rcases hsign with rfl | rfl | rfl
    · refine run_of_digits hds (.inr (.inr rfl)) fun d hd => ?_
      have : ¬ (d = 0x2B ∨ d = 0x2D) := by rw [isDigit_iff] at hd; simp only [u8_eq, toNat_lit_u8]; omega
      simp [step, eSignStep, hd, this]
    all_goals
      rw [List.singleton_append, run_cons]
      exact run_of_digits hds (.inr (.inr rfl)) hesign

/-- **The scanner reads a number literal**: from the start of a value, it ends in a state where a
number may end, with the stack unchanged -/
theorem run_numberLit {s : Scanner} (hs : s.state = .beginValue) {lit : Bytes} (h : NumberLit lit) :
    ∃ st, NumEnd st ∧ s.run lit = s.goto st := by
  cases h with
  | @mk m i f e hm hi hf he =>
  obtain ⟨s1, hs1, hrun1, hg1⟩ : ∃ s1 : Scanner, (s1.state = .beginValue ∨ s1.state = .neg) ∧
      s.run m = s1 ∧ ∀ st, s1.goto st = s.goto st := by
    rcases hm with rfl | rfl
    · exact ⟨s, .inl hs, rfl, fun _ => rfl⟩
    · exact ⟨s.goto .neg, .inr rfl, by simp [step, hs, beginValue, isSpace], fun _ => rfl⟩
  obtain ⟨st1, hst1, hrun2⟩ := run_intPart hs1 hi
  obtain ⟨st2, hst2, hrun3⟩ := @run_fracPart s _ hst1 _ hf
  obtain ⟨st3, hst3, hrun4⟩ := @run_expPart s _ hst2 _ he
  exact ⟨st3, hst3, by rw [run_append, run_append, run_append, hrun1, hrun2, hg1, hrun3, hrun4]⟩

end Scanner

/-! ## values -/

mutual
/-- the compact text of a value, members in their order: what `json.Marshal` writes for a struct,
a slice, a string, and for a map once its members are sorted -/
def JValue.marshal : JValue → Bytes
  | .null => ascii "null"
  | .bool true => ascii "true"
  | .bool false => ascii "false"
  | .number lit => lit
  | .string s => encodeString s
  | .array [] => [0x5B, 0x5D]
  | .array (x :: xs) => 0x5B :: (x.marshal ++ marshalItemsTail xs)
  | .object [] => [0x7B, 0x7D]
  | .object ((k, v) :: ms) => 0x7B :: (encodeString k ++ 0x3A :: (v.marshal ++ marshalMembersTail ms))
/-- the elements of an array after the first, and the closing bracket -/
def marshalItemsTail : List JValue → Bytes
  | [] => [0x5D]
  | x :: xs => 0x2C :: (x.marshal ++ marshalItemsTail xs)
/-- the members of an object after the first, and the closing brace -/
def marshalMembersTail : List (Bytes × JValue) → Bytes
  | [] => [0x7D]
  | (k, v) :: ms => 0x2C :: (encodeString k ++ 0x3A :: (v.marshal ++ marshalMembersTail ms))
end

example : (JValue.object [(ascii "a", .array [.null, .number (ascii "-1.5e3")]), (ascii "b<", .string (ascii "x\n"))]).marshal =
    ascii "\x7b\"a\":[null,-1.5e3],\"b\\u003c\":\"x\\n\"\x7d" := by decide

mutual
/-- a value `json.Marshal` writes and the decoder reads back: its numbers are literals of RFC 8259,
its strings and keys valid UTF-8 -/
def JValue.Canon : JValue → Prop
  | .null | .bool _ => True
  | .number lit => NumberLit lit
  | .string s => Utf8 s
  | .array items => ItemsCanon items
  | .object ms => MembersCanon ms
def ItemsCanon : List JValue → Prop
  | [] => True
  | x :: xs => x.Canon ∧ ItemsCanon xs
def MembersCanon : List (Bytes × JValue) → Prop
  | [] => True
  | (k, v) :: ms => Utf8 k ∧ v.Canon ∧ MembersCanon ms
end

mutual
/-- how many arrays and objects are open at the deepest point of the value -/
def JValue.depth : JValue → Nat
  | .array items => itemsDepth items + 1
  | .object ms => membersDepth ms + 1
  | _ => 0
def itemsDepth : List JValue → Nat
  | [] => 0
  | x :: xs => max x.depth (itemsDepth xs)
def membersDepth : List (Bytes × JValue) → Nat
  | [] => 0
  | (_, v) :: ms => max v.depth (membersDepth ms)
end

mutual
/-- the calls of the decoder's walk a value takes: its fuel -/
def JValue.size : JValue → Nat
  | .array items => itemsSize items + 1
  | .object ms => membersSize ms + 1
  | _ => 1
def itemsSize : List JValue → Nat
  | [] => 0
  | x :: xs => x.size + itemsSize xs + 1
def membersSize : List (Bytes × JValue) → Nat
  | [] => 0
  | (_, v) :: ms => v.size + membersSize ms + 1
end

mutual
/-- the value as the decoder's walk returns it, every element and member with its marshalled bytes -/
def JValue.toRaw : JValue → RawJson
  | .null => .null
  | .bool b => .bool b
  | .number lit => .number lit
  | .string s => .string s
  | .array items => .array (rawItems items)
  | .object ms => .object (rawMembers ms)
def rawItems : List JValue → List (RawJson × Bytes)
  | [] => []
  | x :: xs => (x.toRaw, x.marshal) :: rawItems xs
def rawMembers : List (Bytes × JValue) → List (Bytes × RawJson × Bytes)
  | [] => []
  | (k, v) :: ms => (k, v.toRaw, v.marshal) :: rawMembers ms
end

/-! ## the scanner reads what `json.Marshal` writes -/

namespace Scanner

theorem step_pop (st : ScanState) (ps : ParseState) (p : List ParseState) (e : Bool) {d : UInt8} (hd : Delim d) :
    ((⟨st, ps :: p, e⟩ : Scanner).pop p).step d = (⟨.beginValue, p, e⟩ : Scanner).endValue d := by
  cases p <;> rfl

theorem run_encodeString (p : List ParseState) (e : Bool) (x : Bytes) :
    (⟨.beginValue, p, e⟩ : Scanner).run (encodeString x) = ⟨.endValue, p, e⟩ := by
  rw [encodeString, run_append, run_append, show (⟨.beginValue, p, e⟩ : Scanner).run [0x22] = ⟨.inString, p, e⟩ from rfl,
    (litBody_encodeScan x).run rfl]
  rfl

theorem run_key {st : ScanState} (hst : st = .beginStringOrEmpty ∨ st = .beginString) (k : Bytes)
    (p : List ParseState) (e : Bool) :
    (⟨st, .objectKey :: p, e⟩ : Scanner).run (encodeString k ++ [0x3A]) = ⟨.beginValue, .objectValue :: p, e⟩ := by
  have hq : (⟨st, .objectKey :: p, e⟩ : Scanner).run [0x22] = ⟨.inString, .objectKey :: p, e⟩ := by
    rcases hst with rfl | rfl <;> rfl
  rw [encodeString, run_append, run_append, run_append, hq, (litBody_encodeScan k).run rfl]
  rfl

theorem step_open (p : List ParseState) (e : Bool) (hb : p.length + 1 ≤ maxNestingDepth) :
    (⟨.beginValue, p, e⟩ : Scanner).step 0x5B = ⟨.beginValueOrEmpty, .arrayValue :: p, e⟩ ∧
    (⟨.beginValue, p, e⟩ : Scanner).step 0x7B = ⟨.beginStringOrEmpty, .objectKey :: p, e⟩ := by
  simp only [step, beginValue, push]
  exact ⟨by simp [isSpace, hb], by simp [isSpace, hb]⟩

theorem step_orEmpty (p : List ParseState) (e : Bool) {c : UInt8} (h1 : isSpace c = false) (h2 : c ≠ 0x5D) :
    (⟨.beginValueOrEmpty, p, e⟩ : Scanner).step c = (⟨.beginValue, p, e⟩ : Scanner).step c := by
  simp only [step, h1, h2, Bool.false_eq_true, if_false]
  unfold beginValue
  simp only [h1, Bool.false_eq_true, if_false]
  rfl

end Scanner

theorem NumberLit.cons {lit : Bytes} (h : NumberLit lit) : ∃ c r, lit = c :: r ∧ (c = 0x2D ∨ isDigit c = true) := by
  cases h with
  | @mk m i f e hm hi _ _ =>
    rcases hm with rfl | rfl
    · cases hi with
      | zero => exact ⟨_, _, rfl, .inr rfl⟩
      | digits h1 h2 _ =>
        have h1' := u8_le.mp h1; have h2' := u8_le.mp h2
        simp only [toNat_lit_u8, Nat.reduceMod] at h1' h2'
        exact ⟨_, _, rfl, .inr (isDigit_iff.mpr ⟨by omega, h2'⟩)⟩
    · exact ⟨_, _, rfl, .inl rfl⟩

theorem JValue.marshal_cons (v : JValue) (hv : v.Canon) :
    ∃ c r, v.marshal = c :: r ∧ isSpace c = false ∧ c ≠ 0x5D := by
  match v, hv with
  | .null, _ | .bool true, _ | .bool false, _ | .string _, _ | .array [], _ | .array (_ :: _), _
  | .object [], _ | .object (_ :: _), _ => exact ⟨_, _, rfl, rfl, by decide⟩
  | .number lit, hv =>
    obtain ⟨c, r, rfl, hc⟩ := NumberLit.cons hv
    refine ⟨c, r, rfl, ?_, ?_⟩
    · rcases hc with rfl | hc
      · rfl
      · exact Scanner.isSpace_digit hc
    · rintro rfl; rcases hc with hc | hc <;> revert hc <;> decide

mutual
/-- **The scanner reads a marshalled value** inside any stack `p` of open containers, nested below
`maxNestingDepth`: on the byte that follows the value, it moves as `stateEndValue` moves at the end
of a value, whatever state the value's last byte left it in -/
theorem JValue.run_marshal : ∀ (v : JValue), v.Canon → ∀ (p : List ParseState) (e : Bool),
    p.length + v.depth ≤ maxNestingDepth → ∀ d, Delim d →
    ((⟨.beginValue, p, e⟩ : Scanner).run v.marshal).step d = (⟨.beginValue, p, e⟩ : Scanner).endValue d
  | .null, _, _, _, _, _, _ | .bool true, _, _, _, _, _, _ | .bool false, _, _, _, _, _, _ => rfl
  | .number _, hv, p, e, _, _, hd => by
    obtain ⟨st, hst, hrun⟩ := @Scanner.run_numberLit ⟨.beginValue, p, e⟩ rfl _ hv
    rw [JValue.marshal, hrun]; exact Scanner.step_numEnd hst hd
  | .string x, _, p, e, _, _, _ => by rw [JValue.marshal, Scanner.run_encodeString]; rfl
  | .array [], _, p, e, hb, _, hd => by
    rw [JValue.marshal, Scanner.run_cons, (Scanner.step_open p e (by simpa [JValue.depth, itemsDepth] using hb)).1]
    exact Scanner.step_pop _ .arrayValue p e hd
  | .array (x :: xs), ⟨hx, hxs⟩, p, e, hb, d, hd => by
    have h1 := Nat.le_max_left x.depth (itemsDepth xs)
    have h2 := Nat.le_max_right x.depth (itemsDepth xs)
    simp only [JValue.depth, itemsDepth] at hb
    obtain ⟨c, r, hcr, hc1, hc2⟩ := x.marshal_cons hx
    have hfirst : ((⟨.beginValue, p, e⟩ : Scanner).step 0x5B).run x.marshal =
        (⟨.beginValue, .arrayValue :: p, e⟩ : Scanner).run x.marshal := by
      rw [(Scanner.step_open p e (by omega)).1, hcr, Scanner.run_cons, Scanner.run_cons,
        Scanner.step_orEmpty _ _ hc1 hc2]
    rw [JValue.marshal, Scanner.run_cons, Scanner.run_append, hfirst]
    exact run_itemsTail xs hxs p e (by omega) _ (x.run_marshal hx _ e (by simp only [List.length_cons]; omega)) d hd
  | .object [], _, p, e, hb, _, hd => by
    rw [JValue.marshal, Scanner.run_cons, (Scanner.step_open p e (by simpa [JValue.depth, membersDepth] using hb)).2]
    exact Scanner.step_pop _ .objectValue p e hd
  | .object ((k, v) :: ms), ⟨_, hv, hms⟩, p, e, hb, d, hd => by
    have h1 := Nat.le_max_left v.depth (membersDepth ms)
    have h2 := Nat.le_max_right v.depth (membersDepth ms)
    simp only [JValue.depth, membersDepth] at hb
    rw [JValue.marshal, Scanner.run_cons, ← List.singleton_append, ← List.append_assoc, Scanner.run_append,
      Scanner.run_append, (Scanner.step_open p e (by omega)).2, Scanner.run_key (.inl rfl)]
    exact run_membersTail ms hms p e (by omega) _ (v.run_marshal hv _ e (by simp only [List.length_cons]; omega)) d hd

theorem run_itemsTail : ∀ (xs : List JValue), ItemsCanon xs → ∀ (p : List ParseState) (e : Bool),
    p.length + 1 + itemsDepth xs ≤ maxNestingDepth → ∀ (t : Scanner),
    (∀ c, Delim c → t.step c = (⟨.beginValue, .arrayValue :: p, e⟩ : Scanner).endValue c) →
    ∀ d, Delim d → (t.run (marshalItemsTail xs)).step d = (⟨.beginValue, p, e⟩ : Scanner).endValue d
  | [], _, p, e, _, t, ht, _, hd => by
    rw [marshalItemsTail, Scanner.run_cons, Scanner.run_nil, ht _ (.inr (.inl rfl))]
    exact Scanner.step_pop _ .arrayValue p e hd
  | y :: ys, ⟨hy, hys⟩, p, e, hb, t, ht, d, hd => by
    have h1 := Nat.le_max_left y.depth (itemsDepth ys)
    have h2 := Nat.le_max_right y.depth (itemsDepth ys)
    simp only [itemsDepth] at hb
    rw [marshalItemsTail, Scanner.run_cons, Scanner.run_append, ht _ (.inl rfl)]
    exact run_itemsTail ys hys p e (by omega) _ (y.run_marshal hy _ e (by simp only [List.length_cons]; omega)) d hd

theorem run_membersTail : ∀ (ms : List (Bytes × JValue)), MembersCanon ms → ∀ (p : List ParseState) (e : Bool),
    p.length + 1 + membersDepth ms ≤ maxNestingDepth → ∀ (t : Scanner),
    (∀ c, Delim c → t.step c = (⟨.beginValue, .objectValue :: p, e⟩ : Scanner).endValue c) →
    ∀ d, Delim d → (t.run (marshalMembersTail ms)).step d = (⟨.beginValue, p, e⟩ : Scanner).endValue d
  | [], _, p, e, _, t, ht, _, hd => by
    rw [marshalMembersTail, Scanner.run_cons, Scanner.run_nil, ht _ (.inr (.inr (.inl rfl)))]
    exact Scanner.step_pop _ .objectValue p e hd
  | (k, v) :: ms, ⟨_, hv, hms⟩, p, e, hb, t, ht, d, hd => by
    have h1 := Nat.le_max_left v.depth (membersDepth ms)
    have h2 := Nat.le_max_right v.depth (membersDepth ms)
    simp only [membersDepth] at hb
    rw [marshalMembersTail, Scanner.run_cons, ← List.singleton_append, ← List.append_assoc, Scanner.run_append,
      Scanner.run_append, ht _ (.inl rfl),
      show (⟨.beginValue, .objectValue :: p, e⟩ : Scanner).endValue 0x2C = ⟨.beginString, .objectKey :: p, e⟩ from rfl,
      Scanner.run_key (.inr rfl)]
    exact run_membersTail ms hms p e (by omega) _ (v.run_marshal hv _ e (by simp only [List.length_cons]; omega)) d hd
end

/-- **`json.Valid` accepts what `json.Marshal` writes**, for every value whose numbers are literals
and which nests at most `maxNestingDepth` arrays and objects -/
theorem checkValid_marshal {v : JValue} (hv : v.Canon) (hd : v.depth ≤ maxNestingDepth) :
    checkValid v.marshal = true := by
  have hstep : (Scanner.init.run v.marshal).step 0x20 = ⟨.endTop, [], true⟩ :=
    v.run_marshal hv [] false (by simpa using hd) 0x20 (.inr (.inr (.inr (.inl rfl))))
  have hne : (Scanner.init.run v.marshal).state ≠ .error := fun he => by
    have h := Scanner.run_error he [0x20]
    rw [Scanner.run_cons, Scanner.run_nil, hstep] at h
    rw [← h] at he; cases he
  unfold checkValid Scanner.eof
  rw [if_neg hne]
  split_ifs
  · rfl
  · rw [hstep]

/-! ## the decoder's walk reads what `json.Marshal` writes -/

theorem skipSpace_cons {c : UInt8} (h : isSpace c = false) (r : Bytes) : skipSpace (c :: r) = c :: r :=
  List.dropWhile_cons_of_neg (by simp [h])

theorem take_sub_length (m r : Bytes) : (m ++ r).take ((m ++ r).length - r.length) = m :=
  List.take_left' (by simp)

theorem NumberLit.numberBytes {lit : Bytes} (h : NumberLit lit) : ∀ c ∈ lit, isNumberByte c = true := by
  have hdig : ∀ {ds : Bytes}, (∀ d ∈ ds, isDigit d = true) → ∀ c ∈ ds, isNumberByte c = true :=
    fun hds c hc => by simp [isNumberByte, hds c hc]
  cases h with
  | @mk m i f e hm hi hf he =>
    intro c hc
    simp only [List.mem_append] at hc
    rcases hc with hc | hc | hc | hc
    · rcases hm with rfl | rfl
      · cases hc
      · rw [List.mem_singleton.mp hc]; rfl
    · cases hi with
      | zero => rw [List.mem_singleton.mp hc]; rfl
      | digits h1 h2 hds =>
        rcases List.mem_cons.mp hc with rfl | hc
        · have h1' := u8_le.mp h1; have h2' := u8_le.mp h2
          simp only [toNat_lit_u8, Nat.reduceMod] at h1' h2'
          simp [isNumberByte, isDigit_iff.mpr ⟨by omega, h2'⟩]
        · exact hdig hds c hc
    · cases hf with
      | none => cases hc
      | some hds =>
        rcases List.mem_cons.mp hc with rfl | hc
        · rfl
        · exact hdig hds.2 c hc
    · cases he with
      | none => cases hc
      | some he hsign hds =>
        rcases List.mem_cons.mp hc with rfl | hc
        · rcases he with rfl | rfl <;> rfl
        · rcases List.mem_append.mp hc with hc | hc
          · rcases hsign with rfl | rfl | rfl <;> simp only [List.mem_singleton, List.not_mem_nil] at hc <;>
              (try subst hc) <;> rfl
          · exact hdig hds.2 c hc

theorem isNumberByte_delim {d : UInt8} (hd : Delim d) : isNumberByte d = false := by
  rcases hd with rfl | rfl | rfl | rfl | rfl <;> rfl

theorem parseValue_numberStart {c : UInt8} (hc : c = 0x2D ∨ isDigit c = true) (f : Nat) (t : Bytes) :
    parseValue (f + 1) (c :: t) = some (.number (c :: t.takeWhile isNumberByte), t.dropWhile isNumberByte) := by
  have hall : ∀ c ∈ (0x2D :: digitBytes), parseValue (f + 1) (c :: t) =
      some (.number (c :: t.takeWhile isNumberByte), t.dropWhile isNumberByte) := by
    intro c hc
    simp only [digitBytes, List.mem_cons, List.mem_singleton, List.not_mem_nil, or_false] at hc
    rcases hc with rfl | rfl | rfl | rfl | rfl | rfl | rfl | rfl | rfl | rfl | rfl <;> rfl
  exact hall c (by rcases hc with rfl | hc <;> simp_all [isDigit])

theorem parseValue_string (f : Nat) {b : Bytes} (hb : LitBody b) (rest : Bytes) :
    parseValue (f + 1) (0x22 :: (b ++ 0x22 :: rest)) = some (.string (unquote b), rest) := by
  show Option.map _ (stringBody (b ++ 0x22 :: rest)) = _
  rw [hb.stringBody]; rfl

theorem parseValue_array (f : Nat) {c : UInt8} (hc1 : isSpace c = false) (hc2 : c ≠ 0x5D) (r : Bytes) :
    parseValue (f + 1) (0x5B :: c :: r) =
      (parseElements f (c :: r) []).map fun (p : List (RawJson × Bytes) × Bytes) => (RawJson.array p.1, p.2) := by
  show (match skipSpace (c :: r) with
    | 0x5D :: rest' => some (RawJson.array [], rest')
    | _ => (parseElements f (c :: r) []).map fun (p : List (RawJson × Bytes) × Bytes) => (RawJson.array p.1, p.2)) = _
  rw [skipSpace_cons hc1]
  split
  · rename_i h; cases h; exact absurd rfl hc2
  · rfl

theorem parseValue_object (f : Nat) (r : Bytes) :
    parseValue (f + 1) (0x7B :: 0x22 :: r) =
      (parseMembers f (0x22 :: r) []).map fun (p : List (Bytes × RawJson × Bytes) × Bytes) => (RawJson.object p.1, p.2) :=
  rfl

theorem itemsTail_delim (ys : List JValue) (rest : Bytes) :
    ∀ c r, marshalItemsTail ys ++ rest = c :: r → Delim c := by
  intro c r h; cases ys <;> simp only [marshalItemsTail, List.cons_append, List.singleton_append, List.cons.injEq] at h <;>
    rw [← h.1] <;> simp [Delim]

theorem membersTail_delim (ms : List (Bytes × JValue)) (rest : Bytes) :
    ∀ c r, marshalMembersTail ms ++ rest = c :: r → Delim c := by
  intro c r h; rcases ms with _ | ⟨⟨k, v⟩, ms⟩ <;>
    simp only [marshalMembersTail, List.cons_append, List.singleton_append, List.cons.injEq] at h <;>
    rw [← h.1] <;> simp [Delim]

mutual
/-- **The walk reads a marshalled value back**, whatever follows it from a byte that may follow a
value on, given fuel for its size -/
theorem JValue.parseValue_marshal : ∀ (v : JValue), v.Canon → ∀ (fuel : Nat), v.size ≤ fuel → ∀ (rest : Bytes),
    (∀ c r, rest = c :: r → Delim c) → parseValue fuel (v.marshal ++ rest) = some (v.toRaw, rest)
  | .null, _, _ + 1, _, _, _ | .bool true, _, _ + 1, _, _, _ | .bool false, _, _ + 1, _, _, _
  | .array [], _, _ + 1, _, _, _ | .object [], _, _ + 1, _, _, _ => rfl
  | .number lit, hv, f + 1, _, rest, hr => by
    obtain ⟨c, r, rfl, hc⟩ := NumberLit.cons hv
    have hnum := hv.numberBytes
    have hrest : rest.takeWhile isNumberByte = [] ∧ rest.dropWhile isNumberByte = rest := by
      rcases rest with _ | ⟨d, r'⟩
      · exact ⟨rfl, rfl⟩
      · have hd := isNumberByte_delim (hr d r' rfl)
        exact ⟨by simp [List.takeWhile_cons, hd], by simp [List.dropWhile_cons, hd]⟩
    have hr' : ∀ a ∈ r, isNumberByte a = true := fun a ha => hnum a (List.mem_cons_of_mem _ ha)
    rw [JValue.marshal, List.cons_append, parseValue_numberStart hc, List.takeWhile_append_of_pos hr',
      List.dropWhile_append_of_pos hr', hrest.1, hrest.2, List.append_nil]
    rfl
  | .string x, hv, f + 1, _, rest, _ => by
    rw [JValue.marshal, encodeString, List.append_assoc, List.singleton_append, List.cons_append,
      List.singleton_append, parseValue_string f (litBody_encodeScan x), unquote_encodeScan hv]
    rfl
  | .array (x :: xs), hv, f + 1, hsz, rest, hr => by
    obtain ⟨c, r, hcr, hc1, hc2⟩ := x.marshal_cons hv.1
    have h := parseElements_marshal (x :: xs) hv f (by simpa [JValue.size] using hsz) rest hr [] x xs rfl
    rw [hcr, List.cons_append] at h
    simp only [JValue.marshal, hcr, List.cons_append, List.append_assoc]
    rw [parseValue_array f hc1 hc2, h]
    rfl
  | .object ((k, v) :: ms), hv, f + 1, hsz, rest, hr => by
    have h := parseMembers_marshal ((k, v) :: ms) hv f (by simpa [JValue.size] using hsz) rest hr [] k v ms rfl
    simp only [JValue.marshal, encodeString, List.cons_append, List.append_assoc, List.singleton_append,
      List.nil_append]
    rw [parseValue_object, h]
    rfl
  | .null, _, 0, h, _, _ | .bool _, _, 0, h, _, _ | .number _, _, 0, h, _, _ | .string _, _, 0, h, _, _
  | .array _, _, 0, h, _, _ | .object _, _, 0, h, _, _ => by simp [JValue.size] at h

theorem parseElements_marshal : ∀ (l : List JValue), ItemsCanon l → ∀ (fuel : Nat), itemsSize l ≤ fuel →
    ∀ (rest : Bytes), (∀ c r, rest = c :: r → Delim c) → ∀ (acc : List (RawJson × Bytes)) (y : JValue)
    (ys : List JValue), l = y :: ys →
    parseElements fuel (y.marshal ++ (marshalItemsTail ys ++ rest)) acc = some (acc.reverse ++ rawItems l, rest)
  | [], _, _, _, _, _, _, _, _, h => by cases h
  | y :: ys, ⟨hy, hys⟩, f + 1, hsz, rest, hr, acc, _, _, rfl => by
    simp only [itemsSize] at hsz
    obtain ⟨c, r, hcr, hc1, -⟩ := y.marshal_cons hy
    have hsk : skipSpace (y.marshal ++ (marshalItemsTail ys ++ rest)) = y.marshal ++ (marshalItemsTail ys ++ rest) := by
      rw [hcr]; exact skipSpace_cons hc1 _
    rw [parseElements, hsk, y.parseValue_marshal hy f (by omega) _ (itemsTail_delim ys rest)]
    simp only []
    rw [take_sub_length]
    cases ys with
    | nil =>
      rw [marshalItemsTail, List.singleton_append, skipSpace_cons (show isSpace 0x5D = false from rfl)]
      simp [rawItems]
    | cons z zs =>
      rw [marshalItemsTail, List.cons_append, skipSpace_cons (show isSpace 0x2C = false from rfl)]
      simp only []
      rw [List.append_assoc, parseElements_marshal (z :: zs) hys f (by simp only [itemsSize] at hsz ⊢; omega) rest hr _
        z zs rfl]
      simp [rawItems]
  | _ :: _, _, 0, hsz, _, _, _, _, _, _ => by simp [itemsSize] at hsz

theorem parseMembers_marshal : ∀ (l : List (Bytes × JValue)), MembersCanon l → ∀ (fuel : Nat),
    membersSize l ≤ fuel → ∀ (rest : Bytes), (∀ c r, rest = c :: r → Delim c) →
    ∀ (acc : List (Bytes × RawJson × Bytes)) (k : Bytes) (v : JValue) (ms : List (Bytes × JValue)),
    l = (k, v) :: ms → parseMembers fuel (0x22 :: (encodeScan 0 k ++ 0x22 :: 0x3A :: (v.marshal ++
      (marshalMembersTail ms ++ rest)))) acc = some (acc.reverse ++ rawMembers l, rest)
  | [], _, _, _, _, _, _, _, _, _, h => by cases h
  | (k, v) :: ms, ⟨hk, hv, hms⟩, f + 1, hsz, rest, hr, acc, _, _, _, rfl => by
    simp only [membersSize] at hsz
    obtain ⟨c, r, hcr, hc1, -⟩ := v.marshal_cons hv
    have hsk : skipSpace (v.marshal ++ (marshalMembersTail ms ++ rest)) = v.marshal ++ (marshalMembersTail ms ++ rest) := by
      rw [hcr]; exact skipSpace_cons hc1 _
    rw [parseMembers, skipSpace_cons (show isSpace 0x22 = false from rfl)]
    simp only []
    rw [(litBody_encodeScan k).stringBody]
    simp only []
    rw [skipSpace_cons (show isSpace 0x3A = false from rfl)]
    simp only []
    rw [hsk, v.parseValue_marshal hv f (by omega) _ (membersTail_delim ms rest)]
    simp only []
    rw [take_sub_length, unquote_encodeScan hk]
    rcases ms with _ | ⟨⟨k', v'⟩, ms'⟩
    · rw [marshalMembersTail, List.singleton_append, skipSpace_cons (show isSpace 0x7D = false from rfl)]
      simp [rawMembers]
    · rw [marshalMembersTail, List.cons_append, skipSpace_cons (show isSpace 0x2C = false from rfl)]
      simp only []
      simp only [encodeString, List.append_assoc, List.singleton_append, List.cons_append, List.nil_append]
      rw [parseMembers_marshal ((k', v') :: ms') hms f (by simp only [membersSize] at hsz ⊢; omega) rest hr _ k' v' ms' rfl]
      simp [rawMembers]
  | _ :: _, _, 0, hsz, _, _, _, _, _, _, _ => by simp [membersSize] at hsz
end

mutual
theorem JValue.size_le_length : ∀ v : JValue, v.Canon → v.size ≤ v.marshal.length
  | .null, _ | .bool true, _ | .bool false, _ | .array [], _ | .object [], _ => by decide
  | .string _, _ => by simp [JValue.size, JValue.marshal, encodeString]
  | .number _, hv => by
    obtain ⟨c, r, h, -⟩ := NumberLit.cons hv
    simp [JValue.size, JValue.marshal, h]
  | .array (x :: xs), ⟨hx, hxs⟩ => by
    have := x.size_le_length hx; have := itemsSize_lt_length xs hxs
    simp only [JValue.size, itemsSize, JValue.marshal, List.length_cons, List.length_append]; omega
  | .object ((k, v) :: ms), ⟨_, hv, hms⟩ => by
    have := v.size_le_length hv; have := membersSize_lt_length ms hms
    simp only [JValue.size, membersSize, JValue.marshal, List.length_cons, List.length_append]; omega
theorem itemsSize_lt_length : ∀ xs : List JValue, ItemsCanon xs → itemsSize xs < (marshalItemsTail xs).length
  | [], _ => by simp [itemsSize, marshalItemsTail]
  | x :: xs, ⟨hx, hxs⟩ => by
    have := x.size_le_length hx; have := itemsSize_lt_length xs hxs
    simp only [itemsSize, marshalItemsTail, List.length_cons, List.length_append]; omega
theorem membersSize_lt_length : ∀ ms : List (Bytes × JValue), MembersCanon ms →
    membersSize ms < (marshalMembersTail ms).length
  | [], _ => by simp [membersSize, marshalMembersTail]
  | (k, v) :: ms, ⟨_, hv, hms⟩ => by
    have := v.size_le_length hv; have := membersSize_lt_length ms hms
    simp only [membersSize, marshalMembersTail, List.length_cons, List.length_append]; omega
end

/-- **`json.Unmarshal` reads back what `json.Marshal` writes.**  For every value whose numbers are
literals of RFC 8259 and whose strings and keys are valid UTF-8, nesting at most
`maxNestingDepth` arrays and objects, `checkValid` accepts the compact text `json.Marshal` writes
and the decoder's walk, with the fuel `decode` gives it, returns the same value: every string and
key as it was, every number as its literal, every element and member with the bytes it was
marshalled to. -/
theorem decode_marshal {v : JValue} (hv : v.Canon) (hd : v.depth ≤ maxNestingDepth) :
    decode v.marshal = some v.toRaw := by
  have h := v.parseValue_marshal hv (2 * v.marshal.length + 2) (by have := v.size_le_length hv; omega) []
    (fun _ _ h => by cases h)
  rw [List.append_nil] at h
  simp [decode, checkValid_marshal hv hd, h]

/-! ## `json.Marshal` writes valid UTF-8 -/

theorem encodeScan_ascii {c : UInt8} (hc : c < 0x80) (s : Bytes) :
    (∀ b ∈ encodeScan 0 [c], b ≤ 0x7F) ∧ encodeScan 0 (c :: s) = encodeScan 0 [c] ++ encodeScan 0 s := by
  have hE : c ≠ 0xE2 := u8_ne_of_lt hc (by decide)
  have hc' : c ≤ 0x7F := by simp only [u8_lt, u8_le, toNat_lit_u8, Nat.reduceMod] at hc ⊢; omega
  have hd : c.toNat / 16 < 16 := by simp only [u8_lt, toNat_lit_u8, Nat.reduceMod] at hc; omega
  have hhex : ∀ n, n < 16 → hexDigit n ≤ 0x7F := by decide
  rw [encodeScan.eq_5 c s (fun _ h => absurd h hE) (fun _ h => absurd h hE),
    encodeScan.eq_5 c [] (fun _ h => absurd h hE) (fun _ h => absurd h hE), if_pos hc, if_pos hc,
    show encodeScan 0 ([] : Bytes) = [] from rfl, List.append_nil]
  refine ⟨?_, rfl⟩
  split_ifs
  · simpa using hc'
  · simpa using And.intro (by decide : (0x5C : UInt8) ≤ 0x7F) hc'
  any_goals decide
  intro b hb
  simp only [escapeU00, List.mem_append, List.mem_cons, List.mem_singleton, List.not_mem_nil, or_false] at hb
  rcases hb with hb | rfl | rfl
  · exact (by decide : ∀ b ∈ ascii "\\u00", b ≤ 0x7F) b hb
  · exact hhex _ hd
  · exact hhex _ (Nat.mod_lt _ (by decide))

theorem utf8_encodeScan {s : Bytes} (hs : Utf8 s) : Utf8 (encodeScan 0 s) := by
  induction hs with
  | nil => exact .nil
  | @cons r s hr _ ih =>
    rcases encodeScan_rune_cases hr s with ⟨c, rfl, hc⟩ | rfl | rfl | ⟨-, h⟩
    · rw [List.singleton_append, (encodeScan_ascii hc s).2]
      exact (utf8_of_ascii (encodeScan_ascii hc s).1).append ih
    · exact (utf8_of_ascii (l := ascii "\\u2028") (by decide)).append ih
    · exact (utf8_of_ascii (l := ascii "\\u2029") (by decide)).append ih
    · rw [h]; exact .cons hr ih

theorem utf8_encodeString {s : Bytes} (hs : Utf8 s) : Utf8 (encodeString s) :=
  ((utf8_of_ascii (by decide)).append (utf8_encodeScan hs)).append (utf8_of_ascii (by decide))

theorem NumberLit.bytes_le {lit : Bytes} (h : NumberLit lit) : ∀ c ∈ lit, c ≤ 0x7F := by
  intro c hc
  have := h.numberBytes c hc
  simp only [isNumberByte, Bool.or_eq_true, beq_iff_eq] at this
  rcases this with ((((h | rfl) | rfl) | rfl) | rfl) | rfl
  · exact isDigit_le h
  all_goals decide

theorem NumberLit.utf8 {lit : Bytes} (h : NumberLit lit) : Utf8 lit := utf8_of_ascii h.bytes_le

mutual
theorem JValue.utf8_marshal : ∀ v : JValue, v.Canon → Utf8 v.marshal
  | .null, _ | .bool true, _ | .bool false, _ | .array [], _ | .object [], _ => utf8_of_ascii (by decide)
  | .number _, hv => hv.utf8
  | .string _, hv => utf8_encodeString hv
  | .array (x :: xs), ⟨hx, hxs⟩ =>
    .cons (r := [0x5B]) (.one (by decide)) ((x.utf8_marshal hx).append (utf8_itemsTail xs hxs))
  | .object ((k, v) :: ms), ⟨hk, hv, hms⟩ =>
    .cons (r := [0x7B]) (.one (by decide)) ((utf8_encodeString hk).append
      (.cons (r := [0x3A]) (.one (by decide)) ((v.utf8_marshal hv).append (utf8_membersTail ms hms))))
theorem utf8_itemsTail : ∀ xs : List JValue, ItemsCanon xs → Utf8 (marshalItemsTail xs)
  | [], _ => utf8_of_ascii (by decide)
  | x :: xs, ⟨hx, hxs⟩ =>
    .cons (r := [0x2C]) (.one (by decide)) ((x.utf8_marshal hx).append (utf8_itemsTail xs hxs))
theorem utf8_membersTail : ∀ ms : List (Bytes × JValue), MembersCanon ms → Utf8 (marshalMembersTail ms)
  | [], _ => utf8_of_ascii (by decide)
  | (k, v) :: ms, ⟨hk, hv, hms⟩ =>
    .cons (r := [0x2C]) (.one (by decide)) ((utf8_encodeString hk).append
      (.cons (r := [0x3A]) (.one (by decide)) ((v.utf8_marshal hv).append (utf8_membersTail ms hms))))
end
/-! ## slices -/

theorem intercalate_marshal : ∀ (x : JValue) (xs : List JValue),
    [0x2C].intercalate (x.marshal :: xs.map JValue.marshal) ++ [0x5D] = x.marshal ++ marshalItemsTail xs
  | x, [] => by simp [List.intercalate, marshalItemsTail]
  | x, y :: ys => by
    have := intercalate_marshal y ys
    simp only [List.intercalate, List.map_cons, List.intersperse_cons_cons, List.flatten_cons] at this ⊢
    simp [this, marshalItemsTail]

theorem JValue.marshal_array (xs : List JValue) :
    (JValue.array xs).marshal = [0x5B] ++ [0x2C].intercalate (xs.map JValue.marshal) ++ [0x5D] := by
  cases xs with
  | nil => rfl
  | cons x xs => rw [List.map_cons, List.append_assoc, intercalate_marshal]; rfl

theorem JValue.marshal_array_ends (xs : List JValue) : ∃ t, (JValue.array xs).marshal = 0x5B :: (t ++ [0x5D]) := by
  have tail : ∀ ys : List JValue, ∃ t, marshalItemsTail ys = t ++ [0x5D] := by
    intro ys
    induction ys with
    | nil => exact ⟨[], rfl⟩
    | cons y ys ih =>
      obtain ⟨t, ht⟩ := ih
      exact ⟨0x2C :: (y.marshal ++ t), by simp [marshalItemsTail, ht]⟩
  cases xs with
  | nil => exact ⟨[], rfl⟩
  | cons x xs =>
    obtain ⟨t, ht⟩ := tail xs
    exact ⟨x.marshal ++ t, by simp [JValue.marshal, ht]⟩

/-! ## the round trip -/

/-- **`json.Marshal` and `json.Unmarshal` round trip.**  For every value whose numbers are literals
of RFC 8259 and whose strings and keys are valid UTF-8, nesting at most `maxNestingDepth` arrays
and objects, the compact text `json.Marshal` writes is valid UTF-8, `json.Valid` accepts it, and
`json.Unmarshal` gives back the value: every string and key as it was, every number as its
literal, every element and member with the bytes it was marshalled to. -/
theorem JValue.marshal_roundTrip {v : JValue} (hv : v.Canon) (hd : v.depth ≤ maxNestingDepth) :
    Utf8 v.marshal ∧ checkValid v.marshal = true ∧ decode v.marshal = some v.toRaw :=
  ⟨v.utf8_marshal hv, checkValid_marshal hv hd, decode_marshal hv hd⟩

/-- an object with a number and an array holding `null` and a string that needs an escape -/
theorem JValue.marshal_roundTrip_number :
    let v := JValue.object [(ascii "n", .number (ascii "-1.5e3")), (ascii "s", .array [.null, .string (ascii "a<b")])]
    Utf8 v.marshal ∧ checkValid v.marshal = true ∧ decode v.marshal = some v.toRaw :=
  JValue.marshal_roundTrip
    ⟨utf8_of_ascii (by decide),
      NumberLit.mk (m := [0x2D]) (i := [0x31]) (f := [0x2E, 0x35]) (e := [0x65, 0x33]) (.inr rfl)
        (.digits (by decide) (by decide) (by simp)) (.some ⟨by simp, by decide⟩)
        (.some (.inl rfl) (.inl rfl) ⟨by simp, by decide⟩),
      utf8_of_ascii (by decide), ⟨trivial, utf8_of_ascii (by decide), trivial⟩, trivial⟩
    (by decide)

end GonkaProxy
