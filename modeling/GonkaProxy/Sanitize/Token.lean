import GonkaProxy.Bytes
import Mathlib.Data.Nat.Digits

/-!
# Placeholders: `«TOKEN_%06d»` and the shape `«TOKEN_\d+»`

`register` writes the placeholder of the id `id` as `fmt.Sprintf("«TOKEN_%06d»", id)`; the
validator recognises placeholders with `tokenPlaceholderRe = «TOKEN_\d+»`.

* `fmt06 n`, `formatToken id`   the `%06d` digits and the whole placeholder;
* `decimalValue_fmt06`          the digits read back give `n`, for every `n` (also past six
                                digits), so `formatToken` is injective (`formatToken_inj`);
* `IsPlaceholder t`             `t` is one match of `«TOKEN_\d+»`;
* `IsPlaceholder.eq_of_both_prefixes`  two placeholders at one position are equal;
* `IsPlaceholder.noCrossing`    a placeholder never starts inside another one, so no
                                placeholder crosses out of a placeholder occurrence;
* `matchString`                 `tokenPlaceholderRe.MatchString` on bytes, and
                                `matchString_iff`: it holds iff some placeholder is an infix.
-/

set_option linter.unusedSectionVars false
set_option linter.unusedVariables false

namespace GonkaProxy

/-- `tokenPrefix` of `stream.go`: the bytes of `«TOKEN_` -/
def tokenPrefix : Bytes := [0xC2, 0xAB, 0x54, 0x4F, 0x4B, 0x45, 0x4E, 0x5F]

/-- `tokenSuffix` of `stream.go`: the bytes of `»` -/
def tokenSuffix : Bytes := [0xC2, 0xBB]

/-- the ten ASCII digits, `\d` of a Go regexp -/
def digitBytes : Bytes := [0x30, 0x31, 0x32, 0x33, 0x34, 0x35, 0x36, 0x37, 0x38, 0x39]

def isDigit (b : UInt8) : Bool := decide (b ∈ digitBytes)

/-- the byte of the decimal digit `d < 10` -/
def digitByte (d : Nat) : UInt8 := digitBytes.getD d 0x30

/-- the digit a digit byte stands for -/
def digitValue (b : UInt8) : Nat := digitBytes.indexOf b

theorem digitValue_digitByte {d : Nat} (h : d < 10) : digitValue (digitByte d) = d := by
  interval_cases d <;> rfl

theorem isDigit_digitByte {d : Nat} (h : d < 10) : isDigit (digitByte d) = true := by
  interval_cases d <;> rfl

/-! ## `%06d` -/

/-- the decimal digits of `n`, least significant first; `fuel` bounds how many are produced -/
def decDigits : Nat → Nat → List Nat
  | 0, _ => []
  | fuel + 1, n => n % 10 :: if n / 10 = 0 then [] else decDigits fuel (n / 10)

/-- `%06d` of `fmt.Sprintf`: the decimal digits of `n`, left-padded with `0` to six -/
def fmt06 (n : Nat) : Bytes :=
  let ds := (decDigits (n + 1) n).reverse
  (List.replicate (6 - ds.length) 0 ++ ds).map digitByte

/-- `fmt.Sprintf("«TOKEN_%06d»", id)` -/
def formatToken (id : Nat) : Bytes := tokenPrefix ++ fmt06 id ++ tokenSuffix

/-- the number a string of digits spells, most significant first -/
def decimalValue (ds : Bytes) : Nat := Nat.ofDigits 10 (ds.reverse.map digitValue)

theorem decDigits_lt_ten : ∀ (fuel n : Nat), ∀ d ∈ decDigits fuel n, d < 10
  | 0, _ => by simp [decDigits]
  | fuel + 1, n => by
    intro d hd
    simp only [decDigits, List.mem_cons] at hd
    rcases hd with rfl | hd
    · exact Nat.mod_lt _ (by norm_num)
    · split at hd
      · simp at hd
      · exact decDigits_lt_ten fuel _ d hd

theorem ofDigits_decDigits : ∀ (fuel n : Nat), n < fuel → Nat.ofDigits 10 (decDigits fuel n) = n
  | 0, _, h => absurd h (Nat.not_lt_zero _)
  | fuel + 1, n, h => by
    simp only [decDigits, Nat.ofDigits_cons]
    split
    · simp only [Nat.ofDigits_nil]; omega
    · rw [ofDigits_decDigits fuel (n / 10) (by omega)]; omega

theorem ofDigits_append_zeros (l : List Nat) (k : Nat) :
    Nat.ofDigits 10 (l ++ List.replicate k 0) = Nat.ofDigits 10 l := by
  induction k with
  | zero => simp
  | succ k ih =>
    rw [List.replicate_succ', ← List.append_assoc, Nat.ofDigits_append, ih]
    simp [Nat.ofDigits]

theorem digitValue_map_digitByte :
    ∀ {l : List Nat}, (∀ d ∈ l, d < 10) → (l.map digitByte).map digitValue = l
  | [], _ => rfl
  | d :: l, h => by
    simp only [List.map_cons, digitValue_digitByte (h d (List.mem_cons_self _ _)),
      digitValue_map_digitByte (fun x hx => h x (List.mem_cons_of_mem _ hx))]

theorem decimalValue_fmt06 (n : Nat) : decimalValue (fmt06 n) = n := by
  have hlt : ∀ d ∈ decDigits (n + 1) n ++ List.replicate (6 - (decDigits (n + 1) n).length) 0,
      d < 10 := by
    intro d hd
    rcases List.mem_append.mp hd with hd | hd
    · exact decDigits_lt_ten _ _ d hd
    · rw [List.eq_of_mem_replicate hd]; norm_num
  simp only [decimalValue, fmt06, ← List.map_reverse, List.reverse_append, List.reverse_reverse,
    List.reverse_replicate, List.length_reverse]
  rw [digitValue_map_digitByte hlt, ofDigits_append_zeros, ofDigits_decDigits _ _ (Nat.lt_succ_self n)]

theorem formatToken_inj {a b : Nat} (h : formatToken a = formatToken b) : a = b := by
  simp only [formatToken, List.append_assoc, List.append_cancel_left_eq,
    List.append_cancel_right_eq] at h
  rw [← decimalValue_fmt06 a, h, decimalValue_fmt06]

/-! ## the shape `«TOKEN_\d+»` -/

/-- `t` is one match of `tokenPlaceholderRe` -/
def IsPlaceholder (t : Bytes) : Prop :=
  ∃ ds : Bytes, ds ≠ [] ∧ (∀ d ∈ ds, isDigit d = true) ∧ t = tokenPrefix ++ ds ++ tokenSuffix

theorem fmt06_ne_nil (n : Nat) : fmt06 n ≠ [] := by
  apply List.ne_nil_of_length_pos
  simp only [fmt06, List.length_map, List.length_append, List.length_replicate]
  omega

theorem formatToken_isPlaceholder (id : Nat) : IsPlaceholder (formatToken id) := by
  refine ⟨fmt06 id, fmt06_ne_nil id, ?_, rfl⟩
  simp only [fmt06, List.mem_map, List.mem_append, List.mem_reverse]
  rintro _ ⟨d, hd, rfl⟩
  rcases hd with hd | hd
  · rw [List.eq_of_mem_replicate hd]; rfl
  · exact isDigit_digitByte (decDigits_lt_ten _ _ d hd)

theorem not_isDigit_c2 : isDigit 0xC2 = false := rfl

private theorem digits_suffix_eq :
    ∀ ds es : Bytes, (∀ d ∈ ds, isDigit d = true) → (∀ e ∈ es, isDigit e = true) →
      ds ++ tokenSuffix <+: es ++ tokenSuffix → ds = es
  | [], [], _, _, _ => rfl
  | [], e :: es, _, he, h => by
    have hc : 0xC2 = e := (List.cons_prefix_cons.mp h).1
    have := he e (List.mem_cons_self _ _)
    rw [← hc] at this; exact absurd this (by decide)
  | d :: ds, [], hd, _, h => by
    have hc : d = 0xC2 := (List.cons_prefix_cons.mp h).1
    have := hd d (List.mem_cons_self _ _)
    rw [hc] at this; exact absurd this (by decide)
  | d :: ds, e :: es, hd, he, h => by
    obtain ⟨rfl, h'⟩ := List.cons_prefix_cons.mp h
    rw [digits_suffix_eq ds es (fun x hx => hd x (List.mem_cons_of_mem _ hx))
      (fun x hx => he x (List.mem_cons_of_mem _ hx)) h']

/-- **Placeholders are prefix-free**: two placeholders at the same position are equal. -/
theorem IsPlaceholder.eq_of_both_prefixes {t u x : Bytes} (ht : IsPlaceholder t) (hu : IsPlaceholder u)
    (htx : t <+: x) (hux : u <+: x) : t = u := by
  obtain ⟨ds, -, hd, rfl⟩ := ht
  obtain ⟨es, -, he, rfl⟩ := hu
  rcases List.prefix_or_prefix_of_prefix htx hux with h | h
  · simp only [List.append_assoc, List.prefix_append_right_inj] at h
    rw [digits_suffix_eq ds es hd he h]
  · simp only [List.append_assoc, List.prefix_append_right_inj] at h
    rw [digits_suffix_eq es ds he hd h]

private theorem no_guillemet_in_digits_suffix :
    ∀ (ds : Bytes), (∀ d ∈ ds, isDigit d = true) → ∀ x b, x <:+ ds ++ tokenSuffix → x ≠ [] →
      ¬ [0xC2, 0xAB] <+: x ++ b
  | [], _, x, b, hx, hne, h => by
    simp only [List.nil_append, tokenSuffix, List.suffix_cons_iff, List.suffix_nil] at hx
    rcases hx with rfl | rfl | rfl <;> simp_all
  | d :: ds, hd, x, b, hx, hne, h => by
    rcases List.suffix_cons_iff.mp hx with rfl | hx
    · have := hd d (List.mem_cons_self _ _)
      have := (List.cons_prefix_cons.mp h).1
      subst this
      exact absurd this (by decide)
    · exact no_guillemet_in_digits_suffix ds (fun y hy => hd y (List.mem_cons_of_mem _ hy)) x b
        hx hne h

theorem IsPlaceholder.guillemet_only_first {t x b : Bytes} (ht : IsPlaceholder t) (hx : x <:+ t)
    (hne : x ≠ []) (h : [0xC2, 0xAB] <+: x ++ b) : x = t := by
  obtain ⟨ds, -, hd, rfl⟩ := ht
  have key := no_guillemet_in_digits_suffix ds hd x b
  simp only [tokenPrefix, List.append_assoc, List.cons_append, List.nil_append,
    List.suffix_cons_iff] at hx ⊢
  rcases hx with h0 | h1 | h2 | h3 | h4 | h5 | h6 | h7 | hr
  · exact h0
  all_goals first
    | (subst_vars; simp at h)
    | exact absurd h (key hr hne)

theorem IsPlaceholder.starts_guillemet {u : Bytes} (hu : IsPlaceholder u) : [0xC2, 0xAB] <+: u := by
  obtain ⟨ds, -, -, rfl⟩ := hu
  exact ⟨_, rfl⟩

/-- **No placeholder crosses out of a placeholder**: every placeholder that starts inside an
occurrence of the placeholder `t` is `t` itself, at its start. -/
theorem IsPlaceholder.noCrossing {t u b : Bytes} (ht : IsPlaceholder t) (hu : IsPlaceholder u) :
    NoCrossing u t b := by
  intro x hx hne hp
  have hxt : x = t := ht.guillemet_only_first hx hne (hu.starts_guillemet.trans hp)
  subst hxt
  rw [hu.eq_of_both_prefixes ht hp (List.prefix_append _ _)]

theorem IsPlaceholder.ne_nil {t : Bytes} (ht : IsPlaceholder t) : t ≠ [] := by
  obtain ⟨ds, -, -, rfl⟩ := ht
  simp [tokenPrefix]

theorem IsPlaceholder.infix_eq {t u : Bytes} (ht : IsPlaceholder t) (hu : IsPlaceholder u)
    (h : u <:+: t) : u = t := by
  obtain ⟨s, r, rfl⟩ := h
  have hx : u ++ r = s ++ u ++ r :=
    ht.guillemet_only_first ⟨s, by simp⟩ (by simp [hu.ne_nil])
      (by simpa using hu.starts_guillemet.trans (List.prefix_append u r) :
        [0xC2, 0xAB] <+: (u ++ r) ++ [])
  exact hu.eq_of_both_prefixes ht (hx ▸ List.prefix_append u r) (List.prefix_refl _)

theorem IsPlaceholder.ne_append_c2 {u : Bytes} (hu : IsPlaceholder u) (x : Bytes) :
    u ≠ x ++ [0xC2] := by
  obtain ⟨ds, -, -, rfl⟩ := hu
  intro h
  have := congrArg List.getLast? h
  simp [tokenSuffix] at this

/-- **No placeholder runs into a placeholder**: an occurrence of `u` that starts before an
occurrence of the placeholder `t` ends before it. -/
theorem IsPlaceholder.noCrossing_into {t u : Bytes} (ht : IsPlaceholder t) (hu : IsPlaceholder u)
    (b z : Bytes) : NoCrossing u b (t ++ z) := by
  intro x hx hne hp
  rcases List.prefix_or_prefix_of_prefix hp (List.prefix_append x (t ++ z)) with h | ⟨w, rfl⟩
  · exact h
  obtain ⟨t', rfl⟩ := ht.starts_guillemet
  have hw : w <+: [0xC2, 0xAB] ++ t' ++ z := by simpa using hp
  match w, hw with
  | [], _ => simp
  | [_], hw =>
    obtain ⟨rfl, -⟩ := List.cons_prefix_cons.mp hw
    exact absurd rfl (hu.ne_append_c2 x)
  | _ :: _ :: w', hw =>
    obtain ⟨rfl, hw'⟩ := List.cons_prefix_cons.mp hw
    obtain ⟨rfl, -⟩ := List.cons_prefix_cons.mp hw'
    have := hu.guillemet_only_first (List.suffix_append x _) (List.cons_ne_nil _ _)
      (by simp : [0xC2, 0xAB] <+: (0xC2 :: 0xAB :: w') ++ [])
    exact absurd (List.append_left_eq_self.mp this.symm) hne

theorem IsPlaceholder.mem {t : Bytes} (ht : IsPlaceholder t) {c : UInt8} (hc : c ∈ t) :
    c ∈ tokenPrefix ∨ isDigit c = true ∨ c ∈ tokenSuffix := by
  obtain ⟨ds, -, hd, rfl⟩ := ht
  simp only [List.mem_append] at hc
  rcases hc with (hc | hc) | hc
  · exact .inl hc
  · exact .inr (.inl (hd c hc))
  · exact .inr (.inr hc)

/-! ## `tokenPlaceholderRe.MatchString` -/

/-- `\d+»` at the front of `x` -/
def digitsThenSuffix : Bytes → Bool
  | [] => false
  | c :: s => isDigit c && (decide (tokenSuffix <+: s) || digitsThenSuffix s)

/-- `«TOKEN_\d+»` at the front of `x` -/
def placeholderAtFront (x : Bytes) : Bool :=
  decide (tokenPrefix <+: x) && digitsThenSuffix (x.drop tokenPrefix.length)

/-- `tokenPlaceholderRe.MatchString(x)`.  The pattern's `«`, `»` and ASCII bytes are each read
as themselves by Go's UTF-8 decoding whatever surrounds them, so a byte-level search is exact. -/
def matchString : Bytes → Bool
  | [] => false
  | c :: s => placeholderAtFront (c :: s) || matchString s

theorem digitsThenSuffix_iff (y : Bytes) :
    digitsThenSuffix y = true ↔
      ∃ ds : Bytes, ds ≠ [] ∧ (∀ d ∈ ds, isDigit d = true) ∧ ds ++ tokenSuffix <+: y := by
  induction y with
  | nil => simp [digitsThenSuffix, tokenSuffix]
  | cons c s ih =>
    simp only [digitsThenSuffix, Bool.and_eq_true, Bool.or_eq_true, decide_eq_true_eq, ih]
    constructor
    · rintro ⟨hc, hs | ⟨ds, hne, hd, hp⟩⟩
      · exact ⟨[c], by simp, by simpa using hc, by simpa using hs⟩
      · refine ⟨c :: ds, by simp, ?_, by simpa using hp⟩
        simp only [List.mem_cons, forall_eq_or_imp]; exact ⟨hc, hd⟩
    · rintro ⟨_ | ⟨d, ds⟩, hne, hd, hp⟩
      · exact absurd rfl hne
      obtain ⟨rfl, hp'⟩ := List.cons_prefix_cons.mp hp
      refine ⟨hd _ (List.mem_cons_self _ _), ?_⟩
      rcases ds with _ | ⟨e, es⟩
      · exact .inl (by simpa using hp')
      · exact .inr ⟨e :: es, by simp, fun x hx => hd x (List.mem_cons_of_mem _ hx), hp'⟩

theorem placeholderAtFront_iff (x : Bytes) :
    placeholderAtFront x = true ↔ ∃ t, IsPlaceholder t ∧ t <+: x := by
  simp only [placeholderAtFront, Bool.and_eq_true, decide_eq_true_eq, digitsThenSuffix_iff]
  constructor
  · rintro ⟨⟨r, rfl⟩, ds, hne, hd, hp⟩
    refine ⟨_, ⟨ds, hne, hd, rfl⟩, ?_⟩
    rw [List.drop_left] at hp
    simpa [List.append_assoc] using hp
  · rintro ⟨_, ⟨ds, hne, hd, rfl⟩, r, rfl⟩
    refine ⟨⟨ds ++ tokenSuffix ++ r, by simp [List.append_assoc]⟩, ds, hne, hd, ?_⟩
    simp [List.append_assoc, tokenPrefix]

theorem matchString_iff (x : Bytes) :
    matchString x = true ↔ ∃ t, IsPlaceholder t ∧ t <:+: x := by
  induction x with
  | nil =>
    simp only [matchString, Bool.false_eq_true, false_iff, not_exists, not_and]
    intro t ht h
    exact ht.ne_nil (List.eq_nil_of_infix_nil h)
  | cons c s ih =>
    simp only [matchString, Bool.or_eq_true, placeholderAtFront_iff, ih]
    constructor
    · rintro (⟨t, ht, hp⟩ | ⟨t, ht, hi⟩)
      · exact ⟨t, ht, hp.isInfix⟩
      · exact ⟨t, ht, hi.trans (List.suffix_cons c s).isInfix⟩
    · rintro ⟨t, ht, hi⟩
      rcases List.infix_cons_iff.mp hi with hp | hi
      · exact .inl ⟨t, ht, hp⟩
      · exact .inr ⟨t, ht, hi⟩

end GonkaProxy
