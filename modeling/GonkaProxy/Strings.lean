import GonkaProxy.Bytes

/-!
# The functions of Go's `strings` package the classifiers use

* `index`, `lastIndex`, `contains`   `strings.Index`, `strings.LastIndex`, `strings.Contains`
                                     (`none` for Go's `-1`), with `index_eq_some`,
                                     `index_eq_none`, `lastIndex_sound`, `index_append_cons`,
                                     `lastIndex_append`;
* `spaceRunes`                       the UTF-8 encodings of the code points `unicode.IsSpace`
                                     accepts;
* `trimSpace`                        `strings.TrimSpace`: white-space code points off both ends.
                                     Go decodes a rune at each end, and a rune decodes to one of
                                     `spaceRunes` exactly when its bytes are that encoding, so the
                                     trim is a byte-level match at each end;
                                     `trimSpace_of_ends` keeps a text that starts and ends with
                                     other bytes;
* `Trimmed`                          no white-space rune at either end: `trimSpace` returns such a
                                     text (`trimmed_trimSpace`) and keeps it (`trimSpace_of_trimmed`).
-/

set_option linter.unusedSectionVars false
set_option linter.unusedVariables false

namespace GonkaProxy

/-! ## `strings.Index`, `strings.LastIndex` -/

/-- `strings.Index(s, sub)`: the first offset where `sub` occurs -/
def index (s sub : Bytes) : Option Nat :=
  if sub <+: s then some 0
  else match s with
    | [] => none
    | _ :: t => (index t sub).map (· + 1)

/-- `strings.LastIndex(s, sub)`: the last offset where `sub` occurs -/
def lastIndex (s sub : Bytes) : Option Nat :=
  match s with
  | [] => if sub = [] then some 0 else none
  | c :: t =>
    match lastIndex t sub with
    | some i => some (i + 1)
    | none => if sub <+: c :: t then some 0 else none

/-- `strings.Contains(s, sub)` -/
def contains (s sub : Bytes) : Bool := (index s sub).isSome

section
variable {s sub : Bytes} {i : Nat}

theorem index_eq_some : ∀ {s : Bytes} {i : Nat},
    index s sub = some i ↔ sub <+: s.drop i ∧ ∀ j < i, ¬ sub <+: s.drop j
  | [], i => by
    by_cases h : sub <+: []
    · cases i <;> simp [index, h]
      exact ⟨0, by omega⟩
    · cases i <;> simp [index, h]
  | c :: t, i => by
    by_cases h : sub <+: c :: t
    · cases i <;> simp [index, h]
      exact fun _ => ⟨0, by omega, h⟩
    · cases i with
      | zero => simp [index, h]
      | succ i =>
        simp only [index, h, if_false, Option.map_eq_some', index_eq_some, Nat.add_right_cancel_iff,
          exists_eq_right, List.drop_succ_cons]
        constructor
        · rintro ⟨h1, h2⟩
          refine ⟨h1, fun j hj => ?_⟩
          cases j with
          | zero => exact h
          | succ j => exact h2 j (by omega)
        · rintro ⟨h1, h2⟩
          exact ⟨h1, fun j hj => h2 (j + 1) (by omega)⟩

theorem index_eq_none : ∀ {s : Bytes}, index s sub = none ↔ ∀ j, ¬ sub <+: s.drop j
  | [] => by
    by_cases h : sub <+: [] <;> simp [index, h]
  | c :: t => by
    by_cases h : sub <+: c :: t
    · simp only [index, h, if_true, reduceCtorEq, false_iff, not_forall, not_not]
      exact ⟨0, h⟩
    · simp only [index, h, if_false, Option.map_eq_none', index_eq_none]
      constructor
      · intro h' j
        cases j with
        | zero => exact h
        | succ j => exact h' j
      · intro h' j; exact h' (j + 1)

theorem lastIndex_sound : ∀ {s : Bytes} {i : Nat}, lastIndex s sub = some i → sub <+: s.drop i ∧ i ≤ s.length
  | [], i, h => by
    by_cases hs : sub = [] <;> simp [lastIndex, hs] at h
    subst h; simp [hs]
  | c :: t, i, h => by
    simp only [lastIndex] at h
    split at h
    · rename_i k hk
      cases h
      have := lastIndex_sound hk
      exact ⟨by simpa using this.1, by simp; omega⟩
    · split at h
      · cases h; exact ⟨by simpa, Nat.zero_le _⟩
      · cases h

theorem index_append_cons {b : UInt8} {u : Bytes} (hu : b ∉ u) (v : Bytes) :
    index (u ++ b :: v) [b] = some u.length := by
  induction u with
  | nil => simp [index]
  | cons c u ih =>
    rw [List.mem_cons, not_or] at hu
    have : ¬ [b] <+: c :: (u ++ b :: v) := by simp [List.cons_prefix_cons, hu.1]
    simp [index, this, ih hu.2]

theorem index_single_none {b : UInt8} {s : Bytes} (h : b ∉ s) : index s [b] = none :=
  index_eq_none.mpr fun j hj => h (List.mem_of_mem_drop (by
    obtain ⟨t, ht⟩ := hj; rw [← ht]; exact List.mem_cons_self _ _))

theorem lastIndex_append {t sub : Bytes} {i : Nat} (h : lastIndex t sub = some i) (u : Bytes) :
    lastIndex (u ++ t) sub = some (u.length + i) := by
  induction u with
  | nil => simpa using h
  | cons c u ih => rw [List.cons_append, lastIndex, ih, List.length_cons, Nat.add_right_comm]

end

/-! ## `strings.TrimSpace` -/

/-- the UTF-8 encodings of the code points `unicode.IsSpace` accepts: tab, newline, vertical tab,
form feed, carriage return, space, U+0085, U+00A0, U+1680, U+2000 to U+200A, U+2028, U+2029,
U+202F, U+205F, U+3000 -/
def spaceRunes : List Bytes :=
  [[0x09], [0x0A], [0x0B], [0x0C], [0x0D], [0x20], [0xC2, 0x85], [0xC2, 0xA0], [0xE1, 0x9A, 0x80],
    [0xE2, 0x80, 0x80], [0xE2, 0x80, 0x81], [0xE2, 0x80, 0x82], [0xE2, 0x80, 0x83],
    [0xE2, 0x80, 0x84], [0xE2, 0x80, 0x85], [0xE2, 0x80, 0x86], [0xE2, 0x80, 0x87],
    [0xE2, 0x80, 0x88], [0xE2, 0x80, 0x89], [0xE2, 0x80, 0x8A], [0xE2, 0x80, 0xA8],
    [0xE2, 0x80, 0xA9], [0xE2, 0x80, 0xAF], [0xE2, 0x81, 0x9F], [0xE3, 0x80, 0x80]]

/-- drop the patterns `pats` from the front of the bytes, one after the other; `skip` more bytes of
the pattern just matched are still to be dropped -/
def trimScan (pats : List Bytes) : Nat → Bytes → Bytes
  | _, [] => []
  | skip + 1, _ :: s => trimScan pats skip s
  | 0, c :: s =>
    match pats.find? (fun p => decide (p <+: c :: s)) with
    | some p => trimScan pats (p.length - 1) s
    | none => c :: s

/-- `strings.TrimLeftFunc(s, unicode.IsSpace)` -/
def trimLeftSpace (s : Bytes) : Bytes := trimScan spaceRunes 0 s

/-- `strings.TrimRightFunc(s, unicode.IsSpace)`: the same scan from the end -/
def trimRightSpace (s : Bytes) : Bytes := (trimScan (spaceRunes.map List.reverse) 0 s.reverse).reverse

/-- `strings.TrimSpace(s)` -/
def trimSpace (s : Bytes) : Bytes := trimRightSpace (trimLeftSpace s)

example : trimSpace ([0xE2, 0x80, 0x83] ++ ascii " a b\n" ++ [0xC2, 0xA0]) = ascii "a b" := by decide

theorem trimScan_stop {pats : List Bytes} {c : UInt8} (hc : ∀ p ∈ pats, p ≠ [] ∧ p.head? ≠ some c)
    (s : Bytes) : trimScan pats 0 (c :: s) = c :: s := by
  rw [trimScan, List.find?_eq_none.2]
  rintro (_ | ⟨a, q⟩) hp hpre
  · exact (hc _ hp).1 rfl
  · have := (List.cons_prefix_cons.1 (of_decide_eq_true hpre)).1
    exact (hc _ hp).2 (by simp [this])

theorem spaceRunes_ne_nil : ∀ p ∈ spaceRunes, p ≠ [] := by decide

theorem trimLeftSpace_stop {c : UInt8} (hc : ∀ p ∈ spaceRunes, p.head? ≠ some c) (s : Bytes) :
    trimLeftSpace (c :: s) = c :: s :=
  trimScan_stop (fun p hp => ⟨spaceRunes_ne_nil p hp, hc p hp⟩) s

theorem trimRightSpace_stop {d : UInt8} (hd : ∀ p ∈ spaceRunes, p.getLast? ≠ some d) (s : Bytes) :
    trimRightSpace (s ++ [d]) = s ++ [d] := by
  rw [trimRightSpace, List.reverse_append, List.reverse_singleton, List.singleton_append, trimScan_stop]
  · simp
  simp only [List.mem_map]
  rintro _ ⟨p, hp, rfl⟩
  simp [List.head?_reverse, hd p hp, spaceRunes_ne_nil p hp]

theorem trimRightSpace_newline (s : Bytes) : trimRightSpace (s ++ [0x0A]) = trimRightSpace s := by
  simp only [trimRightSpace, List.reverse_append, List.reverse_singleton, List.singleton_append]
  have : (spaceRunes.map List.reverse).find? (fun p => decide (p <+: 0x0A :: s.reverse)) = some [0x0A] := by
    simp [spaceRunes, List.cons_prefix_cons]
  rw [trimScan, this]
  rfl

theorem trimSpace_of_ends {c d : UInt8} (hc : ∀ p ∈ spaceRunes, p.head? ≠ some c)
    (hd : ∀ p ∈ spaceRunes, p.getLast? ≠ some d) (t : Bytes) :
    trimSpace (c :: (t ++ [d])) = c :: (t ++ [d]) := by
  rw [trimSpace, trimLeftSpace_stop hc, ← List.cons_append, trimRightSpace_stop hd]

theorem trimSpace_of_ends_newline {c d : UInt8} (hc : ∀ p ∈ spaceRunes, p.head? ≠ some c)
    (hd : ∀ p ∈ spaceRunes, p.getLast? ≠ some d) (t : Bytes) :
    trimSpace (c :: (t ++ [d]) ++ [0x0A]) = c :: (t ++ [d]) := by
  rw [trimSpace, List.cons_append, trimLeftSpace_stop hc, ← List.cons_append, trimRightSpace_newline,
    ← List.cons_append, trimRightSpace_stop hd]

theorem trimScan_suffix (pats : List Bytes) : ∀ (k : Nat) (s : Bytes), trimScan pats k s <:+ s
  | k, [] => by rw [trimScan.eq_1]
  | k + 1, c :: s => (trimScan_suffix pats k s).trans (List.suffix_cons c s)
  | 0, c :: s => by
    rw [trimScan]
    split
    · exact (trimScan_suffix pats _ s).trans (List.suffix_cons c s)
    · exact List.suffix_refl _

theorem trimScan_noPrefix (pats : List Bytes) : ∀ (k : Nat) (s : Bytes),
    ∀ p ∈ pats, p ≠ [] → ¬ p <+: trimScan pats k s
  | k, [], p, _, hp, h => hp (List.prefix_nil.mp (by rwa [trimScan.eq_1] at h))
  | k + 1, _ :: s, p, hm, hp, h => trimScan_noPrefix pats k s p hm hp h
  | 0, c :: s, p, hm, hp, h => by
    rw [trimScan] at h
    split at h
    · exact trimScan_noPrefix pats _ s p hm hp h
    · rename_i hf
      exact List.find?_eq_none.mp hf p hm (decide_eq_true h)

theorem trimScan_of_noPrefix {pats : List Bytes} {s : Bytes} (h : ∀ p ∈ pats, ¬ p <+: s) :
    trimScan pats 0 s = s := by
  cases s with
  | nil => rfl
  | cons c s => rw [trimScan, List.find?_eq_none.2 fun p hp hd => h p hp (of_decide_eq_true hd)]

/-- a text `strings.TrimSpace` leaves alone: no white-space rune at either end -/
def Trimmed (s : Bytes) : Prop := ∀ p ∈ spaceRunes, ¬ p <+: s ∧ ¬ p <:+ s

theorem trimSpace_of_trimmed {s : Bytes} (h : Trimmed s) : trimSpace s = s := by
  rw [trimSpace, trimLeftSpace, trimScan_of_noPrefix fun p hp => (h p hp).1, trimRightSpace,
    trimScan_of_noPrefix, List.reverse_reverse]
  simp only [List.mem_map]
  rintro _ ⟨p, hp, rfl⟩ hpre
  exact (h p hp).2 (List.reverse_prefix.mp hpre)

theorem trimSpace_prefix_trimLeft (s : Bytes) : trimSpace s <+: trimLeftSpace s := by
  rw [trimSpace, trimRightSpace, ← List.reverse_reverse (trimLeftSpace s)]
  exact List.reverse_prefix.mpr (by simpa using trimScan_suffix _ 0 (trimLeftSpace s).reverse)

theorem trimSpace_isInfix (s : Bytes) : trimSpace s <:+: s :=
  (trimSpace_prefix_trimLeft s).isInfix.trans (trimScan_suffix _ 0 s).isInfix

theorem trimmed_trimSpace (s : Bytes) : Trimmed (trimSpace s) := by
  intro p hp
  have hne : p ≠ [] := spaceRunes_ne_nil p hp
  refine ⟨fun h => trimScan_noPrefix _ 0 s p hp hne (h.trans (trimSpace_prefix_trimLeft s)), fun h => ?_⟩
  rw [trimSpace, trimRightSpace, ← List.reverse_prefix, List.reverse_reverse] at h
  exact trimScan_noPrefix _ 0 _ p.reverse (List.mem_map_of_mem _ hp) (by simpa using hne) h
end GonkaProxy
