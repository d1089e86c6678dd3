import Mathlib.Data.List.Infix
import Mathlib.Data.List.Basic

/-!
# Byte strings, Go panics and `strings.ReplaceAll`

Go strings are byte strings; the sanitizer slices them by byte offset and the streaming restorer
holds back a fixed number of bytes, so every text of the model is a `Bytes`, a list of `UInt8`.

* `ascii s`               the bytes of an ASCII literal `s`;
* `GoRun`                 how a Go call ends: a value, or a run-time panic;
* `replaceAll s old new`  `strings.ReplaceAll`: the leftmost non-overlapping occurrences of `old`,
                          scanned from the left, replaced by `new`;
* `replaceAll_at_occurrence`, `replaceAll_cons`   the two steps of the scan;
* `replaceAll_append`     the cut lemma: if no occurrence of `old` starts in `a` and ends in `b`,
                          the two sides are rewritten separately.
-/

set_option linter.unusedSectionVars false
set_option linter.unusedVariables false

namespace GonkaProxy

abbrev Bytes := List UInt8

/-- the bytes of an ASCII literal -/
def ascii (s : String) : Bytes := s.toList.map Char.toUInt8

/-- how a Go call ends: it returns `a`, or it panics with a run-time error -/
inductive GoRun (α : Type) where
  | ok (a : α)
  | panic (err : String)
  deriving DecidableEq, Repr

/-- sequencing: a panic ends the rest -/
def GoRun.bind {α β : Type} : GoRun α → (α → GoRun β) → GoRun β
  | .ok a, f => f a
  | .panic e, _ => .panic e

instance : Monad GoRun where
  pure := .ok
  bind := GoRun.bind

@[simp] theorem GoRun.bind_ok {α β : Type} (a : α) (f : α → GoRun β) : (GoRun.ok a >>= f) = f a := rfl

/-! ## `strings.ReplaceAll` -/

/-- the scan of `strings.ReplaceAll`: `skip` more bytes of the occurrence just replaced are to be
passed over before the next comparison -/
def replaceScan (old new : Bytes) : Nat → Bytes → Bytes
  | _, [] => []
  | skip + 1, _ :: s => replaceScan old new skip s
  | 0, c :: s =>
    if old <+: c :: s then new ++ replaceScan old new (old.length - 1) s
    else c :: replaceScan old new 0 s

/-- `strings.ReplaceAll(s, old, new)`.  Every call site passes a placeholder as `old`, so the
empty-`old` case of Go (insert `new` around every rune) never arises. -/
def replaceAll (s old new : Bytes) : Bytes := replaceScan old new 0 s

section
variable {old new : Bytes}

@[simp] theorem replaceAll_nil : replaceAll [] old new = [] := rfl

theorem replaceScan_skip (a s : Bytes) :
    replaceScan old new a.length (a ++ s) = replaceScan old new 0 s := by
  induction a with
  | nil => rfl
  | cons c a ih => exact ih

theorem replaceAll_at_occurrence (h : old ≠ []) (s : Bytes) :
    replaceAll (old ++ s) old new = new ++ replaceAll s old new := by
  obtain ⟨c, o, rfl⟩ := List.exists_cons_of_ne_nil h
  have hp : c :: o <+: c :: (o ++ s) := List.prefix_append (c :: o) s
  show replaceScan _ new 0 (c :: (o ++ s)) = _
  rw [replaceScan, if_pos hp]
  simp only [List.length_cons, Nat.add_sub_cancel]
  rw [replaceScan_skip]
  rfl

theorem replaceAll_cons {c : UInt8} {s : Bytes} (h : ¬ old <+: c :: s) :
    replaceAll (c :: s) old new = c :: replaceAll s old new := by
  show replaceScan old new 0 (c :: s) = _
  rw [replaceScan, if_neg h]
  rfl

theorem replaceAll_eq_self {s : Bytes} (h : ¬ old <:+: s) : replaceAll s old new = s := by
  induction s with
  | nil => rfl
  | cons c s ih =>
    rw [List.infix_cons_iff, not_or] at h
    rw [replaceAll_cons h.1, ih h.2]

/-- no occurrence of `old` starts inside `a` and runs on into what follows it -/
def NoCrossing (old a b : Bytes) : Prop :=
  ∀ a', a' <:+ a → a' ≠ [] → old <+: a' ++ b → old <+: a'

theorem NoCrossing.tail {c : UInt8} {a b : Bytes} (h : NoCrossing old (c :: a) b) :
    NoCrossing old a b :=
  fun a' ha' hne hp => h a' (ha'.trans (List.suffix_cons c a)) hne hp

private theorem replaceScan_append (a b : Bytes) (h : NoCrossing old a b) :
    ∀ k, k ≤ a.length →
      replaceScan old new k (a ++ b) = replaceScan old new k a ++ replaceScan old new 0 b := by
  induction a with
  | nil => intro k hk; rw [Nat.le_zero.mp hk]; rfl
  | cons c a ih =>
    intro k hk
    cases k with
    | succ k => exact ih h.tail k (by simpa using hk)
    | zero =>
      show replaceScan old new 0 (c :: (a ++ b)) = replaceScan old new 0 (c :: a) ++ _
      by_cases hp : old <+: c :: (a ++ b)
      · have hpa : old <+: c :: a := h (c :: a) (List.suffix_refl _) (List.cons_ne_nil _ _) hp
        have hlen : old.length - 1 ≤ a.length := by
          have := hpa.length_le; simp at this; omega
        rw [replaceScan, if_pos hp, replaceScan, if_pos hpa, ih h.tail _ hlen, List.append_assoc]
      · have hpa : ¬ old <+: c :: a := fun hpa =>
          hp (hpa.trans (by simp))
        rw [replaceScan, if_neg hp, replaceScan, if_neg hpa, ih h.tail 0 (Nat.zero_le _)]
        rfl

theorem NoCrossing.nil_right (old a : Bytes) : NoCrossing old a [] :=
  fun _ _ _ hp => by simpa using hp

theorem prefix_of_not_mem {b : UInt8} {c : Bytes} : ∀ {p a : Bytes}, p <+: a ++ b :: c → b ∉ p → p <+: a
  | [], _, _, _ => List.nil_prefix
  | q :: p, [], h, hb => absurd (by rw [(List.cons_prefix_cons.mp h).1]; exact List.mem_cons_self _ _) hb
  | q :: p, x :: a, h, hb => by
    obtain ⟨rfl, h'⟩ := List.cons_prefix_cons.mp h
    exact List.cons_prefix_cons.mpr ⟨rfl, prefix_of_not_mem h' fun hm => hb (List.mem_cons_of_mem _ hm)⟩

theorem NoCrossing.of_not_mem {a b : Bytes} {c : UInt8} (hc : c ∉ old) : NoCrossing old a (c :: b) :=
  fun _ _ _ hp => prefix_of_not_mem hp hc

theorem NoCrossing.infix_append {a b : Bytes} (h : NoCrossing old a b) (hu : old <:+: a ++ b) :
    old <:+: a ∨ old <:+: b := by
  obtain ⟨s, t, hst⟩ := hu
  rcases List.append_eq_append_iff.mp hst with ⟨a', rfl, -⟩ | ⟨c', hc', rfl⟩
  · exact .inl ⟨s, a', rfl⟩
  rcases List.append_eq_append_iff.mp hc' with ⟨a'', rfl, hold⟩ | ⟨c'', -, rfl⟩
  · by_cases hne : a'' = []
    · subst hne; exact .inr ⟨[], t, by simp [hold]⟩
    · have hp : old <+: a'' := h a'' (List.suffix_append s a'') hne ⟨t, by simp [hold]⟩
      exact .inl (hp.isInfix.trans (List.suffix_append s a'').isInfix)
  · exact .inr ⟨c'', t, by simp⟩

/-- **Cut lemma.**  When no occurrence of `old` crosses from `a` into `b`, `strings.ReplaceAll`
rewrites the two sides independently. -/
theorem replaceAll_append {a b : Bytes} (h : NoCrossing old a b) :
    replaceAll (a ++ b) old new = replaceAll a old new ++ replaceAll b old new :=
  replaceScan_append a b h 0 (Nat.zero_le _)

end

end GonkaProxy
