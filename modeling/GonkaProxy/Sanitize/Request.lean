import GonkaProxy.Sanitize.Messages
import GonkaProxy.Sanitize.RoundTrip

/-!
# The request round trip

`RedactMessages` hands each string of the request to `redactText` or `redactTextWithNER`,
threading one map and the global counter through the calls, in the order of its loops.  Every
map on the way is one redaction can reach, and each keeps the bindings of the one before; so the
map the request ends with restores every string the loops rewrote, whatever order `range` takes,
unless the original itself spells one of its placeholders.

* `TokenMap.Keeps`, `RunFrom`   a run of redaction calls: the map after is reachable and keeps
                                every binding, the counter moved by at most `n`;
* `partsTextLength`, `contentTextLength`, `messagesTextLength`   the bytes the loops hand to
                                redaction, in their order;
* `RedactsBySpans`              a redaction function that splices some spans, as `redactText`
                                and `redactTextWithNER` do;
* `Undone`                      a map restores a rewritten string to the original;
* `redactParts_restore`, `redactContent_restore`, `redactEach_restore`   the run lemmas of the
                                three loops;
* `redactMessages_restore`      the request's map undoes every string `RedactMessages` rewrote.
-/

set_option linter.unusedSectionVars false
set_option linter.unusedVariables false

namespace GonkaProxy

open JValue

/-! ## runs of redaction calls -/

/-- `E` keeps every binding of `tm` -/
def TokenMap.Keeps (tm E : TokenMap) : Prop :=
  ∀ t o, tm.fromToken.get? t = some o → E.fromToken.get? t = some o

/-- what a run of redaction calls from the map `tm` at counter `c`, on `n` bytes, guarantees of
the map `tm'` and the counter `c'` after it -/
structure RunFrom (tm : TokenMap) (c n : Nat) (tm' : TokenMap) (c' : Nat) : Prop where
  reach : Redacted tm' c'
  counter : c' ≤ c + n
  keeps : tm.Keeps tm'

section
variable {tm tm₁ tm₂ : TokenMap} {c c₁ c₂ n₁ n₂ : Nat}

theorem TokenMap.Keeps.trans (h₁ : tm.Keeps tm₁) (h₂ : tm₁.Keeps tm₂) : tm.Keeps tm₂ :=
  fun t o h => h₂ t o (h₁ t o h)

theorem RunFrom.refl (h : Redacted tm c) (n : Nat) : RunFrom tm c n tm c :=
  ⟨h, Nat.le_add_right c n, fun _ _ h => h⟩

theorem RunFrom.trans (h₁ : RunFrom tm c n₁ tm₁ c₁) (h₂ : RunFrom tm₁ c₁ n₂ tm₂ c₂) :
    RunFrom tm c (n₁ + n₂) tm₂ c₂ :=
  ⟨h₂.reach, by have := h₁.counter; have := h₂.counter; omega, h₁.keeps.trans h₂.keeps⟩

end

/-- a redaction function that splices the spans of some classifier results: `s.redactText` and
`s.redactTextWithNER`, whatever their schedules -/
def RedactsBySpans (fn : RedactFn) : Prop :=
  ∀ t tm c, ∃ allSpans, fn t tm c = redactSpans t allSpans tm c

/-- the map `E` restores the rewritten string `s'` to `s` in every iteration order, unless `s`
spells one of its placeholders -/
def Undone (E : TokenMap) (s' s : Bytes) : Prop :=
  (∀ e ∈ E.fromToken, ¬ e.1 <:+: s) → ∀ o : E.fromToken.Order, E.Restore o s' = s

/-- **Step lemma.**  One call on a reachable map, with room before the counter wraps, is a run;
every later reachable map of the request undoes it. -/
theorem RedactsBySpans.call {fn : RedactFn} (hfn : RedactsBySpans fn) {t : Bytes} {tm : TokenMap}
    {c : Nat} (hR : Redacted tm c) (hc : c + t.length < 2 ^ 64) :
    RunFrom tm c t.length (fn t tm c).2.1 (fn t tm c).2.2 ∧
    ∀ E c', Redacted E c' → (fn t tm c).2.1.Keeps E → Undone E (fn t tm c).1 t := by
  obtain ⟨allSpans, h⟩ := hfn t tm c
  obtain ⟨K, segs, hK, -, hrun⟩ := redactSpans_splice t allSpans tm c hR.sound hc
  rw [h]
  exact ⟨⟨.redact t allSpans hc hR, by have := hrun.counter; have := hK.length_le; omega, hrun.keeps⟩,
    fun E c' hE hk hno o => redactSpans_restore_into t allSpans tm c hR hc hE.sound hk hno o⟩

/-! ## the bytes the loops redact -/

/-- the bytes of the `text` strings the parts loop hands to redaction -/
def partsTextLength : List (Option JMap) → Nat
  | [] => 0
  | none :: ps => partsTextLength ps
  | some part :: ps =>
    match (member part (ascii "text")).bind asString? with
    | none => partsTextLength ps
    | some text => text.length + partsTextLength ps

/-- the bytes of the strings one `content` hands to redaction -/
def contentTextLength (content : JValue) : Nat :=
  match content.asString? with
  | some s => s.length
  | none =>
    match content.asMaps? with
    | none => 0
    | some parts => partsTextLength parts

/-- the bytes of the strings the messages loop hands to redaction -/
def messagesTextLength : List (Option JMap) → Nat
  | [] => 0
  | none :: ms => messagesTextLength ms
  | some msg :: ms =>
    match member msg (ascii "content") with
    | none => messagesTextLength ms
    | some content => contentTextLength content + messagesTextLength ms

/-! ## the loops -/

/-- **Run lemma** of the parts loop: a run over the parts' texts, and every later reachable map
undoes every `text` it rewrote. -/
theorem redactParts_restore {fn : RedactFn} (hfn : RedactsBySpans fn) :
    ∀ (parts : List (Option JMap)) (tm : TokenMap) (c : Nat),
    Redacted tm c → c + partsTextLength parts < 2 ^ 64 →
    RunFrom tm c (partsTextLength parts) (redactParts fn parts tm c).2.2.1
      (redactParts fn parts tm c).2.2.2 ∧
    ∀ E c', Redacted E c' → (redactParts fn parts tm c).2.2.1.Keeps E →
      List.Forall₂ (MemberEdit (ascii "text") (TextEdit (Undone E))) (redactParts fn parts tm c).1 parts
  | [], tm, c, hR, _ => ⟨.refl hR 0, fun _ _ _ _ => .nil⟩
  | none :: ps, tm, c, hR, hc =>
    have ih := redactParts_restore hfn ps tm c hR hc
    ⟨ih.1, fun E c' hE hk => .cons .none (ih.2 E c' hE hk)⟩
  | some part :: ps, tm, c, hR, hc => by
    cases ht : (member part (ascii "text")).bind asString? with
    | none =>
      simp only [partsTextLength, redactParts, ht] at hc ⊢
      have ih := redactParts_restore hfn ps tm c hR hc
      exact ⟨ih.1, fun E c' hE hk => .cons (MemberEdit.refl (fun _ => .inl rfl) _) (ih.2 E c' hE hk)⟩
    | some text =>
      simp only [partsTextLength, redactParts, ht] at hc ⊢
      obtain ⟨v, hv, hs⟩ := Option.bind_eq_some.mp ht
      obtain ⟨h₁, hundo⟩ := hfn.call hR (show c + text.length < 2 ^ 64 by omega)
      have ih := redactParts_restore hfn ps _ _ h₁.reach (by have := h₁.counter; omega)
      split <;> refine ⟨h₁.trans ih.1, fun E c' hE hk => .cons ?_ (ih.2 E c' hE hk)⟩
      · exact MemberEdit.setMember hv (.inr ⟨text, _, hs, rfl, hundo E c' hE (ih.1.keeps.trans hk)⟩)
      · exact MemberEdit.refl (fun _ => .inl rfl) _

theorem redactContent_restore {fn : RedactFn} (hfn : RedactsBySpans fn) (content : JValue)
    (tm : TokenMap) (c : Nat) (hR : Redacted tm c) (hc : c + contentTextLength content < 2 ^ 64) :
    RunFrom tm c (contentTextLength content) (redactContent fn content tm c).2.1
      (redactContent fn content tm c).2.2 ∧
    ∀ E c', Redacted E c' → (redactContent fn content tm c).2.1.Keeps E →
      ∀ v', (redactContent fn content tm c).1 = some v' → ContentEdit (Undone E) v' content := by
  cases hs : content.asString? with
  | some s =>
    simp only [contentTextLength, redactContent, hs] at hc ⊢
    obtain ⟨h₁, hundo⟩ := hfn.call hR hc
    refine ⟨h₁, fun E c' hE hk v' hv => ?_⟩
    split at hv
    · cases hv; exact .inl (.inr ⟨s, _, hs, rfl, hundo E c' hE hk⟩)
    · cases hv
  | none =>
    cases hp : content.asMaps? with
    | none =>
      simp only [contentTextLength, redactContent, hs, hp]
      exact ⟨.refl hR 0, fun _ _ _ _ _ hv => by cases hv⟩
    | some parts =>
      simp only [contentTextLength, redactContent, hs, hp] at hc ⊢
      have h := redactParts_restore hfn parts tm c hR hc
      refine ⟨h.1, fun E c' hE hk v' hv => ?_⟩
      split at hv
      · cases hv; exact .inr ⟨parts, _, hp, rfl, h.2 E c' hE hk⟩
      · cases hv

/-- **Run lemma** of the messages loop: a run over the messages' strings, and every later
reachable map undoes every content it rewrote. -/
theorem redactEach_restore {full hist : RedactFn} (hfull : RedactsBySpans full)
    (hhist : RedactsBySpans hist) (last : Option Nat) :
    ∀ (i : Nat) (ms : List (Option JMap)) (tm : TokenMap) (c : Nat),
      Redacted tm c → c + messagesTextLength ms < 2 ^ 64 →
      RunFrom tm c (messagesTextLength ms) (redactEach full hist last i ms tm c).2.2.1
        (redactEach full hist last i ms tm c).2.2.2 ∧
      ∀ E c', Redacted E c' → (redactEach full hist last i ms tm c).2.2.1.Keeps E →
        List.Forall₂ (MessageEdit (Undone E)) (redactEach full hist last i ms tm c).1 ms
  | _, [], tm, c, hR, _ => ⟨.refl hR 0, fun _ _ _ _ => .nil⟩
  | i, none :: ms, tm, c, hR, hc =>
    have ih := redactEach_restore hfull hhist last (i + 1) ms tm c hR hc
    ⟨ih.1, fun E c' hE hk => .cons .none (ih.2 E c' hE hk)⟩
  | i, some msg :: ms, tm, c, hR, hc => by
    cases hm : member msg (ascii "content") with
    | none =>
      simp only [messagesTextLength, redactEach, hm] at hc ⊢
      have ih := redactEach_restore hfull hhist last (i + 1) ms tm c hR hc
      exact ⟨ih.1, fun E c' hE hk => .cons (messageEdit_refl _ _) (ih.2 E c' hE hk)⟩
    | some content =>
      simp only [messagesTextLength, redactEach, hm] at hc ⊢
      have hfn : RedactsBySpans (if last = some i then full else hist) := by
        split <;> assumption
      have h₁ := redactContent_restore hfn content tm c hR (by omega)
      have ih := redactEach_restore hfull hhist last (i + 1) ms _ _ h₁.1.reach
        (by have := h₁.1.counter; omega)
      split <;> refine ⟨h₁.1.trans ih.1, fun E c' hE hk => .cons ?_ (ih.2 E c' hE hk)⟩
      · rename_i v hv
        exact MemberEdit.setMember hm (h₁.2 E c' hE (ih.1.keeps.trans hk) v hv)
      · exact messageEdit_refl _ _

/-- **The request round trip.**  For every request whose `messages` decodes, every pair of
redaction functions that splice classifier spans (`redactText`, `redactTextWithNER`, under any
schedules) and every counter value with room for the request's strings: the map `RedactMessages`
returns is one redaction can reach, the body keeps every member but `messages`, and the new
`messages` decodes message for message, each keeping every member but `content`, whose strings
(the content itself, or the `text` of each part) are kept or rewritten to strings the map
restores to the originals in every iteration order, unless an original spells one of its
placeholders. -/
theorem redactMessages_restore (full hist : RedactFn) (hfull : RedactsBySpans full)
    (hhist : RedactsBySpans hist) (req : JMap) (c : Nat) (msgs : List (Option JMap))
    (hm : (member req (ascii "messages")).bind asMaps? = some msgs)
    (hc : c + messagesTextLength msgs < 2 ^ 64) :
    Redacted (redactMessages full hist req c).2.1 (redactMessages full hist req c).2.2 ∧
    ∃ req' msgs', (redactMessages full hist req c).1 = .object req' ∧
      (∀ k, k ≠ ascii "messages" → member req' k = member req k) ∧
      (member req' (ascii "messages")).bind asMaps? = some msgs' ∧
      List.Forall₂ (MessageEdit (Undone (redactMessages full hist req c).2.1)) msgs' msgs := by
  obtain ⟨raw, hraw, hmsgs⟩ := Option.bind_eq_some.mp hm
  have h := redactEach_restore hfull hhist (lastUserIdx msgs) 0 msgs newTokenMap c (.init c) hc
  simp only [redactMessages, hraw, hmsgs]
  refine ⟨h.1.reach, ?_⟩
  split
  · exact ⟨_, _, rfl, fun _ hk => member_setMember_ne _ _ hk,
      by rw [member_setMember_self, hraw]; exact asMaps?_ofMaps _,
      h.2 _ _ h.1.reach fun _ _ h => h⟩
  · exact ⟨req, msgs, rfl, fun _ _ => rfl, hm,
      List.forall₂_same.2 fun m _ => messageEdit_refl _ m⟩

/-- one user message, `"Bob is here"`, a classifier that finds `"Bob"`, the counter at `0` -/
theorem redactMessages_restore_bob :
    let cls : Classifier := ⟨fun _ => some [⟨0, 3, "PER"⟩]⟩
    let full : RedactFn := fun t tm c => (Sanitizer.mk [cls]).redactText ⟨_, .refl _, 1⟩ t tm c
    let hist : RedactFn := fun t tm c => (Sanitizer.mk [cls]).redactTextWithNER ⟨[], .nil, 0⟩ t tm c
    let msgs : List (Option JMap) :=
      [some [(ascii "role", .string (ascii "user")), (ascii "content", .string (ascii "Bob is here"))]]
    let req : JMap := [(ascii "messages", ofMaps msgs)]
    RedactsBySpans full ∧ RedactsBySpans hist ∧
    (member req (ascii "messages")).bind asMaps? = some msgs ∧ 0 + messagesTextLength msgs < 2 ^ 64 ∧
    Redacted (redactMessages full hist req 0).2.1 (redactMessages full hist req 0).2.2 ∧
    ∃ req' msgs', (redactMessages full hist req 0).1 = .object req' ∧
      (∀ k, k ≠ ascii "messages" → member req' k = member req k) ∧
      (member req' (ascii "messages")).bind asMaps? = some msgs' ∧
      List.Forall₂ (MessageEdit (Undone (redactMessages full hist req 0).2.1)) msgs' msgs :=
  ⟨fun _ _ _ => ⟨_, rfl⟩, fun _ _ _ => ⟨_, rfl⟩, rfl, by decide,
    redactMessages_restore _ _ (fun _ _ _ => ⟨_, rfl⟩) (fun _ _ _ => ⟨_, rfl⟩) _ 0 _ rfl (by decide)⟩

end GonkaProxy
