import GonkaProxy.Sanitize.Request
import GonkaProxy.ToolSim.Parse

/-!
# `RedactMessages` on the bytes of the body

`Messages` follows the loops of `RedactMessages` over decoded values.  This is the function on
bytes, as the handler calls it: the body is decoded into `map[string]json.RawMessage` and its
`messages` into `[]map[string]json.RawMessage`, each string is read by `json.Unmarshal` from the
bytes of its member, a rewritten string is put back as `json.Marshal` writes it, and when
something changed the messages and the body are marshalled again (keys in order, values
compacted).  A body that does not decode into a map is redacted whole, as one text.

* `redactPartsRaw`, `redactContentRaw`, `lastUserFromRaw`, `redactEachRaw`, `RedactMessages`
                              the code;
* `redactedLength`            the bytes `RedactMessages` hands to redaction;
* `RedactMessages_run`        every call of the two redaction functions starts from the map the
                              one before it left, so the map `RedactMessages` returns is one
                              redaction can reach, the counter moved by at most `redactedLength`;
* `RawTextEdit`, `RawMemberEdit`, `RawContentEdit`   what an edit of a member's bytes, a map, a
                              content keeps;
* `RedactMessages_edits`      what goes upstream: the body itself; a body that is no map redacted
                              as one text, which the map gives back; or the object marshalled
                              again, its messages edited in their `content` strings only, each
                              rewritten string one the map restores to the original.

The final `json.Marshal(req)` fails only on a value that is not valid JSON; every value it meets
is the bytes of a member the decoder accepted or a text `json.Marshal` wrote, and its error path
is left out.
-/

set_option linter.unusedSectionVars false
set_option linter.unusedVariables false

namespace GonkaProxy

section
variable (fn : RedactFn)

/-- the loop over `parts`: a `text` that unmarshals to a string is redacted and, when that changed
it, set to `json.Marshal` of the redaction; the parts, whether one changed, the map and the
counter -/
def redactPartsRaw : List (Option GoMap) → TokenMap → Nat → List (Option GoMap) × Bool × TokenMap × Nat
  | [], tm, c => ([], false, tm, c)
  | part :: ps, tm, c =>
    match (getKey part (ascii "text")).bind unmarshalString with
    | none => let r := redactPartsRaw ps tm c; (part :: r.1, r.2)
    | some text =>
      let x := fn text tm c
      let r := redactPartsRaw ps x.2.1 x.2.2
      if x.1 ≠ text then (part.map (·.set (ascii "text") (encodeString x.1)) :: r.1, true, r.2.2)
      else (part :: r.1, r.2)

/-- one message's `content`: a string is redacted whole, an array of parts part by part, anything
else is left alone; the new bytes of `content` when they changed -/
def redactContentRaw (content : Bytes) (tm : TokenMap) (c : Nat) : Option Bytes × TokenMap × Nat :=
  match unmarshalString content with
  | some s => let x := fn s tm c; (if x.1 ≠ s then some (encodeString x.1) else none, x.2)
  | none =>
    match unmarshalRawMaps content with
    | none => (none, tm, c)
    | some parts =>
      let r := redactPartsRaw fn parts tm c
      (if r.2.1 then some (marshalRawMaps r.1) else none, r.2.2)

end

/-- whether `messages[i]["role"]` unmarshals to the string `"user"` -/
def isUserRaw (m : Option GoMap) : Bool :=
  (getKey m (ascii "role")).bind unmarshalString == some (ascii "user")

/-- the loop `for i := len(messages) - 1; i >= 0; i--` over the indices below `n` -/
def lastUserFromRaw (msgs : List (Option GoMap)) : Nat → Option Nat
  | 0 => none
  | n + 1 => if isUserRaw (msgs.getD n none) then some n else lastUserFromRaw msgs n

/-- the loop over `messages` from index `i`: `full` for the message at `last`, `hist` for the
others; a message with a `content` member is a non-`nil` map -/
def redactEachRaw (full hist : RedactFn) (last : Option Nat) :
    Nat → List (Option GoMap) → TokenMap → Nat → List (Option GoMap) × Bool × TokenMap × Nat
  | _, [], tm, c => ([], false, tm, c)
  | i, msg :: ms, tm, c =>
    match getKey msg (ascii "content") with
    | none => let r := redactEachRaw full hist last (i + 1) ms tm c; (msg :: r.1, r.2)
    | some content =>
      let x := redactContentRaw (if last = some i then full else hist) content tm c
      let r := redactEachRaw full hist last (i + 1) ms x.2.1 x.2.2
      match x.1 with
      | some b => (msg.map (·.set (ascii "content") b) :: r.1, true, r.2.2)
      | none => (msg :: r.1, r.2)

/-- `RedactMessages(body)` with the global counter at `c`: the body sent upstream, the request's
`TokenMap` and the counter after -/
def RedactMessages (full hist : RedactFn) (body : Bytes) (c : Nat) : Bytes × TokenMap × Nat :=
  match unmarshalRawMap body with
  | none => full body newTokenMap c
  | some req =>
    match (getKey req (ascii "messages")).bind unmarshalRawMaps with
    | none => (body, newTokenMap, c)
    | some msgs =>
      let r := redactEachRaw full hist (lastUserFromRaw msgs msgs.length) 0 msgs newTokenMap c
      if r.2.1 then (marshalRawMap (req.map (·.set (ascii "messages") (marshalRawMaps r.1))), r.2.2)
      else (body, r.2.2)

/-! ## the bytes handed to redaction -/

def partsTextLengthRaw : List (Option GoMap) → Nat
  | [] => 0
  | part :: ps =>
    match (getKey part (ascii "text")).bind unmarshalString with
    | none => partsTextLengthRaw ps
    | some text => text.length + partsTextLengthRaw ps

def contentTextLengthRaw (content : Bytes) : Nat :=
  match unmarshalString content with
  | some s => s.length
  | none =>
    match unmarshalRawMaps content with
    | none => 0
    | some parts => partsTextLengthRaw parts

def messagesTextLengthRaw : List (Option GoMap) → Nat
  | [] => 0
  | msg :: ms =>
    match getKey msg (ascii "content") with
    | none => messagesTextLengthRaw ms
    | some content => contentTextLengthRaw content + messagesTextLengthRaw ms

/-- the bytes `RedactMessages` hands to redaction: the whole body when it is no map, else the
strings of the messages -/
def redactedLength (body : Bytes) : Nat :=
  match unmarshalRawMap body with
  | none => body.length
  | some req =>
    match (getKey req (ascii "messages")).bind unmarshalRawMaps with
    | none => 0
    | some msgs => messagesTextLengthRaw msgs

/-! ## what the loops rewrite -/

/-- the bytes of a member after redaction: kept, or `json.Marshal` of a string where the old bytes
unmarshalled to a string, related to it by `S` -/
def RawTextEdit (S : Bytes → Bytes → Prop) (b' b : Bytes) : Prop :=
  b' = b ∨ ∃ s s', unmarshalString b = some s ∧ b' = encodeString s' ∧ S s' s

/-- a map, or a `nil` one, after an edit of its member `k` by `R`: every other member is kept -/
def RawMemberEdit (k : Bytes) (R : Bytes → Bytes → Prop) : Option GoMap → Option GoMap → Prop :=
  Option.Rel fun m' m => (∀ k', k' ≠ k → m'.get? k' = m.get? k') ∧ Option.Rel R (m'.get? k) (m.get? k)

/-- the bytes of a `content` after redaction: a string edited, or the parts marshalled again, as
many as there were, each with its `text` edited -/
def RawContentEdit (S : Bytes → Bytes → Prop) (b' b : Bytes) : Prop :=
  RawTextEdit S b' b ∨ ∃ ps ps', unmarshalRawMaps b = some ps ∧ b' = marshalRawMaps ps' ∧
    List.Forall₂ (RawMemberEdit (ascii "text") (RawTextEdit S)) ps' ps

section
variable {k : Bytes} {R : Bytes → Bytes → Prop}

theorem RawMemberEdit.refl (hR : ∀ b, R b b) : ∀ m, RawMemberEdit k R m m
  | some m => .some ⟨fun _ _ => rfl, by cases m.get? k <;> constructor; exact hR _⟩
  | none => .none

theorem RawMemberEdit.set {m : GoMap} {b b' : Bytes} (hb : m.get? k = some b) (h : R b' b) :
    RawMemberEdit k R (some (m.set k b')) (some m) :=
  .some ⟨fun k' hk => by rw [GoMap.get?_set, if_neg (Ne.symm hk)],
    by rw [GoMap.get?_set, if_pos rfl, hb]; exact .some h⟩

end

/-! ## the runs -/

section
variable {full hist fn : RedactFn}

/-- **Run lemma** of the parts loop: a run over the parts' texts, and every later reachable map
undoes every `text` it rewrote. -/
theorem redactPartsRaw_restore (hfn : RedactsBySpans fn) :
    ∀ (parts : List (Option GoMap)) (tm : TokenMap) (c : Nat),
    Redacted tm c → c + partsTextLengthRaw parts < 2 ^ 64 →
    RunFrom tm c (partsTextLengthRaw parts) (redactPartsRaw fn parts tm c).2.2.1
      (redactPartsRaw fn parts tm c).2.2.2 ∧
    ∀ E c', Redacted E c' → (redactPartsRaw fn parts tm c).2.2.1.Keeps E →
      List.Forall₂ (RawMemberEdit (ascii "text") (RawTextEdit (Undone E))) (redactPartsRaw fn parts tm c).1 parts
  | [], tm, c, hR, _ => ⟨.refl hR 0, fun _ _ _ _ => .nil⟩
  | part :: ps, tm, c, hR, hc => by
    cases ht : (getKey part (ascii "text")).bind unmarshalString with
    | none =>
      simp only [partsTextLengthRaw, redactPartsRaw, ht] at hc ⊢
      have ih := redactPartsRaw_restore hfn ps tm c hR hc
      exact ⟨ih.1, fun E c' hE hk => .cons (RawMemberEdit.refl (fun _ => .inl rfl) _) (ih.2 E c' hE hk)⟩
    | some text =>
      simp only [partsTextLengthRaw, redactPartsRaw, ht] at hc ⊢
      obtain ⟨b, hb, hs⟩ := Option.bind_eq_some.mp ht
      obtain ⟨m, rfl⟩ : ∃ m, part = some m := by cases part <;> simp_all [getKey]
      obtain ⟨h₁, hundo⟩ := hfn.call hR (show c + text.length < 2 ^ 64 by omega)
      have ih := redactPartsRaw_restore hfn ps _ _ h₁.reach (by have := h₁.counter; omega)
      split <;> refine ⟨h₁.trans ih.1, fun E c' hE hk => .cons ?_ (ih.2 E c' hE hk)⟩
      · exact RawMemberEdit.set hb (.inr ⟨text, _, hs, rfl, hundo E c' hE (ih.1.keeps.trans hk)⟩)
      · exact RawMemberEdit.refl (fun _ => .inl rfl) _

theorem redactContentRaw_restore (hfn : RedactsBySpans fn) (content : Bytes) (tm : TokenMap) (c : Nat)
    (hR : Redacted tm c) (hc : c + contentTextLengthRaw content < 2 ^ 64) :
    RunFrom tm c (contentTextLengthRaw content) (redactContentRaw fn content tm c).2.1
      (redactContentRaw fn content tm c).2.2 ∧
    ∀ E c', Redacted E c' → (redactContentRaw fn content tm c).2.1.Keeps E →
      ∀ b', (redactContentRaw fn content tm c).1 = some b' → RawContentEdit (Undone E) b' content := by
  cases hs : unmarshalString content with
  | some s =>
    simp only [contentTextLengthRaw, redactContentRaw, hs] at hc ⊢
    obtain ⟨h₁, hundo⟩ := hfn.call hR hc
    refine ⟨h₁, fun E c' hE hk b' hb => ?_⟩
    split at hb
    · cases hb; exact .inl (.inr ⟨s, _, hs, rfl, hundo E c' hE hk⟩)
    · cases hb
  | none =>
    cases hp : unmarshalRawMaps content with
    | none =>
      simp only [contentTextLengthRaw, redactContentRaw, hs, hp]
      exact ⟨.refl hR 0, fun _ _ _ _ _ hb => by cases hb⟩
    | some parts =>
      simp only [contentTextLengthRaw, redactContentRaw, hs, hp] at hc ⊢
      have h := redactPartsRaw_restore hfn parts tm c hR hc
      refine ⟨h.1, fun E c' hE hk b' hb => ?_⟩
      split at hb
      · cases hb; exact .inr ⟨parts, _, hp, rfl, h.2 E c' hE hk⟩
      · cases hb

/-- **Run lemma** of the messages loop: a run over the messages' strings, and every later
reachable map undoes every content it rewrote. -/
theorem redactEachRaw_restore (hfull : RedactsBySpans full) (hhist : RedactsBySpans hist) (last : Option Nat) :
    ∀ (i : Nat) (ms : List (Option GoMap)) (tm : TokenMap) (c : Nat),
      Redacted tm c → c + messagesTextLengthRaw ms < 2 ^ 64 →
      RunFrom tm c (messagesTextLengthRaw ms) (redactEachRaw full hist last i ms tm c).2.2.1
        (redactEachRaw full hist last i ms tm c).2.2.2 ∧
      ∀ E c', Redacted E c' → (redactEachRaw full hist last i ms tm c).2.2.1.Keeps E →
        List.Forall₂ (RawMemberEdit (ascii "content") (RawContentEdit (Undone E)))
          (redactEachRaw full hist last i ms tm c).1 ms
  | _, [], tm, c, hR, _ => ⟨.refl hR 0, fun _ _ _ _ => .nil⟩
  | i, msg :: ms, tm, c, hR, hc => by
    cases hm : getKey msg (ascii "content") with
    | none =>
      simp only [messagesTextLengthRaw, redactEachRaw, hm] at hc ⊢
      have ih := redactEachRaw_restore hfull hhist last (i + 1) ms tm c hR hc
      exact ⟨ih.1, fun E c' hE hk => .cons (RawMemberEdit.refl (fun _ => .inl (.inl rfl)) _) (ih.2 E c' hE hk)⟩
    | some content =>
      simp only [messagesTextLengthRaw, redactEachRaw, hm] at hc ⊢
      obtain ⟨m, rfl⟩ : ∃ m, msg = some m := by cases msg <;> simp_all [getKey]
      have hfn : RedactsBySpans (if last = some i then full else hist) := by
        split <;> assumption
      have h₁ := redactContentRaw_restore hfn content tm c hR (by omega)
      have ih := redactEachRaw_restore hfull hhist last (i + 1) ms _ _ h₁.1.reach
        (by have := h₁.1.counter; omega)
      split <;> refine ⟨h₁.1.trans ih.1, fun E c' hE hk => .cons ?_ (ih.2 E c' hE hk)⟩
      · rename_i b hb
        exact RawMemberEdit.set hm (h₁.2 E c' hE (ih.1.keeps.trans hk) b hb)
      · exact RawMemberEdit.refl (fun _ => .inl (.inl rfl)) _

/-- **The map `RedactMessages` returns is one redaction can reach.**  For every body, every pair of
redaction functions that splice classifier spans and every counter value with room for the bytes
they are handed: each call starts from the map the one before it left, from a new map, and the
counter moves by at most `redactedLength`. -/
theorem RedactMessages_run (hfull : RedactsBySpans full) (hhist : RedactsBySpans hist) (body : Bytes)
    (c : Nat) (hc : c + redactedLength body < 2 ^ 64) :
    RunFrom newTokenMap c (redactedLength body) (RedactMessages full hist body c).2.1
      (RedactMessages full hist body c).2.2 := by
  unfold RedactMessages
  unfold redactedLength at hc ⊢
  cases hb : unmarshalRawMap body with
  | none =>
    simp only [hb] at hc ⊢
    exact (hfull.call (.init c) hc).1
  | some req =>
    cases hm : (getKey req (ascii "messages")).bind unmarshalRawMaps with
    | none =>
      simp only [hb, hm]
      exact .refl (.init c) 0
    | some msgs =>
      simp only [hb, hm] at hc ⊢
      have h := (redactEachRaw_restore hfull hhist (lastUserFromRaw msgs msgs.length) 0 msgs newTokenMap c
        (.init c) hc).1
      split <;> exact h

/-- the redacted message is marshalled again with its keys in order -/
example : (RedactMessages
      (fun t tm c => (Sanitizer.mk [⟨fun _ => some [⟨0, 3, "PER"⟩]⟩]).redactText ⟨_, .refl _, 1⟩ t tm c)
      (fun t tm c => (Sanitizer.mk [⟨fun _ => some [⟨0, 3, "PER"⟩]⟩]).redactTextWithNER ⟨[], .nil, 0⟩ t tm c)
      (ascii "\x7b\"messages\":[\x7b\"role\":\"user\",\"content\":\"Bob is here\"\x7d]\x7d") 0).1 =
    ascii "\x7b\"messages\":[\x7b\"content\":\"" ++ formatToken 1 ++ ascii " is here\",\"role\":\"user\"\x7d]\x7d" := by
  decide

end

end GonkaProxy
