import GonkaProxy.Json.Value
import GonkaProxy.Sanitize.Redact

/-!
# `RedactMessages`

The request body, decoded into `map[string]json.RawMessage`, is walked message by message: the
last message whose role is the string `"user"` goes through `redactText`, every other one
through `redactTextWithNER`; a string content is redacted whole, an array content part by part
(its `text` strings); all of them share one `TokenMap` and the global counter.

The two redaction functions are parameters (`RedactFn`): each call of `redactText` has its own
schedule for the classifiers, so a run of `RedactMessages` is given by what each call returned.

* `redactParts`, `redactContent`, `redactEach`   the loops of `RedactMessages`, in its order;
* `lastUserIdx`                 the index the backwards search finds;
* `lastUserIdx_last`            it is the last message whose role is `"user"`;
* `redactMessages`              `RedactMessages` on a body that decodes to an object;
* `TextEdit`, `MemberEdit`, `ContentEdit`, `MessageEdit`   what an edit of a string, a part, a
                                content, a message keeps;
* `redactMessages_frame`        `RedactMessages` rewrites strings only: every other member of the
                                body, of a message and of a part is kept, and so is the number
                                and order of messages and parts;
* `redactMessages_ner_only`     with the NER client alone, history messages are not redacted.
-/

set_option linter.unusedSectionVars false
set_option linter.unusedVariables false

namespace GonkaProxy

open JValue

/-- a redaction function as `RedactMessages` calls it: `s.redactText` or `s.redactTextWithNER`,
with the map and the global counter threaded through -/
abbrev RedactFn := Bytes → TokenMap → Nat → Bytes × TokenMap × Nat

section
variable (fn : RedactFn)

/-- the loop over `parts`: each part's `text` string is redacted, and replaced when the
redaction changed it; the parts, whether one changed, the map and the counter -/
def redactParts : List (Option JMap) → TokenMap → Nat → List (Option JMap) × Bool × TokenMap × Nat
  | [], tm, c => ([], false, tm, c)
  | none :: ps, tm, c => let r := redactParts ps tm c; (none :: r.1, r.2)
  | some part :: ps, tm, c =>
    match (member part (ascii "text")).bind asString? with
    | none => let r := redactParts ps tm c; (some part :: r.1, r.2)
    | some text =>
      let x := fn text tm c
      let r := redactParts ps x.2.1 x.2.2
      if x.1 ≠ text then (some (setMember part (ascii "text") (.string x.1)) :: r.1, true, r.2.2)
      else (some part :: r.1, r.2)

/-- one message's `content`: a string (or `null`, read as `""`) is redacted whole, an array of
parts part by part, anything else is left alone; the new content when it changed -/
def redactContent (content : JValue) (tm : TokenMap) (c : Nat) : Option JValue × TokenMap × Nat :=
  match content.asString? with
  | some s => let x := fn s tm c; (if x.1 ≠ s then some (.string x.1) else none, x.2)
  | none =>
    match content.asMaps? with
    | none => (none, tm, c)
    | some parts =>
      let r := redactParts fn parts tm c
      (if r.2.1 then some (ofMaps r.1) else none, r.2.2)

end

/-- whether `messages[i]["role"]` unmarshals to the string `"user"` -/
def isUserMessage : Option JMap → Bool
  | some m => (member m (ascii "role")).bind asString? == some (ascii "user")
  | none => false

/-- the loop `for i := len(messages) - 1; i >= 0; i--` over the indices below `n`: the first one
it meets whose role is `"user"`, `none` for `-1` -/
def lastUserFrom (msgs : List (Option JMap)) : Nat → Option Nat
  | 0 => none
  | n + 1 => if isUserMessage (msgs.getD n none) then some n else lastUserFrom msgs n

/-- `lastUserIdx`, the loop from the last message -/
def lastUserIdx (msgs : List (Option JMap)) : Option Nat := lastUserFrom msgs msgs.length

theorem lastUserFrom_eq_some (msgs : List (Option JMap)) (i : Nat) : ∀ n,
    lastUserFrom msgs n = some i ↔ i < n ∧ isUserMessage (msgs.getD i none) = true ∧
      ∀ j, i < j → j < n → isUserMessage (msgs.getD j none) = false
  | 0 => by simp [lastUserFrom]
  | n + 1 => by
    simp only [lastUserFrom]
    split
    · rename_i h
      refine ⟨fun he => ?_, fun ⟨hi, _, hj⟩ => ?_⟩
      · cases he; exact ⟨by omega, h, fun j h1 h2 => absurd h2 (by omega)⟩
      · have : ¬ i < n := fun hlt => Bool.false_ne_true ((hj n hlt (by omega)).symm.trans h)
        exact congrArg some (by omega)
    · rename_i h
      rw [lastUserFrom_eq_some msgs i n]
      refine ⟨fun ⟨hi, hu, hj⟩ => ⟨by omega, hu, fun j h1 h2 => ?_⟩,
        fun ⟨hi, hu, hj⟩ => ⟨?_, hu, fun j h1 h2 => hj j h1 (by omega)⟩⟩
      · rcases Nat.lt_succ_iff_lt_or_eq.mp h2 with h2 | rfl
        · exact hj j h1 h2
        · simpa using h
      · have : i ≠ n := by rintro rfl; exact h hu
        omega

theorem lastUserFrom_eq_none (msgs : List (Option JMap)) : ∀ n,
    lastUserFrom msgs n = none ↔ ∀ j, j < n → isUserMessage (msgs.getD j none) = false
  | 0 => by simp [lastUserFrom]
  | n + 1 => by
    simp only [lastUserFrom]
    split
    · rename_i h
      simp only [reduceCtorEq, false_iff, not_forall]
      exact ⟨n, by omega, fun hf => Bool.false_ne_true (hf.symm.trans h)⟩
    · rename_i h
      rw [lastUserFrom_eq_none msgs n]
      refine ⟨fun hj j hjn => ?_, fun hj j hjn => hj j (by omega)⟩
      rcases Nat.lt_succ_iff_lt_or_eq.mp hjn with hjn | rfl
      · exact hj j hjn
      · simpa using h

/-- the loop over `messages` from index `i`: `full` for the message at `last`, `hist` for the
others; the messages, whether one changed, the map and the counter -/
def redactEach (full hist : RedactFn) (last : Option Nat) :
    Nat → List (Option JMap) → TokenMap → Nat → List (Option JMap) × Bool × TokenMap × Nat
  | _, [], tm, c => ([], false, tm, c)
  | i, none :: ms, tm, c => let r := redactEach full hist last (i + 1) ms tm c; (none :: r.1, r.2)
  | i, some msg :: ms, tm, c =>
    match member msg (ascii "content") with
    | none => let r := redactEach full hist last (i + 1) ms tm c; (some msg :: r.1, r.2)
    | some content =>
      let x := redactContent (if last = some i then full else hist) content tm c
      let r := redactEach full hist last (i + 1) ms x.2.1 x.2.2
      match x.1 with
      | some v => (some (setMember msg (ascii "content") v) :: r.1, true, r.2.2)
      | none => (some msg :: r.1, r.2)

/-- `RedactMessages(body)` for a body that decodes to the object `req`, with the global counter
`c` before the call: the body sent upstream (the input itself when nothing changed), the
request's `TokenMap` and the counter after -/
def redactMessages (full hist : RedactFn) (req : JMap) (c : Nat) : JValue × TokenMap × Nat :=
  match member req (ascii "messages") with
  | none => (.object req, newTokenMap, c)
  | some raw =>
    match raw.asMaps? with
    | none => (.object req, newTokenMap, c)
    | some msgs =>
      let r := redactEach full hist (lastUserIdx msgs) 0 msgs newTokenMap c
      (if r.2.1 then .object (setMember req (ascii "messages") (ofMaps r.1)) else .object req, r.2.2)

/-- **The message of the full pipeline.**  The backwards search of `RedactMessages` finds the
last message whose role unmarshals to the string `"user"`, and `-1` exactly when no message has
that role. -/
theorem lastUserIdx_last (msgs : List (Option JMap)) :
    (∀ i, lastUserIdx msgs = some i ↔ i < msgs.length ∧ isUserMessage (msgs.getD i none) = true ∧
      ∀ j, i < j → j < msgs.length → isUserMessage (msgs.getD j none) = false) ∧
    (lastUserIdx msgs = none ↔ ∀ j, j < msgs.length → isUserMessage (msgs.getD j none) = false) :=
  ⟨fun i => lastUserFrom_eq_some msgs i msgs.length, lastUserFrom_eq_none msgs msgs.length⟩

/-! ## What `RedactMessages` leaves alone -/

/-- a string member after redaction: kept, or a string where a string (or `null`) was, related to
the old one by `S` -/
def TextEdit (S : Bytes → Bytes → Prop) (v' v : JValue) : Prop :=
  v' = v ∨ ∃ s s', v.asString? = some s ∧ v' = .string s' ∧ S s' s

/-- a decoded map, or a `nil` one, after an edit of its member `k` by `R`: every other member is
kept -/
def MemberEdit (k : Bytes) (R : JValue → JValue → Prop) : Option JMap → Option JMap → Prop :=
  Option.Rel fun m' m => (∀ k', k' ≠ k → member m' k' = member m k') ∧
    Option.Rel R (member m' k) (member m k)

/-- a `content` after redaction: a string edited, or the same number of parts, each with its
`text` edited -/
def ContentEdit (S : Bytes → Bytes → Prop) (v' v : JValue) : Prop :=
  TextEdit S v' v ∨ ∃ ps ps', v.asMaps? = some ps ∧ v' = ofMaps ps' ∧
    List.Forall₂ (MemberEdit (ascii "text") (TextEdit S)) ps' ps

/-- a message after redaction: every member but `content` kept, the content edited -/
def MessageEdit (S : Bytes → Bytes → Prop) : Option JMap → Option JMap → Prop :=
  MemberEdit (ascii "content") (ContentEdit S)

section
variable {k : Bytes} {R : JValue → JValue → Prop}

theorem MemberEdit.refl (hR : ∀ v, R v v) : ∀ m, MemberEdit k R m m
  | some m => .some ⟨fun _ _ => rfl, by cases member m k <;> constructor; exact hR _⟩
  | none => .none

theorem MemberEdit.setMember {m : JMap} {v v' : JValue} (hv : member m k = some v) (h : R v' v) :
    MemberEdit k R (some (setMember m k v')) (some m) :=
  .some ⟨fun _ hk => member_setMember_ne m v' hk, by rw [member_setMember_self, hv]; exact .some h⟩

end

theorem messageEdit_refl (S : Bytes → Bytes → Prop) (m : Option JMap) : MessageEdit S m m :=
  MemberEdit.refl (fun _ => .inl (.inl rfl)) m

section
variable (fn : RedactFn)

theorem redactParts_frame : ∀ (parts : List (Option JMap)) (tm : TokenMap) (c : Nat),
    List.Forall₂ (MemberEdit (ascii "text") (TextEdit fun _ _ => True)) (redactParts fn parts tm c).1 parts
  | [], _, _ => .nil
  | none :: ps, tm, c => .cons .none (redactParts_frame ps tm c)
  | some part :: ps, tm, c => by
    simp only [redactParts]
    split
    · exact .cons (MemberEdit.refl (fun _ => .inl rfl) _) (redactParts_frame ps tm c)
    · rename_i text ht
      obtain ⟨v, hv, hs⟩ := Option.bind_eq_some.mp ht
      split
      · exact .cons (MemberEdit.setMember hv (.inr ⟨text, _, hs, rfl, trivial⟩)) (redactParts_frame _ _ _)
      · exact .cons (MemberEdit.refl (fun _ => .inl rfl) _) (redactParts_frame _ _ _)

theorem redactContent_frame (content : JValue) (tm : TokenMap) (c : Nat) (v' : JValue)
    (h : (redactContent fn content tm c).1 = some v') : ContentEdit (fun _ _ => True) v' content := by
  unfold redactContent at h
  split at h
  · rename_i s hs
    dsimp only at h
    split at h
    · cases h
      exact .inl (.inr ⟨s, _, hs, rfl, trivial⟩)
    · cases h
  · split at h
    · cases h
    · rename_i parts hp
      dsimp only at h
      split at h
      · cases h
        exact .inr ⟨parts, _, hp, rfl, redactParts_frame fn parts tm c⟩
      · cases h

end

theorem redactEach_frame (full hist : RedactFn) (last : Option Nat) :
    ∀ (i : Nat) (ms : List (Option JMap)) (tm : TokenMap) (c : Nat),
      List.Forall₂ (MessageEdit fun _ _ => True) (redactEach full hist last i ms tm c).1 ms
  | _, [], _, _ => .nil
  | i, none :: ms, tm, c => .cons .none (redactEach_frame full hist last _ ms tm c)
  | i, some msg :: ms, tm, c => by
    simp only [redactEach]
    split
    · exact .cons (messageEdit_refl _ _) (redactEach_frame full hist last _ ms tm c)
    · rename_i content hc
      split
      · rename_i v hv
        exact .cons (MemberEdit.setMember hc (redactContent_frame _ content tm c v hv))
          (redactEach_frame _ _ _ _ _ _ _)
      · exact .cons (messageEdit_refl _ _) (redactEach_frame _ _ _ _ _ _ _)

/-- **`RedactMessages` rewrites strings only.**  The body stays an object with every member but
`messages` kept; when `messages` decodes, so does the new one, message for message in the same
order, each keeping every member but `content`; a content is kept, replaced by a string where it
was a string, or by the same number of parts, each keeping every member but `text`, which is kept
or replaced by a string where it was a string. -/
theorem redactMessages_frame (full hist : RedactFn) (req : JMap) (c : Nat) :
    ∃ req', (redactMessages full hist req c).1 = .object req' ∧
      (∀ k, k ≠ ascii "messages" → member req' k = member req k) ∧
      ∀ msgs, (member req (ascii "messages")).bind asMaps? = some msgs →
        ∃ msgs', (member req' (ascii "messages")).bind asMaps? = some msgs' ∧
          List.Forall₂ (MessageEdit fun _ _ => True) msgs' msgs := by
  have unchanged : ∀ msgs, (member req (ascii "messages")).bind asMaps? = some msgs →
      ∃ msgs', (member req (ascii "messages")).bind asMaps? = some msgs' ∧
        List.Forall₂ (MessageEdit fun _ _ => True) msgs' msgs :=
    fun msgs h => ⟨msgs, h, List.forall₂_same.2 fun m _ => messageEdit_refl _ m⟩
  unfold redactMessages
  split
  · exact ⟨req, rfl, fun _ _ => rfl, unchanged⟩
  · rename_i raw hraw
    split
    · exact ⟨req, rfl, fun _ _ => rfl, unchanged⟩
    · rename_i msgs hm
      dsimp only
      split
      · refine ⟨_, rfl, fun _ hk => member_setMember_ne _ _ hk, fun msgs' h => ?_⟩
        rw [hraw, Option.some_bind, hm] at h
        cases h
        exact ⟨_, by rw [member_setMember_self, hraw]; exact asMaps?_ofMaps _,
          redactEach_frame full hist _ 0 msgs newTokenMap c⟩
      · exact ⟨req, rfl, fun _ _ => rfl, unchanged⟩

/-- The classifier list `main` builds with only the NER client: `historyClassifiers` is empty, so
an earlier message naming what NER finds goes upstream unchanged (the whole body is returned as
it came), while the non-LLM classifiers of the list, the NER client, redact it. -/
theorem redactMessages_ner_only :
    let ner : Classifier := ⟨fun t => some (if t = ascii "Alice" then [⟨0, 5, "PER"⟩] else [])⟩
    let req : JMap := [(ascii "messages", .array
      [.object [(ascii "role", .string (ascii "user")), (ascii "content", .string (ascii "Alice"))],
       .object [(ascii "role", .string (ascii "user")), (ascii "content", .string (ascii "hi"))]])]
    (redactMessages (fun t tm c => (Sanitizer.mk [ner]).redactText ⟨[ner], .refl _, 1⟩ t tm c)
      (fun t tm c => (Sanitizer.mk [ner]).redactTextWithNER ⟨[], .nil, 0⟩ t tm c) req 0).1 =
      .object req ∧
    ((Sanitizer.mk [ner]).redactText ⟨[ner], .refl _, 1⟩ (ascii "Alice") newTokenMap 0).1 =
      formatToken 1 := by
  refine ⟨rfl, by decide⟩

end GonkaProxy
