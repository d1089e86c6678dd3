import GonkaProxy.Json.Scanner
import GonkaProxy.Sanitize.Messages
import GonkaProxy.Sanitize.RoundTrip

/-!
# The response: `RestoreBytes` on a JSON body

`RestoreBytes` runs `Restore` on the raw bytes of the response.  Every placeholder of a valid
JSON body lies inside a string literal, so splicing in an original keeps the body valid exactly
when the original may stand unescaped inside a string.  The originals come from decoded request
strings, which may hold double quotes, backslashes and control characters.

* `RestoreBytes`                  the receiver is not read;
* `checkValid_restoreIn`          restoring with string-safe originals keeps a body valid, in
                                  every order;
* `restoreBytes_keeps_valid`      so for every map redaction reaches whose originals are
                                  string-safe;
* `restoreBytes_quoted_original`  an original with double quotes turns a valid body invalid.
-/

set_option linter.unusedSectionVars false
set_option linter.unusedVariables false

namespace GonkaProxy

/-- `RestoreBytes(respBody, tm)` for a non-nil map, `Restore` visiting `fromToken` in the order
`o`; `IsEmpty` is `len(toToken) == 0` -/
def RestoreBytes (respBody : Bytes) (tm : TokenMap) (o : tm.fromToken.Order) : Bytes :=
  if tm.toToken = [] then respBody else tm.Restore o respBody

theorem checkValid_restoreIn : ∀ (order : GoMap), (∀ e ∈ order, IsPlaceholder e.1) →
    (∀ e ∈ order, ∀ c ∈ e.2, stringSafe c = true) →
    ∀ R : Bytes, checkValid R = true → checkValid (restoreIn order R) = true
  | [], _, _, R, h => h
  | (u, o) :: order, hk, hs, R, h => by
    have hne : (Scanner.init.run R).state ≠ .error := fun he => by
      simp [checkValid, Scanner.eof, he] at h
    have hR : checkValid (replaceAll R u o) = true := by
      rw [checkValid, Scanner.run_replaceAll (hk _ (List.mem_cons_self _ _))
        (hs _ (List.mem_cons_self _ _)) R _ hne]
      exact h
    exact checkValid_restoreIn order (fun e he => hk e (List.mem_cons_of_mem _ he))
      (fun e he => hs e (List.mem_cons_of_mem _ he)) _ hR

/-- **`RestoreBytes` keeps a JSON body valid** for every map redaction can reach whose originals
hold no double quote, backslash or byte below `0x20`, in every iteration order. -/
theorem restoreBytes_keeps_valid (tm : TokenMap) (c : Nat) (hR : Redacted tm c)
    (hs : ∀ e ∈ tm.fromToken, ∀ b ∈ e.2, stringSafe b = true) (R : Bytes)
    (hv : checkValid R = true) (o : tm.fromToken.Order) : checkValid (RestoreBytes R tm o) = true := by
  unfold RestoreBytes
  split
  · exact hv
  · exact checkValid_restoreIn o.1 (fun e he => hR.sound.keys e (o.2.subset he))
      (fun e he => hs e (o.2.subset he)) R hv

/-- `"Bob"` redacted; the body `{"a":"«TOKEN_000001»"}` -/
theorem restoreBytes_keeps_valid_bob :
    Redacted (redactSpans (ascii "Bob is here") [⟨0, 3, "PER"⟩] newTokenMap 0).2.1
      (redactSpans (ascii "Bob is here") [⟨0, 3, "PER"⟩] newTokenMap 0).2.2 ∧
    (∀ e ∈ (redactSpans (ascii "Bob is here") [⟨0, 3, "PER"⟩] newTokenMap 0).2.1.fromToken,
      ∀ b ∈ e.2, stringSafe b = true) ∧
    checkValid (ascii "\x7b\"a\":\"" ++ formatToken 1 ++ ascii "\"\x7d") = true ∧
    checkValid (RestoreBytes (ascii "\x7b\"a\":\"" ++ formatToken 1 ++ ascii "\"\x7d")
      (redactSpans (ascii "Bob is here") [⟨0, 3, "PER"⟩] newTokenMap 0).2.1 (GoMap.Order.self _)) =
      true :=
  ⟨.redact _ _ (by decide) (.init 0), by decide, by decide,
    restoreBytes_keeps_valid _ _ (.redact _ _ (by decide) (.init 0)) (by decide) _ (by decide) _⟩

/-- `RedactMessages` registers the span `"hi"` of the content `"hi" x`, quotes included; the
valid body `{"a":"«TOKEN_000001»"}` is restored to `{"a":""hi""}`, which `checkValid` rejects. -/
theorem restoreBytes_quoted_original :
    checkValid (ascii "\x7b\"a\":\"" ++ formatToken 1 ++ ascii "\"\x7d") = true ∧
    RestoreBytes (ascii "\x7b\"a\":\"" ++ formatToken 1 ++ ascii "\"\x7d")
      (redactMessages
        (fun t tm c => (Sanitizer.mk [⟨fun _ => some [⟨0, 4, "PER"⟩]⟩]).redactText
          ⟨_, .refl _, 1⟩ t tm c)
        (fun t tm c => (Sanitizer.mk [⟨fun _ => some [⟨0, 4, "PER"⟩]⟩]).redactTextWithNER
          ⟨[], .nil, 0⟩ t tm c)
        [(ascii "messages", .array [.object [(ascii "role", .string (ascii "user")),
          (ascii "content", .string (ascii "\"hi\" x"))]])] 0).2.1
      (GoMap.Order.self _) = ascii "\x7b\"a\":\"\"hi\"\"\x7d" ∧
    checkValid (ascii "\x7b\"a\":\"\"hi\"\"\x7d") = false := by
  decide

end GonkaProxy
