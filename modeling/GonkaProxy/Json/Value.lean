import GonkaProxy.Bytes

/-!
# JSON values, as `encoding/json` hands them to the program

The program never walks JSON itself: it unmarshals into `map[string]json.RawMessage`,
`[]map[string]json.RawMessage` or `string`, edits a map and marshals it back.  A value is
modelled by the tree those calls see; strings are their UTF-8 bytes, objects their members in
order.

* `JValue`                  the tree;
* `JValue.member`           `m[k]` on the map an object decodes to (the last member named `k`);
* `JValue.setMember`        `m[k] = v` for a key the map holds;
* `JValue.asString?`        `json.Unmarshal` into a `string`;
* `JValue.asMaps?`          `json.Unmarshal` into `[]map[string]json.RawMessage`, `ofMaps` back;
* `member_setMember_self`, `member_setMember_ne`, `asMaps?_ofMaps`   what the edits do to lookups.
-/

set_option linter.unusedSectionVars false
set_option linter.unusedVariables false

namespace GonkaProxy

/-- a JSON value; a number is kept as its literal, never read -/
inductive JValue where
  | null
  | bool (b : Bool)
  | number (lit : Bytes)
  | string (s : Bytes)
  | array (items : List JValue)
  | object (members : List (Bytes × JValue))
  deriving Repr

/-- the members of an object, as a Go map decodes them -/
abbrev JMap := List (Bytes × JValue)

namespace JValue

/-- `m[k]`: decoding into a Go map keeps the last member named `k` -/
def member (m : JMap) (k : Bytes) : Option JValue := m.reverse.lookup k

/-- `m[k] = v` for a key `m` holds -/
def setMember (m : JMap) (k : Bytes) (v : JValue) : JMap :=
  m.map fun e => if e.1 = k then (k, v) else e

/-- `json.Unmarshal(raw, &s)` with `s` a `string`: a string, or `null`, which leaves `""` -/
def asString? : JValue → Option Bytes
  | .string s => some s
  | .null => some []
  | _ => none

/-- one element of `[]map[string]json.RawMessage`: an object, or `null` (a `nil` map) -/
def asMap? : JValue → Option (Option JMap)
  | .object m => some (some m)
  | .null => some none
  | _ => none

/-- `json.Unmarshal(raw, &ms)` with `ms` a `[]map[string]json.RawMessage`: an array of objects
and `null`s, or `null` (a `nil` slice) -/
def asMaps? : JValue → Option (List (Option JMap))
  | .array items => items.mapM asMap?
  | .null => some []
  | _ => none

/-- `json.Marshal` of a non-empty `[]map[string]json.RawMessage` -/
def ofMaps (ms : List (Option JMap)) : JValue :=
  .array (ms.map fun m => match m with | some m => .object m | none => .null)

theorem member_setMember_ne (m : JMap) {k k' : Bytes} (v : JValue) (h : k' ≠ k) :
    member (setMember m k v) k' = member m k' := by
  induction m using List.reverseRecOn with
  | nil => rfl
  | append_singleton m e ih =>
    obtain ⟨ek, ev⟩ := e
    by_cases he : ek = k
    · subst he
      simpa [member, setMember, List.lookup_cons, beq_false_of_ne h] using ih
    · simp only [member, setMember, List.map_append, List.map_singleton, he, if_false,
        List.reverse_append, List.reverse_singleton, List.singleton_append, List.lookup_cons] at ih ⊢
      cases k' == ek <;> simp [ih]

theorem member_setMember_self (m : JMap) (k : Bytes) (v : JValue) :
    member (setMember m k v) k = (member m k).map fun _ => v := by
  induction m using List.reverseRecOn with
  | nil => rfl
  | append_singleton m e ih =>
    obtain ⟨ek, ev⟩ := e
    by_cases he : ek = k
    · subst he
      simp [member, setMember, List.lookup_cons]
    · simp only [member, setMember, List.map_append, List.map_singleton, he, if_false,
        List.reverse_append, List.reverse_singleton, List.singleton_append, List.lookup_cons] at ih ⊢
      simpa [beq_false_of_ne (Ne.symm he)] using ih

theorem asMaps?_ofMaps (ms : List (Option JMap)) : asMaps? (ofMaps ms) = some ms := by
  induction ms with
  | nil => rfl
  | cons m ms ih =>
    simp only [asMaps?, ofMaps, List.map_cons, List.mapM_cons] at ih ⊢
    rw [ih]
    cases m <;> rfl

end JValue

end GonkaProxy
