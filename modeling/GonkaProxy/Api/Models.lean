import GonkaProxy.Api.Handler
import GonkaProxy.Json.Unquote

/-!
# `GET /v1/models`

`loadModels` caches the raw model objects of the first of three `FetchModels` calls that
succeeds; `listModels` decodes each cached object into `struct { ID string }`, keeps those with a
non-empty `ID`, falls back to one `gonka-model` entry, and writes the list with `writeJSON`.

* `unmarshalModelID`, `listModels`, `loadModels`   the code;
* `decode_writeJSON`        what `writeJSON` writes reads back as the value, newline included;
* `utf8_unmarshalModelID`   a decoded `ID` is valid UTF-8;
* `listModels_reply`        whatever the cache holds, the reply is valid JSON that reads back as
                            the list, every `ID` byte for byte as it was decoded.
-/

set_option linter.unusedSectionVars false
set_option linter.unusedVariables false

namespace GonkaProxy

/-! ## the code -/

/-- one member decoded into `struct { ID string }` -/
def setIDField (id : Bytes) (m : Bytes × RawJson × Bytes) : Option Bytes :=
  if fieldKey (ascii "id") m.1 then m.2.1.intoString id else some id

/-- `json.Unmarshal(raw, &m)`: the model's `ID`, or the error -/
def unmarshalModelID (raw : Bytes) : Option Bytes := (decode raw).bind (RawJson.intoStruct setIDField [])

/-- `modelEntry` -/
structure ModelEntry where
  id : Bytes
  object : Bytes
  created : Nat
  ownedBy : Bytes
  deriving DecidableEq, Repr

/-- the entry `listModels` writes for the model `id` -/
def modelEntry (id : Bytes) : ModelEntry := ⟨id, ascii "model", 1677610602, ascii "gonka"⟩

/-- `json.Marshal` of a `modelEntry`: its fields in order, under their tags -/
def ModelEntry.toJValue (e : ModelEntry) : JValue :=
  .object [(ascii "id", .string e.id), (ascii "object", .string e.object),
    (ascii "created", .number (fmtD e.created)), (ascii "owned_by", .string e.ownedBy)]

/-- the loop of `listModels`: a cached model whose `ID` decodes to a non-empty string -/
def cachedEntry (raw : Bytes) : Option ModelEntry :=
  match unmarshalModelID raw with
  | some id => if id ≠ [] then some (modelEntry id) else none
  | none => none

/-- `listModels` on the cached models (none before `loadModels` stores them); the map's keys are
written in order, `data` before `object` -/
def listModels (models : List Bytes) : Reply :=
  let entries := models.filterMap cachedEntry
  let entries := if entries.length = 0 then [modelEntry (ascii "gonka-model")] else entries
  writeJSON 200 (.object [(ascii "data", .array (entries.map ModelEntry.toJValue)),
    (ascii "object", .string (ascii "list"))])

/-- `loadModels`: up to three calls of `FetchModels`, `fetches` their results in order (`none` an
error); the models of the first that succeeds are cached, nothing when all three fail -/
def loadModels (fetches : List (Option (List Bytes))) : Option (List Bytes) :=
  (fetches.take 3).findSome? id

/-! ## what `writeJSON` writes -/

/-- **What `writeJSON` writes reads back as the value**, the newline `json.Encoder` adds included -/
theorem decode_writeJSON {v : JValue} (hv : v.Canon) (hd : v.depth ≤ maxNestingDepth) (status : Nat) :
    checkValid (writeJSON status v).body = true ∧ decode (writeJSON status v).body = some v.toRaw := by
  have hrun : Scanner.init.run (v.marshal ++ [0x0A]) = ⟨.endTop, [], true⟩ := by
    rw [Scanner.run_append, Scanner.run_cons, Scanner.run_nil]
    exact v.run_marshal hv [] false (by simpa using hd) 0x0A (by simp [Delim])
  have hc : checkValid (v.marshal ++ [0x0A]) = true := by rw [checkValid, hrun]; rfl
  have hp := v.parseValue_marshal hv (2 * (v.marshal ++ [0x0A]).length + 2)
    (by have := v.size_le_length hv; simp only [List.length_append]; omega) [0x0A]
    (by rintro c r ⟨rfl, rfl⟩; simp [Delim])
  exact ⟨hc, by simp only [decode, writeJSON, hc, hp, if_true, Option.map_some']⟩

/-! ## the model list -/

theorem utf8_unmarshalModelID {raw id : Bytes} (h : unmarshalModelID raw = some id) : Utf8 id := by
  obtain ⟨v, hv, hid⟩ := Option.bind_eq_some.1 h
  have step : ∀ (ms : List (Bytes × RawJson × Bytes)) (cur : Bytes), RawMembersUtf8 ms → Utf8 cur →
      ∀ id, ms.foldlM setIDField cur = some id → Utf8 id := by
    intro ms
    induction ms with
    | nil => intro cur _ hcur id h; cases h; exact hcur
    | cons m ms ih =>
      obtain ⟨k, x, b⟩ := m
      intro cur hms hcur id h
      obtain ⟨hk, hx, hms⟩ := hms
      simp only [List.foldlM_cons] at h
      obtain ⟨cur', h1, h2⟩ := Option.bind_eq_some.1 h
      refine ih cur' hms ?_ id h2
      unfold setIDField at h1
      split at h1
      · cases x <;> simp only [RawJson.intoString, Option.some.injEq, reduceCtorEq] at h1 <;> subst h1
        all_goals first | exact hcur | exact hx
      · cases h1; exact hcur
  have hs := decode_utf8Strings hv
  cases v <;> simp only [RawJson.intoStruct, Option.some.injEq, reduceCtorEq] at hid
  · subst hid; exact .nil
  · exact step _ _ hs .nil _ hid

theorem filterMap_cachedEntry (models : List Bytes) :
    models.filterMap cachedEntry =
      (models.filterMap fun raw => (unmarshalModelID raw).filter fun id => !id.isEmpty).map modelEntry := by
  rw [List.map_filterMap]
  congr 1; funext raw
  unfold cachedEntry
  cases unmarshalModelID raw with
  | none => rfl
  | some id => cases id <;> rfl

theorem numberLit_created : NumberLit (fmtD 1677610602) := by
  have h : fmtD 1677610602 = [] ++ (ascii "1677610602" ++ ([] ++ [])) := by decide
  rw [h]
  exact .mk (.inl rfl) (.digits (by decide) (by decide) (by decide)) .none .none

theorem canon_modelEntries : ∀ {ids : List Bytes}, (∀ id ∈ ids, Utf8 id) →
    ItemsCanon (ids.map fun id => (modelEntry id).toJValue) ∧
      itemsDepth (ids.map fun id => (modelEntry id).toJValue) ≤ 1
  | [], _ => ⟨trivial, Nat.zero_le 1⟩
  | id :: ids, h => by
    obtain ⟨hid, hids⟩ := List.forall_mem_cons.1 h
    obtain ⟨ih1, ih2⟩ := canon_modelEntries hids
    have hmodel : Utf8 (ascii "model") := utf8_of_ascii (by decide)
    have hgonka : Utf8 (ascii "gonka") := utf8_of_ascii (by decide)
    refine ⟨⟨⟨utf8_of_ascii (by decide), hid, utf8_of_ascii (by decide), hmodel,
      utf8_of_ascii (by decide), numberLit_created, utf8_of_ascii (by decide), hgonka, trivial⟩, ih1⟩, ?_⟩
    simp only [List.map_cons, itemsDepth, ModelEntry.toJValue, JValue.depth, membersDepth] at ih2 ⊢
    omega

/-- **Whatever the cache holds, `GET /v1/models` answers `200` with valid JSON that reads back as
the list**: every cached model whose `ID` decodes to a non-empty string, in the cache's order, its
`ID` byte for byte as it was decoded (nothing in it is replaced on the way out), and the one
`gonka-model` entry when there is none -/
theorem listModels_reply (models : List Bytes) :
    let ids := models.filterMap fun raw => (unmarshalModelID raw).filter fun id => !id.isEmpty
    let listed := (if ids = [] then [ascii "gonka-model"] else ids).map fun id => (modelEntry id).toJValue
    (listModels models).status = 200 ∧ checkValid (listModels models).body = true ∧
      decode (listModels models).body =
        some (JValue.object [(ascii "data", .array listed), (ascii "object", .string (ascii "list"))]).toRaw := by
  intro ids listed
  have hids : ∀ id ∈ ids, Utf8 id := fun id hid => by
    obtain ⟨raw, -, hraw⟩ := List.mem_filterMap.1 hid
    exact utf8_unmarshalModelID (Option.filter_eq_some.1 hraw).1
  have hlisted : ∀ id ∈ (if ids = [] then [ascii "gonka-model"] else ids), Utf8 id := by
    split
    · simpa using utf8_of_ascii (by decide)
    · exact hids
  obtain ⟨hc, hd⟩ := canon_modelEntries hlisted
  have hv : (JValue.object [(ascii "data", .array listed), (ascii "object", .string (ascii "list"))]).Canon :=
    ⟨utf8_of_ascii (by decide), hc, utf8_of_ascii (by decide), utf8_of_ascii (by decide), trivial⟩
  have hlist : listModels models =
      writeJSON 200 (.object [(ascii "data", .array listed), (ascii "object", .string (ascii "list"))]) := by
    simp only [listModels, filterMap_cachedEntry, List.length_map, List.length_eq_zero, listed, ids]
    split <;> simp_all [Function.comp_def]
  have hdepth : (JValue.object [(ascii "data", .array listed), (ascii "object", .string (ascii "list"))]).depth ≤
      maxNestingDepth := by
    simp only [JValue.depth, membersDepth, itemsDepth, listed] at hd ⊢
    unfold maxNestingDepth; omega
  rw [hlist]
  exact ⟨rfl, decode_writeJSON hv hdepth 200⟩

/-- a model under the key `ID` is listed, one whose `id` is a number is not -/
example : (listModels [ascii "\x7b\"ID\":\"m\"\x7d", ascii "\x7b\"id\":5\x7d"]).body =
    ascii "\x7b\"data\":[\x7b\"id\":\"m\",\"object\":\"model\",\"created\":1677610602,\"owned_by\":\"gonka\"\x7d],\"object\":\"list\"\x7d\n" := by
  decide

end GonkaProxy
