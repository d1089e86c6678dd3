import Mathlib.Data.List.Lex
import GonkaProxy.Sanitize.RoundTrip
import GonkaProxy.Signer.Ecdsa

/-!
# `Redactions` and the `X-Sanitize-Redactions` header

`Redactions()` copies the bindings of `fromToken` into a slice in the order in which `range`
visits the map, then sorts the slice by token with an insertion sort; `setSanitizeHeader` sends
it to the web UI as JSON in base64, unless `toToken` is empty.  Go compares strings byte by
byte: `List.Lex (· < ·)` on the bytes.

* `TokenMap.Registered`        the maps `register` builds from `newTokenMap`, whatever the global
                               counter holds at each call;
* `TokenMap.Wf`                `fromToken` binds each placeholder once and each original once,
                               every original has its placeholder in `toToken`, and the two maps
                               are empty together; `TokenMap.Registered.wf`, and
                               `TokenMap.Sound.wf` for every map redaction reaches;
* `sinkRedaction`, `TokenMap.Redactions`   the sort, one sinking of the new entry per outer step;
* `TokenMap.Wf.redactions`     the list holds the bindings of `fromToken`, each once, tokens
                               strictly ascending, originals distinct;
* `Redactions_sorted_enumeration`   the same for every map `register` builds;
* `setSanitizeHeader`, `TokenMap.Wf.setSanitizeHeader`   the header is set exactly when the list
                               is not empty.
-/

set_option linter.unusedSectionVars false
set_option linter.unusedVariables false

namespace GonkaProxy

/-- bytes compare as numbers -/
instance instIsStrictTotalOrderUInt8 : IsStrictTotalOrder UInt8 (· < ·) where
  trichotomous a b := by
    rcases Nat.lt_trichotomy a.toNat b.toNat with h | h | h
    · exact .inl h
    · exact .inr (.inl (UInt8.toNat.inj h))
    · exact .inr (.inr h)
  irrefl := UInt8.lt_irrefl
  trans _ _ _ := UInt8.lt_trans

/-! ## the maps `register` builds -/

/-- the maps `register` builds from `newTokenMap`, each call at any value of the global counter:
other requests move it in between -/
inductive TokenMap.Registered : TokenMap → Prop
  | new : TokenMap.Registered newTokenMap
  | register {m : TokenMap} (c : Nat) (o : Bytes) : m.Registered → (m.register c o).2.1.Registered

/-- what every registered map satisfies -/
structure TokenMap.Wf (m : TokenMap) : Prop where
  tokens : (m.fromToken.map Prod.fst).Nodup
  originals : (m.fromToken.map Prod.snd).Nodup
  registered : ∀ e ∈ m.fromToken, m.toToken.get? e.2 ≠ none
  empty : m.toToken = [] ↔ m.fromToken = []

section
variable {m : TokenMap}

theorem TokenMap.Wf.register (h : m.Wf) (c : Nat) (o : Bytes) : (m.register c o).2.1.Wf := by
  cases hg : m.toToken.get? o with
  | some t => rw [TokenMap.register_of_get? hg]; exact h
  | none =>
    rw [TokenMap.register_of_get?_none hg]
    have hfresh : ∀ e ∈ m.fromToken, e.2 ≠ o := fun e he heo => h.registered e he (heo ▸ hg)
    refine ⟨GoMap.nodup_set h.tokens, ?_, ?_, by simp [GoMap.set]⟩
    · simp only [GoMap.set, List.map_cons, List.nodup_cons]
      refine ⟨fun ho => ?_, h.originals.sublist ((List.filter_sublist _).map _)⟩
      obtain ⟨e, he, heo⟩ := List.mem_map.mp ho
      exact hfresh e (List.mem_of_mem_filter he) heo
    · intro e he
      rw [GoMap.get?_set]
      rcases List.mem_cons.mp he with rfl | he
      · simp
      · split
        · simp
        · exact h.registered e (List.mem_of_mem_filter he)

theorem TokenMap.Registered.wf (h : m.Registered) : m.Wf := by
  induction h with
  | new => exact ⟨List.nodup_nil, List.nodup_nil, fun _ h => absurd h (List.not_mem_nil _), Iff.rfl⟩
  | register c o _ ih => exact ih.register c o

theorem TokenMap.Sound.wf {c : Nat} (h : m.Sound c) : m.Wf where
  tokens := h.nodup
  originals := by
    refine (List.Nodup.of_map Prod.fst h.nodup).map_on fun x hx y hy hxy => ?_
    have hx' := (h.inverse x.2 x.1).mpr (GoMap.get?_of_mem h.nodup hx)
    have hy' := (h.inverse y.2 y.1).mpr (GoMap.get?_of_mem h.nodup hy)
    rw [← hxy, hx'] at hy'
    exact Prod.ext (Option.some.inj hy') hxy
  registered e he := by
    rw [(h.inverse e.2 e.1).mpr (GoMap.get?_of_mem h.nodup he)]; simp
  empty := by
    constructor
    · intro ht
      refine List.eq_nil_iff_forall_not_mem.mpr fun e he => ?_
      have := (h.inverse e.2 e.1).mpr (GoMap.get?_of_mem h.nodup he)
      rw [ht] at this; cases this
    · intro hf
      cases ht : m.toToken with
      | nil => rfl
      | cons e l =>
        have := (h.inverse e.1 e.2).mp (by rw [ht]; simp [GoMap.get?])
        rw [hf] at this; cases this

end

/-! ## `Redactions` -/

/-- `Redaction` -/
structure Redaction where
  token : Bytes
  original : Bytes
  deriving DecidableEq, Repr

/-- the inner loop of `Redactions`: the sorted prefix is kept right to left, and the new entry
moves left past every entry whose token is greater -/
def sinkRedaction (x : Redaction) : List Redaction → List Redaction :=
  sinkBy (fun a b => List.Lex (· < ·) a.token b.token) x

/-- `Redactions()`, with `range` visiting `fromToken` in the order `o`: the slice `out` of the
first loop, then the insertion sort -/
def TokenMap.Redactions (m : TokenMap) (o : m.fromToken.Order) : List Redaction :=
  ((o.1.map fun e => ⟨e.1, e.2⟩).foldl (fun acc x => sinkRedaction x acc) []).reverse

/-- the order of the sorted prefix, read right to left: no token is below a later one -/
def tokenGe (a b : Redaction) : Prop := ¬ List.Lex (· < ·) a.token b.token

theorem sinkRedaction_sorted (x : Redaction) (acc : List Redaction) (h : acc.Sorted tokenGe) :
    (sinkRedaction x acc).Sorted tokenGe :=
  @sinkBy_sorted _ (fun a b : Redaction => List.Lex (· < ·) a.token b.token) _ tokenGe x
    (fun _ hxy => asymm hxy) (fun _ hxy => hxy)
    (fun _ _ hxy hyb hxb => (IsOrderConnected.conn _ _ _ hxb).elim hxy hyb) acc h

theorem TokenMap.Redactions_perm (m : TokenMap) (o : m.fromToken.Order) :
    (m.Redactions o).Perm (m.fromToken.map fun e => ⟨e.1, e.2⟩) := by
  have h := foldl_insert_perm id sinkRedaction (fun x => sinkBy_perm _ x)
    (o.1.map fun e => ⟨e.1, e.2⟩) []
  rw [List.map_id, List.append_nil] at h
  exact (List.reverse_perm _).trans (h.trans (o.2.map _))

theorem TokenMap.Redactions_sorted (m : TokenMap) (o : m.fromToken.Order) :
    (m.Redactions o).Sorted fun a b => tokenGe b a :=
  List.pairwise_reverse.mpr
    (foldl_insert_sorted sinkRedaction sinkRedaction_sorted _ [] List.sorted_nil)

/-- **The redaction list of a map with distinct tokens and originals.**  Whatever order `range`
takes, the list holds exactly the bindings of `fromToken`, each once, with the tokens strictly
ascending and the originals pairwise distinct. -/
theorem TokenMap.Wf.redactions {m : TokenMap} (h : m.Wf) (o : m.fromToken.Order) :
    (∀ t orig, (⟨t, orig⟩ : Redaction) ∈ m.Redactions o ↔ m.fromToken.get? t = some orig) ∧
    (m.Redactions o).Nodup ∧
    (m.Redactions o).Pairwise (fun a b => List.Lex (· < ·) a.token b.token) ∧
    ((m.Redactions o).map (·.original)).Nodup := by
  have hperm := m.Redactions_perm o
  have htok : ((m.Redactions o).map (·.token)).Nodup := by
    rw [(hperm.map _).nodup_iff, List.map_map]; exact h.tokens
  have hasc : (m.Redactions o).Pairwise (fun a b => List.Lex (· < ·) a.token b.token) :=
    ((m.Redactions_sorted o).and (List.pairwise_map.mp htok)).imp fun hab =>
      (trichotomous_of (List.Lex (· < ·)) _ _).resolve_right (not_or.mpr ⟨hab.2, hab.1⟩)
  refine ⟨fun t orig => ?_, hasc.imp fun hab => by rintro rfl; exact irrefl _ hab, hasc, ?_⟩
  · rw [hperm.mem_iff]
    simp only [List.mem_map, Redaction.mk.injEq]
    exact ⟨fun ⟨e, he, h1, h2⟩ => h1 ▸ h2 ▸ GoMap.get?_of_mem h.tokens he,
      fun hg => ⟨_, GoMap.mem_of_get? hg, rfl, rfl⟩⟩
  · rw [(hperm.map _).nodup_iff, List.map_map]; exact h.originals

/-- **`Redactions` of a map `register` built.**  For every map `register` calls build, at any
values of the global counter, and every order in which `range` visits `fromToken`, `Redactions`
lists every binding of `fromToken` exactly once, with the tokens strictly ascending byte by byte
and the originals pairwise distinct. -/
theorem Redactions_sorted_enumeration {m : TokenMap} (hm : m.Registered) (o : m.fromToken.Order) :
    (∀ t orig, (⟨t, orig⟩ : Redaction) ∈ m.Redactions o ↔ m.fromToken.get? t = some orig) ∧
    (m.Redactions o).Nodup ∧
    (m.Redactions o).Pairwise (fun a b => List.Lex (· < ·) a.token b.token) ∧
    ((m.Redactions o).map (·.original)).Nodup :=
  hm.wf.redactions o

/-- `register` of `"a"` with the counter at `5`, then of `"b"` with it back at `0`: `range` visits
`«TOKEN_000006»` first, and the sort moves `«TOKEN_000001»` before it -/
theorem Redactions_sorted_enumeration_two :
    let m := ((newTokenMap.register 5 (ascii "a")).2.1.register 0 (ascii "b")).2.1
    let o : m.fromToken.Order := ⟨[(formatToken 6, ascii "a"), (formatToken 1, ascii "b")], by decide⟩
    m.Registered ∧ m.Redactions o = [⟨formatToken 1, ascii "b"⟩, ⟨formatToken 6, ascii "a"⟩] ∧
    (∀ t orig, (⟨t, orig⟩ : Redaction) ∈ m.Redactions o ↔ m.fromToken.get? t = some orig) ∧
    (m.Redactions o).Nodup ∧
    (m.Redactions o).Pairwise (fun a b => List.Lex (· < ·) a.token b.token) ∧
    ((m.Redactions o).map (·.original)).Nodup :=
  have hm : (((newTokenMap.register 5 (ascii "a")).2.1.register 0 (ascii "b")).2.1).Registered :=
    .register 0 _ (.register 5 _ .new)
  ⟨hm, by decide, Redactions_sorted_enumeration hm _⟩

/-! ## `setSanitizeHeader` -/

/-- `json.Marshal` of a `Redaction` -/
def marshalRedaction (r : Redaction) : Bytes :=
  ascii "\x7b\"token\":" ++ encodeString r.token ++ ascii ",\"original\":" ++ encodeString r.original ++
    [0x7D]

/-- `json.Marshal` of the `[]Redaction` that `Redactions` allocates with `make` -/
def marshalRedactions (rs : List Redaction) : Bytes :=
  [0x5B] ++ [0x2C].intercalate (rs.map marshalRedaction) ++ [0x5D]

/-- `IsEmpty()` -/
def TokenMap.IsEmpty (m : TokenMap) : Bool := m.toToken.length == 0

/-- `setSanitizeHeader(w, tm)`: the value it sets `X-Sanitize-Redactions` to, if any; `o m` is the
order in which `range` visits the `fromToken` of `m`.  `json.Marshal` of strings cannot fail. -/
def setSanitizeHeader (tm : Option TokenMap) (o : (m : TokenMap) → m.fromToken.Order) : Option Bytes :=
  match tm with
  | none => none
  | some m => if m.IsEmpty then none else some (base64Encode (marshalRedactions (m.Redactions (o m))))

theorem TokenMap.Wf.setSanitizeHeader {m : TokenMap} (h : m.Wf) (o : (m : TokenMap) → m.fromToken.Order) :
    GonkaProxy.setSanitizeHeader (some m) o =
      if m.Redactions (o m) = [] then none
      else some (base64Encode (marshalRedactions (m.Redactions (o m)))) := by
  have hempty : m.IsEmpty = true ↔ m.Redactions (o m) = [] := by
    rw [TokenMap.IsEmpty, beq_iff_eq, List.length_eq_zero, h.empty, ← List.length_eq_zero,
      ← List.length_eq_zero, (m.Redactions_perm (o m)).length_eq, List.length_map]
  simp only [GonkaProxy.setSanitizeHeader, hempty]

end GonkaProxy
