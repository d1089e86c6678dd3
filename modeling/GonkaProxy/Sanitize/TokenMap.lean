import GonkaProxy.Sanitize.Token

/-!
# `TokenMap`: `register` and `Restore`

A Go `map[string]string` is modelled by the list of its bindings (`GoMap`), newest first; the
order in which `range` visits a map is chosen by the runtime afresh at every loop, so `Restore`
and `restoreBytes` take it as an argument: any permutation of the bindings (`GoMap.Order`).

* `GoMap.get?`, `GoMap.set`, `GoMap.delete`   `m[k]`, `m[k] = v` and `delete(m, k)`;
* `TokenMap.register`             `register`, with `globalCounter` passed in and out;
* `restoreIn order text`          the loop of `Restore` / `restoreBytes`: one `strings.ReplaceAll`
                                  per binding, in the order `range` visits them;
* `TokenMap.Inverse`              `toToken` and `fromToken` are mutually inverse;
* `TokenMap.register_get`, `TokenMap.register_keeps`   after `register o` the map binds `o` to
                                  the returned placeholder, and every earlier binding stays.
-/

set_option linter.unusedSectionVars false
set_option linter.unusedVariables false

namespace GonkaProxy

/-! ## Go maps -/

/-- a Go `map[string]string`: its bindings, newest first -/
abbrev GoMap := List (Bytes × Bytes)

/-- `m[k]` with the comma-ok form: the value bound to `k`, if any -/
def GoMap.get? : GoMap → Bytes → Option Bytes
  | [], _ => none
  | (k, v) :: m, key => if k = key then some v else GoMap.get? m key

/-- `m[k] = v` -/
def GoMap.set (m : GoMap) (k v : Bytes) : GoMap := (k, v) :: m.filter (fun e => e.1 ≠ k)

/-- `delete(m, k)` -/
def GoMap.delete (m : GoMap) (k : Bytes) : GoMap := m.filter fun e => e.1 ≠ k

/-- an order in which `range` may visit the bindings of `m` -/
def GoMap.Order (m : GoMap) := {l : GoMap // l.Perm m}

/-- the order in which the bindings are stored -/
def GoMap.Order.self (m : GoMap) : m.Order := ⟨m, List.Perm.refl m⟩

section
variable {m : GoMap} {k k' v : Bytes}

@[simp] theorem GoMap.get?_nil : GoMap.get? [] k = none := rfl

theorem GoMap.get?_filter_ne (m : GoMap) (h : k' ≠ k) :
    GoMap.get? (m.filter fun e => e.1 ≠ k) k' = GoMap.get? m k' := by
  induction m with
  | nil => rfl
  | cons e m ih =>
    obtain ⟨a, b⟩ := e
    by_cases hak : a = k
    · subst hak
      simp only [List.filter_cons, ne_eq, not_true_eq_false, decide_False, Bool.false_eq_true,
        ite_false, ih, GoMap.get?, if_neg (Ne.symm h)]
    · simp only [List.filter_cons, ne_eq, hak, not_false_eq_true, decide_True, ite_true,
        GoMap.get?, ih]

@[simp] theorem GoMap.get?_set : (m.set k v).get? k' = if k = k' then some v else m.get? k' := by
  by_cases h : k = k'
  · simp [GoMap.set, GoMap.get?, h]
  · simp only [GoMap.set, GoMap.get?, if_neg h]
    exact GoMap.get?_filter_ne m (Ne.symm h)

theorem GoMap.mem_of_get? : ∀ {m : GoMap} {k v : Bytes}, m.get? k = some v → (k, v) ∈ m
  | [], _, _, h => by simp at h
  | (a, b) :: m, k, v, h => by
    simp only [GoMap.get?] at h
    split at h
    · cases h; subst_vars; exact List.mem_cons_self _ _
    · exact List.mem_cons_of_mem _ (GoMap.mem_of_get? h)

theorem GoMap.get?_filter_self (m : GoMap) (k : Bytes) :
    GoMap.get? (m.filter fun e => e.1 ≠ k) k = none := by
  induction m with
  | nil => rfl
  | cons e m ih =>
    by_cases hek : e.1 = k
    · simpa [List.filter_cons, hek] using ih
    · simpa [List.filter_cons, hek, GoMap.get?] using ih

@[simp] theorem GoMap.get?_delete : (m.delete k).get? k' = if k = k' then none else m.get? k' := by
  split
  · subst_vars; exact GoMap.get?_filter_self m _
  · exact GoMap.get?_filter_ne m (Ne.symm ‹_›)

theorem GoMap.nodup_delete (h : (m.map Prod.fst).Nodup) : ((m.delete k).map Prod.fst).Nodup :=
  h.sublist ((List.filter_sublist m).map _)

theorem GoMap.get?_of_mem : ∀ {m : GoMap} {e : Bytes × Bytes}, (m.map Prod.fst).Nodup → e ∈ m →
    m.get? e.1 = some e.2
  | [], _, _, h => absurd h (List.not_mem_nil _)
  | (a, b) :: m, e, hnd, h => by
    simp only [List.map_cons, List.nodup_cons] at hnd
    rcases List.mem_cons.mp h with rfl | h
    · simp [GoMap.get?]
    · have hne : a ≠ e.1 := fun hae => hnd.1 (hae ▸ List.mem_map_of_mem Prod.fst h)
      simp only [GoMap.get?, if_neg hne]
      exact GoMap.get?_of_mem hnd.2 h

theorem GoMap.nodup_set (h : (m.map Prod.fst).Nodup) : ((m.set k v).map Prod.fst).Nodup := by
  simp only [GoMap.set, List.map_cons, List.nodup_cons]
  refine ⟨fun hk => ?_, h.sublist ((List.filter_sublist m).map _)⟩
  obtain ⟨e, he, rfl⟩ := List.mem_map.mp hk
  simp at he

end

/-! ## the map of one request -/

/-- `TokenMap`: `original → placeholder` and `placeholder → original` -/
structure TokenMap where
  toToken : GoMap
  fromToken : GoMap

/-- `newTokenMap` -/
def newTokenMap : TokenMap := ⟨[], []⟩

/-- `register(original)`.  `counter` is `globalCounter` before the call; the result is the
placeholder, the map and `globalCounter` after it.  `Add(1)` on the `Uint64` wraps at `2^64`. -/
def TokenMap.register (m : TokenMap) (counter : Nat) (original : Bytes) :
    Bytes × TokenMap × Nat :=
  match m.toToken.get? original with
  | some tok => (tok, m, counter)
  | none =>
    let id := (counter + 1) % 2 ^ 64
    let tok := formatToken id
    (tok, ⟨m.toToken.set original tok, m.fromToken.set tok original⟩, id)

/-- the loop of `Restore` and `restoreBytes`: `strings.ReplaceAll` of every placeholder by its
original, in the order `order` in which `range` visits `fromToken` -/
def restoreIn (order : GoMap) (text : Bytes) : Bytes :=
  order.foldl (fun s e => replaceAll s e.1 e.2) text

/-- `Restore(text)`, visiting `fromToken` in the order `o` -/
def TokenMap.Restore (m : TokenMap) (o : m.fromToken.Order) (text : Bytes) : Bytes :=
  restoreIn o.1 text

/-- `toToken` and `fromToken` are inverse to each other -/
def TokenMap.Inverse (m : TokenMap) : Prop :=
  ∀ o t, m.toToken.get? o = some t ↔ m.fromToken.get? t = some o

section
variable {m : TokenMap} {c : Nat} {o : Bytes}

@[simp] theorem restoreIn_nil (text : Bytes) : restoreIn [] text = text := rfl

theorem restoreIn_cons (e : Bytes × Bytes) (order : GoMap) (text : Bytes) :
    restoreIn (e :: order) text = restoreIn order (replaceAll text e.1 e.2) := rfl

theorem TokenMap.register_of_get? {t : Bytes} (h : m.toToken.get? o = some t) :
    m.register c o = (t, m, c) := by
  simp [TokenMap.register, h]

theorem TokenMap.register_of_get?_none (h : m.toToken.get? o = none) :
    m.register c o = (formatToken ((c + 1) % 2 ^ 64),
      ⟨m.toToken.set o (formatToken ((c + 1) % 2 ^ 64)),
        m.fromToken.set (formatToken ((c + 1) % 2 ^ 64)) o⟩, (c + 1) % 2 ^ 64) := by
  simp [TokenMap.register, h]

theorem TokenMap.register_get : (m.register c o).2.1.toToken.get? o = some (m.register c o).1 := by
  cases h : m.toToken.get? o with
  | some t => rw [TokenMap.register_of_get? h]; exact h
  | none => rw [TokenMap.register_of_get?_none h]; simp

theorem TokenMap.register_keeps {o' t : Bytes} (h : m.toToken.get? o' = some t) :
    (m.register c o).2.1.toToken.get? o' = some t := by
  cases hg : m.toToken.get? o with
  | some t' => rw [TokenMap.register_of_get? hg]; exact h
  | none =>
    have hne : o ≠ o' := by rintro rfl; rw [hg] at h; cases h
    rw [TokenMap.register_of_get?_none hg]; simpa [hne] using h

theorem TokenMap.Inverse.set {tok : Bytes} (hm : m.Inverse) (ho : m.toToken.get? o = none)
    (htok : ∀ o', m.fromToken.get? tok ≠ some o') :
    (TokenMap.mk (m.toToken.set o tok) (m.fromToken.set tok o)).Inverse := by
  intro o' t
  simp only [GoMap.get?_set]
  by_cases h1 : o = o' <;> by_cases h2 : tok = t
  · simp [h1, h2]
  · subst h1
    simp only [ite_true, Option.some.injEq, h2, ite_false, false_iff]
    intro ht; rw [← hm] at ht; rw [ht] at ho; cases ho
  · subst h2
    simp only [h1, ite_false, ite_true, Option.some.injEq, iff_false]
    intro ht; exact htok o' ((hm o' tok).mp ht)
  · simp only [h1, h2, ite_false]; exact hm o' t

theorem TokenMap.register_counter :
    (m.register c o).2.2 = c ∨ (m.register c o).2.2 = (c + 1) % 2 ^ 64 := by
  cases h : m.toToken.get? o with
  | some t => rw [TokenMap.register_of_get? h]; exact .inl rfl
  | none => rw [TokenMap.register_of_get?_none h]; exact .inr rfl

end

end GonkaProxy
