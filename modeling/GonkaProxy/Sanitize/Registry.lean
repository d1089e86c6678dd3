import GonkaProxy.Sanitize.TokenMap

/-!
# The process: every request's `TokenMap` around one `globalCounter`

Each request owns its `TokenMap` and calls `register` from one goroutine ("Redact itself must
not be called concurrently"); what requests share is `globalCounter`, touched only by its atomic
`Add(1)`.  So every interleaving of `register` calls has the effect of the sequence of those calls
ordered by their `Add`, and a run of the process is a list of events `(request, original)`.

* `Process.register`, `Process.run`   one call, and a run (the placeholders returned, in order);
* `Process.Inv`                       every map inverse, every bound placeholder issued at an id
                                      `≤ globalCounter`, no placeholder in two maps;
* `Process.Inv.register`              one call keeps `Inv` while `globalCounter + 1 < 2^64`;
* `Process.run_binds`                 after a run, each event's map binds its original to the
                                      placeholder the event got;
* `tokenMap_invariant`                for every run of fewer than `2^64` calls from the start of
                                      the process: the maps stay inverse, each call returns what its
                                      map binds its original to, a placeholder is bound to one
                                      original across all maps, the same original in the same map
                                      always gets the same placeholder, and two calls that get the
                                      same placeholder registered the same original.
-/

set_option linter.unusedSectionVars false
set_option linter.unusedVariables false

namespace GonkaProxy

/-- `globalCounter` and the `TokenMap` of every request -/
structure Process where
  counter : Nat
  maps : Nat → TokenMap

/-- the process at start: `globalCounter = 0`, every map `newTokenMap` -/
def Process.init : Process := ⟨0, fun _ => newTokenMap⟩

/-- request `i` calls `register(o)` on its map -/
def Process.register (p : Process) (i : Nat) (o : Bytes) : Bytes × Process :=
  let r := (p.maps i).register p.counter o
  (r.1, ⟨r.2.2, Function.update p.maps i r.2.1⟩)

/-- a run of `register` calls: the placeholders returned, in order, and the process after -/
def Process.run (p : Process) : List (Nat × Bytes) → List Bytes × Process
  | [] => ([], p)
  | (i, o) :: evs =>
    let r := p.register i o
    let s := r.2.run evs
    (r.1 :: s.1, s.2)

/-- the invariant of the process -/
structure Process.Inv (p : Process) : Prop where
  inverse : ∀ i, (p.maps i).Inverse
  issued : ∀ i t o, (p.maps i).fromToken.get? t = some o → ∃ id, id ≤ p.counter ∧ t = formatToken id
  disjoint : ∀ i j t o o', i ≠ j → (p.maps i).fromToken.get? t = some o →
    (p.maps j).fromToken.get? t = some o' → False

theorem Process.init_inv : Process.init.Inv where
  inverse _ _ _ := by simp [Process.init, newTokenMap]
  issued _ _ _ h := by simp [Process.init, newTokenMap] at h
  disjoint _ _ _ _ _ _ h := by simp [Process.init, newTokenMap] at h

section
variable {p : Process} {i : Nat} {o : Bytes}

theorem Process.register_of_get? {t : Bytes} (h : (p.maps i).toToken.get? o = some t) :
    p.register i o = (t, p) := by
  simp [Process.register, TokenMap.register_of_get? h]

theorem Process.Inv.fresh (h : p.Inv) (j : Nat) (o' : Bytes) :
    (p.maps j).fromToken.get? (formatToken (p.counter + 1)) ≠ some o' := by
  intro hj
  obtain ⟨id, hid, he⟩ := h.issued j _ _ hj
  have := formatToken_inj he
  omega

private theorem get?_update_fresh {k : Nat} {t o'' tok : Bytes}
    (h : (Function.update p.maps i (TokenMap.mk ((p.maps i).toToken.set o tok)
      ((p.maps i).fromToken.set tok o)) k).fromToken.get? t = some o'') :
    (k = i ∧ t = tok) ∨ (p.maps k).fromToken.get? t = some o'' := by
  by_cases hk : k = i
  · subst hk
    simp only [Function.update_same, GoMap.get?_set] at h
    split at h
    · exact .inl ⟨rfl, by simp_all⟩
    · exact .inr h
  · simp only [Function.update_noteq hk] at h; exact .inr h

/-- **Step lemma**: one `register` call keeps the invariant while the counter does not wrap. -/
theorem Process.Inv.register (h : p.Inv) (hc : p.counter + 1 < 2 ^ 64) :
    (p.register i o).2.Inv := by
  cases hg : (p.maps i).toToken.get? o with
  | some t => rw [Process.register_of_get? hg]; exact h
  | none =>
    have hmod : (p.counter + 1) % 2 ^ 64 = p.counter + 1 := Nat.mod_eq_of_lt hc
    simp only [Process.register, TokenMap.register_of_get?_none hg, hmod]
    refine ⟨fun j => ?_, fun j t o' hj => ?_, fun j j' t o₁ o₂ hne h1 h2 => ?_⟩
    · by_cases hji : j = i
      · subst hji; simpa using (h.inverse j).set hg (h.fresh j)
      · simpa [hji] using h.inverse j
    · dsimp only
      rcases get?_update_fresh hj with ⟨-, ht⟩ | hj
      · exact ⟨_, le_refl _, ht⟩
      · obtain ⟨id, hid, he⟩ := h.issued j t o' hj; exact ⟨id, by omega, he⟩
    · rcases get?_update_fresh h1 with ⟨hj, ht⟩ | h1 <;>
        rcases get?_update_fresh h2 with ⟨hj', ht'⟩ | h2
      · exact hne (hj.trans hj'.symm)
      · rw [ht] at h2; exact h.fresh j' o₂ h2
      · rw [ht'] at h1; exact h.fresh j o₁ h1
      · exact h.disjoint j j' t o₁ o₂ hne h1 h2

theorem Process.register_counter_le : (p.register i o).2.counter ≤ p.counter + 1 := by
  rcases (p.maps i).register_counter (c := p.counter) (o := o) with h | h <;>
    simp only [Process.register, h] <;> omega

theorem Process.register_keeps {j : Nat} {o' t : Bytes} (h : (p.maps j).toToken.get? o' = some t) :
    ((p.register i o).2.maps j).toToken.get? o' = some t := by
  by_cases hj : j = i
  · subst hj; simpa [Process.register] using TokenMap.register_keeps h
  · simpa [Process.register, Function.update_noteq hj] using h

theorem Process.register_binds : ((p.register i o).2.maps i).toToken.get? o = some (p.register i o).1 := by
  simpa [Process.register] using TokenMap.register_get

end

/-! ## runs -/

section
variable {p : Process} {evs : List (Nat × Bytes)}

theorem Process.run_length : ∀ (p : Process) (evs : List (Nat × Bytes)),
    (p.run evs).1.length = evs.length
  | _, [] => rfl
  | p, (i, o) :: evs => by simp [Process.run, Process.run_length _ evs]

/-- **Run lemma**: the invariant holds after every run that does not wrap the counter. -/
theorem Process.run_inv : ∀ (p : Process) (evs : List (Nat × Bytes)), p.Inv →
    p.counter + evs.length < 2 ^ 64 → (p.run evs).2.Inv ∧ (p.run evs).2.counter ≤ p.counter + evs.length
  | p, [], h, _ => ⟨h, le_refl _⟩
  | p, (i, o) :: evs, h, hc => by
    have hc1 : p.counter + 1 < 2 ^ 64 := by simp at hc; omega
    have hle := Process.register_counter_le (p := p) (i := i) (o := o)
    obtain ⟨h', hle'⟩ := Process.run_inv (p.register i o).2 evs (h.register hc1)
      (by simp at hc; omega)
    exact ⟨h', by simp only [List.length_cons] at hc ⊢; exact le_trans hle' (by omega)⟩

theorem Process.run_keeps : ∀ (p : Process) (evs : List (Nat × Bytes)) {j : Nat} {o' t : Bytes},
    (p.maps j).toToken.get? o' = some t → ((p.run evs).2.maps j).toToken.get? o' = some t
  | _, [], _, _, _, h => h
  | p, (i, o) :: evs, j, o', t, h => Process.run_keeps _ evs (Process.register_keeps h)

theorem Process.run_binds : ∀ (p : Process) (evs : List (Nat × Bytes)) (k : Nat) (i : Nat)
    (o t : Bytes), evs[k]? = some (i, o) → (p.run evs).1[k]? = some t →
    ((p.run evs).2.maps i).toToken.get? o = some t
  | _, [], _, _, _, _, h, _ => by simp at h
  | p, (i', o') :: evs, 0, i, o, t, h, ht => by
    simp only [List.getElem?_cons_zero, Option.some.injEq, Prod.mk.injEq] at h
    obtain ⟨rfl, rfl⟩ := h
    simp only [Process.run, List.getElem?_cons_zero, Option.some.injEq] at ht
    subst ht
    exact Process.run_keeps _ evs Process.register_binds
  | p, (i', o') :: evs, k + 1, i, o, t, h, ht =>
    Process.run_binds _ evs k i o t (by simpa using h) (by simpa [Process.run] using ht)

end

/-- **`TokenMap` invariant across the process.**  For every run of fewer than `2^64` `register`
calls from the start of the process: every map keeps `toToken` and `fromToken` inverse; each
call returns the placeholder its map binds its original to; no placeholder is bound to two
originals, in one map or in two; two calls with the same original on the same map return the
same placeholder; and two calls that return the same placeholder registered the same original. -/
theorem tokenMap_invariant (evs : List (Nat × Bytes)) (hn : evs.length < 2 ^ 64) :
    (∀ i, ((Process.init.run evs).2.maps i).Inverse) ∧
    (∀ (k i : Nat) (o t : Bytes), evs[k]? = some (i, o) → (Process.init.run evs).1[k]? = some t →
      ((Process.init.run evs).2.maps i).toToken.get? o = some t) ∧
    (∀ i j t o o', ((Process.init.run evs).2.maps i).fromToken.get? t = some o →
      ((Process.init.run evs).2.maps j).fromToken.get? t = some o' → o = o') ∧
    (∀ (k k' i : Nat) (o : Bytes), evs[k]? = some (i, o) → evs[k']? = some (i, o) →
      (Process.init.run evs).1[k]? = (Process.init.run evs).1[k']?) ∧
    (∀ (k k' i i' : Nat) (o o' t : Bytes), evs[k]? = some (i, o) → evs[k']? = some (i', o') →
      (Process.init.run evs).1[k]? = some t → (Process.init.run evs).1[k']? = some t → o = o') := by
  obtain ⟨hinv, -⟩ := Process.run_inv Process.init evs Process.init_inv (by simpa [Process.init])
  have hlen := Process.run_length Process.init evs
  -- a placeholder is bound to one original across all maps
  have hone : ∀ i j t o o', ((Process.init.run evs).2.maps i).fromToken.get? t = some o →
      ((Process.init.run evs).2.maps j).fromToken.get? t = some o' → o = o' := by
    intro i j t o o' h1 h2
    by_cases hij : i = j
    · subst hij; rw [h1] at h2; exact Option.some.inj h2
    · exact (hinv.disjoint i j t o o' hij h1 h2).elim
  refine ⟨hinv.inverse, Process.run_binds _ evs, hone, ?_, ?_⟩
  · intro k k' i o hk hk'
    have hlt : k < (Process.init.run evs).1.length := by
      rw [hlen]; exact (List.getElem?_eq_some_iff.mp hk).1
    have hlt' : k' < (Process.init.run evs).1.length := by
      rw [hlen]; exact (List.getElem?_eq_some_iff.mp hk').1
    rw [List.getElem?_eq_getElem hlt, List.getElem?_eq_getElem hlt']
    have b1 := Process.run_binds _ evs k i o _ hk (List.getElem?_eq_getElem hlt)
    have b2 := Process.run_binds _ evs k' i o _ hk' (List.getElem?_eq_getElem hlt')
    rw [b1] at b2
    exact congrArg some (Option.some.inj b2)
  · intro k k' i i' o o' t hk hk' ht ht'
    have b1 := Process.run_binds _ evs k i o t hk ht
    have b2 := Process.run_binds _ evs k' i' o' t hk' ht'
    exact hone i i' t o o' ((hinv.inverse i o t).mp b1) ((hinv.inverse i' o' t).mp b2)

/-- two requests, three calls: request `0` registers "bob" twice, request `1` "alice" once -/
theorem tokenMap_invariant_two_requests :
    let evs : List (Nat × Bytes) := [(0, ascii "bob"), (1, ascii "alice"), (0, ascii "bob")]
    evs.length < 2 ^ 64 ∧
    (∀ i, ((Process.init.run evs).2.maps i).Inverse) ∧
    (∀ (k i : Nat) (o t : Bytes), evs[k]? = some (i, o) → (Process.init.run evs).1[k]? = some t →
      ((Process.init.run evs).2.maps i).toToken.get? o = some t) ∧
    (∀ i j t o o', ((Process.init.run evs).2.maps i).fromToken.get? t = some o →
      ((Process.init.run evs).2.maps j).fromToken.get? t = some o' → o = o') ∧
    (∀ (k k' i : Nat) (o : Bytes), evs[k]? = some (i, o) → evs[k']? = some (i, o) →
      (Process.init.run evs).1[k]? = (Process.init.run evs).1[k']?) ∧
    (∀ (k k' i i' : Nat) (o o' t : Bytes), evs[k]? = some (i, o) → evs[k']? = some (i', o') →
      (Process.init.run evs).1[k]? = some t → (Process.init.run evs).1[k']? = some t → o = o') :=
  ⟨by decide, tokenMap_invariant _ (by decide)⟩

end GonkaProxy
