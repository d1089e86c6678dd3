import Mathlib.Data.List.Perm.Subperm
import Mathlib.Data.Nat.ModEq
import Mathlib.Data.List.Range
import Mathlib.Data.List.Nodup
import Mathlib.Data.List.Count

/-!
# The wallet pool: atomic round robin

`Next` is `idx := counter.Add(1) - 1` on a `Uint64`, then `&wallets[idx % len(wallets)]`.  The
only shared state is the atomic counter, so concurrent calls are ordered by their `Add`, and `K`
calls consecutive in that order are `K` successive `Next` steps of the pool.

* `Pool`                    the wallets (non-empty: what `NewPool` checks) and the counter;
* `Pool.Next`, `Pool.nextN` one call (the index read and the wallet there) and `K` calls;
* `windowIdx c K N`         the residues `(c + j) % N`, `j < K`;
* `count_windowIdx`         each residue occurs `⌊K/N⌋` or `⌈K/N⌉` times among them;
* `next_fair`               over any `K` consecutive calls (fewer than `2^64` in the process),
                            every wallet index is returned `⌊K/N⌋` or `⌈K/N⌉` times and every
                            index read is inside the slice.
-/

set_option linter.unusedSectionVars false
set_option linter.unusedVariables false

namespace GonkaProxy

/-- `Pool`: the wallets and the `Uint64` counter; `NewPool` refuses an empty list -/
structure Pool (α : Type) where
  wallets : List α
  counter : Nat
  nonempty : wallets ≠ []

/-- `NewPool(wallets)` -/
def NewPool {α : Type} (wallets : List α) : Except String (Pool α) :=
  match wallets with
  | [] => .error "wallet pool: at least one wallet is required"
  | w :: ws => .ok ⟨w :: ws, 0, List.cons_ne_nil w ws⟩

section
variable {α : Type}

/-- `Next()`: the index it reads, `wallets[idx % len]` (`none` would be an index out of range),
and the pool after the `Add` -/
def Pool.Next (p : Pool α) : (Nat × Option α) × Pool α :=
  let c := (p.counter + 1) % 2 ^ 64
  let idx := (c + 2 ^ 64 - 1) % 2 ^ 64 % p.wallets.length
  ((idx, p.wallets[idx]?), { p with counter := c })

/-- `K` successive calls of `Next` -/
def Pool.nextN (p : Pool α) : Nat → List (Nat × Option α) × Pool α
  | 0 => ([], p)
  | k + 1 =>
    let r := p.Next
    let s := r.2.nextN k
    (r.1 :: s.1, s.2)

/-- the residues modulo `N` of `K` consecutive counter values from `c` -/
def windowIdx (c K N : Nat) : List Nat := (List.range K).map fun j => (c + j) % N

theorem windowIdx_succ (c K N : Nat) : windowIdx c (K + 1) N = c % N :: windowIdx (c + 1) K N := by
  simp only [windowIdx, List.range_succ_eq_map, List.map_cons, List.map_map, Nat.add_zero]
  refine congrArg _ (List.map_congr_left fun j _ => ?_)
  simp only [Function.comp]; congr 1; omega

theorem windowIdx_add (c K K' N : Nat) :
    windowIdx c (K + K') N = windowIdx c K N ++ windowIdx (c + K) K' N := by
  simp only [windowIdx, List.range_add, List.map_append, List.map_map]
  congr 1
  exact List.map_congr_left (fun j _ => by simp [Function.comp, Nat.add_assoc])

theorem windowIdx_nodup {c K N : Nat} (hK : K ≤ N) : (windowIdx c K N).Nodup := by
  refine (List.nodup_range K).map_on fun x hx y hy hxy => ?_
  have hx' := List.mem_range.mp hx
  have hy' := List.mem_range.mp hy
  have h : x ≡ y [MOD N] := Nat.ModEq.add_left_cancel' c hxy
  rw [Nat.ModEq, Nat.mod_eq_of_lt (by omega), Nat.mod_eq_of_lt (by omega)] at h
  exact h

theorem windowIdx_perm {c N : Nat} (hN : 0 < N) : (windowIdx c N N).Perm (List.range N) := by
  refine (List.subperm_of_subset (windowIdx_nodup le_rfl) fun x hx => ?_).perm_of_length_le
    (by simp [windowIdx])
  obtain ⟨j, -, rfl⟩ := List.mem_map.mp hx
  exact List.mem_range.mpr (Nat.mod_lt _ hN)

/-- **Round-robin counts.**  Among `K` consecutive residues modulo `N`, each `w < N` occurs
`⌊K/N⌋` or `⌈K/N⌉` times. -/
theorem count_windowIdx {N : Nat} (hN : 0 < N) {w : Nat} (hw : w < N) :
    ∀ (K c : Nat), (windowIdx c K N).count w = K / N ∨ (windowIdx c K N).count w = (K + N - 1) / N
  | K, c => by
    by_cases hK : K < N
    · have hle : (windowIdx c K N).count w ≤ 1 :=
        List.nodup_iff_count_le_one.mp (windowIdx_nodup hK.le) w
      rw [Nat.div_eq_of_lt hK]
      rcases Nat.le_one_iff_eq_zero_or_eq_one.mp hle with h | h
      · exact .inl h
      · right; rw [h]
        have hK0 : K ≠ 0 := by rintro rfl; simp [windowIdx] at h
        exact (Nat.div_eq_of_lt_le (by omega) (by omega)).symm
    · have hsplit := windowIdx_add c (K - N) N N
      rw [Nat.sub_add_cancel (by omega)] at hsplit
      have hblock : (windowIdx (c + (K - N)) N N).count w = 1 := by
        rw [(windowIdx_perm hN).count_eq]
        exact List.count_eq_one_of_mem (List.nodup_range N) (List.mem_range.mpr hw)
      have e1 : K / N = (K - N) / N + 1 := Nat.div_eq_sub_div hN (by omega)
      have e2 : (K + N - 1) / N = (K - N + N - 1) / N + 1 := by
        rw [Nat.div_eq_sub_div hN (by omega)]; congr 2; omega
      rw [hsplit, List.count_append, hblock, e1, e2]
      exact (count_windowIdx hN hw (K - N) c).imp (congrArg (· + 1)) (congrArg (· + 1))
termination_by K => K
decreasing_by omega

theorem nextN_indices : ∀ (p : Pool α) (K : Nat), p.counter + K < 2 ^ 64 →
    ((p.nextN K).1.map Prod.fst = windowIdx p.counter K p.wallets.length) ∧
    ∀ r ∈ (p.nextN K).1, r.2 = p.wallets[r.1]?
  | p, 0, _ => ⟨rfl, fun _ h => absurd h (List.not_mem_nil _)⟩
  | p, K + 1, h => by
    have hc : (p.counter + 1) % 2 ^ 64 = p.counter + 1 := Nat.mod_eq_of_lt (by omega)
    have hidx : (p.counter + 1 + 2 ^ 64 - 1) % 2 ^ 64 = p.counter := by
      rw [show p.counter + 1 + 2 ^ 64 - 1 = p.counter + 2 ^ 64 by omega, Nat.add_mod_right,
        Nat.mod_eq_of_lt (by omega)]
    obtain ⟨ih1, ih2⟩ := nextN_indices { p with counter := p.counter + 1 } K (by simp; omega)
    simp only [Pool.nextN, Pool.Next, hc, hidx, List.map_cons, windowIdx_succ] at ih1 ih2 ⊢
    exact ⟨congrArg _ ih1, fun r hr => by
      rcases List.mem_cons.mp hr with rfl | hr
      · rfl
      · exact ih2 r hr⟩

/-- **Wallet fairness.**  For every pool and every `K` calls of `Next` consecutive in the order of
the atomic counter, from any counter value (fewer than `2^64` calls in the process), every index
read is inside the wallet slice, and every wallet index is returned `⌊K/N⌋` or `⌈K/N⌉` times. -/
theorem next_fair (p : Pool α) (K : Nat) (hK : p.counter + K < 2 ^ 64) :
    (∀ r ∈ (p.nextN K).1, ∃ h : r.1 < p.wallets.length, r.2 = some p.wallets[r.1]) ∧
    ∀ w < p.wallets.length,
      ((p.nextN K).1.map Prod.fst).count w = K / p.wallets.length ∨
      ((p.nextN K).1.map Prod.fst).count w = (K + p.wallets.length - 1) / p.wallets.length := by
  obtain ⟨h1, h2⟩ := nextN_indices p K hK
  have hN : 0 < p.wallets.length := List.length_pos.mpr p.nonempty
  refine ⟨fun r hr => ?_, fun w hw => h1 ▸ count_windowIdx hN hw K p.counter⟩
  have hin : r.1 ∈ windowIdx p.counter K p.wallets.length := h1 ▸ List.mem_map_of_mem _ hr
  obtain ⟨j, -, hj⟩ := List.mem_map.mp hin
  have hlt : r.1 < p.wallets.length := hj ▸ Nat.mod_lt _ hN
  exact ⟨hlt, by rw [h2 r hr, List.getElem?_eq_getElem hlt]⟩

/-- seven calls on three wallets from counter `5` -/
theorem next_fair_window :
    (5 + 7 < 2 ^ 64) ∧
    ((∀ r ∈ ((⟨[10, 20, 30], 5, by decide⟩ : Pool Nat).nextN 7).1,
        ∃ h : r.1 < 3, r.2 = some ([10, 20, 30] : List Nat)[r.1]) ∧
      ∀ w < 3, (((⟨[10, 20, 30], 5, by decide⟩ : Pool Nat).nextN 7).1.map Prod.fst).count w = 7 / 3 ∨
        (((⟨[10, 20, 30], 5, by decide⟩ : Pool Nat).nextN 7).1.map Prod.fst).count w = (7 + 3 - 1) / 3) :=
  ⟨by decide, next_fair _ 7 (by decide)⟩

end

end GonkaProxy
