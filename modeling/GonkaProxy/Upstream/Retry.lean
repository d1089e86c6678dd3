import GonkaProxy.Bytes
import GonkaProxy.Wallet.Pool
import GonkaProxy.Upstream.Client

/-!
# The upstream client: the retry loop of `Do` and `DoStream`

`Do` and `DoStream` run the same loop: up to three attempts, each picking an endpoint outside
the addresses already tried, taking the next wallet of the pool, signing the payload for the
endpoint's address and sending it.  A transport error moves on to the next attempt; the first
response ends the loop whatever its status.  They differ only in what they return: `Do` reads
the body, and `io.ReadAll`'s error is its error; `DoStream` returns the open response.

What the network does is an input: `outcome i` is what `doWith` returned at attempt `i`
(`NewRequestWithContext` or the HTTP round trip failed, or a response), and `draw i` is the
draw of `rand.Intn` there.  The endpoint table is the one the client holds when the call starts.

* `Response`, `Attempt`      a response with what reading its body gave; the request an attempt
                             sends (endpoint, wallet, URL, the address it is signed for);
* `Client.retry`             the loop, one attempt per call;
* `Client.Do`, `Client.DoStream`   the loop from attempt `0`, then each return;
* `replyOrLastError`         what the loop is for, from the outcomes alone: the first response,
                             or the last transport error, with the number of attempts taken;
* `Client.retry_refines`     over a non-empty table the loop computes `replyOrLastError`;
* `retry_protocol`           at most three attempts, successive wallets, fresh addresses while
                             one is left, the first response returned as it is, and when each
                             of `Do` and `DoStream` returns an error.
-/

set_option linter.unusedSectionVars false
set_option linter.unusedVariables false

namespace GonkaProxy

/-- an `*http.Response` as the loop sees it: the status, and what `io.ReadAll` of the body gives,
the bytes read and the read error -/
structure Response where
  status : Nat
  body : Bytes
  readErr : Option String
  deriving DecidableEq, Repr

/-- the request one attempt sends: the endpoint picked, what `pool.Next()` gave (the index it
read and the wallet there), `ep.URL + path`, and the address `Sign` is given -/
structure Attempt (α : Type) where
  endpoint : Endpoint
  wallet : Nat × Option α
  url : String
  signedFor : String

section
variable {α : Type} (c : Client) (path : String) (draw : Nat → Nat)
  (outcome : Nat → Except String Response)

/-- the loop of `Do` and `DoStream` from attempt number `attempt` on, with `n` attempts left:
the attempts made, then the first response or `lastErr`, and the pool after the calls of
`Next`; `tried` is the set `tried` of the source -/
def Client.retry : Nat → Nat → List String → Option String → Pool α →
    List (Attempt α) × Except (Option String) Response × Pool α
  | 0, _, _, lastErr, p => ([], .error lastErr, p)
  | n + 1, attempt, tried, lastErr, p =>
    match c.pickEndpointExcluding tried (draw attempt) with
    | .error _ => ([], .error lastErr, p)
    | .ok ep =>
      let a : Attempt α := ⟨ep, p.Next.1, ep.url ++ path, ep.address⟩
      match outcome attempt with
      | .error e =>
        let r := Client.retry n (attempt + 1) (ep.address :: tried) (some e) p.Next.2
        (a :: r.1, r.2)
      | .ok resp => ([a], .ok resp, p.Next.2)

/-- `Do(ctx, method, path, payload)`: the attempts, then the body, the status and the error it
returns (`nil, 0, lastErr` when no attempt got a response), and the pool after -/
def Client.Do (p : Pool α) : List (Attempt α) × (Bytes × Nat × Option String) × Pool α :=
  let r := c.retry path draw outcome 3 0 [] none p
  (r.1, (match r.2.1 with
    | .ok resp => (resp.body, resp.status, resp.readErr)
    | .error e => ([], 0, e)), r.2.2)

/-- `DoStream(ctx, method, path, payload)`: the attempts, then the response and the error it
returns, and the pool after -/
def Client.DoStream (p : Pool α) : List (Attempt α) × (Option Response × Option String) × Pool α :=
  let r := c.retry path draw outcome 3 0 [] none p
  (r.1, (match r.2.1 with
    | .ok resp => (some resp, none)
    | .error e => (none, e)), r.2.2)

/-- the retry protocol by the outcomes alone: the number of attempts, and the first response or,
when every outcome is a transport error, the last of them -/
def replyOrLastError : List (Except String Response) → Option String →
    Nat × Except (Option String) Response
  | [], lastErr => (0, .error lastErr)
  | .ok r :: _, _ => (1, .ok r)
  | .error e :: os, _ => ((replyOrLastError os (some e)).1 + 1, (replyOrLastError os (some e)).2)

/-- attempt `i` got the response `r`, and every attempt before it a transport error -/
def FirstReplyAt (i : Nat) (r : Response) : Prop :=
  (∀ j < i, ∃ e, outcome j = .error e) ∧ outcome i = .ok r

/-! ## the endpoint pick -/

theorem Client.pick_ok (hne : c.endpoints ≠ []) (exclude : List String) (k : Nat) :
    ∃ ep, c.pickEndpointExcluding exclude k = .ok ep := by
  unfold Client.pickEndpointExcluding
  rw [dif_neg (by simpa using hne)]
  dsimp only
  split <;> exact ⟨_, rfl⟩

theorem Client.pick_fresh {exclude : List String} {k : Nat} {ep : Endpoint}
    (h : c.pickEndpointExcluding exclude k = .ok ep) (hfresh : ∃ e ∈ c.endpoints, e.address ∉ exclude) :
    ep.address ∉ exclude := by
  obtain ⟨e, he, hex⟩ := hfresh
  have hmem : e ∈ c.endpoints.filter fun ep => ep.address ∉ exclude := List.mem_filter.mpr ⟨he, by simpa⟩
  unfold Client.pickEndpointExcluding at h
  rw [dif_neg (List.length_pos_of_mem he).ne'] at h
  dsimp only at h
  rw [dif_neg (List.length_pos_of_mem hmem).ne'] at h
  cases h
  exact of_decide_eq_true (List.mem_filter.mp (List.get_mem (c.endpoints.filter fun ep => ep.address ∉ exclude) _ _)).2

/-! ## one attempt after the other -/

theorem Client.retry_attempts : ∀ (n attempt : Nat) (tried : List String) (lastErr : Option String)
    (p : Pool α), ∀ a ∈ (c.retry path draw outcome n attempt tried lastErr p).1,
      a.endpoint ∈ c.endpoints ∧ a.signedFor = a.endpoint.address ∧ a.url = a.endpoint.url ++ path
  | 0, _, _, _, _ => by simp [Client.retry]
  | n + 1, attempt, tried, lastErr, p => by
    unfold Client.retry
    split
    · simp
    · rename_i ep hep
      have hone : ∀ a : Attempt α, a = ⟨ep, p.Next.1, ep.url ++ path, ep.address⟩ →
          a.endpoint ∈ c.endpoints ∧ a.signedFor = a.endpoint.address ∧
            a.url = a.endpoint.url ++ path := by
        rintro a rfl; exact ⟨c.pick_mem _ _ _ hep, rfl, rfl⟩
      split
      · intro a ha
        rcases List.mem_cons.mp ha with rfl | ha
        · exact hone _ rfl
        · exact Client.retry_attempts n _ _ _ _ a ha
      · simpa using hone _ rfl

theorem Client.retry_wallets : ∀ (n attempt : Nat) (tried : List String) (lastErr : Option String)
    (p : Pool α),
    (c.retry path draw outcome n attempt tried lastErr p).1.map (·.wallet) =
        (p.nextN (c.retry path draw outcome n attempt tried lastErr p).1.length).1 ∧
      (c.retry path draw outcome n attempt tried lastErr p).2.2 =
        (p.nextN (c.retry path draw outcome n attempt tried lastErr p).1.length).2
  | 0, _, _, _, _ => ⟨rfl, rfl⟩
  | n + 1, attempt, tried, lastErr, p => by
    unfold Client.retry
    split
    · exact ⟨rfl, rfl⟩
    · rename_i ep _
      split
      · rename_i e _
        obtain ⟨ih1, ih2⟩ := Client.retry_wallets n (attempt + 1) (ep.address :: tried) (some e) p.Next.2
        exact ⟨by simp only [List.map_cons, List.length_cons, Pool.nextN, ih1], by
          simp only [List.length_cons, Pool.nextN, ih2]⟩
      · exact ⟨rfl, rfl⟩

theorem Client.retry_fresh : ∀ (n attempt : Nat) (tried : List String) (lastErr : Option String)
    (p : Pool α) (pre : List (Attempt α)) (a : Attempt α) (post : List (Attempt α)),
    (c.retry path draw outcome n attempt tried lastErr p).1 = pre ++ a :: post →
    (∃ ep ∈ c.endpoints, ep.address ∉ tried ∧ ep.address ∉ pre.map (·.endpoint.address)) →
    a.endpoint.address ∉ tried ∧ a.endpoint.address ∉ pre.map (·.endpoint.address)
  | 0, _, _, _, _, pre, a, post, h, _ => by simp [Client.retry] at h
  | n + 1, attempt, tried, lastErr, p, pre, a, post, h, hfresh => by
    unfold Client.retry at h
    split at h
    · simp at h
    · rename_i ep hep
      have hfirst : pre = [] → a.endpoint = ep := by
        rintro rfl
        split at h <;> simp only [List.nil_append, List.cons.injEq] at h <;> rw [← h.1]
      cases pre with
      | nil =>
        rw [hfirst rfl]
        obtain ⟨e, he, htried, -⟩ := hfresh
        exact ⟨c.pick_fresh hep ⟨e, he, htried⟩, by simp⟩
      | cons b pre =>
        split at h
        · simp only [List.cons_append, List.cons.injEq] at h
          obtain ⟨rfl, h⟩ := h
          have ih := Client.retry_fresh n (attempt + 1) (ep.address :: tried) _ _ pre a post h
            (by simpa [and_assoc, and_comm, and_left_comm] using hfresh)
          simpa [and_assoc, and_comm, and_left_comm] using ih
        · simp only [List.cons_append, List.cons.injEq] at h
          exact absurd h.2.symm (by simp)

theorem Client.retry_refines (hne : c.endpoints ≠ []) : ∀ (n attempt : Nat) (tried : List String)
    (lastErr : Option String) (p : Pool α),
    ((c.retry path draw outcome n attempt tried lastErr p).1.length,
        (c.retry path draw outcome n attempt tried lastErr p).2.1) =
      replyOrLastError ((List.range' attempt n).map outcome) lastErr
  | 0, _, _, _, _ => rfl
  | n + 1, attempt, tried, lastErr, p => by
    obtain ⟨ep, hep⟩ := c.pick_ok hne tried (draw attempt)
    simp only [Client.retry, hep, List.range'_succ, List.map_cons]
    cases outcome attempt with
    | error e =>
      rw [replyOrLastError, ← Client.retry_refines hne n (attempt + 1) (ep.address :: tried) (some e) p.Next.2]
      rfl
    | ok r => rfl

end

/-! ## the outcomes alone -/

theorem replyOrLastError_length_le :
    ∀ (os : List (Except String Response)) (lastErr : Option String),
      (replyOrLastError os lastErr).1 ≤ os.length
  | [], _ => le_rfl
  | .ok _ :: _, _ => by simp [replyOrLastError]
  | .error e :: os, _ => by
    simpa [replyOrLastError] using replyOrLastError_length_le os (some e)

theorem replyOrLastError_first : ∀ (os : List (Except String Response)) (lastErr : Option String)
    (i : Nat) (r : Response), (∀ j < i, ∃ e, os[j]? = some (.error e)) → os[i]? = some (.ok r) →
    replyOrLastError os lastErr = (i + 1, .ok r)
  | [], _, i, r, _, h => by simp at h
  | o :: os, lastErr, 0, r, _, h => by
    simp only [List.getElem?_cons_zero, Option.some.injEq] at h
    subst h; rfl
  | o :: os, lastErr, i + 1, r, herr, h => by
    obtain ⟨e, he⟩ := herr 0 (Nat.succ_pos i)
    simp only [List.getElem?_cons_zero, Option.some.injEq] at he
    subst he
    have ih := replyOrLastError_first os (some e) i r
      (fun j hj => by simpa using herr (j + 1) (by omega)) (by simpa using h)
    simp [replyOrLastError, ih]

section
variable {α : Type} (outcome : Nat → Except String Response)

theorem allFailed_or_firstReply : ∀ n : Nat,
    (∀ i < n, ∃ e, outcome i = .error e) ∨ ∃ i < n, ∃ r, FirstReplyAt outcome i r
  | 0 => .inl fun i hi => absurd hi (Nat.not_lt_zero i)
  | n + 1 => by
    rcases allFailed_or_firstReply n with hall | ⟨i, hi, r, hr⟩
    · cases ho : outcome n with
      | error e =>
        exact .inl fun i hi => (Nat.lt_succ_iff_lt_or_eq.mp hi).elim (hall i) (by rintro rfl; exact ⟨e, ho⟩)
      | ok r => exact .inr ⟨n, Nat.lt_succ_self n, r, hall, ho⟩
    · exact .inr ⟨i, by omega, r, hr⟩

end

/-! ## the protocol -/

section
variable {α : Type} (c : Client) (path : String) (draw : Nat → Nat)
  (outcome : Nat → Except String Response) (p : Pool α)

theorem Client.do_refines (hne : c.endpoints ≠ []) :
    ((c.Do path draw outcome p).1.length, (c.retry path draw outcome 3 0 [] none p).2.1) =
      replyOrLastError [outcome 0, outcome 1, outcome 2] none :=
  c.retry_refines path draw outcome hne 3 0 [] none p

theorem Client.do_firstReply (hne : c.endpoints ≠ []) {i : Nat} {r : Response} (hi : i < 3)
    (h : FirstReplyAt outcome i r) :
    (c.Do path draw outcome p).1.length = i + 1 ∧
      (c.Do path draw outcome p).2.1 = (r.body, r.status, r.readErr) ∧
      (c.DoStream path draw outcome p).2.1 = (some r, none) := by
  have hspec : replyOrLastError [outcome 0, outcome 1, outcome 2] none = (i + 1, .ok r) :=
    replyOrLastError_first _ _ i r
      (fun j hj => by
        obtain ⟨e, he⟩ := h.1 j hj
        obtain rfl | rfl : j = 0 ∨ j = 1 := by omega
        all_goals exact ⟨e, by simpa using he⟩)
      (by obtain rfl | rfl | rfl : i = 0 ∨ i = 1 ∨ i = 2 := by omega
          all_goals simpa using h.2)
  have href := c.do_refines path draw outcome p hne
  rw [hspec, Prod.mk.injEq] at href
  refine ⟨href.1, ?_, ?_⟩ <;> simp only [Client.Do, Client.DoStream, href.2]

theorem Client.do_allFailed (hne : c.endpoints ≠ []) (h : ∀ i < 3, ∃ e, outcome i = .error e) :
    (c.Do path draw outcome p).1.length = 3 ∧ ∃ e, outcome 2 = .error e ∧
      (c.Do path draw outcome p).2.1 = ([], 0, some e) ∧
      (c.DoStream path draw outcome p).2.1 = (none, some e) := by
  obtain ⟨e0, h0⟩ := h 0 (by decide)
  obtain ⟨e1, h1⟩ := h 1 (by decide)
  obtain ⟨e2, h2⟩ := h 2 (by decide)
  have href := c.do_refines path draw outcome p hne
  rw [h0, h1, h2] at href
  simp only [replyOrLastError, Prod.mk.injEq] at href
  refine ⟨href.1, e2, h2, ?_, ?_⟩ <;> simp only [Client.Do, Client.DoStream, href.2]

end

/-- **Retry protocol.**  Over every non-empty endpoint table, every outcome of every attempt and
every draw of `rand.Intn`: `Do` and `DoStream` make the same attempts, at most three; the
attempts take successive wallets of the pool and go to endpoints of the table, each signed for
its endpoint's address; an attempt goes to an untried address whenever one is left; the first
response is returned as it is, whatever its status, and no attempt follows it; three transport
errors end both with the third.  `DoStream` returns an error exactly when all three attempts got
a transport error; `Do` exactly then, or when reading the body of the first response failed. -/
theorem retry_protocol (c : Client) (path : String) (draw : Nat → Nat)
    (outcome : Nat → Except String Response) {α : Type} (p : Pool α) (hne : c.endpoints ≠ []) :
    (c.DoStream path draw outcome p).1 = (c.Do path draw outcome p).1 ∧
    (c.Do path draw outcome p).1.length ≤ 3 ∧
    (c.Do path draw outcome p).1.map (·.wallet) = (p.nextN (c.Do path draw outcome p).1.length).1 ∧
    (c.Do path draw outcome p).2.2 = (p.nextN (c.Do path draw outcome p).1.length).2 ∧
    (∀ a ∈ (c.Do path draw outcome p).1, a.endpoint ∈ c.endpoints ∧
      a.signedFor = a.endpoint.address ∧ a.url = a.endpoint.url ++ path) ∧
    (∀ pre a post, (c.Do path draw outcome p).1 = pre ++ a :: post →
      (∃ ep ∈ c.endpoints, ep.address ∉ pre.map (·.endpoint.address)) →
      a.endpoint.address ∉ pre.map (·.endpoint.address)) ∧
    (∀ i < 3, ∀ r, FirstReplyAt outcome i r →
      (c.Do path draw outcome p).1.length = i + 1 ∧
      (c.Do path draw outcome p).2.1 = (r.body, r.status, r.readErr) ∧
      (c.DoStream path draw outcome p).2.1 = (some r, none)) ∧
    ((∀ i < 3, ∃ e, outcome i = .error e) →
      (c.Do path draw outcome p).1.length = 3 ∧ ∃ e, outcome 2 = .error e ∧
        (c.Do path draw outcome p).2.1 = ([], 0, some e) ∧
        (c.DoStream path draw outcome p).2.1 = (none, some e)) ∧
    ((c.DoStream path draw outcome p).2.1.2.isSome ↔ ∀ i < 3, ∃ e, outcome i = .error e) ∧
    ((c.Do path draw outcome p).2.1.2.2.isSome ↔ (∀ i < 3, ∃ e, outcome i = .error e) ∨
      ∃ i < 3, ∃ r, FirstReplyAt outcome i r ∧ r.readErr.isSome) := by
  have hlen : (c.Do path draw outcome p).1.length ≤ 3 := by
    have h := replyOrLastError_length_le [outcome 0, outcome 1, outcome 2] none
    rwa [← c.do_refines path draw outcome p hne] at h
  have hfirst := fun i (hi : i < 3) r (hr : FirstReplyAt outcome i r) =>
    c.do_firstReply path draw outcome p hne hi hr
  have hall := c.do_allFailed path draw outcome p hne
  refine ⟨rfl, hlen, (c.retry_wallets path draw outcome 3 0 [] none p).1,
    (c.retry_wallets path draw outcome 3 0 [] none p).2, c.retry_attempts path draw outcome 3 0 [] none p,
    fun pre a post h hf => (c.retry_fresh path draw outcome 3 0 [] none p pre a post h (by simpa using hf)).2,
    hfirst, hall, ⟨fun hsome => ?_, fun h => ?_⟩, ⟨fun hsome => ?_, ?_⟩⟩
  · rcases allFailed_or_firstReply outcome 3 with h | ⟨i, hi, r, hr⟩
    · exact h
    · rw [(hfirst i hi r hr).2.2] at hsome; cases hsome
  · obtain ⟨-, e, -, -, hds⟩ := hall h
    rw [hds]; rfl
  · rcases allFailed_or_firstReply outcome 3 with h | ⟨i, hi, r, hr⟩
    · exact .inl h
    · rw [(hfirst i hi r hr).2.1] at hsome
      exact .inr ⟨i, hi, r, hr, hsome⟩
  · rintro (h | ⟨i, hi, r, hr, hread⟩)
    · obtain ⟨-, e, -, hdo, -⟩ := hall h
      rw [hdo]; rfl
    · rw [(hfirst i hi r hr).2.1]; exact hread

/-- spec scenario 6: three endpoints, the first refuses the connection and the second answers
`500`; the `500` is returned after two attempts, the second to another address -/
theorem retry_protocol_refused_then_500 :
    let c : Client := ⟨"https://node", [⟨"https://e1/v1", "e1"⟩, ⟨"https://e2/v1", "e2"⟩,
      ⟨"https://e3/v1", "e3"⟩]⟩
    let outcome : Nat → Except String Response := fun i =>
      if i = 0 then .error "connection refused" else .ok ⟨500, ascii "internal", none⟩
    let p : Pool Nat := ⟨[7, 8], 0, by decide⟩
    c.endpoints ≠ [] ∧
    (c.DoStream "/chat" (fun _ => 0) outcome p).1 = (c.Do "/chat" (fun _ => 0) outcome p).1 ∧
    (c.Do "/chat" (fun _ => 0) outcome p).1.length ≤ 3 ∧
    (c.Do "/chat" (fun _ => 0) outcome p).1.map (·.wallet) =
      (p.nextN (c.Do "/chat" (fun _ => 0) outcome p).1.length).1 ∧
    (c.Do "/chat" (fun _ => 0) outcome p).2.2 = (p.nextN (c.Do "/chat" (fun _ => 0) outcome p).1.length).2 ∧
    (∀ a ∈ (c.Do "/chat" (fun _ => 0) outcome p).1, a.endpoint ∈ c.endpoints ∧
      a.signedFor = a.endpoint.address ∧ a.url = a.endpoint.url ++ "/chat") ∧
    (∀ pre a post, (c.Do "/chat" (fun _ => 0) outcome p).1 = pre ++ a :: post →
      (∃ ep ∈ c.endpoints, ep.address ∉ pre.map (·.endpoint.address)) →
      a.endpoint.address ∉ pre.map (·.endpoint.address)) ∧
    (∀ i < 3, ∀ r, FirstReplyAt outcome i r →
      (c.Do "/chat" (fun _ => 0) outcome p).1.length = i + 1 ∧
      (c.Do "/chat" (fun _ => 0) outcome p).2.1 = (r.body, r.status, r.readErr) ∧
      (c.DoStream "/chat" (fun _ => 0) outcome p).2.1 = (some r, none)) ∧
    ((∀ i < 3, ∃ e, outcome i = .error e) →
      (c.Do "/chat" (fun _ => 0) outcome p).1.length = 3 ∧ ∃ e, outcome 2 = .error e ∧
        (c.Do "/chat" (fun _ => 0) outcome p).2.1 = ([], 0, some e) ∧
        (c.DoStream "/chat" (fun _ => 0) outcome p).2.1 = (none, some e)) ∧
    ((c.DoStream "/chat" (fun _ => 0) outcome p).2.1.2.isSome ↔ ∀ i < 3, ∃ e, outcome i = .error e) ∧
    ((c.Do "/chat" (fun _ => 0) outcome p).2.1.2.2.isSome ↔ (∀ i < 3, ∃ e, outcome i = .error e) ∨
      ∃ i < 3, ∃ r, FirstReplyAt outcome i r ∧ r.readErr.isSome) :=
  ⟨by simp, retry_protocol _ "/chat" (fun _ => 0) _ _ (by simp)⟩

example :
    let c : Client := ⟨"https://node", [⟨"https://e1/v1", "e1"⟩, ⟨"https://e2/v1", "e2"⟩,
      ⟨"https://e3/v1", "e3"⟩]⟩
    let outcome : Nat → Except String Response := fun i =>
      if i = 0 then .error "connection refused" else .ok ⟨500, ascii "internal", none⟩
    ((c.Do "/chat" (fun _ => 0) outcome (⟨[7, 8], 0, by decide⟩ : Pool Nat)).1.map
        (fun a => (a.endpoint.address, a.wallet)),
      (c.Do "/chat" (fun _ => 0) outcome (⟨[7, 8], 0, by decide⟩ : Pool Nat)).2.1) =
    ([("e1", (0, some 7)), ("e2", (1, some 8))], (ascii "internal", 500, none)) := by
  decide

/-- `Do` returns an error after one attempt that got a response, whose body could not be read
in full: its error is not a sign that the three attempts failed -/
theorem do_read_error : ¬ ∀ (c : Client) (path : String) (draw : Nat → Nat)
    (outcome : Nat → Except String Response) (p : Pool Nat), c.endpoints ≠ [] →
    ((c.Do path draw outcome p).2.1.2.2.isSome ↔ ∀ i < 3, ∃ e, outcome i = .error e) := by
  intro h
  have hall := (h ⟨"https://node", [⟨"https://e1/v1", "e1"⟩]⟩ "/chat" (fun _ => 0)
    (fun _ => .ok ⟨200, ascii "\x7b", some "unexpected EOF"⟩) ⟨[7], 0, by decide⟩ (by simp)).mp rfl
  obtain ⟨e, he⟩ := hall 0 (by decide)
  cases he

end GonkaProxy
