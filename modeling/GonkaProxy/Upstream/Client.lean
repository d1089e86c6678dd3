import Mathlib.Data.List.Basic
import Mathlib.Data.String.Basic

/-!
# The upstream client: endpoint discovery and endpoint choice

The endpoint table is the only state of `Client` that changes: `DiscoverEndpoints` writes it,
every request reads it through `pickEndpointExcluding`.  What the discovery request returned is
an input (`DiscoverReply`); `rand.Intn` is an input too (the position it draws).

* `participantEndpoint`            the body of the filter loop of `DiscoverEndpoints`;
* `Client.DiscoverEndpoints`       the error paths, with their texts, and the table update;
* `Client.pickEndpointExcluding`   the candidates outside `exclude`, else any endpoint;
* `Client.discoverAll`             discoveries one after another, on the replies given;
* `EndpointOk p ep`                `ep` is built from the participant `p`: address `p.index` on the
                                   whitelist, URL `TrimRight(p.inference_url, "/") + "/v1"` of a
                                   non-empty `inference_url`;
* `endpoint_table_invariant`       a failed discovery leaves the table alone, a successful one
                                   installs the non-empty filtered list of the participants it
                                   decoded; after any discoveries from `New` every endpoint, and
                                   every pick, is built from a participant of a successful reply.
-/

set_option linter.unusedSectionVars false
set_option linter.unusedVariables false

namespace GonkaProxy

/-- `Endpoint` -/
structure Endpoint where
  url : String
  address : String
  deriving DecidableEq, Repr

/-- `allowedTransferAgents` -/
def allowedTransferAgents : List String :=
  ["gonka1y2a9p56kv044327uycmqdexl7zs82fs5ryv5le",
   "gonka1dkl4mah5erqggvhqkpc8j3qs5tyuetgdy552cp",
   "gonka1kx9mca3xm8u8ypzfuhmxey66u0ufxhs7nm6wc5",
   "gonka1ddswmmmn38esxegjf6qw36mt4aqyw6etvysy5x",
   "gonka10fynmy2npvdvew0vj2288gz8ljfvmjs35lat8n",
   "gonka1v8gk5z7gcv72447yfcd2y8g78qk05yc4f3nk4w",
   "gonka1gndhek2h2y5849wf6tmw6gnw9qn4vysgljed0u"]

/-- one entry of `active_participants.participants` -/
structure Participant where
  index : String
  inferenceURL : String

/-- what the discovery request came back with: `NewRequestWithContext` or `http.Do` failed, or a
response with its status, its body text and what the JSON decoder made of the body -/
inductive DiscoverReply where
  | requestError (err : String)
  | transportError (err : String)
  | response (code : Nat) (body : String) (decoded : Except String (List Participant))

/-- `strings.TrimRight(s, "/")` -/
def trimRightSlash (s : String) : String := ⟨(s.data.reverse.dropWhile (· = '/')).reverse⟩

/-- `Client`: the discovery origin and the endpoint table -/
structure Client where
  sourceURL : String
  endpoints : List Endpoint

/-- `New(sourceURL, pool)`: no endpoints until the first discovery -/
def Client.New (sourceURL : String) : Client := ⟨trimRightSlash sourceURL, []⟩

/-- the loop body of `DiscoverEndpoints`: skip empty fields and addresses off the whitelist -/
def participantEndpoint (p : Participant) : Option Endpoint :=
  if p.inferenceURL = "" ∨ p.index = "" then none
  else if p.index ∉ allowedTransferAgents then none
  else some ⟨trimRightSlash p.inferenceURL ++ "/v1", p.index⟩

/-- `DiscoverEndpoints(ctx)`: its result and the client after it -/
def Client.DiscoverEndpoints (c : Client) : DiscoverReply → Except String Unit × Client
  | .requestError e => (.error ("discover: " ++ e), c)
  | .transportError e => (.error ("discover: " ++ e), c)
  | .response code body decoded =>
    if code ≠ 200 then (.error ("discover: status " ++ toString code ++ ": " ++ body), c)
    else match decoded with
      | .error e => (.error ("discover: decode: " ++ e), c)
      | .ok ps =>
        let eps := ps.filterMap participantEndpoint
        if eps = [] then
          (.error "discover: no whitelisted transfer-agent endpoints found in active participants", c)
        else (.ok (), { c with endpoints := eps })

/-- `pickEndpointExcluding(exclude)`; `k` is the draw of `rand.Intn`, used modulo the number of
choices so that every position in range is reachable and nothing else -/
def Client.pickEndpointExcluding (c : Client) (exclude : List String) (k : Nat) :
    Except String Endpoint :=
  if h : c.endpoints.length = 0 then .error "no endpoints available"
  else
    let candidates := c.endpoints.filter fun ep => ep.address ∉ exclude
    if hc : candidates.length = 0 then
      .ok (c.endpoints.get ⟨k % c.endpoints.length, Nat.mod_lt _ (Nat.pos_of_ne_zero h)⟩)
    else .ok (candidates.get ⟨k % candidates.length, Nat.mod_lt _ (Nat.pos_of_ne_zero hc)⟩)

/-- discoveries one after another, `rs` the replies they get (picks and requests only read the
table) -/
def Client.discoverAll (c : Client) : List DiscoverReply → Client
  | [] => c
  | r :: rs => (c.DiscoverEndpoints r).2.discoverAll rs

/-- `ep` is the endpoint of the participant `p`: `p`'s address, on the whitelist, and the URL
`TrimRight(p.inference_url, "/") + "/v1"` of a non-empty `inference_url` -/
def EndpointOk (p : Participant) (ep : Endpoint) : Prop :=
  p.inferenceURL ≠ "" ∧ p.index ∈ allowedTransferAgents ∧
    ep = ⟨trimRightSlash p.inferenceURL ++ "/v1", p.index⟩

theorem participantEndpoint_ok {p : Participant} {ep : Endpoint}
    (h : participantEndpoint p = some ep) : EndpointOk p ep := by
  unfold participantEndpoint at h
  split at h; · cases h
  split at h; · cases h
  rename_i h1 h2
  cases h
  exact ⟨(not_or.mp h1).1, not_not.mp h2, rfl⟩

theorem Client.discover_spec (c : Client) (r : DiscoverReply) :
    ((∃ e, (c.DiscoverEndpoints r).1 = .error e) ∧ (c.DiscoverEndpoints r).2 = c) ∨
    ((c.DiscoverEndpoints r).1 = .ok () ∧ ∃ body ps, r = .response 200 body (.ok ps) ∧
      (c.DiscoverEndpoints r).2 = { c with endpoints := ps.filterMap participantEndpoint } ∧
      ps.filterMap participantEndpoint ≠ []) := by
  cases r with
  | requestError e => exact .inl ⟨⟨_, rfl⟩, rfl⟩
  | transportError e => exact .inl ⟨⟨_, rfl⟩, rfl⟩
  | response code body decoded =>
    by_cases hc : code ≠ 200
    · exact .inl ⟨⟨"discover: status " ++ toString code ++ ": " ++ body,
        by simp [Client.DiscoverEndpoints, hc]⟩, by simp [Client.DiscoverEndpoints, hc]⟩
    obtain rfl : code = 200 := not_not.mp hc
    cases decoded with
    | error e =>
      exact .inl ⟨⟨"discover: decode: " ++ e, by simp [Client.DiscoverEndpoints]⟩,
        by simp [Client.DiscoverEndpoints]⟩
    | ok ps =>
      by_cases hne : ps.filterMap participantEndpoint = []
      · exact .inl ⟨⟨"discover: no whitelisted transfer-agent endpoints found in active participants",
          by simp [Client.DiscoverEndpoints, hne]⟩, by simp [Client.DiscoverEndpoints, hne]⟩
      · exact .inr ⟨by simp [Client.DiscoverEndpoints, hne], body, ps, rfl,
          by simp [Client.DiscoverEndpoints, hne], hne⟩

/-- **Run lemma**: after any discoveries, an endpoint of the table was there before, or is built
from a participant of a successful reply -/
theorem Client.discoverAll_endpoints : ∀ (c : Client) (rs : List DiscoverReply),
    ∀ ep ∈ (c.discoverAll rs).endpoints, ep ∈ c.endpoints ∨
      ∃ body ps, DiscoverReply.response 200 body (.ok ps) ∈ rs ∧ ∃ p ∈ ps, EndpointOk p ep
  | c, [], ep, h => .inl h
  | c, r :: rs, ep, h => by
    rcases Client.discoverAll_endpoints _ rs ep h with h | ⟨body, ps, hr, hp⟩
    · rcases Client.discover_spec c r with ⟨-, he⟩ | ⟨-, body, ps, rfl, he, -⟩ <;> rw [he] at h
      · exact .inl h
      · obtain ⟨p, hp, hpe⟩ := List.mem_filterMap.mp h
        exact .inr ⟨body, ps, List.mem_cons_self _ _, p, hp, participantEndpoint_ok hpe⟩
    · exact .inr ⟨body, ps, List.mem_cons_of_mem _ hr, hp⟩

theorem Client.pick_mem (c : Client) (exclude : List String) (k : Nat) (ep : Endpoint)
    (h : c.pickEndpointExcluding exclude k = .ok ep) : ep ∈ c.endpoints := by
  unfold Client.pickEndpointExcluding at h
  split at h; · cases h
  dsimp only at h
  split at h
  · cases h; exact List.get_mem _ _ _
  · cases h; exact (List.mem_filter.mp (List.get_mem _ _ _)).1

/-- **Endpoint table invariant.**  A discovery that fails leaves the client unchanged; one that
succeeds got a `200` reply whose body decoded to participants, and installs exactly their
non-empty filtered list.  After any sequence of discoveries from `New`, every endpoint of the
table, and so every endpoint `pickEndpointExcluding` returns, is built from a participant of a
successful reply: the participant's whitelisted address, and its non-empty `inference_url` with
the trailing slashes removed, followed by `/v1`. -/
theorem endpoint_table_invariant :
    (∀ (c : Client) (r : DiscoverReply), (∃ e, (c.DiscoverEndpoints r).1 = .error e) →
      (c.DiscoverEndpoints r).2 = c) ∧
    (∀ (c : Client) (r : DiscoverReply), (c.DiscoverEndpoints r).1 = .ok () →
      ∃ body ps, r = .response 200 body (.ok ps) ∧
        (c.DiscoverEndpoints r).2 = { c with endpoints := ps.filterMap participantEndpoint } ∧
        ps.filterMap participantEndpoint ≠ []) ∧
    (∀ (u : String) (rs : List DiscoverReply), ∀ ep ∈ ((Client.New u).discoverAll rs).endpoints,
      ∃ body ps, DiscoverReply.response 200 body (.ok ps) ∈ rs ∧ ∃ p ∈ ps, EndpointOk p ep) ∧
    (∀ (u : String) (rs : List DiscoverReply) exclude k ep,
      ((Client.New u).discoverAll rs).pickEndpointExcluding exclude k = .ok ep →
      ep ∈ ((Client.New u).discoverAll rs).endpoints ∧
        ∃ body ps, DiscoverReply.response 200 body (.ok ps) ∈ rs ∧ ∃ p ∈ ps, EndpointOk p ep) := by
  have hrun : ∀ (u : String) (rs : List DiscoverReply), ∀ ep ∈ ((Client.New u).discoverAll rs).endpoints,
      ∃ body ps, DiscoverReply.response 200 body (.ok ps) ∈ rs ∧ ∃ p ∈ ps, EndpointOk p ep :=
    fun u rs ep h => (Client.discoverAll_endpoints _ rs ep h).resolve_left (List.not_mem_nil ep)
  refine ⟨fun c r ⟨e, he⟩ => ?_, fun c r hok => ?_, hrun, fun u rs exclude k ep hp =>
    ⟨Client.pick_mem _ exclude k ep hp, hrun u rs ep (Client.pick_mem _ _ _ _ hp)⟩⟩
  · rcases Client.discover_spec c r with ⟨-, h⟩ | ⟨h, -⟩
    · exact h
    · rw [h] at he; cases he
  · rcases Client.discover_spec c r with ⟨⟨e, h⟩, -⟩ | ⟨-, h⟩
    · rw [h] at hok; cases hok
    · exact h

end GonkaProxy
