import Veduta.Connections.Build

/-!
# The Docker surface

Package `connections`: `DockerGET` compares its path with four paths of the Engine API.  The client
that then sends the request has no redirect policy, so that an answer of the endpoint can choose
what is requested next, and of whom.
-/

namespace Veduta.Connections

open Go

def dockerPaths : List Bytes :=
  [ascii "/containers/json", ascii "/_ping", ascii "/version", ascii "/info"]

structure Sent where
  method : Bytes
  url : URL

/-- What the endpoint answers: a redirect to a URL, or anything else. -/
inductive Answer where
  | redirect (location : URL)
  | final

/-- `http.Client.Do` without a redirect policy, with the number of redirects that it still follows:
a GET is redirected to a GET. -/
def follow : ℕ → Sent → List Answer → List Sent
  | n + 1, req, .redirect location :: answers =>
    req :: follow n { req with url := location } answers
  | _, req, _ => [req]

inductive DockerError where
  | path
  | notDocker
  | unknownConnection

section

variable (parseAuthority : AuthorityParser)

def allowedDockerPath (raw : Bytes) : Bool :=
  match URL.parseReference parseAuthority raw with
  | .error _ => false
  | .ok u =>
    if u.scheme ≠ [] ∨ u.host ≠ [] ∨ contains u.path (ascii "..") = true then false
    else dockerPaths.contains u.path

/-- What `get` sends, given what it is answered. -/
def DockerClient.get (c : DockerClient) (path : Bytes) (answers : List Answer) :
    Except DockerError (List Sent) :=
  if !allowedDockerPath parseAuthority path then .error .path
  else
    match URL.parseReference parseAuthority path with
    | .error _ => .error .path
    | .ok target =>
      let u := { c.base with path := target.path, rawQuery := target.rawQuery }
      .ok (follow 9 ⟨ascii "GET", u⟩ answers)

def Registry.dockerGET (r : Registry) (id path : Bytes) (answers : List Answer) :
    Except DockerError (List Sent) :=
  match r.docker.lookup id with
  | some client => client.get parseAuthority path answers
  | none =>
    if (r.connections.lookup id).isSome then .error .notDocker else .error .unknownConnection

end

/-- A GET to the configured endpoint, for one of the four paths.  A client with a socket dials that
socket, whatever the URL. -/
def DockerClient.Confined (c : DockerClient) (req : Sent) : Prop :=
  req.method = ascii "GET" ∧
    (c.socket = none → req.url.scheme = c.base.scheme ∧ req.url.host = c.base.host) ∧
    req.url.path ∈ dockerPaths

/-- Where the redirects lead that come before any other answer. -/
def locations : List Answer → List URL
  | .redirect location :: answers => location :: locations answers
  | _ => []

theorem follow_eq (n : ℕ) (req : Sent) (answers : List Answer) :
    follow n req answers = req :: ((locations answers).take n).map ({ req with url := · }) := by
  induction n generalizing req answers with
  | zero => simp [follow]
  | succ n ih =>
    cases answers with
    | nil => rfl
    | cons a answers =>
      cases a with
      | final => rfl
      | redirect location => simp [follow, locations, ih]

/-- What is sent for an allowed path: a confined request, and then what the redirects say. -/
theorem exists_get_of_allowed
    {parseAuthority : AuthorityParser} {path : Bytes}
    (h : allowedDockerPath parseAuthority path = true) (c : DockerClient) (answers : List Answer) :
    ∃ req, c.Confined req ∧ c.get parseAuthority path answers = .ok (req ::
      ((locations answers).take 9).map (Sent.mk (ascii "GET"))) := by
  have hallowed := h
  rw [allowedDockerPath] at h
  split at h
  · cases h
  · rename_i u hu
    split_ifs at h
    refine ⟨⟨ascii "GET", { c.base with path := u.path, rawQuery := u.rawQuery }⟩,
      ⟨rfl, fun _ => ⟨rfl, rfl⟩, List.contains_iff_mem.mp h⟩, ?_⟩
    simp only [DockerClient.get, hallowed, Bool.not_true, Bool.false_eq_true, if_false, hu, follow_eq]

/-- **The Docker surface is as wide as the redirects**: what a client sends is confined to the
endpoint and its four paths if and only if the redirects that it follows lead there. -/
theorem dockerGET_confined_iff (r : Registry)
    (parseAuthority : AuthorityParser) (id path : Bytes)
    (answers : List Answer) :
    (∀ c sent, r.docker.lookup id = some c →
        r.dockerGET parseAuthority id path answers = .ok sent → ∀ req ∈ sent, c.Confined req) ↔
      ∀ c, r.docker.lookup id = some c → allowedDockerPath parseAuthority path = true →
        ∀ location ∈ (locations answers).take 9, c.Confined ⟨ascii "GET", location⟩ := by
  refine ⟨fun h c hc hallowed location hlocation => ?_, fun h c sent hc hsent => ?_⟩
  · obtain ⟨req, -, hget⟩ := exists_get_of_allowed hallowed c answers
    refine h c _ hc (by rw [Registry.dockerGET, hc]; exact hget) _ (List.mem_cons_of_mem _ ?_)
    exact List.mem_map_of_mem hlocation
  · rw [Registry.dockerGET, hc] at hsent
    dsimp only at hsent
    by_cases hallowed : allowedDockerPath parseAuthority path = true
    · obtain ⟨req, hreq, hget⟩ := exists_get_of_allowed hallowed c answers
      cases hget.symm.trans hsent
      refine List.forall_mem_cons.mpr ⟨hreq, List.forall_mem_map.mpr ?_⟩
      exact h c hc hallowed
    · simp [DockerClient.get, hallowed] at hsent

/-- The endpoint redirects the request for its version to the log of a container. -/
theorem dockerGET_redirected :
    let c : DockerClient := ⟨{ scheme := ascii "http", host := ascii "docker" },
      some (ascii "/var/run/docker.sock"), 0⟩
    let url : URL := { c.base with path := ascii "/containers/db/logs" }
    ∃ sent, c.get (fun _ => .error .authority) (ascii "/version") [.redirect url, .final] =
      .ok sent ∧ ⟨ascii "GET", url⟩ ∈ sent ∧ ¬ c.Confined ⟨ascii "GET", url⟩ := by
  intro c url
  have hallowed : allowedDockerPath (fun _ => .error .authority) (ascii "/version") = true := by
    decide +kernel
  obtain ⟨req, -, hget⟩ := exists_get_of_allowed hallowed c [.redirect url, .final]
  exact ⟨_, hget, by simp [locations], fun hconfined => absurd hconfined.2.2 (by decide)⟩

end Veduta.Connections
