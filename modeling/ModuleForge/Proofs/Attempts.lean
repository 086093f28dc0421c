import ModuleForge.Package.Fetch

/-!
# What requests come to

Work on a session may fail, but what the session remembers outlives the failure. Requests are added
to it and leave the cache alone; a request may be made again while its subject is being built. Work
that has read something from the network has made at least one request, and the last of its requests
got the answer that encodes what was read.

- `Fetch.Moves`: how work changes the session, whether it fails or not.
- `Fetch.attempt_of_building`, `Fetch.attempt_of_final`: one attempt.
- `Fetch.request_answered`: what a request has read is what its last answer encodes.
-/

namespace ModuleForge

open Network (Request Response Reply)

/-- The text that a reply gives for what went wrong. -/
def Network.Reply.message : Reply → String
  | .response answer => answer.errorMessage
  | .unreachable text => text

namespace Fetch

variable {α β : Type} {s s' : Session}

/-! ## Work and what it leaves -/

/-- The session that work leaves, whether it failed or not. -/
def after (m : Fetch α) (s : Session) : Session :=
  match m s with
  | .ok _ s' => s'
  | .error _ s' => s'

/-- Whatever the work does, the session it leaves is related to the one it started with. -/
def Moves (R : Session → Session → Prop) (m : Fetch α) : Prop :=
  ∀ s, R s (after m s)

/-- The cache is as it was, and so is the count of downloads. -/
def SameCache (s s' : Session) : Prop :=
  s'.cache = s.cache ∧ s'.downloads = s.downloads

/-- Requests were made, and nothing was put into the cache. -/
structure Asked (s s' : Session) : Prop where
  cache : SameCache s s'
  requests : s.requests.length ≤ s'.requests.length

/-- At least one request was made, and nothing was put into the cache. -/
structure Sent (s s' : Session) : Prop where
  cache : SameCache s s'
  requests : s.requests.length < s'.requests.length

theorem Asked.refl (s : Session) : Asked s s :=
  ⟨⟨rfl, rfl⟩, Nat.le_refl _⟩

theorem SameCache.trans {s'' : Session} (h : SameCache s s') (h' : SameCache s' s'') :
    SameCache s s'' :=
  ⟨h'.1.trans h.1, h'.2.trans h.2⟩

theorem Asked.trans {s'' : Session} (h : Asked s s') (h' : Asked s' s'') : Asked s s'' :=
  ⟨h.cache.trans h'.cache, Nat.le_trans h.requests h'.requests⟩

instance : Trans SameCache SameCache SameCache := ⟨SameCache.trans⟩

instance : Trans Asked Asked Asked := ⟨Asked.trans⟩

theorem Sent.asked (h : Sent s s') : Asked s s' :=
  ⟨h.cache, Nat.le_of_lt h.requests⟩

theorem bind_apply (m : Fetch α) (k : α → Fetch β) (s : Session) :
    (m >>= k) s = match m s with
      | .ok a s' => k a s'
      | .error e s' => .error e s' := by
  show EStateM.bind m k s = _
  unfold EStateM.bind
  cases m s <;> rfl

theorem exists_of_bind_ok {m : Fetch α} {k : α → Fetch β} {b : β} (h : (m >>= k) s = .ok b s') :
    ∃ a s₁, m s = .ok a s₁ ∧ k a s₁ = .ok b s' := by
  rw [bind_apply] at h
  cases hm : m s with
  | error e s₁ => simp [hm] at h
  | ok a s₁ =>
    rw [hm] at h
    exact ⟨a, s₁, rfl, h⟩

theorem after_eq_of_ok {m : Fetch α} {a : α} (h : m s = .ok a s') : after m s = s' := by
  simp only [after, h]

theorem after_eq_of_error {m : Fetch α} {e : Error} (h : m s = .error e s') : after m s = s' := by
  simp only [after, h]

/-- If the first part fails, the second one does not start. -/
theorem Moves.bind_of {R R' : Session → Session → Prop}
    (htrans : ∀ s s' s'', R s s' → R' s' s'' → R s s'') {m : Fetch α} {k : α → Fetch β}
    (hm : Moves R m) (hk : ∀ a, Moves R' (k a)) : Moves R (m >>= k) := by
  intro s
  have h := hm s
  cases hs : m s with
  | ok a s' =>
    rw [after_eq_of_ok hs] at h
    have h' := hk a s'
    simp only [after, bind_apply, hs] at h' ⊢
    exact htrans s s' _ h h'
  | error e s' =>
    rw [after_eq_of_error hs] at h
    simpa only [after, bind_apply, hs] using h

theorem Moves.bind {R : Session → Session → Prop} [Trans R R R] {m : Fetch α} {k : α → Fetch β}
    (hm : Moves R m) (hk : ∀ a, Moves R (k a)) : Moves R (m >>= k) :=
  Moves.bind_of (fun s s' s'' (h : R s s') (h' : R s' s'') => (Trans.trans h h' : R s s'')) hm hk

theorem Moves.sent_bind {m : Fetch α} {k : α → Fetch β} (hm : Moves Sent m)
    (hk : ∀ a, Moves Asked (k a)) : Moves Sent (m >>= k) :=
  Moves.bind_of (fun _ _ _ h h' =>
    ⟨h.cache.trans h'.cache, Nat.lt_of_lt_of_le h.requests h'.requests⟩) hm hk

/-! ## The network -/

theorem moves_pure (a : α) : Moves Asked (pure a : Fetch α) :=
  Asked.refl

theorem moves_throw (e : Error) : Moves Asked (throw e : Fetch α) :=
  Asked.refl

theorem moves_report (phase : Phase) : Moves Asked (report phase) :=
  fun _ => ⟨⟨rfl, rfl⟩, Nat.le_refl _⟩

theorem moves_wait (milliseconds : Nat) : Moves Asked (wait milliseconds) :=
  fun _ => ⟨⟨rfl, rfl⟩, Nat.le_refl _⟩

theorem moves_send (net : Network) (r : Network.Request) : Moves Sent (send net r) := by
  intro s
  refine ⟨⟨rfl, rfl⟩, ?_⟩
  simp [after, send]

theorem moves_respond (net : Network) (r : Network.Request) : Moves Asked (respond net r) := by
  refine fun s => Sent.asked (Moves.sent_bind (moves_send net r) (fun reply => ?_) s)
  cases reply with
  | response response => exact moves_pure response
  | unreachable message => exact moves_throw _

theorem moves_decodeBody (decode : Json → Option α) (url : String) (response : Network.Response) :
    Moves Asked (decodeBody decode url response) := by
  unfold decodeBody
  split
  · exact moves_pure _
  · exact moves_throw _

/-- However often a request is repeated, nothing is put into the cache. -/
theorem moves_attempt (net : Network) (policy : Policy) (decode : Json → Option α)
    (r : Network.Request) (left : Nat) (last : String) :
    Moves Asked (attempt net policy decode r left last) := by
  induction left generalizing last with
  | zero => exact moves_throw _
  | succ left ih =>
    refine Moves.bind (moves_respond net r) fun response => ?_
    split
    · exact moves_decodeBody decode r.url response
    split
    · exact moves_throw _
    split
    · exact Moves.bind (moves_wait _) fun _ => ih _
    · exact ih _

theorem moves_request (net : Network) (policy : Policy) (decode : Json → Option α)
    (r : Network.Request) : Moves Asked (request net policy decode r) :=
  moves_attempt net policy decode r policy.maxAttempts ""

/-! ## One attempt -/

/-- The reply means "not ready yet". A success never does, whatever the policy lists. -/
def Policy.awaits (policy : Policy) : Reply → Bool
  | .response response => !response.isSuccess && policy.isBuilding response.status
  | .unreachable _ => false

/-- What a reply means that ends the attempts. -/
def verdict (decode : Json → Option α) (url : String) : Reply → Except Error α
  | .response response =>
    if response.isSuccess then
      match response.decodeBody decode with
      | some a => .ok a
      | none => .error (.decode url)
    else .error (.hard response.status response.errorMessage)
  | .unreachable message => .error (.transport url message)

/-- The end of some work. -/
def ended (s : Session) : Except Error α → EStateM.Result Error Session α
  | .ok a => .ok a s
  | .error e => .error e s

section

variable {net : Network} {policy : Policy} {decode : Json → Option α} {r : Request} {s : Session}

/-- The session behind a request. -/
def sent (r : Request) (s : Session) : Session := { s with requests := s.requests ++ [r] }

theorem respond_of_response {response : Response} (h : net s.requests r = .response response) :
    respond net r s = .ok response (sent r s) := by
  rw [respond, bind_apply]
  simp only [send, h]
  rfl

theorem respond_of_unreachable {message : String}
    (h : net s.requests r = .unreachable message) :
    respond net r s = .error (.transport r.url message) (sent r s) := by
  rw [respond, bind_apply]
  simp only [send, h]
  rfl

/-- Behind a reply that means "not ready yet" there is a wait, unless no attempt is left. -/
theorem attempt_of_building {left : Nat} {last : String}
    (h : policy.awaits (net s.requests r) = true) :
    attempt net policy decode r (left + 1) last s =
      attempt net policy decode r left (net s.requests r).message
        (if 0 < left then { sent r s with waited := s.waited + policy.delay } else sent r s) := by
  cases hreply : net s.requests r with
  | unreachable message => simp [hreply, Policy.awaits] at h
  | response response =>
    simp only [hreply, Policy.awaits, Bool.and_eq_true, Bool.not_eq_true'] at h
    rw [attempt, bind_apply, respond_of_response hreply]
    simp only [h.1, h.2, Bool.not_true, Bool.false_eq_true, if_false]
    by_cases hleft : 0 < left
    · simp only [hleft, if_true]
      rfl
    · simp only [hleft, if_false]
      rfl

/-- Any other reply decides. -/
theorem attempt_of_final {left : Nat} {last : String}
    (h : policy.awaits (net s.requests r) = false) :
    attempt net policy decode r (left + 1) last s =
      ended (sent r s) (verdict decode r.url (net s.requests r)) := by
  cases hreply : net s.requests r with
  | unreachable message =>
    rw [attempt, bind_apply, respond_of_unreachable hreply]
    rfl
  | response response =>
    rw [attempt, bind_apply, respond_of_response hreply]
    simp only [verdict, decodeBody]
    cases hsuccess : response.isSuccess with
    | true =>
      simp only [if_true]
      cases response.decodeBody decode <;> rfl
    | false =>
      have hfinal : policy.isBuilding response.status = false := by
        simpa [hreply, Policy.awaits, hsuccess] using h
      simp only [hfinal, Bool.not_false, Bool.false_eq_true, if_false, if_true]
      rfl

end

/-! ## What was read -/

/-- The last of the requests `after` was `r`, which was made behind the requests `before`, and the
body of its answer encodes `a`. -/
def Answered (net : Network) (decode : Json → Option α) (r : Request) (a : α)
    (before after : List Request) : Prop :=
  ∃ between response, after = before ++ between ++ [r] ∧
    net (before ++ between) r = .response response ∧ response.isSuccess = true ∧
    response.decodeBody decode = some a

section

variable {net : Network} {decode : Json → Option α} {r : Request} {a : α} {s s' : Session}

theorem Answered.of_append {before more after : List Request}
    (h : Answered net decode r a (before ++ more) after) : Answered net decode r a before after := by
  obtain ⟨between, response, hafter, hreply, hsuccess, hbody⟩ := h
  rw [List.append_assoc before] at hafter hreply
  exact ⟨more ++ between, response, hafter, hreply, hsuccess, hbody⟩

theorem answered_sent {response : Response} (hreply : net s.requests r = .response response)
    (hsuccess : response.isSuccess = true) (hbody : response.decodeBody decode = some a) :
    Answered net decode r a s.requests (sent r s).requests := by
  refine ⟨[], response, ?_, ?_, hsuccess, hbody⟩
  · rw [List.append_nil]
    rfl
  · rwa [List.append_nil]

theorem answered_of_verdict {url : String} (h : verdict decode url (net s.requests r) = .ok a) :
    Answered net decode r a s.requests (sent r s).requests := by
  cases hreply : net s.requests r with
  | unreachable message => simp [verdict, hreply] at h
  | response response =>
    simp only [verdict, hreply] at h
    split at h
    · rename_i hsuccess
      split at h
      · rename_i hbody
        cases h
        exact answered_sent hreply hsuccess hbody
      · cases h
    · cases h

theorem attempt_answered {policy : Policy} {left : Nat} {last : String}
    (h : attempt net policy decode r left last s = .ok a s') :
    Answered net decode r a s.requests s'.requests := by
  induction left generalizing last s with
  | zero => cases h
  | succ left ih =>
    cases hreply : policy.awaits (net s.requests r) with
    | true =>
      rw [attempt_of_building hreply] at h
      have hlater := ih h
      rw [apply_ite Session.requests, ite_self] at hlater
      exact hlater.of_append
    | false =>
      rw [attempt_of_final hreply] at h
      cases hverdict : verdict decode r.url (net s.requests r) with
      | error e => simp [hverdict, ended] at h
      | ok b =>
        rw [hverdict] at h
        cases h
        exact answered_of_verdict hverdict

/-- **What a request has read is what its last answer encodes.** -/
theorem request_answered {policy : Policy} (h : request net policy decode r s = .ok a s') :
    Answered net decode r a s.requests s'.requests :=
  attempt_answered h

end

end Fetch

end ModuleForge
