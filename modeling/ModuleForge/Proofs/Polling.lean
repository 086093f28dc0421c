import ModuleForge.Proofs.Attempts

/-!
# How often a request is repeated

A request is sent again as long as the answer is that its subject is still being built, up to a
limit. The first answer that says something else decides what comes of it. One who sends the request
`n` times has waited between the attempts only, so not behind the last one.

- `Fetch.attempt_building`: attempts that all have to be repeated.
- `Fetch.request_decided`, `Fetch.request_exhausted`: what comes of a request.
-/

namespace ModuleForge

open Network (Request Response Reply)

namespace Network

/-- Sent again and again, the request gets these replies, the first one at position 1; `before` are
the requests that were sent earlier. -/
def Plays (net : Network) (before : List Request) (r : Request) (replies : Nat → Reply) : Prop :=
  ∀ n, net (before ++ List.replicate n r) r = replies (n + 1)

end Network

namespace Fetch

variable {α : Type}

/-- Position `k`, counted from 1, has the first reply that does not mean "not ready yet". -/
structure Policy.FirstFinal (policy : Policy) (replies : Nat → Reply) (k : Nat) : Prop where
  pos : 1 ≤ k
  final : policy.awaits (replies k) = false
  building : ∀ i, 1 ≤ i → i < k → policy.awaits (replies i) = true

/-- The session behind so many calls and waits. -/
def Policy.polled (policy : Policy) (r : Request) (calls waits : Nat) (s : Session) : Session :=
  { s with
    requests := s.requests ++ List.replicate calls r
    waited := s.waited + waits * policy.delay }

/-- The error that is known behind so many replies. -/
def lastMessage (replies : Nat → Reply) : Nat → String
  | 0 => ""
  | n + 1 => (replies (n + 1)).message

section

variable {net : Network} {policy : Policy} {decode : Json → Option α} {r : Request} {s : Session}
  {replies : Nat → Reply}

/-! ## All attempts -/

theorem polled_zero (policy : Policy) (r : Request) (s : Session) : policy.polled r 0 0 s = s := by
  simp [Policy.polled]

theorem sent_polled (policy : Policy) (r : Request) (calls waits : Nat) (s : Session) :
    sent r (policy.polled r calls waits s) = policy.polled r (calls + 1) waits s := by
  simp [sent, Policy.polled, List.replicate_succ']

theorem waited_sent_polled (policy : Policy) (r : Request) (calls waits : Nat) (s : Session) :
    { sent r (policy.polled r calls waits s) with
      waited := (policy.polled r calls waits s).waited + policy.delay } =
      policy.polled r (calls + 1) (waits + 1) s := by
  rw [sent_polled]
  simp [Policy.polled, Nat.succ_mul, Nat.add_assoc]

theorem attempt_building (hplays : net.Plays s.requests r replies) {n left : Nat} (hleft : n < left)
    (h : ∀ i, 1 ≤ i → i ≤ n → policy.awaits (replies i) = true) :
    attempt net policy decode r left "" s =
      attempt net policy decode r (left - n) (lastMessage replies n) (policy.polled r n n s) := by
  induction n with
  | zero => rw [polled_zero]; rfl
  | succ n ih =>
    rw [ih (Nat.lt_of_succ_lt hleft) fun i hpos hle => h i hpos (Nat.le_succ_of_le hle)]
    have hreply : net (policy.polled r n n s).requests r = replies (n + 1) := hplays n
    have hbuilding : policy.awaits (net (policy.polled r n n s).requests r) = true :=
      hreply ▸ h (n + 1) (Nat.le_add_left 1 n) (Nat.le_refl _)
    rw [show left - n = left - (n + 1) + 1 by omega, attempt_of_building hbuilding,
      if_pos (Nat.sub_pos_of_lt hleft), waited_sent_polled, hreply]
    rfl

/-- **The first final reply decides**, at once. -/
theorem request_decided (hplays : net.Plays s.requests r replies) {k : Nat}
    (hk : policy.FirstFinal replies k) (hle : k ≤ policy.maxAttempts) :
    request net policy decode r s =
      ended (policy.polled r k (k - 1) s) (verdict decode r.url (replies k)) := by
  obtain ⟨n, rfl⟩ := Nat.exists_eq_add_of_le' hk.pos
  rw [Nat.add_sub_cancel, request, attempt_building hplays hle fun i hpos hi =>
    hk.building i hpos (Nat.lt_succ_of_le hi)]
  have hreply : net (policy.polled r n n s).requests r = replies (n + 1) := hplays n
  rw [show policy.maxAttempts - n = policy.maxAttempts - (n + 1) + 1 by omega,
    attempt_of_final (hreply ▸ hk.final), sent_polled, hreply]

theorem request_exhausted (hplays : net.Plays s.requests r replies)
    (h : ∀ i, 1 ≤ i → i ≤ policy.maxAttempts → policy.awaits (replies i) = true) :
    request net policy decode r s =
      .error (.exhausted policy.maxAttempts (lastMessage replies policy.maxAttempts))
        (policy.polled r policy.maxAttempts (policy.maxAttempts - 1) s) := by
  rw [request]
  cases hmax : policy.maxAttempts with
  | zero =>
    rw [polled_zero, attempt, hmax]
    rfl
  | succ n =>
    rw [hmax] at h
    rw [attempt_building hplays (Nat.lt_succ_self n)
      fun i hpos hi => h i hpos (Nat.le_succ_of_le hi)]
    have hreply : net (policy.polled r n n s).requests r = replies (n + 1) := hplays n
    have hbuilding : policy.awaits (net (policy.polled r n n s).requests r) = true :=
      hreply ▸ h (n + 1) (Nat.le_add_left 1 n) (Nat.le_refl _)
    rw [show n + 1 - n = 0 + 1 by omega, attempt_of_building hbuilding, if_neg (Nat.lt_irrefl 0),
      sent_polled, attempt, hmax, hreply]
    rfl

/-- Unless there is a first final reply up to some position, all replies up to there mean "not ready
yet". -/
theorem awaits_of_forall_firstFinal_lt {limit : Nat}
    (h : ∀ k, policy.FirstFinal replies k → limit < k) :
    ∀ i, 1 ≤ i → i ≤ limit → policy.awaits (replies i) = true := by
  intro i
  induction i using Nat.strongRecOn with
  | ind i ih =>
    intro hpos hle
    cases hfinal : policy.awaits (replies i) with
    | true => rfl
    | false =>
      refine absurd (h i ⟨hpos, hfinal, fun j hj hlt => ?_⟩) (Nat.not_lt.2 hle)
      exact ih j hlt hj (Nat.le_trans (Nat.le_of_lt hlt) hle)

/-- **Requests are repeated as often as they have to be, and no more.** If the first final reply
comes in time, then the calls end with it, there is a wait before each call but the first, and this
reply alone decides. Otherwise all attempts are made, with a wait before each but the first, and the
last error is reported. -/
theorem request_bounded (net : Network) (policy : Policy) (decode : Json → Option α) (r : Request)
    (s : Session) (replies : Nat → Reply) (hplays : net.Plays s.requests r replies) :
    (∀ k, policy.FirstFinal replies k → k ≤ policy.maxAttempts →
      request net policy decode r s =
        ended (policy.polled r k (k - 1) s) (verdict decode r.url (replies k))) ∧
    ((∀ k, policy.FirstFinal replies k → policy.maxAttempts < k) →
      request net policy decode r s =
        .error (.exhausted policy.maxAttempts (lastMessage replies policy.maxAttempts))
          (policy.polled r policy.maxAttempts (policy.maxAttempts - 1) s)) :=
  ⟨fun _ hk hle => request_decided hplays hk hle,
    fun h => request_exhausted hplays (awaits_of_forall_firstFinal_lt h)⟩

end

/-- A builder that is at work for two requests, and then answers with a status that is listed as
"not ready yet" as well. -/
def slowReplies (n : Nat) : Reply :=
  if n ≤ 2 then .response { status := 403, body := "\x7b\"error\":\"busy\"\x7d" }
  else .response { status := 200, body := "\"done\"" }

def slowBuilder : Network := fun before _ => slowReplies (before.length + 1)

def impatientPolicy (maxAttempts : Nat) : Policy :=
  { maxAttempts, delay := 5, building := [200, 403] }

theorem request_bounded_slowBuilder :
    slowBuilder.Plays [] ⟨.post, "/build"⟩ slowReplies ∧
      (impatientPolicy 3).FirstFinal slowReplies 3 ∧
      request slowBuilder (impatientPolicy 3) Json.decodeString ⟨.post, "/build"⟩ {} =
        .ok "done" { requests := List.replicate 3 ⟨.post, "/build"⟩, waited := 10 } ∧
      request slowBuilder (impatientPolicy 2) Json.decodeString ⟨.post, "/build"⟩ {} =
        .error (.exhausted 2 "busy")
          { requests := List.replicate 2 ⟨.post, "/build"⟩, waited := 5 } := by
  have hplays : slowBuilder.Plays [] ⟨.post, "/build"⟩ slowReplies := by
    intro n
    simp [slowBuilder]
  have hbuilding (limit i : Nat) (hle : i ≤ 2) :
      (impatientPolicy limit).awaits (slowReplies i) = true := by
    rw [slowReplies, if_pos hle]
    rfl
  have hfirst : (impatientPolicy 3).FirstFinal slowReplies 3 :=
    ⟨by decide, by rfl, fun i _ hlt => hbuilding 3 i (Nat.le_of_lt_succ hlt)⟩
  refine ⟨hplays, hfirst, ?_, ?_⟩
  · have hbody : ({ status := 200, body := "\"done\"" } : Response).decodeBody Json.decodeString =
        some "done" := by
      decide +kernel
    have hverdict : verdict Json.decodeString "/build" (slowReplies 3) = .ok "done" := by
      rw [slowReplies, if_neg (by decide), verdict, if_pos (by decide), hbody]
    rw [(request_bounded _ _ _ _ {} _ hplays).1 3 hfirst (Nat.le_refl 3), hverdict]
    rfl
  · have hlast : lastMessage slowReplies 2 = "busy" := by decide +kernel
    rw [(request_bounded _ _ _ _ {} _ hplays).2 fun k hk => ?_]
    · rw [show (impatientPolicy 2).maxAttempts = 2 from rfl, hlast]
      rfl
    · refine Nat.lt_of_not_le fun hle => ?_
      exact Bool.noConfusion ((hbuilding 2 k hle).symm.trans hk.final)

end Fetch

end ModuleForge
