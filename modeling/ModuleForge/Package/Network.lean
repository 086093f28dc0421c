import ModuleForge.Json.Decode
import ModuleForge.Json.Reader

/-!
# The network

Requests to the registry, the store and the builder, and what they answer. A network is any function
that answers a request in the light of the requests before it.
-/

namespace ModuleForge

namespace Network

inductive Method where
  | get
  | post
  deriving DecidableEq, Repr, Inhabited

def Method.name : Method → String
  | .get => "GET"
  | .post => "POST"

structure Request where
  method : Method
  url : String
  deriving DecidableEq, Repr, Inhabited

/-- An answer as it came. -/
structure Response where
  status : Nat
  body : String
  /-- The reason phrase of the status, if it has one. -/
  reason : Option String := none
  deriving DecidableEq, Repr, Inhabited

namespace Response

def isSuccess (r : Response) : Bool := 200 ≤ r.status && r.status < 300

/-- The error that a body reports in its field `error`. -/
def decodeError (j : Json) : Option (Option String) := do
  match ← j.slots ["error"] with
  | [error] => error.orElse (Json.decodeOption Json.decodeString) none
  | _ => none

/-- The text of the error that the body reports, else the reason, else the status. -/
def errorMessage (r : Response) : String :=
  let reported := (Json.parse r.body >>= decodeError).bind id
  (reported.or r.reason).getD (toString r.status)

/-- The value that the body encodes. -/
def decodeBody {α : Type} (decode : Json → Option α) (r : Response) : Option α :=
  Json.parse r.body >>= decode

end Response

/-- What comes of a request: an answer, or the reason why there is none. -/
inductive Reply where
  | response (r : Response)
  | unreachable (message : String)
  deriving DecidableEq, Repr, Inhabited

end Network

/-- How requests are answered, given all requests before. -/
abbrev Network := List Network.Request → Network.Request → Network.Reply

namespace Network

/-- A network that no request gets through. -/
def offline : Network := fun _ r => .unreachable ("error sending request for url (" ++ r.url ++ ")")

/-- Replies for the requests of one method whose address starts in one way. -/
structure Rule where
  method : Method
  start : String
  replies : List Reply
  deriving Repr, Inhabited

def Rule.applies (rule : Rule) (r : Request) : Bool :=
  rule.method == r.method && rule.start.toList.isPrefixOf r.url.toList

/-- The first rule that applies to a request, by its place in the list. -/
def ruleFor? (rules : List Rule) (r : Request) : Option Nat := rules.findIdx? (·.applies r)

/-- A network that follows a script: the first rule that applies answers with its replies in turn and
repeats the last one. What no rule applies to is not found. -/
def scripted (rules : List Rule) : Network := fun before r =>
  match ruleFor? rules r with
  | none => .response { status := 404, body := "" }
  | some i =>
    let replies := (rules[i]?.map (·.replies)).getD []
    let used := before.countP fun earlier => ruleFor? rules earlier == some i
    (replies[min used (replies.length - 1)]?).getD (.response { status := 404, body := "" })

end Network

end ModuleForge
