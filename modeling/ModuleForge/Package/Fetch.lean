import ModuleForge.Package.Address
import ModuleForge.Package.Manifest
import ModuleForge.Package.Network
import ModuleForge.Package.Range

/-!
# Fetching packages

From the ranges that a project asks for to the manifest of its packages: every range is resolved to a
version, then the manifest of the set is taken from the cache, or read from the store, or built and
read from where the builder says. While the builder is at work a request is repeated.

A session remembers the requests, the time spent on waiting, the reports of progress and the cache;
all of it outlives a failure.

- `Fetch.request`: a request with its repetitions.
- `Fetch.resolve`: the version of a range, by the registry.
- `Client.fetch`: the manifest of a dictionary of ranges.
-/

namespace ModuleForge

open Network (Request Response Reply)

/-! ## Failures -/

/-- Why a range has no version. -/
inductive Fetch.Unresolved where
  /-- The registry refused, or the one who resolves has a reason of its own. -/
  | refused (message : String)
  /-- The range cannot be read. -/
  | badRange
  | noMatch
  deriving DecidableEq, Repr, Inhabited

/-- Why there is no manifest. -/
inductive Fetch.Error where
  | resolution (name range : String) (cause : Fetch.Unresolved)
  /-- An answer that no repetition would change. -/
  | hard (status : Nat) (message : String)
  /-- The manifest was still being built at the last attempt. -/
  | exhausted (attempts : Nat) (last : String)
  | transport (url message : String)
  /-- The body of an answer cannot be read. -/
  | decode (url : String)
  deriving DecidableEq, Repr, Inhabited

/-- The text of a failure; `detail` is said about what cannot be read. -/
def Fetch.Error.text (detail : String) : Fetch.Error → String
  | .resolution name range cause =>
    let message := match cause with
      | .refused m => m
      | .badRange => detail
      | .noMatch => "no matching version"
    "could not resolve " ++ name ++ "@" ++ range ++ ": " ++ message
  | .hard _ message => message
  | .exhausted attempts last => "gave up after " ++ toString attempts ++ " attempts: " ++ last
  | .transport url message => "request to " ++ url ++ " failed: " ++ message
  | .decode url => "invalid response from " ++ url ++ ": " ++ detail

/-- The text of a failure as it is shown to the one who asked for the packages. -/
def Fetch.Error.message (detail : String) (e : Fetch.Error) : String :=
  "Could not fetch dependencies, please try again in a couple seconds: " ++ e.text detail

/-! ## Sessions -/

/-- What the client is busy with. -/
inductive Fetch.Phase where
  | downloading
  | resolving
  | transpiling
  deriving DecidableEq, Repr, Inhabited

def Fetch.Phase.message : Fetch.Phase → String
  | .downloading => "Downloading Dependencies..."
  | .resolving => "Resolving Dependencies..."
  | .transpiling => "Transpiling Modules..."

/-- A manifest, and which download it came with. -/
structure Fetch.Download where
  number : Nat
  manifest : Manifest
  deriving Inhabited

/-- What a client remembers. -/
structure Fetch.Session where
  requests : List Request := []
  /-- Milliseconds spent on waiting. -/
  waited : Nat := 0
  progress : List Fetch.Phase := []
  downloads : Nat := 0
  /-- The manifests by their address in the store. -/
  cache : Dictionary Fetch.Download := {}
  deriving Inhabited

/-- Work that may fail; what the session remembers outlives the failure. -/
abbrev Fetch := EStateM Fetch.Error Fetch.Session

namespace Fetch

/-- Sends a request. -/
def send (net : Network) (r : Request) : Fetch Reply := fun s =>
  .ok (net s.requests r) { s with requests := s.requests ++ [r] }

def wait (milliseconds : Nat) : Fetch Unit :=
  modify fun s => { s with waited := s.waited + milliseconds }

def report (phase : Phase) : Fetch Unit :=
  modify fun s => { s with progress := s.progress ++ [phase] }

/-- The answer to a request that gets through. -/
def respond (net : Network) (r : Request) : Fetch Response := do
  match ← send net r with
  | .response response => pure response
  | .unreachable message => throw (.transport r.url message)

/-- The value that the body of an answer encodes. -/
def decodeBody {α : Type} (decode : Json → Option α) (url : String) (response : Response) :
    Fetch α :=
  match response.decodeBody decode with
  | some a => pure a
  | none => throw (.decode url)

/-! ## Repeated requests -/

/-- How often and when a request is repeated. -/
structure Policy where
  /-- The most requests, the first one included. -/
  maxAttempts : Nat := 60
  /-- Milliseconds between two attempts. -/
  delay : Nat := 2000
  /-- The statuses that mean "not ready yet". -/
  building : List Nat := [403, 504]
  deriving DecidableEq, Repr, Inhabited

def Policy.isBuilding (p : Policy) (status : Nat) : Bool := p.building.contains status

/-- Up to `left` attempts; `last` is the error of the attempt before. -/
def attempt {α : Type} (net : Network) (policy : Policy) (decode : Json → Option α) (r : Request) :
    (left : Nat) → (last : String) → Fetch α
  | 0, last => throw (.exhausted policy.maxAttempts last)
  | left + 1, _ => do
    let response ← respond net r
    if response.isSuccess then decodeBody decode r.url response
    else if !policy.isBuilding response.status then
      throw (.hard response.status response.errorMessage)
    else
      if 0 < left then wait policy.delay
      attempt net policy decode r left response.errorMessage

/-- **A request that is repeated while the answer is not ready.** -/
def request {α : Type} (net : Network) (policy : Policy) (decode : Json → Option α) (r : Request) :
    Fetch α :=
  attempt net policy decode r policy.maxAttempts ""

/-! ## Versions -/

/-- What a registry knows about a package: named versions, and all versions. -/
structure Listing where
  tags : Dictionary String := {}
  versions : List String := []
  deriving Inhabited

def Listing.decode (j : Json) : Option Listing := do
  match ← j.slots ["dist-tags", "versions"] with
  | [tags, versions] =>
    let tags ← tags.orElse (Json.decodeDictionary Json.decodeString) {}
    let versions ← versions.orElse (Json.decodeDictionary Json.decodeAnything) {}
    some ⟨tags, versions.keys⟩
  | _ => none

/-- The version that a range stands for without asking anyone: itself, if it is a version or an
address of its own. -/
def ownVersion? (range : String) : Option String :=
  let cs := range.toList
  let bare := (Text.dropStart? ['v'] cs).getD cs
  match Version.ofChars? bare with
  | some v => some v.text
  | none => if cs.contains ':' || cs.contains '/' then some range else none

/-- The version that a registry's listing gives for a range: a tag, or the best match. -/
def Listing.version (listing : Listing) (range : String) : Except Unresolved String :=
  let tag := if range.isEmpty then "latest" else range
  match listing.tags.find? tag with
  | some version => .ok version
  | none =>
    match Range.parse? range with
    | none => .error .badRange
    | some requirements =>
      match Range.best? listing.versions requirements with
      | some v => .ok v.text
      | none => .error .noMatch

/-- The address of a package in a registry. -/
def listingUrl (registry name : String) : String :=
  let escape (c : Char) : List Char := if c == '/' then ['%', '2', 'F'] else [c]
  String.ofList (Text.dropEndWhile '/' registry.toList ++ '/' :: name.toList.flatMap escape)

/-- One who knows the version of a package for a range. -/
abbrev Resolver := (name range : String) → Fetch String

/-- **The version of a range, by a registry.** -/
def resolve (net : Network) (registry : String) : Resolver := fun name range => do
  match ownVersion? range with
  | some version => pure version
  | none =>
    let url := listingUrl registry name
    let response ← respond net ⟨.get, url⟩
    if !response.isSuccess then throw (.resolution name range (.refused response.errorMessage))
    else
      let listing ← decodeBody Listing.decode url response
      match listing.version range with
      | .ok version => pure version
      | .error cause => throw (.resolution name range cause)

/-- The versions of ranges, in the order of the names; the first failure ends it. -/
def resolveAll (resolver : Resolver) : List (String × String) → Fetch (List (String × String))
  | [] => pure []
  | (name, range) :: rest => do
    let version ← resolver name range
    let others ← resolveAll resolver rest
    pure ((name, version) :: others)

/-- Where a built manifest will be found. -/
def decodePointer (j : Json) : Option String := do
  match ← j.slots ["url"] with
  | [url] => url.required Json.decodeString
  | _ => none

end Fetch

/-! ## Clients -/

/-- The services that a client talks to. -/
structure Client.Services where
  /-- The store of built manifests. -/
  bucket : String := "https://prod-packager-packages.codesandbox.io"
  /-- The builder. -/
  packager : String := "https://aiwi8rnkp5.execute-api.eu-west-1.amazonaws.com/prod/packages"
  registry : String := "https://registry.npmjs.org"
  /-- The version of the store's layout. -/
  schema : Nat := 1
  deriving DecidableEq, Repr, Inhabited

/-- One who fetches packages. -/
structure Client where
  services : Client.Services := {}
  policy : Fetch.Policy := {}
  network : Network
  resolver : Fetch.Resolver := Fetch.resolve network services.registry
  /-- Progress fills the screen. -/
  fullScreen : Bool := false

namespace Client

open Fetch

def storeAddress (c : Client) (set : PackageSet) : String := set.storeAddress c.services.schema

/-- The manifest that the store has; every failure means that it has none. -/
def readStore (c : Client) (address : String) : Fetch (Option Manifest) := do
  match ← send c.network ⟨.get, c.services.bucket ++ "/" ++ address⟩ with
  | .response response =>
    if response.isSuccess then pure (response.decodeBody Manifest.decode) else pure none
  | .unreachable _ => pure none

/-- Has the manifest built, and reads it from where the builder says. -/
def build (c : Client) (set : PackageSet) : Fetch Manifest := do
  report .resolving
  let path ← request c.network c.policy decodePointer
    ⟨.post, c.services.packager ++ "/" ++ set.queryAddress⟩
  report .downloading
  request c.network c.policy Manifest.decode ⟨.get, c.services.bucket ++ "/" ++ path⟩

/-- Puts a manifest into the cache. -/
def remember (address : String) (manifest : Manifest) : Fetch Download := do
  let s ← get
  let download : Download := ⟨s.downloads, manifest⟩
  set { s with downloads := s.downloads + 1, cache := s.cache.insert address download }
  pure download

/-- Downloads the manifest of a set of packages. -/
def download (c : Client) (set : PackageSet) : Fetch Download := do
  report .downloading
  let address := c.storeAddress set
  let manifest ← match ← c.readStore address with
    | some manifest => pure manifest
    | none => c.build set
  remember address manifest

/-- The manifest of a set of packages, from the cache if it is there. -/
def manifestOf (c : Client) (set : PackageSet) : Fetch Download := do
  match (← get).cache.find? (c.storeAddress set) with
  | some download => pure download
  | none => c.download set

/-- **Fetches the packages of a dictionary of ranges**; `none` if there is nothing to fetch. -/
def fetch (c : Client) (ranges : Dictionary String) : Fetch (Option Download) := do
  if ranges.isEmpty then pure none
  else
    let versions ← resolveAll c.resolver (ranges.map Range.normalize).entries
    let download ← c.manifestOf (Dictionary.ofList versions)
    if c.fullScreen then report .transpiling
    pure (some download)

/-- Drops a set of packages from the cache; tells whether it was there. -/
def invalidate (c : Client) (set : PackageSet) : Fetch Bool := do
  let s ← get
  let address := c.storeAddress set
  MonadState.set { s with cache := s.cache.erase address }
  pure (s.cache.contains address)

/-- The cache has a manifest for a set of packages. -/
def isCached (c : Client) (s : Session) (set : PackageSet) : Bool :=
  s.cache.contains (c.storeAddress set)

end Client

/-- Empties the cache. -/
def Fetch.clear : Fetch Unit := modify fun s => { s with cache := {} }

end ModuleForge
