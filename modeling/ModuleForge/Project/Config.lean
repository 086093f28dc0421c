import ModuleForge.Json
import ModuleForge.Package.Fetch
import ModuleForge.Task
import ModuleForge.Toml.Document

/-!
# Configuration

The settings of a project, from its file `kiln.toml`. Every setting has a default, and settings that
nobody knows are ignored.
-/

namespace ModuleForge

namespace Config

/-- Where packages come from. -/
structure Packager where
  bucketUrl : String := ({} : Client.Services).bucket
  packagerUrl : String := ({} : Client.Services).packager
  registryUrl : String := ({} : Client.Services).registry
  schemaVersion : Nat := 1
  maxAttempts : Nat := 60
  retryDelay : Nat := 2000
  buildingStatuses : List Nat := [403, 504]
  deriving DecidableEq, Repr, Inhabited

/-- The services, without slashes at the ends of the store's and the builder's addresses. -/
def Packager.services (p : Packager) : Client.Services :=
  { bucket := String.ofList (Text.dropEndWhile '/' p.bucketUrl.toList)
    packager := String.ofList (Text.dropEndWhile '/' p.packagerUrl.toList)
    registry := p.registryUrl
    schema := p.schemaVersion }

def Packager.policy (p : Packager) : Fetch.Policy :=
  { maxAttempts := p.maxAttempts, delay := p.retryDelay, building := p.buildingStatuses }

/-- The workers that run tasks. -/
structure Workers where
  count : Nat := 3
  pollInterval : Nat := 50
  /-- The workers that are started ahead of the first task. -/
  prewarm : Nat := 0
  deriving DecidableEq, Repr, Inhabited

/-- How modules are transpiled. -/
structure Transpile where
  dependencyRoot : String := "/node_modules"
  strictMode : Bool := true
  deriving DecidableEq, Repr, Inhabited

def Transpile.settings (t : Transpile) : Task.Settings := { strictMode := t.strictMode }

/-- Why there is no configuration. -/
inductive Error where
  /-- The file cannot be read, for a reason that the system gives. -/
  | io (message : String)
  /-- The file is not TOML, or a setting has a value of the wrong kind. -/
  | parse
  | validation (message : String)
  deriving DecidableEq, Repr, Inhabited

/-- The text of an error; `detail` is said about what cannot be read. -/
def Error.text (detail : String) : Error → String
  | .io message => "failed to read configuration: " ++ message
  | .parse => "failed to parse configuration: " ++ detail
  | .validation message => "validation error: " ++ message

end Config

/-- The settings of a project. -/
structure Config where
  packager : Config.Packager := {}
  workers : Config.Workers := {}
  transpile : Config.Transpile := {}
  deriving DecidableEq, Repr, Inhabited

namespace Config

/-- The name of the file. -/
def fileName : String := "kiln.toml"

/-! ## Decoding -/

def decodeString : Toml → Option String
  | .string s => some s
  | _ => none

def decodeBool : Toml → Option Bool
  | .bool b => some b
  | _ => none

/-- A natural number of so many bits. -/
def decodeNat (bits : Nat) : Toml → Option Nat
  | .integer n => if 0 ≤ n && n.toNat < Nat.pow 2 bits then some n.toNat else none
  | _ => none

def decodeList {α : Type} (decode : Toml → Option α) : Toml → Option (List α)
  | .array items => items.mapM decode
  | _ => none

/-- What a section says about its settings, in the order of their names. A section is a table; it may
also be an array of its settings in order. A date counts as a section that says nothing. -/
def slots (names : List String) : Toml → Option (List (Option Toml))
  | .table entries => some (names.map fun name => entries.lookup name)
  | .array items => some ((List.range names.length).map fun i => items[i]?)
  | .datetime _ => some (names.map fun _ => none)
  | _ => none

/-- The value of a setting, or its default. -/
def orDefault {α : Type} (decode : Toml → Option α) (default : α) : Option Toml → Option α
  | some v => decode v
  | none => some default

def Packager.decode (table : Toml) : Option Packager := do
  let d : Packager := {}
  match ← slots ["bucket_url", "packager_url", "registry_url", "schema_version", "max_attempts",
      "retry_delay_ms", "building_statuses"] table with
  | [bucket, packager, registry, schema, attempts, delay, statuses] =>
    some ⟨← orDefault decodeString d.bucketUrl bucket,
      ← orDefault decodeString d.packagerUrl packager,
      ← orDefault decodeString d.registryUrl registry,
      ← orDefault (decodeNat 32) d.schemaVersion schema,
      ← orDefault (decodeNat 32) d.maxAttempts attempts,
      ← orDefault (decodeNat 64) d.retryDelay delay,
      ← orDefault (decodeList (decodeNat 16)) d.buildingStatuses statuses⟩
  | _ => none

def Workers.decode (table : Toml) : Option Workers := do
  let d : Workers := {}
  match ← slots ["count", "poll_interval_ms", "prewarm"] table with
  | [count, poll, prewarm] =>
    some ⟨← orDefault (decodeNat 64) d.count count, ← orDefault (decodeNat 64) d.pollInterval poll,
      ← orDefault (decodeNat 64) d.prewarm prewarm⟩
  | _ => none

def Transpile.decode (table : Toml) : Option Transpile := do
  let d : Transpile := {}
  match ← slots ["dependency_root", "strict_mode"] table with
  | [root, strict] =>
    some ⟨← orDefault decodeString d.dependencyRoot root, ← orDefault decodeBool d.strictMode strict⟩
  | _ => none

def decode (document : Toml) : Option Config := do
  match ← slots ["packager", "workers", "transpile"] document with
  | [packager, workers, transpile] =>
    some ⟨← orDefault Packager.decode {} packager, ← orDefault Workers.decode {} workers,
      ← orDefault Transpile.decode {} transpile⟩
  | _ => none

/-! ## Encoding -/

def Packager.encode (p : Packager) : Json :=
  .object [("bucket_url", .string p.bucketUrl), ("packager_url", .string p.packagerUrl),
    ("registry_url", .string p.registryUrl), ("schema_version", .ofNat p.schemaVersion),
    ("max_attempts", .ofNat p.maxAttempts), ("retry_delay_ms", .ofNat p.retryDelay),
    ("building_statuses", .array (p.buildingStatuses.map .ofNat))]

def Workers.encode (w : Workers) : Json :=
  .object [("count", .ofNat w.count), ("poll_interval_ms", .ofNat w.pollInterval),
    ("prewarm", .ofNat w.prewarm)]

def Transpile.encode (t : Transpile) : Json :=
  .object [("dependency_root", .string t.dependencyRoot), ("strict_mode", .bool t.strictMode)]

/-- All settings, those with their default values too. -/
def encode (c : Config) : Json :=
  .object [("packager", c.packager.encode), ("workers", c.workers.encode),
    ("transpile", c.transpile.encode)]

/-! ## Validation -/

def isBlankText (s : String) : Bool := s.toList.all Text.isBlank

/-- What is wrong with a configuration, the first of it. -/
def fault? (c : Config) : Option String :=
  if isBlankText c.packager.bucketUrl then some "packager.bucket_url must not be empty"
  else if isBlankText c.packager.packagerUrl then some "packager.packager_url must not be empty"
  else if isBlankText c.packager.registryUrl then some "packager.registry_url must not be empty"
  else if c.packager.maxAttempts = 0 then some "packager.max_attempts must be at least 1"
  else if c.workers.count = 0 then some "workers.count must be at least 1"
  else if c.transpile.dependencyRoot.isEmpty then some "transpile.dependency_root must not be empty"
  else none

/-- **The configuration that a text denotes.** -/
def ofText (text : String) : Except Error Config :=
  match Toml.parse text >>= decode with
  | none => .error .parse
  | some c =>
    match c.fault? with
    | some message => .error (.validation message)
    | none => .ok c

end Config

end ModuleForge
