import ModuleForge.Json.Decode
import ModuleForge.Task

/-!
# Tasks on the wire

Every message between the control thread and the workers has a JSON form. `encode` writes all fields;
`decode` follows the rules of `Json.Decode`, and the defaults of settings and features stand in for
missing fields.
-/

namespace ModuleForge

open Json (Slot)

/-! ## Identities and targets -/

def Task.Id.encode (id : Task.Id) : Json :=
  .object [("module_id", .string id.module), ("sequence", .ofNat id.sequence)]

def Task.Id.decode (j : Json) : Option Task.Id := do
  match ← j.slots ["module_id", "sequence"] with
  | [module, sequence] =>
    some ⟨← module.required Json.decodeString,
      ← sequence.required (Json.decodeNat Task.sequenceLimit)⟩
  | _ => none

def Task.Target.encode (t : Task.Target) : Json := .string t.name

def Task.Target.decode : Json → Option Task.Target :=
  Json.decodeName [("legacy", .legacy), ("modern", .modern)]

/-! ## Payloads -/

def Task.Settings.encode (s : Task.Settings) : Json :=
  .object [("strict_mode", .bool s.strictMode), ("extra", .ofMap .string s.extra.entries)]

def Task.Settings.decode (j : Json) : Option Task.Settings := do
  match ← j.slots ["strict_mode", "extra"] with
  | [strictMode, extra] =>
    some ⟨← strictMode.orElse Json.decodeBool true,
      ← extra.orElse (Json.decodeDictionary Json.decodeString) {}⟩
  | _ => none

def Task.Features.encode (f : Task.Features) : Json :=
  .object [("macros", .bool f.macros)]

def Task.Features.decode (j : Json) : Option Task.Features := do
  match ← j.slots ["macros"] with
  | [macros] => some ⟨← macros.orElse Json.decodeBool false⟩
  | _ => none

def Task.Payload.encode (p : Task.Payload) : Json :=
  .object [("code", .string p.code), ("config", p.settings.encode), ("path", .string p.path),
    ("target_version", p.target.encode), ("features", p.features.encode)]

def Task.Payload.decode (j : Json) : Option Task.Payload := do
  match ← j.slots ["code", "config", "path", "target_version", "features"] with
  | [code, settings, path, target, features] =>
    some ⟨← code.required Json.decodeString, ← settings.required Task.Settings.decode,
      ← path.required Json.decodeString, ← target.required Task.Target.decode,
      ← features.required Task.Features.decode⟩
  | _ => none

/-! ## Answers -/

def Dependency.encode (d : Dependency) : Json :=
  .object [("path", .string d.path), ("is_glob", .bool d.isGlob)]

def Dependency.decode (j : Json) : Option Dependency := do
  match ← j.slots ["path", "is_glob"] with
  | [path, isGlob] =>
    some ⟨← path.required Json.decodeString, ← isGlob.orElse Json.decodeBool false⟩
  | _ => none

def Task.Output.encode (o : Task.Output) : Json :=
  .object [("transpiled_code", .string o.code),
    ("dependencies", .array (o.dependencies.map Dependency.encode))]

def Task.Output.decode (j : Json) : Option Task.Output := do
  match ← j.slots ["transpiled_code", "dependencies"] with
  | [code, dependencies] =>
    some ⟨← code.required Json.decodeString,
      ← dependencies.required (Json.decodeList Dependency.decode)⟩
  | _ => none

def Task.Outcome.encode : Task.Outcome → Json
  | .success output => output.encode
  | .failure error => .object [("error", .string error)]

/-- The error of a failed task; it is read from an object only. -/
def Task.Outcome.decodeFailure : Json → Option Task.Outcome
  | .object members => do
    match ← Json.slotOf members "error" with
    | .given j => (Json.decodeString j).map .failure
    | _ => none
  | _ => none

/-- An outcome inside `around` arrays and objects. It has no tag: what reads as an output is a
success, and then an object with an error is a failure. Both need the whole value, so it has to be
one that can be kept. -/
def Task.Outcome.decodeAt (around : Nat) (j : Json) : Option Task.Outcome :=
  if j.isKept around then
    ((Task.Output.decode j).map .success).or (Task.Outcome.decodeFailure j)
  else none

def Task.Outcome.decode : Json → Option Task.Outcome := Task.Outcome.decodeAt 0

def Task.Response.encode (r : Task.Response) : Json :=
  .object [("task_id", r.id.encode), ("result", r.outcome.encode)]

def Task.Response.decode (j : Json) : Option Task.Response := do
  match ← j.slots ["task_id", "result"] with
  | [id, outcome] =>
    some ⟨← id.required Task.Id.decode, ← outcome.required (Task.Outcome.decodeAt 1)⟩
  | _ => none

/-! ## Packages of a project -/

def DependencyLists.encode (lists : DependencyLists) : Json :=
  .object [("dependencies", .ofMap .string lists.dependencies.entries),
    ("devDependencies", .ofMap .string lists.devDependencies.entries)]

def DependencyLists.decode (j : Json) : Option DependencyLists := do
  match ← j.slots ["dependencies", "devDependencies"] with
  | [dependencies, devDependencies] =>
    some ⟨← dependencies.orElse (Json.decodeDictionary Json.decodeString) {},
      ← devDependencies.orElse (Json.decodeDictionary Json.decodeString) {}⟩
  | _ => none

end ModuleForge
