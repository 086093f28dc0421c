import ModuleForge.Dictionary
import ModuleForge.Json

/-!
# Decoding JSON values

Rules that all decoders share:

- A record is read from an object or from an array of its fields in order. An object may have fields
  that the record does not know, but none of the known ones twice; an array has no more items than
  the record has fields.
- A dictionary is read from an object; of a repeated key the last value counts.
- `null` is a value only where a field is optional.
- A value that is kept as it is must be usable and not nested too deeply (`Json.isKept`).
-/

namespace ModuleForge.Json

/-! ## Plain values -/

def decodeBool : Json → Option Bool
  | .bool b => some b
  | _ => none

def decodeString : Json → Option String
  | .string s => some s
  | _ => none

/-- A natural number below the limit, written as an integer. -/
def decodeNat (limit : Nat) : Json → Option Nat
  | .number (.integer n) => if 0 ≤ n && n.toNat < limit then some n.toNat else none
  | _ => none

def decodeOption {α : Type} (decode : Json → Option α) : Json → Option (Option α)
  | .null => some none
  | j => (decode j).map some

def decodeList {α : Type} (decode : Json → Option α) : Json → Option (List α)
  | .array items => items.mapM decode
  | _ => none

def decodeDictionary {α : Type} (decode : Json → Option α) : Json → Option (Dictionary α)
  | .object members =>
    (members.mapM fun (m : String × Json) => (decode m.2).map (m.1, ·)).map Dictionary.ofList
  | _ => none

/-- A name from a list of names: a string, or an object with the name as its only key and `null`
behind it. -/
def decodeName {α : Type} (names : List (String × α)) : Json → Option α
  | .string s => names.lookup s
  | .object [(key, .null)] => names.lookup key
  | _ => none

/-! ## Records -/

/-- What a record's text says about one of its fields. -/
inductive Slot where
  | given (value : Json)
  /-- The object has no such field. -/
  | absent
  /-- The array ends before it. -/
  | cut
  deriving Inhabited

namespace Slot

/-- A field that must be there. -/
def required {α : Type} (decode : Json → Option α) : Slot → Option α
  | .given j => decode j
  | .absent => none
  | .cut => none

/-- A field that has a value also if it is not there. -/
def orElse {α : Type} (decode : Json → Option α) (value : α) : Slot → Option α
  | .given j => decode j
  | .absent => some value
  | .cut => some value

end Slot

/-- The slot of a field in the members of an object; `none` if the field is given twice. -/
def slotOf (members : List (String × Json)) (name : String) : Option Slot :=
  match members.filter (·.1 == name) with
  | [] => some .absent
  | [(_, value)] => some (.given value)
  | _ => none

/-- The slots of the items of an array; `none` if there are more items than fields. -/
def slotsOfItems : List String → List Json → Option (List Slot)
  | [], [] => some []
  | [], _ :: _ => none
  | _ :: names, [] => (slotsOfItems names []).map (.cut :: ·)
  | _ :: names, item :: items => (slotsOfItems names items).map (.given item :: ·)

/-- The slots of a record's fields, in the order of their names. -/
def slots (names : List String) : Json → Option (List Slot)
  | .object members => names.mapM (slotOf members)
  | .array items => slotsOfItems names items
  | _ => none

/-! ## Values that are kept -/

mutual

/-- The number of arrays and objects around the deepest value. -/
def depth : Json → Nat
  | .array items => depthOfItems items + 1
  | .object members => depthOfMembers members + 1
  | _ => 0

def depthOfItems : List Json → Nat
  | [] => 0
  | item :: rest => max (depth item) (depthOfItems rest)

def depthOfMembers : List (String × Json) → Nat
  | [] => 0
  | (_, value) :: rest => max (depth value) (depthOfMembers rest)

end

mutual

/-- No value inside is unusable. -/
def isUsable : Json → Bool
  | .unusable => false
  | .array items => areUsableItems items
  | .object members => areUsableMembers members
  | _ => true

def areUsableItems : List Json → Bool
  | [] => true
  | item :: rest => isUsable item && areUsableItems rest

def areUsableMembers : List (String × Json) → Bool
  | [] => true
  | (_, value) :: rest => isUsable value && areUsableMembers rest

end

/-- The deepest nesting of a text any value of which is kept. -/
def maxDepth : Nat := 127

/-- A value inside `around` arrays and objects can be kept. -/
def isKept (around : Nat) (j : Json) : Bool :=
  isUsable j && around + depth j ≤ maxDepth

mutual

/-- The value with the members of every object in the order of their keys, the last of each key. -/
def normalize : Json → Json
  | .array items => .array (normalizeItems items)
  | .object members => .object (Dictionary.ofList (normalizeMembers members)).entries
  | j => j

def normalizeItems : List Json → List Json
  | [] => []
  | item :: rest => normalize item :: normalizeItems rest

def normalizeMembers : List (String × Json) → List (String × Json)
  | [] => []
  | (key, value) :: rest => (key, normalize value) :: normalizeMembers rest

end

/-- A value that is kept as it is, inside `around` arrays and objects. -/
def decodeKept (around : Nat) (j : Json) : Option Json :=
  if j.isKept around then some j.normalize else none

/-- A value that is only looked over. -/
def decodeAnything (_ : Json) : Option Unit := some ()

end ModuleForge.Json
