import ModuleForge.Dictionary
import ModuleForge.Text.Split

/-!
# Addresses of a set of packages

A set of packages with a version each has one address in the store of built manifests and another one
for the service that builds them. Both list the packages in the order of their names.
-/

namespace ModuleForge

/-- Packages, with the version of each. -/
abbrev PackageSet := Dictionary String

namespace PackageSet

/-! ## Percent encoding -/

/-- A character that stands for itself in a component of an address. -/
def isPlain (c : Char) : Bool :=
  c.isAlphanum || c == '-' || c == '_' || c == '.' || c == '!' || c == '~' || c == '*' ||
    c == '\'' || c == '(' || c == ')'

/-- The hexadecimal digit of a number below sixteen, in upper case. -/
def upperHexDigit (n : Nat) : Char :=
  if n < 10 then Char.ofNat ('0'.toNat + n) else Char.ofNat ('A'.toNat + (n - 10))

def encodeByte (b : UInt8) : List Char :=
  ['%', upperHexDigit (b.toNat / 16), upperHexDigit (b.toNat % 16)]

/-- A character as it stands in a component: itself, or the bytes of its encoding. -/
def encodeChar (c : Char) : List Char :=
  if isPlain c then [c] else (String.utf8EncodeChar c).flatMap encodeByte

def encodeComponent (cs : List Char) : List Char := cs.flatMap encodeChar

/-! ## Addresses -/

/-- The name of a package without the first slash and the first at sign in it: the store does not take
paths with a slash in a name, even if it is encoded. -/
def flatName (name : List Char) : List Char :=
  Text.replaceFirst '@' [] (Text.replaceFirst '/' ['-'] name)

/-- A package and its version in the address of the store. -/
def storePair (name version : String) : List Char :=
  encodeComponent (flatName name.toList) ++ '@' :: version.toList

/-- **The address in the store of manifests**, which is laid out by version `schema`. -/
def storeAddress (set : PackageSet) (schema : Nat) : String :=
  let pairs := set.entries.map fun (name, version) => storePair name version
  "v" ++ toString schema ++ "/combinations/" ++
    String.ofList (['%', '2', 'B'].intercalate pairs) ++ ".json"

/-- A package and its version in the address for the builder. -/
def queryPair (name version : String) : List Char :=
  encodeComponent (name.toList ++ '@' :: version.toList)

/-- **The address for the service that builds manifests.** -/
def queryAddress (set : PackageSet) : String :=
  String.ofList (['+'].intercalate (set.entries.map fun (name, version) => queryPair name version))

end PackageSet

end ModuleForge
