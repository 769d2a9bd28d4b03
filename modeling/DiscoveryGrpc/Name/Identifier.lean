import DiscoveryGrpc.Name.Basic

/-!
# From identifiers to proto names

An identifier of a document may hold any characters. Its fragments are the runs of letters and
digits in it, and every proto name is made from their words: `messageName`, `fieldName`,
`enumMemberName` and `serviceName` differ in the casing of the result. An identifier without any
letter or digit gives no name.
-/

namespace DiscoveryGrpc

namespace Identifier

/-- The runs of letters and digits in an identifier, as letters. -/
def fragmentChars (identifier : String) : List (List Char) :=
  (Text.splitBy (!·.isAlphanum) identifier.toList).filter (!·.isEmpty)

/-- The runs of letters and digits in an identifier. -/
def fragments (identifier : String) : List String :=
  (fragmentChars identifier).map String.ofList

/-- A word in the singular, by the common endings of plurals. -/
def singularChars (word : List Char) : List Char :=
  let endsIn (ending : String) : Bool := ending.toList.isSuffixOf word
  if endsIn "ies" then word.take (word.length - 3) ++ ['y']
  else if endsIn "sses" || endsIn "xes" || endsIn "ches" || endsIn "shes" then
    word.take (word.length - 2)
  else if endsIn "ss" || endsIn "us" then word
  else if endsIn "s" && word.length ≠ 1 then word.dropLast
  else word

/-- A word in the singular, by the common endings of plurals. -/
def singular (word : String) : String := String.ofList (singularChars word.toList)

end Identifier

namespace Name

/-- The words of all fragments of an identifier. -/
def ofIdentifier (identifier : String) : Name :=
  ⟨(Identifier.fragmentChars identifier).flatMap (wordsOf .camel)⟩

/-- The name of an identifier that has at least one letter or digit. -/
def ofIdentifier? (identifier : String) : Except Fault Name :=
  let name := ofIdentifier identifier
  if name.isEmpty then .error (.unusableIdentifier identifier) else .ok name

end Name

/-! ## Names of the parts of a proto file -/

/-- Whether a text begins with a capital. -/
def startsUpper (s : String) : Bool := s.toList.head?.any Char.isUpper

/-- The message named by an identifier. One that is upper camel already stays as it is. -/
def messageName (identifier : String) : Except Fault String :=
  if Casing.upperCamel.fits identifier.toList then .ok identifier
  else return (← Name.ofIdentifier? identifier).upperCamelWithAcronyms

/-- The field named by a key. A capital at the start of the key stays. -/
def fieldName (key : String) : Except Fault String := do
  let name ← Name.ofIdentifier? key
  return if startsUpper key then name.capitalizedLowerUnderscore else name.lowerUnderscore

/-- The enum member for a value. A digit at its start gets an underscore before it. -/
def enumMemberName (value : String) : Except Fault String := do
  let name := (← Name.ofIdentifier? value).upperUnderscore
  return if name.toList.head?.any Char.isDigit then "_" ++ name else name

/-- The service for a resource. -/
def serviceName (resource : String) : Except Fault String :=
  return (← Name.ofIdentifier? resource).upperCamel

end DiscoveryGrpc
