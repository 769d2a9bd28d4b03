import DiscoveryGrpc.Proto.Reading.Setting
import DiscoveryGrpc.Proto.Message

/-!
# Reading messages

The words that begin an entry of a message are keywords only where they stand: `option` and
`reserved` begin a statement that is skipped, `enum` begins an enum, and every other word begins a
field. `optional` and `repeated` are labels only if another word follows, and `map` is a map only
if an angle bracket follows. Types are kept as references until the whole file has been read.
-/

namespace DiscoveryGrpc.Proto.Reading

/-- What can stand before the type of a field. -/
inductive FieldLabel
  | none
  | optional
  | repeated
  deriving DecidableEq, Repr

/-- The label that a word is, if it can be one. -/
def FieldLabel.ofWord? : String → Option FieldLabel
  | "optional" => some optional
  | "repeated" => some repeated
  | _ => .none

/-- Takes the rest of the label and the first word of the type, of which `first` is the first
word. -/
def labelAndType (first : String) : Reading (FieldLabel × String) := do
  match FieldLabel.ofWord? first, ← peek with
  | some label, some (.word _) => return (label, ← word)
  | _, _ => return (.none, first)

/-- Takes the rest of a type that begins with a word: the types of keys and values of a map, or
nothing. -/
def keyAndType (first : String) : Reading (Option String × String) := do
  match first, ← peek with
  | "map", some .openAngle =>
    expect .openAngle
    let key ← word
    expect .comma
    let value ← word
    expect .closeAngle
    return (some key, value)
  | _, _ => return (none, first)

/-- Takes a field behind its first word. -/
def field (first : String) : Reading Field := do
  let (label, first) ← labelAndType first
  let (key?, type) ← keyAndType first
  let name ← word
  expect .equals
  let _ ← int
  let settings ← fieldSettings
  expect .semicolon
  return {
    name, settings
    type := .reference type
    repeated := key?.isSome || label = .repeated
    optional := label = .optional
    keyType := key?.map .reference }

/-- Takes a member of an enum behind its name. -/
def member (name : String) : Reading Field := do
  expect .equals
  let number ← int
  let settings ← fieldSettings
  expect .semicolon
  return { name, settings, type := .primitive .unformatted, first := number = 0 }

/-- Takes an enum behind its keyword. Of two members with one name the first one stays. -/
def enum : Reading Message := do
  let name ← word
  expect .openBrace
  block (.strayInEnum · name) (fun e first => do
    if first = "option" || first = "reserved" then
      skipStatement
      return e
    else return e.addField (← member first)) { name, isEnum := true }

/-- Takes a message behind its keyword. No two fields may have one name. -/
def message : Reading Message := do
  let name ← word
  expect .openBrace
  block (.strayInMessage · name) (fun m first => do
    match first with
    | "enum" => return m.addEnum (← enum)
    | "message" => fail (.nestedMessage name)
    | "option" | "reserved" =>
      skipStatement
      return m
    | first =>
      match m.addField? (← field first) with
      | some m => return m
      | none => fail (.duplicateField name)) { name }

end DiscoveryGrpc.Proto.Reading
