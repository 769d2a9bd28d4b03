import DiscoveryGrpc.Api.Path

/-!
# Http templates

The http rule of an rpc is a template: the path of the method with its plain variables `{name}`
named as fields. A variable with a pattern, `{name=pattern}`, stays as it is. The pattern of the
first such variable, if collections and `*` alternate in it, defines a resource.
-/

namespace DiscoveryGrpc.Conversion

namespace Template

/-! ## Plain variables -/

/-- Characters of a plain variable. -/
def isVariableChar (c : Char) : Bool := c.isAlphanum || c == '_' || c == '.' || c == '-'

/-- A part of a template. -/
inductive Part
  | char (c : Char)
  | plain (name : List Char)
  deriving DecidableEq, Repr

/-- Text that turned out to be no variable, held back behind a brace. -/
def released (held : List Char) : List Part := .char '\x7b' :: held.reverse.map .char

/-- The parts of a template. Behind an opening brace, `held` has the characters of what may become
a variable, last one first. -/
def partsFrom : (held : Option (List Char)) → List Char → List Part
  | none, [] => []
  | some held, [] => released held
  | none, c :: cs => if c = '\x7b' then partsFrom (some []) cs else .char c :: partsFrom none cs
  | some held, c :: cs =>
    if isVariableChar c then partsFrom (some (c :: held)) cs
    else if c = '\x7d' && !held.isEmpty then .plain held.reverse :: partsFrom none cs
    else if c = '\x7b' then released held ++ partsFrom (some []) cs
    else released held ++ .char c :: partsFrom none cs

/-- The parts of a template. -/
def parts (template : String) : List Part := partsFrom none template.toList

/-- A part with its variable named as a field. -/
def Part.withFieldName : Part → Except Fault (List Char)
  | .char c => .ok [c]
  | .plain name => do
    let field ← fieldName (String.ofList name)
    return '\x7b' :: field.toList ++ ['\x7d']

/-- The template with every plain variable named as a field. -/
def withFieldNames (template : String) : Except Fault String := do
  return String.ofList (← (parts template).mapM Part.withFieldName).flatten

/-! ## Patterns -/

/-- Characters of a variable with a pattern. -/
def isPatternNameChar (c : Char) : Bool := c.isLower || c.isDigit || c == '_'

/-- The pattern of the variable that a text begins with. -/
def patternHere? : List Char → Option (List Char)
  | '\x7b' :: cs =>
    match cs.span isPatternNameChar with
    | (_ :: _, '=' :: rest) =>
      match Api.Path.untilBrace? rest with
      | some ([], _) | none => none
      | some (pattern, _) => some pattern
    | _ => none
  | _ => none

/-- The first pattern of a template. -/
def firstPattern? : List Char → Option (List Char)
  | [] => none
  | c :: cs =>
    match patternHere? (c :: cs) with
    | some pattern => some pattern
    | none => firstPattern? cs

/-- The collections of a pattern in which collections and `*` alternate. -/
def collections? : List (List Char) → Option (List (List Char))
  | [] => some []
  | [_] => none
  | collection :: star :: rest =>
    if star == ['*'] && collection != ['*'] && !collection.contains '\x7b' then
      (collections? rest).map (collection :: ·)
    else none

end Template

end DiscoveryGrpc.Conversion
