import DiscoveryGrpc.Json.Basic
import DiscoveryGrpc.Json.Quoted

/-!
# Writing JSON

The compact form has no white space at all; the pretty form has one member or element a line,
indented by two spaces a level, and a space after each colon. Members keep their order.
-/

namespace DiscoveryGrpc.Json

/-- The text of a truth value. -/
def boolText (b : Bool) : String := if b then "true" else "false"

mutual

/-- The compact text of a value. -/
def compact : Json → String
  | null | unreadable => "null"
  | bool b => boolText b
  | number literal => literal
  | string s => quote s
  | array elements => "[" ++ ",".intercalate (compactElements elements) ++ "]"
  | object members => "\x7b" ++ ",".intercalate (compactMembers members) ++ "\x7d"

/-- The compact texts of elements. -/
def compactElements : List Json → List String
  | [] => []
  | v :: vs => compact v :: compactElements vs

/-- The compact texts of members. -/
def compactMembers : List (String × Json) → List String
  | [] => []
  | (name, v) :: ms => (quote name ++ ":" ++ compact v) :: compactMembers ms

end

/-- A line break, and the indentation of a level. -/
def newline (level : Nat) : String := "\n" ++ String.ofList (List.replicate (2 * level) ' ')

/-- Texts on lines of their own between brackets; brackets around nothing stay together. -/
def block (opening closing : String) (level : Nat) (items : List String) : String :=
  if items.isEmpty then opening ++ closing
  else
    let inner := newline (level + 1)
    opening ++ inner ++ ("," ++ inner).intercalate items ++ newline level ++ closing

mutual

/-- The pretty text of a value that starts on a line of the level. -/
def prettyAt (level : Nat) : Json → String
  | null | unreadable => "null"
  | bool b => boolText b
  | number literal => literal
  | string s => quote s
  | array elements => block "[" "]" level (prettyElements (level + 1) elements)
  | object members => block "\x7b" "\x7d" level (prettyMembers (level + 1) members)

/-- The pretty texts of elements. -/
def prettyElements (level : Nat) : List Json → List String
  | [] => []
  | v :: vs => prettyAt level v :: prettyElements level vs

/-- The pretty texts of members. -/
def prettyMembers (level : Nat) : List (String × Json) → List String
  | [] => []
  | (name, v) :: ms => (quote name ++ ": " ++ prettyAt level v) :: prettyMembers level ms

end

/-- The pretty text of a value. -/
def pretty (v : Json) : String := prettyAt 0 v

end DiscoveryGrpc.Json
