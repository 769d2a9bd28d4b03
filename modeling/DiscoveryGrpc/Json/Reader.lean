import DiscoveryGrpc.Json.Basic
import DiscoveryGrpc.Json.Quoted

/-!
# Reading JSON

A text is cut into tokens, among which white space no longer shows, and the tokens are read into a
tree. Both steps are as strict as the format: no comments, no trailing commas, no superfluous
zeros, no raw controls in strings, and nothing but white space around the one value.
-/

namespace DiscoveryGrpc.Json

/-- A token of a JSON text. -/
inductive Token
  | beginObject
  | endObject
  | beginArray
  | endArray
  | comma
  | colon
  | null
  | true
  | false
  | number (literal : String)
  /-- A string, with its text if it is one. -/
  | string (value? : Option String)

/-! ## Tokens -/

/-- White space between tokens. -/
def isSpace (c : Char) : Bool := c == ' ' || c == '\t' || c == '\n' || c == '\r'

/-- At least one digit, and what follows. -/
def digits? (cs : List Char) : Option (List Char × List Char) :=
  match cs.span Char.isDigit with
  | ([], _) => none
  | (ds, rest) => some (ds, rest)

/-- The integer part of a number: a zero, or digits that do not begin with one. -/
def integerPart? : List Char → Option (List Char × List Char)
  | '0' :: cs => some (['0'], cs)
  | cs => digits? cs

/-- The fraction of a number, if it has one. -/
def fractionPart? : List Char → Option (List Char × List Char)
  | '.' :: cs => do
    let (ds, rest) ← digits? cs
    return ('.' :: ds, rest)
  | cs => some ([], cs)

/-- The sign of an exponent. -/
def exponentSign : List Char → List Char × List Char
  | '+' :: cs => (['+'], cs)
  | '-' :: cs => (['-'], cs)
  | cs => ([], cs)

/-- The exponent of a number, if it has one. -/
def exponentPart? : List Char → Option (List Char × List Char)
  | c :: cs =>
    if c == 'e' || c == 'E' then do
      let (sign, cs) := exponentSign cs
      let (ds, rest) ← digits? cs
      return (c :: sign ++ ds, rest)
    else some ([], c :: cs)
  | [] => some ([], [])

/-- A number without its sign. -/
def unsigned? (cs : List Char) : Option (List Char × List Char) := do
  let (i, cs) ← integerPart? cs
  let (f, cs) ← fractionPart? cs
  let (e, cs) ← exponentPart? cs
  return (i ++ f ++ e, cs)

/-- The token at the start of a text that does not begin with white space. -/
def token? : List Char → Option (Token × List Char)
  | '\x7b' :: cs => some (.beginObject, cs)
  | '\x7d' :: cs => some (.endObject, cs)
  | '[' :: cs => some (.beginArray, cs)
  | ']' :: cs => some (.endArray, cs)
  | ',' :: cs => some (.comma, cs)
  | ':' :: cs => some (.colon, cs)
  | 'n' :: 'u' :: 'l' :: 'l' :: cs => some (.null, cs)
  | 't' :: 'r' :: 'u' :: 'e' :: cs => some (.true, cs)
  | 'f' :: 'a' :: 'l' :: 's' :: 'e' :: cs => some (.false, cs)
  | '"' :: cs => do
    let (xs, rest) ← spelled? cs
    return (.string ((joinHalves? xs).map String.ofList), rest)
  | '-' :: cs => do
    let (n, rest) ← unsigned? cs
    return (.number (String.ofList ('-' :: n)), rest)
  | cs => do
    let (n, rest) ← unsigned? cs
    return (.number (String.ofList n), rest)

/-- The tokens of a text after those in `seen`, last one first. Every step takes a character, so
`fuel` beyond the length of the text is never used up. -/
def tokensFrom (fuel : Nat) (seen : List Token) (cs : List Char) : Option (List Token) :=
  match fuel, cs with
  | _, [] => some seen.reverse
  | 0, _ => none
  | fuel + 1, c :: cs =>
    if isSpace c then tokensFrom fuel seen cs
    else match token? (c :: cs) with
      | none => none
      | some (t, rest) => tokensFrom fuel (t :: seen) rest

/-- The tokens of a text. -/
def tokens? (s : String) : Option (List Token) :=
  let cs := s.toList
  tokensFrom cs.length [] cs

/-! ## Trees -/

/-- The object with these members, unless one of the names is no text. -/
def ofMembers (members : List (Option String × Json)) : Json :=
  match members.mapM fun (name?, value) => name?.map (·, value) with
  | some ms => object ms
  | none => unreadable

mutual

/-- The value at the start of some tokens. -/
def value? : Nat → List Token → Option (Json × List Token)
  | 0, _ => none
  | _ + 1, .null :: ts => some (null, ts)
  | _ + 1, .true :: ts => some (bool .true, ts)
  | _ + 1, .false :: ts => some (bool .false, ts)
  | _ + 1, .number literal :: ts => some (number literal, ts)
  | _ + 1, .string (some s) :: ts => some (string s, ts)
  | _ + 1, .string none :: ts => some (unreadable, ts)
  | _ + 1, .beginArray :: .endArray :: ts => some (array [], ts)
  | n + 1, .beginArray :: ts => (elements? n ts).map fun (vs, rest) => (array vs, rest)
  | _ + 1, .beginObject :: .endObject :: ts => some (object [], ts)
  | n + 1, .beginObject :: ts => (members? n ts).map fun (ms, rest) => (ofMembers ms, rest)
  | _ + 1, _ => none

/-- At least one element, up to the end of the array. -/
def elements? : Nat → List Token → Option (List Json × List Token)
  | 0, _ => none
  | n + 1, ts =>
    match value? n ts with
    | some (v, .comma :: ts) => (elements? n ts).map fun (vs, rest) => (v :: vs, rest)
    | some (v, .endArray :: ts) => some ([v], ts)
    | _ => none

/-- At least one member, up to the end of the object. -/
def members? : Nat → List Token → Option (List (Option String × Json) × List Token)
  | 0, _ => none
  | n + 1, .string name? :: .colon :: ts =>
    match value? n ts with
    | some (v, .comma :: ts) => (members? n ts).map fun (ms, rest) => ((name?, v) :: ms, rest)
    | some (v, .endObject :: ts) => some ([(name?, v)], ts)
    | _ => none
  | _ + 1, _ => none

end

/-- The value that some tokens spell. Every second step at least takes a token, so the bound on
the depth of the recursion is never reached. -/
def ofTokens? (ts : List Token) : Option Json :=
  match value? (2 * ts.length + 1) ts with
  | some (v, []) => some v
  | _ => none

/-- The value that a text spells. -/
def ofText? (s : String) : Option Json := do ofTokens? (← tokens? s)

end DiscoveryGrpc.Json
