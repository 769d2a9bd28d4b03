import DiscoveryGrpc.Text.Quoted

/-!
# Tokens of a proto file

The words of the definition language as far as the generated files use it. `Token.label` is how a
token is shown in a message.
-/

namespace DiscoveryGrpc.Proto

/-- One token. -/
inductive Token
  | openBrace
  | closeBrace
  | openParen
  | closeParen
  | openBracket
  | closeBracket
  | openAngle
  | closeAngle
  | semicolon
  | equals
  | comma
  | colon
  /-- A string literal, by its content. -/
  | text (content : String)
  | int (value : Int)
  /-- A keyword or a possibly dotted identifier. -/
  | word (name : String)
  deriving DecidableEq, Repr

namespace Token

/-- How a token is shown in a message. -/
def label : Token → String
  | openBrace => "Open"
  | closeBrace => "Close"
  | openParen => "ParenOpen"
  | closeParen => "ParenClose"
  | openBracket => "BracketOpen"
  | closeBracket => "BracketClose"
  | openAngle => "AngleOpen"
  | closeAngle => "AngleClose"
  | semicolon => "Semicolon"
  | equals => "Equals"
  | comma => "Comma"
  | colon => "Colon"
  | text content => s!"Str({Text.quote content})"
  | int value => s!"Int({value})"
  | word name => s!"Ident({Text.quote name})"

/-- How a place where a token may be missing is shown in a message. -/
def labelOfOption : Option Token → String
  | none => "None"
  | some t => s!"Some({t.label})"

end Token

end DiscoveryGrpc.Proto
