import DiscoveryGrpc.Proto.Token
import DiscoveryGrpc.Text.Split

/-!
# Laying out a proto file

The text of a file is a sequence of pieces: tokens, and between them layout, which is white space
and comments. What a file defines is in its tokens; how it looks is in the layout.
-/

/-! ## White space -/

namespace DiscoveryGrpc.Text

/-- The `White_Space` property of the Unicode standard: controls from tab to carriage return, next
line, and the space separators, line separator and paragraph separator. -/
def isBlank (c : Char) : Bool :=
  let n := c.toNat
  (9 ≤ n && n ≤ 13) || n == 0x20 || n == 0x85 || n == 0xa0 || n == 0x1680 ||
    (0x2000 ≤ n && n ≤ 0x200a) || n == 0x2028 || n == 0x2029 || n == 0x202f || n == 0x205f ||
    n == 0x3000

/-- A line without the white space at its end. -/
def trimEnd (cs : List Char) : List Char :=
  (cs.reverse.dropWhile isBlank).reverse

end DiscoveryGrpc.Text

namespace DiscoveryGrpc.Proto

/-! ## Tokens as text -/

/-- A character as it is written in a string literal. -/
def escapeChar (c : Char) : List Char :=
  match c with
  | '"' => ['\\', '"']
  | '\\' => ['\\', '\\']
  | '\n' => ['\\', 'n']
  | c => [c]

/-- A string literal. -/
def quoteLiteral (s : String) : String :=
  String.ofList ('"' :: s.toList.flatMap escapeChar ++ ['"'])

/-- The text of a token. -/
def Token.write : Token → String
  | openBrace => "\x7b"
  | closeBrace => "\x7d"
  | openParen => "("
  | closeParen => ")"
  | openBracket => "["
  | closeBracket => "]"
  | openAngle => "<"
  | closeAngle => ">"
  | semicolon => ";"
  | equals => "="
  | comma => ","
  | colon => ":"
  | text content => quoteLiteral content
  | int value => toString value
  | word name => name

/-! ## Pieces -/

/-- A piece of a written file. -/
inductive Piece
  | token (t : Token)
  | layout (s : String)
  deriving DecidableEq, Repr

namespace Piece

/-- The text of a piece. -/
def write : Piece → String
  | token t => t.write
  | layout s => s

/-- The token in a piece, if it is one. -/
def token? : Piece → Option Token
  | token t => some t
  | layout _ => none

/-- A word. -/
def word (name : String) : Piece := token (.word name)

/-- One space. -/
def space : Piece := layout " "

/-- The end of a line. -/
def newline : Piece := layout "\n"

/-- The text of pieces in a row. -/
def writeAll (ps : List Piece) : String := String.join (ps.map write)

/-- The tokens of pieces in a row. -/
def tokens (ps : List Piece) : List Token := ps.filterMap token?

/-- A description as comment lines with an indentation. Blank lines keep their slashes. -/
def comment (indent description : String) : List Piece :=
  (Text.lines description).map fun line =>
    match Text.trimEnd line with
    | [] => layout (indent ++ "//\n")
    | cs => layout (indent ++ "// " ++ String.ofList cs ++ "\n")

end Piece

end DiscoveryGrpc.Proto
