import DiscoveryGrpc.Proto.Lexeme
import DiscoveryGrpc.Proto.Pieces
import DiscoveryGrpc.Proto.Reading.File
import DiscoveryGrpc.Proto.Resolution

/-!
# Proto files as text

Writing a file is writing its pieces one after another. Reading one has three steps: the text is cut
into tokens, the tokens are read into a file whose types are references, and the references are
resolved. The lines of the tokens matter only for the place in a message.
-/

namespace DiscoveryGrpc.Proto

/-- The line on which reading stopped with some tokens left: that of the next token, of the last
one at the end of the file, and 0 in a file without tokens. -/
def lineAt (lines : List Nat) (left : Nat) : Nat :=
  (lines[lines.length - left]? <|> lines.getLast?).getD 0

namespace File

/-- The text of a file. -/
def toText (f : File) : String := Piece.writeAll f.pieces

/-- The file that located tokens spell, its types still references. -/
def ofTokens (located : List Lexeme.Located) : Except Fault File :=
  match Reading.file (located.map (·.1)) with
  | .ok (f, _) => .ok f
  | .error stuck => .error (.badSyntax stuck.fault (lineAt (located.map (·.2)) stuck.left))

/-- The file that a text spells. -/
def ofText (text : String) : Except Fault File := do
  let located ← Lexeme.tokens text
  let f ← ofTokens located
  f.resolved

end File

end DiscoveryGrpc.Proto
