import DiscoveryGrpc.Proto.Layout
import DiscoveryGrpc.Proto.Imports
import DiscoveryGrpc.Proto.Numbering
import DiscoveryGrpc.Config.Basic

/-!
# The pieces of a proto file

A file is laid out in a fixed order: a header that says where it came from, the syntax, the package,
the imports, the options, then messages and services by name. Descriptions become comments in front
of what they describe.
-/

namespace DiscoveryGrpc.Proto

open Piece (word space newline layout)

/-- One level of indentation. -/
def indentUnit : String := "  "

/-! ## Options -/

/-- The token of a value. -/
def SettingValue.token : SettingValue → Token
  | string s => .text s
  | bool true => .word "true"
  | bool false => .word "false"
  | int i => .int i
  | literal w => .word w

namespace Setting

/-- The name of an option, in parentheses if it is custom. -/
def namePieces (s : Setting) : List Piece :=
  if s.isCustom then [.token .openParen, word s.name, .token .closeParen] else [word s.name]

/-- The line of a named value. -/
def entryPieces (indent : String) (entry : String × SettingValue) : List Piece :=
  [layout (indent ++ indentUnit), word entry.1, .token .colon, space, .token entry.2.token,
    newline]

/-- What an option is set to. Named values stand on lines of their own, one level deeper than the
option. -/
def bodyPieces (indent : String) : SettingBody → List Piece
  | .scalar v => [.token v.token]
  | .group entries =>
    [.token .openBrace, newline] ++ entries.flatMap (entryPieces indent)
      ++ [layout indent, .token .closeBrace]

/-- An option with its value. -/
def pieces (indent : String) (s : Setting) : List Piece :=
  s.namePieces ++ [space, .token .equals, space] ++ bodyPieces indent s.body

/-- An option as a statement on a line of its own. -/
def statement (indent : String) (s : Setting) : List Piece :=
  [layout indent, word "option", space] ++ s.pieces indent ++ [.token .semicolon, newline]

/-- The options of a field between brackets, if it has any. -/
def brackets : List Setting → List Piece
  | [] => []
  | s :: ss =>
    [space, .token .openBracket] ++ s.pieces ""
      ++ ss.flatMap (fun s => [.token .comma, space] ++ s.pieces "") ++ [.token .closeBracket]

end Setting

/-! ## Messages and enums -/

/-- A number, options and the end of a statement. -/
def numberPieces (number : Nat) (settings : List Setting) : List Piece :=
  [space, .token .equals, space, .token (.int number)] ++ Setting.brackets settings
    ++ [.token .semicolon, newline]

namespace Field

/-- The label and type of a field. A map says with its type that it is repeated. -/
def typePieces (f : Field) : List Piece :=
  match f.keyType with
  | some key =>
    [word "map", .token .openAngle, word key.name, .token .comma, space, word f.type.name,
      .token .closeAngle]
  | none =>
    let label := if f.repeated then [word "repeated", space]
      else if f.optional then [word "optional", space] else []
    label ++ [word f.type.name]

/-- A field of a message with its number. -/
def pieces (number : Nat) (f : Field) : List Piece :=
  Piece.comment indentUnit f.description ++ [layout indentUnit] ++ f.typePieces
    ++ [space, word f.name] ++ numberPieces number f.settings

/-- A member of an enum with its number. -/
def memberPieces (indent : String) (number : Nat) (f : Field) : List Piece :=
  Piece.comment indent f.description ++ [layout indent, word f.name]
    ++ numberPieces number f.settings

end Field

namespace Message

/-- A nested enum, its members by number. -/
def enumPieces (indent : String) (e : Message) : List Piece :=
  Piece.comment indent e.description
    ++ [layout indent, word "enum", space, word e.name, space, .token .openBrace, newline]
    ++ e.numberedAscending.flatMap (fun (n, f) => f.memberPieces (indent ++ indentUnit) n)
    ++ [layout indent, .token .closeBrace, newline]

/-- The fields of a message in order, with an empty line between them. -/
def fieldPieces (numbers : Table Nat) : List Field → List Piece
  | [] => []
  | f :: fs =>
    let number (f : Field) : Nat := (numbers.get? f.name).getD 0
    f.pieces (number f) ++ fs.flatMap fun f => newline :: f.pieces (number f)

/-- A message with its enums and fields. -/
def pieces (m : Message) : List Piece :=
  Piece.comment "" m.description
    ++ [word "message", space, word m.name, space, .token .openBrace, newline]
    ++ (Table.values m.enums).flatMap (fun e => e.enumPieces indentUnit ++ [newline])
    ++ fieldPieces m.numbersByName m.fields
    ++ [.token .closeBrace, newline, newline]

end Message

/-! ## Services -/

namespace Rpc

/-- The options of an rpc in a block, or a semicolon if there are none. -/
def bodyPieces : List Setting → List Piece
  | [] => [.token .semicolon, newline]
  | settings =>
    [space, .token .openBrace, newline]
      ++ settings.flatMap (Setting.statement (indentUnit ++ indentUnit))
      ++ [layout indentUnit, .token .closeBrace, newline]

/-- A method of a service. -/
def pieces (r : Rpc) : List Piece :=
  Piece.comment indentUnit r.description
    ++ [layout indentUnit, word "rpc", space, word r.name, .token .openParen, word r.input,
      .token .closeParen, space, word "returns", space, .token .openParen, word r.output,
      .token .closeParen]
    ++ bodyPieces r.settings

end Rpc

/-- A service with its options and methods. -/
def Service.pieces (s : Service) : List Piece :=
  Piece.comment "" s.description
    ++ [word "service", space, word s.name, space, .token .openBrace, newline]
    ++ s.settings.flatMap (Setting.statement indentUnit)
    ++ s.rpcs.values.flatMap (fun r => newline :: r.pieces)
    ++ [.token .closeBrace, newline, newline]

/-! ## Files -/

/-- The lines that say where a file came from, as far as it is known. -/
def Source.pieces (s : Source) : List Piece :=
  [("Source file", s.filename), ("Source API name", s.name), ("Source API version", s.version),
    ("Source API revision", s.revision)].filterMap fun (label, value) =>
      if value.isEmpty then none else some (layout s!"// {label}: {value}\n")

namespace File

/-- The title over a group of definitions. -/
def heading (title : String) : Piece := layout s!"//\n// {title}\n//\n"

/-- Pieces with an empty line behind them, if there are any. -/
def paragraph : List Piece → List Piece
  | [] => []
  | ps => ps ++ [newline]

/-- Definitions under a heading, if there are any. -/
def underHeading (title : String) : List (List Piece) → List Piece
  | [] => []
  | definitions => heading title :: definitions.flatten

/-- The package of a file, if it has one. -/
def packagePieces (f : File) : List Piece :=
  if f.package.isEmpty then []
  else [word "package", space, word f.package, .token .semicolon, newline, newline]

/-- An import. -/
def importPieces (name : String) : List Piece :=
  [word "import", space, .token (.text name), .token .semicolon, newline]

/-- A file. -/
def pieces (f : File) : List Piece :=
  [layout s!"// Generated by the discovery proto converter {Config.currentVersion}. DO NOT EDIT!\n"]
    ++ f.source.pieces
    ++ [newline, word "syntax", space, .token .equals, space, .token (.text "proto3"),
      .token .semicolon, newline, newline]
    ++ f.packagePieces
    ++ paragraph (f.imports.flatMap importPieces)
    ++ paragraph (f.settings.flatMap (Setting.statement ""))
    ++ underHeading "Messages" (f.messages.values.map Message.pieces)
    ++ underHeading "Services" (f.services.values.map Service.pieces)

/-- The tokens of a file. -/
def tokens (f : File) : List Token := Piece.tokens f.pieces

end File

end DiscoveryGrpc.Proto
