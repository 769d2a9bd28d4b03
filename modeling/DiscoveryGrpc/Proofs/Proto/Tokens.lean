import DiscoveryGrpc.Proofs.Proto.Spacing

/-!
# What the parts of a file spell

The tokens of a written part, without the layout between them. Descriptions and the indentation
have no part in these. Each definition follows the pieces of the same part, and `tokens_pieces`
beside it says that these are the tokens among the pieces; `File.tokens_eq` says it for whole
files. Reading is about these lists of tokens alone.
-/

namespace DiscoveryGrpc.Proto

open Piece (word space newline layout)

theorem Piece.tokens_flatMap {α : Type} (f : α → List Piece) (xs : List α) :
    tokens (xs.flatMap f) = xs.flatMap fun x => tokens (f x) :=
  List.filterMap_flatMap

@[simp]
theorem Piece.tokens_word (name : String) (ps : List Piece) :
    tokens (word name :: ps) = .word name :: tokens ps := rfl

@[simp]
theorem Piece.tokens_space (ps : List Piece) : tokens (space :: ps) = tokens ps := rfl

@[simp]
theorem Piece.tokens_newline (ps : List Piece) : tokens (newline :: ps) = tokens ps := rfl

@[simp]
theorem Piece.tokens_comment (indent description : String) :
    tokens (comment indent description) = [] := by
  rw [comment, tokens, List.filterMap_map, List.filterMap_eq_nil_iff]
  intro line _
  rw [Function.comp_apply]
  split <;> rfl

/-! ## Options -/

namespace Setting

/-- The tokens of the name of an option. -/
def nameTokens (s : Setting) : List Token :=
  if s.isCustom then [.openParen, .word s.name, .closeParen] else [.word s.name]

/-- The tokens of a named value. -/
def entryTokens (entry : String × SettingValue) : List Token :=
  [.word entry.1, .colon, entry.2.token]

/-- The tokens of what an option is set to. -/
def bodyTokens : SettingBody → List Token
  | .scalar v => [v.token]
  | .group entries => .openBrace :: entries.flatMap entryTokens ++ [Token.closeBrace]

/-- The tokens of an option. -/
def tokens (s : Setting) : List Token := s.nameTokens ++ .equals :: bodyTokens s.body

/-- The tokens of an option as a statement. -/
def statementTokens (s : Setting) : List Token := .word "option" :: s.tokens ++ [Token.semicolon]

/-- The tokens of options between brackets. -/
def bracketTokens : List Setting → List Token
  | [] => []
  | s :: ss =>
    .openBracket :: s.tokens ++ ss.flatMap (fun s => .comma :: s.tokens) ++ [Token.closeBracket]

theorem tokens_namePieces (s : Setting) : Piece.tokens s.namePieces = s.nameTokens := by
  rw [namePieces, nameTokens]
  split <;> rfl

theorem tokens_entryPieces (indent : String) (entry : String × SettingValue) :
    Piece.tokens (entryPieces indent entry) = entryTokens entry := rfl

theorem tokens_bodyPieces (indent : String) (b : SettingBody) :
    Piece.tokens (bodyPieces indent b) = bodyTokens b := by
  cases b with
  | scalar v => rfl
  | group entries => simp [bodyPieces, bodyTokens, Piece.tokens_flatMap, tokens_entryPieces]

theorem tokens_pieces (indent : String) (s : Setting) :
    Piece.tokens (s.pieces indent) = s.tokens := by
  simp [pieces, tokens, tokens_namePieces, tokens_bodyPieces]

theorem tokens_statement (indent : String) (s : Setting) :
    Piece.tokens (s.statement indent) = s.statementTokens := by
  simp [statement, statementTokens, tokens_pieces]

theorem tokens_brackets (ss : List Setting) : Piece.tokens (brackets ss) = bracketTokens ss := by
  cases ss with
  | nil => rfl
  | cons s ss => simp [brackets, bracketTokens, Piece.tokens_flatMap, tokens_pieces]

end Setting

/-! ## Messages and enums -/

/-- The tokens of a number, options and the end of a statement. -/
def numberTokens (number : Nat) (settings : List Setting) : List Token :=
  .equals :: .int number :: Setting.bracketTokens settings ++ [Token.semicolon]

theorem tokens_numberPieces (number : Nat) (settings : List Setting) :
    Piece.tokens (numberPieces number settings) = numberTokens number settings := by
  simp [numberPieces, numberTokens, Setting.tokens_brackets]

namespace Field

/-- The tokens of the label and type of a field. -/
def typeTokens (f : Field) : List Token :=
  match f.keyType with
  | some key =>
    [.word "map", .openAngle, .word key.name, .comma, .word f.type.name, .closeAngle]
  | none =>
    if f.repeated then [.word "repeated", .word f.type.name]
    else if f.optional then [.word "optional", .word f.type.name]
    else [.word f.type.name]

/-- The tokens of a field of a message. -/
def tokens (number : Nat) (f : Field) : List Token :=
  f.typeTokens ++ .word f.name :: numberTokens number f.settings

/-- The tokens of a member of an enum. -/
def memberTokens (number : Nat) (f : Field) : List Token :=
  .word f.name :: numberTokens number f.settings

theorem tokens_typePieces (f : Field) : Piece.tokens f.typePieces = f.typeTokens := by
  unfold typePieces typeTokens
  cases f.keyType with
  | some key => rfl
  | none => cases f.repeated <;> cases f.optional <;> rfl

theorem tokens_pieces (number : Nat) (f : Field) :
    Piece.tokens (f.pieces number) = f.tokens number := by
  simp [pieces, tokens, tokens_typePieces, tokens_numberPieces]

theorem tokens_memberPieces (indent : String) (number : Nat) (f : Field) :
    Piece.tokens (f.memberPieces indent number) = f.memberTokens number := by
  simp [memberPieces, memberTokens, tokens_numberPieces]

end Field

namespace Message

/-- The tokens of a nested enum behind its keyword. -/
def enumTokens (e : Message) : List Token :=
  .word e.name :: .openBrace :: e.numberedAscending.flatMap (fun x => x.2.memberTokens x.1)
    ++ [Token.closeBrace]

/-- The number that a message has for a field. -/
def numberOf (m : Message) (f : Field) : Nat := (m.numbersByName.get? f.name).getD 0

/-- The tokens of a message behind its keyword. -/
def tokens (m : Message) : List Token :=
  .word m.name :: .openBrace :: (Table.values m.enums).flatMap (fun e => .word "enum" :: e.enumTokens)
    ++ m.fields.flatMap (fun f => f.tokens (m.numberOf f)) ++ [Token.closeBrace]

theorem tokens_enumPieces (indent : String) (e : Message) :
    Piece.tokens (e.enumPieces indent) = .word "enum" :: e.enumTokens := by
  simp [enumPieces, enumTokens, Piece.tokens_flatMap, Field.tokens_memberPieces]

theorem tokens_fieldPieces (m : Message) (fs : List Field) :
    Piece.tokens (fieldPieces m.numbersByName fs) = fs.flatMap fun f => f.tokens (m.numberOf f) := by
  cases fs with
  | nil => rfl
  | cons f fs => simp [fieldPieces, Piece.tokens_flatMap, Field.tokens_pieces, numberOf]

theorem tokens_pieces (m : Message) :
    Piece.tokens m.pieces = .word "message" :: m.tokens := by
  simp [pieces, tokens, Piece.tokens_flatMap, tokens_enumPieces, tokens_fieldPieces]

end Message

/-! ## Services -/

namespace Rpc

/-- The tokens of the options of an rpc. -/
def bodyTokens : List Setting → List Token
  | [] => [.semicolon]
  | settings => .openBrace :: settings.flatMap Setting.statementTokens ++ [Token.closeBrace]

/-- The tokens of an rpc behind its keyword. -/
def tokens (r : Rpc) : List Token :=
  [.word r.name, .openParen, .word r.input, .closeParen, .word "returns", .openParen,
    .word r.output, .closeParen] ++ bodyTokens r.settings

theorem tokens_bodyPieces (ss : List Setting) : Piece.tokens (bodyPieces ss) = bodyTokens ss := by
  cases ss with
  | nil => rfl
  | cons s ss =>
    simp [bodyPieces, bodyTokens, Piece.tokens_flatMap, Setting.tokens_statement]

theorem tokens_pieces (r : Rpc) : Piece.tokens r.pieces = .word "rpc" :: r.tokens := by
  simp [pieces, tokens, tokens_bodyPieces]

end Rpc

namespace Service

/-- The tokens of a service behind its keyword. -/
def tokens (s : Service) : List Token :=
  .word s.name :: .openBrace :: s.settings.flatMap Setting.statementTokens
    ++ s.rpcs.values.flatMap (fun r => .word "rpc" :: r.tokens) ++ [Token.closeBrace]

theorem tokens_pieces (s : Service) : Piece.tokens s.pieces = .word "service" :: s.tokens := by
  simp [pieces, tokens, Piece.tokens_flatMap, Setting.tokens_statement, Rpc.tokens_pieces]

end Service

/-! ## Files -/

@[simp]
theorem Source.tokens_pieces (s : Source) : Piece.tokens s.pieces = [] := by
  refine List.filterMap_eq_nil_iff.2 fun p hp => ?_
  obtain ⟨⟨label, value⟩, -, hl⟩ := List.mem_filterMap.1 hp
  obtain ⟨-, hp⟩ := Option.ite_none_left_eq_some.1 hl
  exact Option.some.inj hp ▸ rfl

namespace File

/-- The tokens of the package of a file, if it has one. -/
def packageTokens (f : File) : List Token :=
  if f.package.isEmpty then [] else [.word "package", .word f.package, .semicolon]

/-- The tokens of an import. -/
def importTokens (name : String) : List Token := [.word "import", .text name, .semicolon]

theorem tokens_importPieces (name : String) :
    Piece.tokens (importPieces name) = importTokens name := rfl

theorem tokens_packagePieces (f : File) : Piece.tokens f.packagePieces = f.packageTokens := by
  rw [packagePieces, packageTokens]
  split <;> rfl

@[simp]
theorem tokens_paragraph (ps : List Piece) : Piece.tokens (paragraph ps) = Piece.tokens ps := by
  unfold paragraph
  split <;> simp

@[simp]
theorem tokens_underHeading (title : String) (definitions : List (List Piece)) :
    Piece.tokens (underHeading title definitions) = definitions.flatMap Piece.tokens := by
  unfold underHeading
  split
  · rfl
  · rw [heading, Piece.tokens_layout, Piece.tokens, List.filterMap_flatten, List.flatMap_def]
    rfl

/-- The tokens of a file are those of its parts, one after another. -/
theorem tokens_eq (f : File) :
    f.tokens = [Token.word "syntax", .equals, .text "proto3", .semicolon] ++ (f.packageTokens
      ++ (f.imports.flatMap importTokens ++ (f.settings.flatMap Setting.statementTokens
      ++ (f.messages.values.flatMap (fun m => .word "message" :: m.tokens)
      ++ f.services.values.flatMap (fun s => .word "service" :: s.tokens))))) := by
  simp [tokens, pieces, Piece.tokens_flatMap, tokens_packagePieces, tokens_importPieces,
    Setting.tokens_statement, List.flatMap_map, Message.tokens_pieces, Service.tokens_pieces]

end File

end DiscoveryGrpc.Proto
