import DiscoveryGrpc.Proto.Reading.File

/-!
# The grammar of proto files

What the tokens of a proto file can be, whatever the names in it mean:

    file    = { 'syntax' '=' strings ';' | 'package' id ';' | 'import' skip | 'option' opt ';'
              | 'message' message | 'service' service }
    strings = one or more literals
    skip    = any tokens but ';' up to the first ';'
    opt     = (id | '(' id ')') '=' (value | '{' { ',' | ';' | id ':' value } '}')
    value   = strings | int | id
    message = id '{' { ';' | ignored | 'enum' enum | field } '}'
    ignored = ('option' | 'reserved') skip
    field   = type id '=' int [opts] ';'
    type    = id | map | ('optional' | 'repeated') (id | map)
    map     = 'map' '<' id ',' id '>'
    opts    = '[' opt { ',' opt } ']'
    enum    = id '{' { ';' | ignored | id '=' int [opts] ';' } '}'
    service = id '{' { ';' | 'option' opt ';' | 'rpc' rpc } '}'
    rpc     = id '(' id ')' 'returns' '(' id ')' (';' | '{' { ';' | 'option' opt ';' } '}')

The literals of a syntax statement make up `proto3`. A type that is one word is none of `enum`,
`message`, `option`, `reserved`, `optional` and `repeated`, a member of an enum is neither `option`
nor `reserved`, and no rpc takes or gives `stream`.

A derivation is a tree with a type for each of these. `tokens` are the leaves of a tree and `value`
is what it stands for, with types that are not resolved yet. The grammar says nothing about names
that are there twice; a message in which two fields have one name has no meaning
(`File.FieldsDistinct`).
-/

namespace DiscoveryGrpc.Proto.Grammar

/-! ## Options -/

/-- One or more literals, which are one string. -/
structure Literals where
  first : String
  more : List String
  deriving DecidableEq

/-- Tokens through the first semicolon. -/
structure Skipped where
  body : List Token
  semicolon_notMem : .semicolon ∉ body
  deriving DecidableEq

/-- A value of an option. -/
inductive Value
  | strings (s : Literals)
  | int (i : Int)
  | word (name : String)
  deriving DecidableEq

/-- What can stand between the braces of an option. -/
inductive Entry
  | comma
  | semicolon
  | pair (key : String) (value : Value)
  deriving DecidableEq

/-- What an option is set to. -/
inductive SettingBody
  | scalar (value : Value)
  | group (entries : List Entry)
  deriving DecidableEq

/-- An option. -/
structure Setting where
  name : String
  /-- Whether the name stands between parentheses. -/
  enclosed : Bool
  body : SettingBody
  deriving DecidableEq

namespace Literals

def tokens (s : Literals) : List Token := (s.first :: s.more).map .text

def value (s : Literals) : String := s.more.foldl (· ++ ·) s.first

end Literals

def Skipped.tokens (s : Skipped) : List Token := s.body ++ [Token.semicolon]

namespace Value

def tokens : Value → List Token
  | strings s => s.tokens
  | int i => [.int i]
  | word name => [.word name]

def value : Value → SettingValue
  | strings s => .string s.value
  | int i => .int i
  | word name => Reading.wordValue name

end Value

namespace Entry

def tokens : Entry → List Token
  | comma => [.comma]
  | semicolon => [.semicolon]
  | pair key value => .word key :: .colon :: value.tokens

def value? : Entry → Option (String × SettingValue)
  | pair key value => some (key, value.value)
  | _ => none

end Entry

namespace SettingBody

def tokens : SettingBody → List Token
  | scalar value => value.tokens
  | group entries => .openBrace :: entries.flatMap Entry.tokens ++ [Token.closeBrace]

def value : SettingBody → Proto.SettingBody
  | scalar value => .scalar value.value
  | group entries => .group (entries.filterMap Entry.value?)

end SettingBody

namespace Setting

def nameTokens (s : Setting) : List Token :=
  if s.enclosed then [.openParen, .word s.name, .closeParen] else [.word s.name]

def tokens (s : Setting) : List Token := s.nameTokens ++ .equals :: s.body.tokens

/-- The tokens of an option behind its keyword. -/
def restTokens (s : Setting) : List Token := s.tokens ++ [Token.semicolon]

/-- The tokens of options between brackets. -/
def bracketTokens : List Setting → List Token
  | [] => []
  | s :: ss =>
    .openBracket :: s.tokens ++ ss.flatMap (fun s => .comma :: s.tokens) ++ [Token.closeBracket]

def value (s : Setting) : Proto.Setting := ⟨s.name, s.body.value⟩

end Setting

/-! ## Blocks -/

/-- What stands between the braces of a definition; a semicolon is `none`. -/
abbrev Block (α : Type) := List (Option α)

namespace Block

variable {α : Type}

/-- The tokens of one entry. -/
def entryTokens (tokens : α → List Token) : Option α → List Token
  | none => [.semicolon]
  | some x => tokens x

def tokens (tokens : α → List Token) (b : Block α) : List Token :=
  .openBrace :: b.flatMap (entryTokens tokens) ++ [Token.closeBrace]

/-- What is defined in a block, in order. -/
def items (b : Block α) : List α := b.filterMap id

@[simp]
theorem items_concat_none (b : Block α) : items (b ++ [none]) = b.items := by
  simp [items]

@[simp]
theorem items_concat_some (b : Block α) (x : α) : items (b ++ [some x]) = b.items ++ [x] := by
  simp [items]

end Block

/-- A statement of a message or an enum that is not looked at. -/
structure Ignored where
  keyword : String
  keyword_mem : keyword ∈ ["option", "reserved"]
  skipped : Skipped
  deriving DecidableEq

def Ignored.tokens (x : Ignored) : List Token := .word x.keyword :: x.skipped.tokens

/-! ## Enums -/

/-- A member of an enum. -/
structure Member where
  name : String
  name_notMem : name ∉ ["option", "reserved"]
  number : Int
  settings : List Setting
  deriving DecidableEq

/-- What can stand in an enum. -/
inductive EnumItem
  | ignored (x : Ignored)
  | member (x : Member)
  deriving DecidableEq

/-- An enum behind its keyword. -/
structure Enum where
  name : String
  block : Block EnumItem
  deriving DecidableEq

/-- The tokens of a field or a member behind its name. -/
def numberTokens (number : Int) (settings : List Setting) : List Token :=
  .equals :: .int number :: Setting.bracketTokens settings ++ [Token.semicolon]

namespace Member

def tokens (x : Member) : List Token := .word x.name :: numberTokens x.number x.settings

def value (x : Member) : Proto.Field where
  name := x.name
  type := .primitive .unformatted
  settings := x.settings.map Setting.value
  first := x.number = 0

end Member

namespace EnumItem

def tokens : EnumItem → List Token
  | ignored x => x.tokens
  | member x => x.tokens

def member? : EnumItem → Option Member
  | member x => some x
  | ignored _ => none

end EnumItem

namespace Enum

def tokens (e : Enum) : List Token := .word e.name :: e.block.tokens EnumItem.tokens

def members (e : Enum) : List Member := e.block.items.filterMap EnumItem.member?

/-- Of two members with one name the first one stays. -/
def value (e : Enum) : Proto.Message :=
  (e.members.map Member.value).foldl Proto.Message.addField { name := e.name, isEnum := true }

end Enum

/-! ## Messages -/

/-- What can stand before a type. -/
inductive Label
  | optional
  | repeated
  deriving DecidableEq

/-- The type of a field. -/
inductive FieldType
  | plain (name : String)
      (name_notMem : name ∉ ["enum", "message", "option", "reserved", "optional", "repeated"])
  | map (key value : String)
  | labelled (label : Label) (name : String)
  | labelledMap (label : Label) (key value : String)
  deriving DecidableEq

/-- A field. -/
structure Field where
  type : FieldType
  name : String
  number : Int
  settings : List Setting
  deriving DecidableEq

/-- What can stand in a message. -/
inductive MessageItem
  | ignored (x : Ignored)
  | enum (e : Enum)
  | field (x : Field)
  deriving DecidableEq

/-- A message behind its keyword. -/
structure Message where
  name : String
  block : Block MessageItem
  deriving DecidableEq

def Label.word : Label → String
  | optional => "optional"
  | repeated => "repeated"

namespace FieldType

/-- The word that a type begins with. -/
def firstWord : FieldType → String
  | plain name _ => name
  | map _ _ => "map"
  | labelled label _ => label.word
  | labelledMap label _ _ => label.word

/-- The tokens between the angle brackets of a map, and the brackets. -/
def angleTokens (key value : String) : List Token :=
  [.openAngle, .word key, .comma, .word value, .closeAngle]

/-- The tokens behind the first word. -/
def restTokens : FieldType → List Token
  | plain _ _ => []
  | map key value => angleTokens key value
  | labelled _ name => [.word name]
  | labelledMap _ key value => .word "map" :: angleTokens key value

def label? : FieldType → Option Label
  | plain _ _ | map _ _ => none
  | labelled label _ | labelledMap label _ _ => some label

/-- The type of the keys, if there is one. -/
def key? : FieldType → Option String
  | plain _ _ | labelled _ _ => none
  | map key _ | labelledMap _ key _ => some key

/-- The type of the values. -/
def valueName : FieldType → String
  | plain name _ | labelled _ name => name
  | map _ value | labelledMap _ _ value => value

end FieldType

namespace Field

/-- The tokens of a field behind its first word. -/
def restTokens (x : Field) : List Token :=
  x.type.restTokens ++ .word x.name :: numberTokens x.number x.settings

def tokens (x : Field) : List Token := .word x.type.firstWord :: x.restTokens

def value (x : Field) : Proto.Field where
  name := x.name
  type := .reference x.type.valueName
  repeated := x.type.key?.isSome || x.type.label? = some .repeated
  optional := x.type.label? = some .optional
  keyType := x.type.key?.map .reference
  settings := x.settings.map Setting.value

end Field

namespace MessageItem

def tokens : MessageItem → List Token
  | ignored x => x.tokens
  | enum e => .word "enum" :: e.tokens
  | field x => x.tokens

def enum? : MessageItem → Option Enum
  | enum e => some e
  | _ => none

def field? : MessageItem → Option Field
  | field x => some x
  | _ => none

end MessageItem

namespace Message

def tokens (m : Message) : List Token := .word m.name :: m.block.tokens MessageItem.tokens

def enums (m : Message) : List Enum := m.block.items.filterMap MessageItem.enum?

def fields (m : Message) : List Field := m.block.items.filterMap MessageItem.field?

/-- No two fields have one name. -/
def FieldsDistinct (m : Message) : Prop := (m.fields.map (·.name)).Nodup

instance (m : Message) : Decidable m.FieldsDistinct :=
  inferInstanceAs (Decidable (m.fields.map (·.name)).Nodup)

/-- The fields are put in order one after another. -/
def value (m : Message) : Proto.Message where
  name := m.name
  fields := Field.sort (m.fields.map Field.value).reverse
  enums := Table.ofList (m.enums.map fun e => (e.name, e.value))

end Message

/-! ## Services -/

/-- An rpc behind its keyword, with a block or without. -/
structure Rpc where
  name : String
  input : String
  output : String
  input_ne : input ≠ "stream"
  output_ne : output ≠ "stream"
  block? : Option (Block Setting)
  deriving DecidableEq

/-- What can stand in a service. -/
inductive ServiceItem
  | setting (s : Setting)
  | rpc (r : Rpc)
  deriving DecidableEq

/-- A service behind its keyword. -/
structure Service where
  name : String
  block : Block ServiceItem
  deriving DecidableEq

/-- The tokens of an option of a service or an rpc. -/
def Setting.statementTokens (s : Setting) : List Token := .word "option" :: s.restTokens

namespace Rpc

def bodyTokens : Option (Block Setting) → List Token
  | none => [.semicolon]
  | some b => b.tokens Setting.statementTokens

def tokens (r : Rpc) : List Token :=
  [.word r.name, .openParen, .word r.input, .closeParen, .word "returns", .openParen,
    .word r.output, .closeParen] ++ bodyTokens r.block?

def settings (r : Rpc) : List Setting := (r.block?.map Block.items).getD []

def value (r : Rpc) : Proto.Rpc where
  name := r.name
  input := r.input
  output := r.output
  settings := r.settings.map Setting.value

end Rpc

namespace ServiceItem

def tokens : ServiceItem → List Token
  | setting s => s.statementTokens
  | rpc r => .word "rpc" :: r.tokens

def setting? : ServiceItem → Option Setting
  | setting s => some s
  | rpc _ => none

def rpc? : ServiceItem → Option Rpc
  | rpc r => some r
  | setting _ => none

end ServiceItem

namespace Service

def tokens (s : Service) : List Token := .word s.name :: s.block.tokens ServiceItem.tokens

def settings (s : Service) : List Setting := s.block.items.filterMap ServiceItem.setting?

def rpcs (s : Service) : List Rpc := s.block.items.filterMap ServiceItem.rpc?

def value (s : Service) : Proto.Service where
  name := s.name
  settings := s.settings.map Setting.value
  rpcs := Table.ofList (s.rpcs.map fun r => (r.name, r.value))

end Service

/-! ## Files -/

/-- A statement of a file. -/
inductive Statement
  /-- The syntax that the file is written in. -/
  | proto3 (s : Literals) (value_eq : s.value = "proto3")
  | package (name : String)
  /-- An import. -/
  | imported (s : Skipped)
  | setting (s : Setting)
  | message (m : Message)
  | service (s : Service)
  deriving DecidableEq

/-- A file. -/
abbrev File := List Statement

namespace Statement

def tokens : Statement → List Token
  | proto3 s _ => .word "syntax" :: .equals :: s.tokens ++ [Token.semicolon]
  | package name => [.word "package", .word name, .semicolon]
  | imported s => .word "import" :: s.tokens
  | setting s => s.statementTokens
  | message m => .word "message" :: m.tokens
  | service s => .word "service" :: s.tokens

def package? : Statement → Option String
  | package name => some name
  | _ => none

def setting? : Statement → Option Setting
  | setting s => some s
  | _ => none

def message? : Statement → Option Message
  | message m => some m
  | _ => none

def service? : Statement → Option Service
  | service s => some s
  | _ => none

end Statement

namespace File

def tokens (f : File) : List Token := f.flatMap Statement.tokens

def packages (f : File) : List String := f.filterMap Statement.package?

def settings (f : File) : List Setting := f.filterMap Statement.setting?

def messages (f : File) : List Message := f.filterMap Statement.message?

def services (f : File) : List Service := f.filterMap Statement.service?

/-- No message has two fields of one name. -/
def FieldsDistinct (f : File) : Prop := ∀ m ∈ f.messages, m.FieldsDistinct

instance (f : File) : Decidable f.FieldsDistinct :=
  inferInstanceAs (Decidable (∀ m ∈ f.messages, m.FieldsDistinct))

/-- Of two packages, messages or services with one name the later one stays. -/
def value (f : File) : Proto.File where
  package := f.packages.getLast?.getD ""
  settings := f.settings.map Setting.value
  messages := Table.ofList (f.messages.map fun m => (m.name, m.value))
  services := Table.ofList (f.services.map fun s => (s.name, s.value))

end File

/-- Tokens are those of a file, in which no message has two fields of one name. -/
def Derives (ts : List Token) : Prop := ∃ f : File, f.tokens = ts ∧ f.FieldsDistinct

end DiscoveryGrpc.Proto.Grammar
