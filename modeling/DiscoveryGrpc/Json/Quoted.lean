/-!
# JSON strings

How a text is written between quotes, and how what stands between quotes is read. Writing escapes
quotes, backslashes and controls, and nothing else. Reading takes every escape of the format;
`\u` escapes that spell the two halves of a surrogate pair one after the other are one character,
and a half on its own makes the string unreadable.
-/

namespace DiscoveryGrpc.Json

/-! ## Writing -/

/-- The written form of one character. -/
def escapeChar (c : Char) : List Char :=
  match c with
  | '"' => ['\\', '"']
  | '\\' => ['\\', '\\']
  | '\x08' => ['\\', 'b']
  | '\x0c' => ['\\', 'f']
  | '\n' => ['\\', 'n']
  | '\r' => ['\\', 'r']
  | '\t' => ['\\', 't']
  | c =>
    if c.toNat < 0x20 then
      ['\\', 'u', '0', '0', Nat.digitChar (c.toNat / 16), Nat.digitChar (c.toNat % 16)]
    else [c]

/-- A text between quotes. -/
def quote (s : String) : String :=
  String.ofList ('"' :: s.toList.flatMap escapeChar ++ ['"'])

/-! ## Reading -/

/-- One thing that a string spells. -/
inductive Spelled
  | char (c : Char)
  /-- Half of a surrogate pair. -/
  | half (unit : Nat)

/-- The value of a hexadecimal digit. -/
def hexDigit? (c : Char) : Option Nat :=
  if c.isDigit then some (c.toNat - '0'.toNat)
  else if 'a' ≤ c && c ≤ 'f' then some (c.toNat - 'a'.toNat + 10)
  else if 'A' ≤ c && c ≤ 'F' then some (c.toNat - 'A'.toNat + 10)
  else none

/-- What a `\u` escape with these four digits spells. -/
def unicodeEscape? (a b c d : Char) : Option Spelled := do
  let unit := (((← hexDigit? a) * 16 + (← hexDigit? b)) * 16 + (← hexDigit? c)) * 16
    + (← hexDigit? d)
  return if 0xd800 ≤ unit && unit < 0xe000 then .half unit else .char (Char.ofNat unit)

/-- The character that a one letter escape stands for. -/
def escaped? : Char → Option Char
  | '"' => some '"'
  | '\\' => some '\\'
  | '/' => some '/'
  | 'b' => some '\x08'
  | 'f' => some '\x0c'
  | 'n' => some '\n'
  | 'r' => some '\r'
  | 't' => some '\t'
  | _ => none

/-- What stands before the closing quote, and what follows that quote. -/
def spelled? : List Char → Option (List Spelled × List Char)
  | [] => none
  | '"' :: cs => some ([], cs)
  | '\\' :: 'u' :: a :: b :: c :: d :: cs => do
    let x ← unicodeEscape? a b c d
    let (xs, rest) ← spelled? cs
    return (x :: xs, rest)
  | '\\' :: e :: cs => do
    let c ← escaped? e
    let (xs, rest) ← spelled? cs
    return (.char c :: xs, rest)
  | c :: cs =>
    if c.toNat < 0x20 || c == '\\' then none
    else do
      let (xs, rest) ← spelled? cs
      return (.char c :: xs, rest)

/-- The character of a surrogate pair. -/
def pair? (high low : Nat) : Option Char :=
  if high < 0xdc00 && 0xdc00 ≤ low then
    some (Char.ofNat (0x10000 + (high - 0xd800) * 0x400 + (low - 0xdc00)))
  else none

/-- The text that is spelled, unless a half is left over. -/
def joinHalves? : List Spelled → Option (List Char)
  | [] => some []
  | .char c :: xs => (joinHalves? xs).map (c :: ·)
  | .half high :: .half low :: xs => do
    let c ← pair? high low
    return c :: (← joinHalves? xs)
  | .half _ :: _ => none

end DiscoveryGrpc.Json
