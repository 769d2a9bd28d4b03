import DiscoveryGrpc.Proto.Reading.Basic
import DiscoveryGrpc.Proto.Setting

/-!
# Reading options

An option is a name, in parentheses if it is dotted, and a value: one scalar, or entries between
braces. Commas and semicolons between entries may stand anywhere and may be missing. Options of a
field stand between brackets, separated by commas.
-/

namespace DiscoveryGrpc.Proto.Reading

/-- Takes the name of an option. -/
def settingName : Reading String := do
  match ← peek with
  | some .openParen =>
    expect .openParen
    let name ← word
    expect .closeParen
    return name
  | _ => word

/-- The value that a bare word stands for. -/
def wordValue : String → SettingValue
  | "true" => .bool true
  | "false" => .bool false
  | name => .literal name

/-- Takes a scalar value. -/
def settingValue : Reading SettingValue := do
  match ← peek with
  | some (.text _) => return .string (← string)
  | some (.int _) => return .int (← int)
  | some (.word _) => return wordValue (← word)
  | found? => fail (.noOptionValue found?)

/-- Takes the entries of an option through the closing brace. -/
def settingEntries : Reading (List (String × SettingValue)) :=
  loop (fun entries => do
    match ← peek with
    | some .closeBrace =>
      expect .closeBrace
      return .done entries
    | some .comma =>
      expect .comma
      return .again entries
    | some .semicolon =>
      expect .semicolon
      return .again entries
    | _ =>
      let key ← word
      expect .colon
      let value ← settingValue
      return .again (entries ++ [(key, value)])) []

/-- Takes an option. -/
def setting : Reading Setting := do
  let name ← settingName
  expect .equals
  match ← peek with
  | some .openBrace =>
    expect .openBrace
    return .group name (← settingEntries)
  | _ => return .scalar name (← settingValue)

/-- Takes the options of a field, if there are any. -/
def fieldSettings : Reading (List Setting) := do
  match ← peek with
  | some .openBracket =>
    expect .openBracket
    loop (fun settings => do
      let s ← setting
      let more ← take .strayInOptions fun
        | .comma => some true
        | .closeBracket => some false
        | _ => none
      let settings := settings ++ [s]
      return if more then .again settings else .done settings) []
  | _ => return []

end DiscoveryGrpc.Proto.Reading
