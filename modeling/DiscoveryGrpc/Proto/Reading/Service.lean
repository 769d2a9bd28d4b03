import DiscoveryGrpc.Proto.Reading.Setting
import DiscoveryGrpc.Proto.Service

/-!
# Reading services

A service has options and rpcs; of two rpcs with one name the later one stays. An rpc ends with a
semicolon or with a block that holds nothing but options. Streams are not supported.
-/

namespace DiscoveryGrpc.Proto.Reading

/-- Takes the word before the output of an rpc. -/
def returns (rpc : String) : Reading Unit := do
  let ts ← get
  if (← word) ≠ "returns" then
    set ts
    fail (.noReturns rpc)

/-- Takes the name of a message between parentheses. -/
def parenthesized : Reading String := do
  expect .openParen
  let name ← word
  expect .closeParen
  return name

/-- Takes the options of an rpc through the closing brace. -/
def rpcSettings (rpc : String) : Reading (List Setting) :=
  loop (fun settings => do
    let next ← take (.strayInRpc · rpc) fun
      | .word name => if name = "option" then some (.word name) else none
      | t => Entry.ofToken? t
    match next with
    | .close => return .done settings
    | .blank => return .again settings
    | .word _ =>
      let s ← setting
      expect .semicolon
      return .again (settings ++ [s])) []

/-- Takes an rpc behind its keyword. -/
def rpc : Reading Rpc := do
  let name ← word
  let input ← parenthesized
  returns name
  let output ← parenthesized
  if input = "stream" || output = "stream" then fail (.streamingRpc name)
  let hasBody ← take (.strayAfterRpc · name) fun
    | .semicolon => some false
    | .openBrace => some true
    | _ => none
  let settings ← if hasBody then rpcSettings name else pure []
  return { name, input, output, settings }

/-- Takes a service behind its keyword. -/
def service : Reading Service := do
  let name ← word
  expect .openBrace
  block (.strayInService · name) (fun s first => do
    match first with
    | "option" =>
      let x ← setting
      expect .semicolon
      return { s with settings := s.settings ++ [x] }
    | "rpc" =>
      let r ← rpc
      return { s with rpcs := s.rpcs.insert r.name r }
    | other => fail (.strayWordInService other name)) { name }

end DiscoveryGrpc.Proto.Reading
