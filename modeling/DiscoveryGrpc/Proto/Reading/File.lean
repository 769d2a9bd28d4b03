import DiscoveryGrpc.Proto.Reading.Message
import DiscoveryGrpc.Proto.Reading.Service
import DiscoveryGrpc.Proto.File

/-!
# Reading files

A file is a sequence of statements in any order. Imports are skipped, since they follow from what
the file uses. Of two messages or services with one name the later one stays, and so does the later
of two packages.
-/

namespace DiscoveryGrpc.Proto.Reading

/-- Takes a statement of a file behind its keyword. -/
def statement (f : File) : String → Reading File
  | "syntax" => do
    expect .equals
    let name ← string
    if name ≠ "proto3" then fail (.unsupportedSyntax name)
    expect .semicolon
    return f
  | "package" => do
    let package ← word
    expect .semicolon
    return { f with package }
  | "import" => do
    skipStatement
    return f
  | "option" => do
    let s ← setting
    expect .semicolon
    return { f with settings := f.settings ++ [s] }
  | "message" => do
    let m ← message
    return { f with messages := f.messages.insert m.name m }
  | "enum" => fail .topLevelEnum
  | "service" => do
    let s ← service
    return { f with services := f.services.insert s.name s }
  | other => fail (.strayWord other)

/-- Takes all statements of a file. -/
def file : Reading File :=
  loop (fun f => do
    match ← peek with
    | none => return .done f
    | some _ => return .again (← statement f (← word))) {}

end DiscoveryGrpc.Proto.Reading
