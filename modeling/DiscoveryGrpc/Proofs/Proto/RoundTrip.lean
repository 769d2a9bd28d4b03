import DiscoveryGrpc.Proofs.Proto.Resolution

/-!
# Writing a file and reading it again

The text of a writable file is read back (`File.ofText_toText_eq`): its pieces are cut into its
tokens, these are read into the file without its types, and the types are looked up by name. The
file that comes out is the one that was written, up to descriptions and source, if no enum shadows
a message (`File.exists_ofText_toText`).
-/

namespace DiscoveryGrpc.Proto

namespace File

/-- The text of a writable file is read back as the file with the types that their names mean. -/
theorem ofText_toText_eq {f : File} (hf : f.Writable) : ofText f.toText = .ok f.reread := by
  obtain ⟨located, hlocated, htokens⟩ := hf.legible.exists_tokens (Source.tokens?_text hf.source)
  have hread : ofTokens located = .ok f.unresolved := by
    rw [ofTokens, htokens, Reading.file_tokens hf.legible hf.clear]
  rw [ofText, hlocated]
  change (ofTokens located >>= fun f => f.resolved) = _
  rw [hread]
  exact resolved_unresolved hf

/-- Writing a file and reading it again gives the same file, whatever its descriptions say. -/
theorem exists_ofText_toText {f : File} (hf : f.Writable) (hs : f.Unshadowed) :
    ∃ g, ofText f.toText = .ok g ∧ g.same f = true :=
  ⟨f.reread, ofText_toText_eq hf, same_reread_iff.2 hs⟩

/-- A file with an enum, a map, a message as a type, and a method. -/
def lakes : File where
  package := "lakes.v1"
  messages := [("Lake", {
    name := "Lake"
    description := "A lake.\n*/ */"
    fields := [
      { name := "depths", type := .primitive .double, keyType := some (.primitive .string),
        repeated := true },
      { name := "inflow", type := .message "Lake", optional := true },
      { name := "state", type := .enum "State", settings := [Setting.required] }]
    enums := [("State", {
      name := "State"
      isEnum := true
      fields := [
        { name := "UNDEFINED_STATE", type := .primitive .unformatted, first := true },
        { name := "ICE", type := .primitive .unformatted, description := "Frozen." }] })] })]
  services := [("Lakes", {
    name := "Lakes"
    settings := [Setting.string Setting.defaultHost "lakes.example\""]
    rpcs := [("Get", {
      name := "Get"
      input := "Lake"
      output := "Lake"
      settings := [Setting.group Setting.http [("get", .string "/lakes")]] })] })]

theorem exists_ofText_toText_lakes :
    lakes.Writable ∧ lakes.Unshadowed ∧ ∃ g, ofText lakes.toText = .ok g ∧ g.same lakes = true :=
  have hf : lakes.Writable := by decide +kernel
  have hs : lakes.Unshadowed := by decide +kernel
  ⟨hf, hs, exists_ofText_toText hf hs⟩

end File

end DiscoveryGrpc.Proto
