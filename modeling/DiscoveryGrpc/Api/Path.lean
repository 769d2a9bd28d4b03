import DiscoveryGrpc.Name.Identifier

/-!
# Path templates

A path may hold one expansion `{+name}`, a variable that stands for several segments. The flat
path of the same method spells these segments out. `normalizePath` finds the part of the flat path
that the expansion stands for and makes it the pattern of the variable, with `*` for each group in
braces: `v1/{+name}:stop` and `v1/projects/{projectsId}:stop` give `v1/{name=projects/*}:stop`.

Each search below takes the leftmost match. A brace that no brace closes is an ordinary character.
-/

namespace DiscoveryGrpc.Api

namespace Path

/-- Characters up to the first closing brace and those after it, if there is such a brace. -/
def untilBrace? (cs : List Char) : Option (List Char × List Char) :=
  match cs.span (· != '\x7d') with
  | (inner, _ :: rest) => some (inner, rest)
  | (_, []) => none

/-- The variable of an expansion that a text begins with, and what follows. -/
def expansionHere? : List Char → Option (List Char × List Char)
  | '\x7b' :: '+' :: cs =>
    match untilBrace? cs with
    | some ([], _) | none => none
    | some (name, rest) => some (name, rest)
  | _ => none

/-- A path cut at its first expansion. -/
structure Expansion where
  before : List Char
  /-- The variable as it is written. -/
  name : List Char
  after : List Char
  deriving DecidableEq, Repr

/-- The first expansion of a path. -/
def firstExpansion? : List Char → Option Expansion
  | [] => none
  | c :: cs =>
    match expansionHere? (c :: cs) with
    | some (name, after) => some ⟨[], name, after⟩
    | none => (firstExpansion? cs).map fun e => { e with before := c :: e.before }

/-- Whether a path has an expansion. -/
def hasExpansion (path : String) : Bool := (firstExpansion? path.toList).isSome

/-- The text with every group from an opening brace to the next closing one replaced by `*`. Of a
group that is still open, `held` has the characters, last one first. -/
def starGroupsFrom : (held : Option (List Char)) → List Char → List Char
  | none, [] => []
  | some held, [] => held.reverse
  | none, c :: cs =>
    if c = '\x7b' then starGroupsFrom (some [c]) cs else c :: starGroupsFrom none cs
  | some held, c :: cs =>
    if c = '\x7d' then '*' :: starGroupsFrom none cs else starGroupsFrom (some (c :: held)) cs

/-- The text with every group from an opening brace to the next closing one replaced by `*`. -/
def starGroups (cs : List Char) : List Char := starGroupsFrom none cs

/-- What stands between a beginning and an end that do not overlap. -/
def between? (before after cs : List Char) : Option (List Char) :=
  if before.isPrefixOf cs then
    let rest := cs.drop before.length
    if after.isSuffixOf rest then some (rest.take (rest.length - after.length)) else none
  else none

/-- There is something between a beginning and an end exactly if the text is made of the three. -/
theorem between?_eq_some_iff {before after cs middle : List Char} :
    between? before after cs = some middle ↔ cs = before ++ middle ++ after := by
  unfold between?
  constructor
  · intro h
    split at h
    · rename_i hb
      obtain ⟨rest, rfl⟩ := List.isPrefixOf_iff_prefix.1 hb
      simp only [List.drop_left'] at h
      split at h
      · rename_i ha
        obtain ⟨m, rfl⟩ := List.isSuffixOf_iff_suffix.1 ha
        simp_all
      · simp at h
    · simp at h
  · rintro rfl
    simp [List.isPrefixOf_iff_prefix, List.isSuffixOf_iff_suffix]

/-- The path with expansions written as plain variables. -/
def withoutPlus : List Char → List Char
  | '\x7b' :: '+' :: cs => '\x7b' :: withoutPlus cs
  | c :: cs => c :: withoutPlus cs
  | [] => []

end Path

/-- The flat path in which the part that the expansion of the path stands for is the pattern of its
variable. Without an expansion it is the flat path as it is. -/
def normalizePath (path flatPath : String) : Except Fault String :=
  match Path.firstExpansion? path.toList with
  | none => .ok flatPath
  | some e =>
    if (Path.firstExpansion? e.after).isSome then .error (.manyExpansions path)
    else match Path.between? e.before e.after flatPath.toList with
      | none => .error (.flatPathMismatch flatPath path)
      | some middle =>
        let name := (Name.ofIdentifier (String.ofList e.name)).lowerUnderscoreChars
        .ok (String.ofList (e.before ++ '\x7b' :: name ++ '=' :: Path.starGroups middle
          ++ '\x7d' :: e.after))

/-- The path to use where a method has no flat path. -/
def plainPath (path : String) : String := String.ofList (Path.withoutPlus path.toList)

end DiscoveryGrpc.Api
