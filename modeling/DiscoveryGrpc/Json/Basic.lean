import DiscoveryGrpc.Table

/-!
# JSON values

A JSON text is read into a tree that keeps the members of an object in the order of the text,
repeated names included; what repetition means is up to the reader of the tree. Numbers keep their
literal.

A string may spell half of a surrogate pair, which no text can hold. Such a value is well formed,
so it may stand where a value is passed over, but it cannot be read: it becomes `unreadable`.

A record is a value with a fixed list of keys. It is written as an object, where unknown keys are
passed over, whatever they hold, and a known key may stand only once; or as an array of the values
of all keys in their order. A map is an object whose names are data: of a repeated name the last
value stays, but every value has to be readable.

A value that is read may only nest so deep. The budget is the number of levels that are left: each
array or object that is read takes one, what is passed over takes none.
-/

namespace DiscoveryGrpc

/-- A JSON value. -/
inductive Json
  | null
  | bool (value : Bool)
  | number (literal : String)
  | string (value : String)
  | array (elements : List Json)
  | object (members : List (String × Json))
  /-- A string that is no text, or an object with such a name among its own. -/
  | unreadable

namespace Json

/-! ## Records -/

/-- The number of levels that a text may nest, the outermost value included. -/
def depthLimit : Nat := 127

/-- The values of a record by key. -/
abbrev Record := List (String × Json)

/-- The record with these keys that a value holds. An array gives the values of at least the first
`least` keys. -/
def record? (keys : List String) (least : Nat) : Json → Option Record
  | object members =>
    let known := members.filter fun m => keys.contains m.1
    if (known.map (·.1)).Nodup then some known else none
  | array elements =>
    if least ≤ elements.length && elements.length ≤ keys.length then some (keys.zip elements)
    else none
  | _ => none

namespace Record

/-- The value of a key that has to be there. -/
def required (r : Record) (key : String) (read : Json → Option α) : Option α := do
  read (← r.lookup key)

/-- The value of a key, or a default when the key is absent. -/
def orElse (r : Record) (key : String) (default : α) (read : Json → Option α) : Option α :=
  match r.lookup key with
  | none => some default
  | some v => read v

/-- The value of a key, if there is one; `null` counts as none. -/
def optional (r : Record) (key : String) (read : Json → Option α) : Option (Option α) :=
  match r.lookup key with
  | none | some .null => some none
  | some v => (read v).map some

end Record

/-! ## Values of one kind -/

/-- A text. -/
def text? : Json → Option String
  | string s => some s
  | _ => none

/-- A truth value. -/
def flag? : Json → Option Bool
  | bool b => some b
  | _ => none

/-- A list, within a budget of levels. -/
def list? (read : Json → Option α) : Nat → Json → Option (List α)
  | _ + 1, array elements => elements.mapM read
  | _, _ => none

/-- A map, within a budget of levels. -/
def table? (read : Json → Option α) : Nat → Json → Option (Table α)
  | _ + 1, object members => do
    let entries ← members.mapM fun (name, v) => (read v).map (name, ·)
    return Table.ofList entries
  | _, _ => none

end Json

end DiscoveryGrpc
