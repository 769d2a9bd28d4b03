import DiscoveryGrpc.Fault

/-!
# Names

A name is a list of words, taken from fragments in some casing and rendered in another. Words keep
the letters they were written with, and remember whether they are acronyms, runs of capitals that
one rendering leaves alone. Names are compared by their lower underscore form, in which casing no
longer shows.
-/

namespace DiscoveryGrpc

/-- One word of a name. -/
structure Word where
  letters : List Char
  acronym : Bool := false
  deriving DecidableEq, Repr

namespace Word

/-- A word as a camel cased fragment has it. It is an acronym if it has at least two capitals and
no small letter. -/
def ofCamel (letters : List Char) : Word where
  letters := letters
  acronym := 1 < letters.countP Char.isUpper && !letters.any Char.isLower

/-- A text with its first letter in upper case. -/
def capitalize : List Char → List Char
  | [] => []
  | c :: cs => c.toUpper :: cs

/-- The word in lower case. -/
def lower (w : Word) : List Char := w.letters.map Char.toLower

/-- The word in lower case but for its first letter. -/
def capitalized (w : Word) : List Char := capitalize w.lower

end Word

/-- A name. -/
structure Name where
  words : List Word
  deriving DecidableEq, Repr

namespace Name

/-! ## Names from fragments -/

/-- The words of a fragment that is known to be in the casing. -/
def wordsOf : Casing → List Char → List Word
  | .lowerUnderscore, cs => (Casing.underscoreWords cs).map ({ letters := · })
  | _, cs => (Casing.camelWords cs).map Word.ofCamel

/-- The name of a sequence of fragments, all in the same casing. -/
def ofFragments (casing : Casing) (fragments : List String) : Except Fault Name := do
  let words ← fragments.mapM fun f =>
    if casing.fits f.toList then .ok (wordsOf casing f.toList) else .error (.fragment f casing)
  return ⟨words.flatten⟩

/-- One name after the other, each keeping its words. -/
def append (a b : Name) : Name := ⟨a.words ++ b.words⟩

/-- A name that is one lower case word. -/
def ofWord (word : String) : Name := ⟨[{ letters := word.toList }]⟩

/-- Whether a name has no words. -/
def isEmpty (n : Name) : Bool := n.words.isEmpty

/-! ## Renderings -/

/-- Lower underscore form, as letters. -/
def lowerUnderscoreChars (n : Name) : List Char := ['_'].intercalate (n.words.map Word.lower)

/-- The form `foo_bar`. -/
def lowerUnderscore (n : Name) : String := String.ofList n.lowerUnderscoreChars

/-- The form `FOO_BAR`. -/
def upperUnderscore (n : Name) : String :=
  String.ofList (n.lowerUnderscoreChars.map Char.toUpper)

/-- The form `Foo_bar`. -/
def capitalizedLowerUnderscore (n : Name) : String :=
  String.ofList (Word.capitalize n.lowerUnderscoreChars)

/-- The form `FooBar`. -/
def upperCamel (n : Name) : String := String.ofList (n.words.flatMap Word.capitalized)

/-- The form `fooBar`. -/
def lowerCamel (n : Name) : String :=
  match n.words with
  | [] => ""
  | w :: ws => String.ofList (w.lower ++ ws.flatMap Word.capitalized)

/-- The form `FooBar` with acronyms left in capitals. -/
def upperCamelWithAcronyms (n : Name) : String :=
  String.ofList (n.words.flatMap fun w => if w.acronym then w.letters else w.capitalized)

/-- Whether two names are the same but for casing. -/
def same (a b : Name) : Bool := a.lowerUnderscore == b.lowerUnderscore

end Name

end DiscoveryGrpc
