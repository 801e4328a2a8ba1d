/-!
# Names

Names of globals, constructors and binders are plain texts.  Generated
definitions get dotted names under the name of the definition they belong to.
-/

namespace Clausal

abbrev Name := String

namespace Name

/-- The name of binders that are not meant to be referred to. -/
def underscore : Name := "_"

def isUnderscore (name : Name) : Bool := name == underscore

/-- A name of something generated for `name`, such as `length.equation_1`. -/
def qualify (name : Name) (suffix : String) : Name := name ++ "." ++ suffix

/-- Generated names are dotted; they are never offered as corrections. -/
def isQualified (name : Name) : Bool := name.toList.contains '.'

/-- Letters in turn, then letters with a number: `a`, …, `z`, `a1`, … -/
def alphabetic (index : Nat) : Name :=
  let letter := Char.ofNat ('a'.toNat + index % 26)
  let round := index / 26
  if round = 0 then letter.toString else letter.toString ++ toString round

end Name
end Clausal
