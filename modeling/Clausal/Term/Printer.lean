import Clausal.Layout
import Clausal.Telescope

/-!
# Printing of terms

Distinct variables may share a name, so a printer gives each variable it meets
a display name of its own: the variable's name, with a number added if that is
taken.  Names are given in the order in which the parts of a term are written,
and a naming lives as long as the texts that are to be read together.
-/

namespace Clausal

/-- Display names given so far, the latest first. -/
structure Naming where
  given : List (Var × String) := []
deriving Repr, Inhabited

abbrev Print := StateM Naming

namespace Naming

def nameOf? (names : Naming) (v : Var) : Option String :=
  (names.given.find? fun entry => entry.1 == v).map (·.2)

def isUsed (names : Naming) (s : String) : Bool := names.given.any fun entry => entry.2 == s

/-- What a variable is called if nothing else is. -/
def base (v : Var) : String := if v.name.isUnderscore then "x" else v.name

/-- The first unused of `base_2`, `base_3`, …, looking at `tries` of them from
number `n` on. -/
def numbered (names : Naming) (base : String) : (tries n : Nat) → String
  | 0, n => base ++ "_" ++ toString n
  | tries + 1, n =>
      let candidate := base ++ "_" ++ toString n
      if names.isUsed candidate then numbered names base tries (n + 1) else candidate

/-- The display name for a variable that has none.  One of as many numbered
names as there are names in use, and one more, is unused. -/
def choose (names : Naming) (v : Var) : String :=
  if names.isUsed (base v) then names.numbered (base v) names.given.length 2 else base v

end Naming

namespace Print

/-- The display name of a variable, given now if it has none. -/
def varName (v : Var) : Print String := fun names =>
  match names.nameOf? v with
  | some s => (s, names)
  | none =>
      let s := names.choose v
      (s, ⟨(v, s) :: names.given⟩)

def var (v : Var) : Print Doc := return .text (← varName v)

/-- Name the variables of a telescope in order. -/
def bindTelescope (Γ : Telescope) : Print Unit :=
  Γ.forM fun entry => discard (varName entry.1)

end Print

/-- How tightly a position binds. -/
inductive Prec where
  | top
  | function
  | app
  | atomic
deriving DecidableEq, Repr

namespace Prec

def level : Prec → Nat
  | .top => 0
  | .function => 1
  | .app => 2
  | .atomic => 3

/-- Whether a position needs parentheses around something that binds at `inner`. -/
def needsParens (outer inner : Prec) : Bool := inner.level < outer.level

end Prec

namespace Print

def indent : Nat := 4

def width : Nat := 80

def parens (wrap : Bool) (doc : Doc) : Doc :=
  if wrap then .concat [.text "(", doc, .text ")"] else doc

/-- Documents between two delimiters, each on a line of its own. -/
def block (opening : Doc) (docs : List Doc) (closing : Doc) : Doc :=
  if docs.isEmpty then .concat [opening, .space, closing]
  else .concat
    [opening,
     .nest indent (.concat (docs.map fun doc => .concat [.hardline, doc, .text ","])),
     .hardline, closing]

mutual

/-- The document of a term at a position. -/
def term (prec : Prec) : Term → Print Doc
  | .univ => return .text "Type"
  | .var v => var v
  | .global name => return .text name
  | .pi v dom cod => do
      if cod.occurs v then
        let name ← var v
        let type ← term .top dom
        let body ← term .function cod
        let param := Doc.concat
          [.text "(", name, .space, .text ":", .space, type, .text ")", .space, .text "->"]
        return parens (prec.needsParens .function) (.concat [.group param, .softline, body])
      else
        let type ← term .app dom
        let body ← term .function cod
        return parens (prec.needsParens .function)
          (.concat [type, .softline, .text "->", .softline, body])
  | .lam v dom body => do
      let name ← var v
      let type ← term .top dom
      let body ← term .function body
      let param := Doc.concat
        [.text "fun", .space, .text "(", name, .space, .text ":", .space, type, .text ")",
         .space, .text "=>"]
      return parens (prec.needsParens .function)
        (.group (.concat [.group param, .nest indent .line, .nest indent body]))
  | .app head arg => do
      let head ← term .app head
      let arg ← term .atomic arg
      return parens (prec.needsParens .app)
        (.group (.concat [head, .nest indent .line, .nest indent arg]))
  | .ann t type => do
      let t ← term .function t
      let type ← term .top type
      return .concat
        [.text "(", t, .space, .text ":", .softline, type, .text ")"]
  | .case scrut bs => do
      let scrut ← term .atomic scrut
      let docs ← branches bs
      return block (.concat [.text "case", .space, scrut, .space, .text "\x7b"]) docs
        (.text "\x7d")
  | .absurd scrut => do
      let scrut ← term .atomic scrut
      return parens (prec.needsParens .app) (.concat [.text "absurd", .space, scrut])

def branches : Branches → Print (List Doc)
  | .nil => return []
  | .cons ctor fields body rest => do
      let fields ← fields.mapM var
      let body ← term .top body
      let doc := Doc.group (.concat
        [.intersperse .space (.text ctor :: fields), .space, .text "=>",
         .nest indent .line, .nest indent body])
      let docs ← branches rest
      return doc :: docs

end

/-- The text of a term at the usual width. -/
def render (t : Term) : Print String := do
  return (← term .top t).render (some width)

/-- Each entry of a telescope as `x : A`. -/
def renderTelescope (Γ : Telescope) : Print (List String) :=
  Γ.mapM fun entry => do
    let name ← var entry.1
    let type ← term .top entry.2
    return (Doc.concat [name, .space, .text ":", .space, type]).render (some width)

/-- Print with no names given yet. -/
def fresh {α : Type} (p : Print α) : α := (p.run {}).1

/-- Print with the variables of a telescope named first. -/
def within {α : Type} (Γ : Telescope) (p : Print α) : α :=
  fresh do
    bindTelescope Γ
    p

end Print
end Clausal
