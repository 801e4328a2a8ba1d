import Clausal.Text.Cluster

/-!
# Layout of documents

A document describes a text together with the places where it may be broken
into lines.  A group is laid out on one line when it fits there together with
what follows it up to the next certain line break; otherwise its own breaks
are taken and its inner groups are tried in turn.
-/

namespace Clausal

/-- Documents. -/
inductive Doc where
  | nil
  | text (s : String)
  | append (left right : Doc)
  /-- The first part when broken over lines, the second on one line. -/
  | flatAlt (broken flat : Doc)
  | group (body : Doc)
  | nest (indent : Nat) (body : Doc)
  | hardline
deriving Repr, Inhabited, DecidableEq

namespace Doc

instance : Append Doc := ⟨Doc.append⟩

/-- A blank that is never broken. -/
def space : Doc := .text " "

/-- A line break, or a blank in a group on one line. -/
def line : Doc := .flatAlt .hardline space

/-- A line break only where what follows would not fit. -/
def softline : Doc := .group line

/-- One document after another. -/
def concat (docs : List Doc) : Doc := docs.foldl .append .nil

/-- Documents with a separator between neighbours. -/
def intersperse (separator : Doc) : List Doc → Doc
  | [] => .nil
  | first :: rest => rest.foldl (fun acc doc => acc ++ separator ++ doc) first

/-- Whether the choices of a document are taken broken or on one line. -/
inductive Mode where
  | broken
  | flat
deriving DecidableEq, Repr

/-- How far a text reaches when it is written from some column. -/
inductive Reach where
  /-- Past the line width. -/
  | tooWide
  /-- To a certain line break within the width. -/
  | lineEnd
  /-- To a column of the same line. -/
  | column (col : Nat)
deriving DecidableEq, Repr

/-- Whether a column lies past the width; there may be no limit. -/
def exceeds (width : Option Nat) (col : Nat) : Bool :=
  match width with
  | none => false
  | some w => w < col

/-- Follow a document on the current line.  A line break inside a part that
was to stand on one line does not fit. -/
def reach (width : Option Nat) : Doc → Mode → Nat → Reach
  | .nil, _, col => .column col
  | .text s, _, col =>
      let next := col + displayWidth s
      if exceeds width next then .tooWide else .column next
  | .append l r, mode, col =>
      match reach width l mode col with
      | .column next => reach width r mode next
      | decided => decided
  | .flatAlt b f, mode, col =>
      match mode with
      | .broken => reach width b mode col
      | .flat => reach width f mode col
  | .group d, mode, col => reach width d mode col
  | .nest _ d, mode, col => reach width d mode col
  | .hardline, .broken, _ => .lineEnd
  | .hardline, .flat, _ => .tooWide

/-- A document is laid out on one line when it and the pending documents after
it stay within the width up to the next certain line break. -/
def fits (width : Option Nat) (doc : Doc) (pending : List Doc) (col : Nat) : Bool :=
  go (reach width doc .flat col) pending
where
  go : Reach → List Doc → Bool
    | .tooWide, _ => false
    | .lineEnd, _ => true
    | .column _, [] => true
    | .column next, d :: ds => go (reach width d .broken next) ds

/-- Text written so far and the column it ends at. -/
structure Output where
  text : String := ""
  col : Nat := 0
deriving Repr, Inhabited

/-- Start a new line with some indentation. -/
def Output.newline (out : Output) (indent : Nat) : Output :=
  ⟨(out.text.push '\n').pushn ' ' indent, indent⟩

def Output.write (out : Output) (s : String) : Output :=
  ⟨out.text ++ s, out.col + displayWidth s⟩

/-- Write a document; `pending` is what follows it. -/
def write (width : Option Nat) :
    Doc → (indent : Nat) → Mode → (pending : List Doc) → Output → Output
  | .nil, _, _, _, out => out
  | .text s, _, _, _, out => out.write s
  | .append l r, indent, mode, pending, out =>
      write width r indent mode pending (write width l indent mode (r :: pending) out)
  | .flatAlt b f, indent, mode, pending, out =>
      match mode with
      | .broken => write width b indent mode pending out
      | .flat => write width f indent mode pending out
  | .group d, indent, .flat, pending, out => write width d indent .flat pending out
  | .group d, indent, .broken, pending, out =>
      if fits width d pending out.col then write width d indent .flat pending out
      else write width d indent .broken pending out
  | .nest n d, indent, mode, pending, out => write width d (indent + n) mode pending out
  | .hardline, indent, _, _, out => out.newline indent

/-- The text of a document at a line width. -/
def render (width : Option Nat) (doc : Doc) : String :=
  (write width doc 0 .broken [] {}).text

end Doc
end Clausal
