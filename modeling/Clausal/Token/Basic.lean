import Clausal.Name
import Clausal.Text.Span

/-!
# Tokens of the surface language
-/

namespace Clausal

/-- Words that are reserved. -/
inductive Keyword where
  | postulate
  | define
  | function
  | naming
  | family
  | sugar
  | rule
  | transparent
  | univ
  | auxiliaries
  | inspect
deriving DecidableEq, Repr

namespace Keyword

def all : List Keyword :=
  [postulate, define, function, naming, family, sugar, rule, transparent, univ, auxiliaries,
   inspect]

/-- How a keyword is written. -/
def text : Keyword → String
  | postulate => "axiom"
  | define => "def"
  | function => "fun"
  | naming => "in"
  | family => "inductive"
  | sugar => "notation"
  | rule => "rewrite"
  | transparent => "transparent"
  | univ => "Type"
  | auxiliaries => "where"
  | inspect => "with"

def ofText? (s : String) : Option Keyword := all.find? (·.text == s)

end Keyword

/-- Marks that are not words. -/
inductive Mark where
  | colon
  | comma
  | fatArrow
  | fullStop
  | arrow
  | pipe
  | semicolon
  | underscore
  | openBrace
  | closeBrace
  | openBracket
  | closeBracket
  | openParen
  | closeParen
deriving DecidableEq, Repr

/-- How a mark is written. -/
def Mark.text : Mark → String
  | colon => ":"
  | comma => ","
  | fatArrow => "=>"
  | fullStop => "."
  | arrow => "->"
  | pipe => "|"
  | semicolon => ";"
  | underscore => "_"
  | openBrace => "\x7b"
  | closeBrace => "\x7d"
  | openBracket => "["
  | closeBracket => "]"
  | openParen => "("
  | closeParen => ")"

inductive Token where
  | name (text : Name)
  | keyword (k : Keyword)
  | mark (m : Mark)
deriving DecidableEq, Repr

/-- How a token is called in messages. -/
def Token.description : Token → String
  | .name _ => "name"
  | .keyword k => k.text
  | .mark m => m.text

/-- A token and the bytes it was read from. -/
structure TokenAt where
  token : Token
  span : Span
deriving DecidableEq, Repr

end Clausal
