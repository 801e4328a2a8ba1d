import Clausal.Surface.Tree
import Clausal.Token.Lexer

/-!
# Reading surface trees

A recursive descent over the tokens of a text.  The only choice that looks
further than the next token is between parameters of a function type and a
parenthesised term: the parameters are tried first and given up if they are
not followed by an arrow.

After a fault in an item, reading goes on at the next keyword that starts an
item.
-/

namespace Clausal.Surface

/-- Faults found while reading. -/
inductive ParseError where
  | text (error : LexError)
  | unexpectedEnd (span : Span) (expected : List String)
  | unexpectedToken (span : Span) (token : String) (expected : List String)
  | extraToken (span : Span) (token : String)
deriving Repr

/-- Where a fault is reported. -/
def ParseError.span : ParseError → Span
  | .text error => error.span
  | .unexpectedEnd span _ | .unexpectedToken span _ _ | .extraToken span _ => span

/-- The tokens still to be read, and the offset of the end of the text. -/
structure Input where
  tokens : List TokenAt
  eof : Nat
deriving Repr

/-- A reader of a part of the input.  A reader that fails keeps its place, so
that reading can go on from there. -/
abbrev Parse := ExceptT ParseError (StateM Input)

namespace Parse

def peek? : Parse (Option Token) := do
  return (← get).tokens.head?.map (·.token)

/-- Take the next token. -/
def next? : Parse (Option TokenAt) := do
  let input ← get
  match input.tokens with
  | [] => return none
  | t :: ts =>
      set { input with tokens := ts }
      return some t

/-- Fail at the next token, naming what could have stood there. -/
def unexpected {α : Type} (expected : List String) : Parse α := do
  let input ← get
  match input.tokens with
  | t :: _ => throw (.unexpectedToken t.span t.token.description expected)
  | [] => throw (.unexpectedEnd (.point input.eof) expected)

/-- Take the next token if it is the given one. -/
def eat? (token : Token) : Parse (Option Span) := do
  if (← peek?) = some token then
    return (← next?).map (·.span)
  else
    return none

def eatMark? (m : Mark) : Parse (Option Span) := eat? (.mark m)

def eatKeyword? (k : Keyword) : Parse (Option Span) := eat? (.keyword k)

/-- Take the given token, or fail. -/
def expect (token : Token) : Parse Span := do
  match ← eat? token with
  | some span => return span
  | none => unexpected [token.description]

def expectMark (m : Mark) : Parse Span := expect (.mark m)

def atMark (m : Mark) : Parse Bool := do
  return (← peek?) = some (.mark m)

def atName : Parse Bool := do
  match ← peek? with
  | some (.name _) => return true
  | _ => return false

/-- The offset of the next token, or of the end of the text. -/
def offset : Parse Nat := do
  let input ← get
  match input.tokens with
  | t :: _ => return t.span.start
  | [] => return input.eof

def ident : Parse Ident := do
  let input ← get
  match input.tokens with
  | ⟨.name text, span⟩ :: ts =>
      set { input with tokens := ts }
      return ⟨span, text⟩
  | _ => unexpected ["name"]

/-- Further names after a first one. -/
def idents : Nat → Parse (List Ident)
  | 0 => return []
  | fuel + 1 => do
      if ← atName then
        let first ← ident
        return first :: (← idents fuel)
      else
        return []

end Parse

open Parse

/-- Tokens that start an operand of an application. -/
def startsAtom : Token → Bool
  | .name _ | .keyword .univ | .mark .openParen => true
  | _ => false

/-- Tokens that start an argument of a constructor pattern. -/
def startsAtomicPattern : Token → Bool
  | .name _ | .mark .underscore | .mark .openParen | .mark .fullStop | .mark .openBracket => true
  | _ => false

/-- Tokens that start an item. -/
def startsItem : Token → Bool
  | .keyword .family | .keyword .define | .keyword .transparent | .keyword .postulate
  | .keyword .rule | .keyword .sugar => true
  | _ => false

mutual

def Parse.term : Nat → Parse Term
  | 0 => unexpected []
  | fuel + 1 => do
      if let some start ← eatKeyword? .function then
        let first ← Parse.param fuel
        let more ← Parse.params fuel
        let _ ← expectMark .fatArrow
        let body ← Parse.term fuel
        return .lam (start.merge body.span) (first :: more) body
      if let some (start, params) ← Parse.binders? fuel then
        let body ← Parse.term fuel
        return .pi (start.merge body.span) params body
      let first ← Parse.atom fuel
      let head ← Parse.operands fuel first
      match ← eatMark? .arrow with
      | some _ =>
          let body ← Parse.term fuel
          return .arrow (head.span.merge body.span) head body
      | none => return head

/-- Parameters followed by an arrow.  If something else stands there, nothing
is taken. -/
def Parse.binders? : Nat → Parse (Option (Span × List Param))
  | 0 => return none
  | fuel + 1 => do
      let saved ← get
      match saved.tokens with
      | ⟨.mark .openParen, start⟩ :: ⟨.name _, _⟩ :: _ =>
          let (result, after) := (Parse.params fuel).run.run saved
          match result with
          | .ok params =>
              set after
              match ← eatMark? .arrow with
              | some _ => return some (start, params)
              | none =>
                  set saved
                  return none
          | .error _ => return none
      | _ => return none

/-- The operands that a head is applied to. -/
def Parse.operands : Nat → Term → Parse Term
  | 0, head => return head
  | fuel + 1, head => do
      match ← peek? with
      | some t =>
          if startsAtom t then
            let arg ← Parse.atom fuel
            Parse.operands fuel (.app (head.span.merge arg.span) head arg)
          else
            return head
      | none => return head

def Parse.atom : Nat → Parse Term
  | 0 => unexpected []
  | fuel + 1 => do
      match ← peek? with
      | some (.name _) =>
          let name ← ident
          return .name name.span name.name
      | some (.keyword .univ) =>
          return .univ (← expect (.keyword .univ))
      | some (.mark .openParen) =>
          let start ← expectMark .openParen
          let term ← Parse.term fuel
          match ← eatMark? .colon with
          | some _ =>
              let type ← Parse.term fuel
              let stop ← expectMark .closeParen
              return .ann (start.merge stop) term type
          | none =>
              let _ ← expectMark .closeParen
              return term
      | _ => unexpected ["name", "Type", "("]

def Parse.params : Nat → Parse (List Param)
  | 0 => return []
  | fuel + 1 => do
      if ← atMark .openParen then
        let first ← Parse.param fuel
        return first :: (← Parse.params fuel)
      else
        return []

def Parse.param : Nat → Parse Param
  | 0 => unexpected []
  | fuel + 1 => do
      let _ ← expectMark .openParen
      let first ← ident
      let more ← idents fuel
      let _ ← expectMark .colon
      let type ← Parse.term fuel
      let _ ← expectMark .closeParen
      return .mk (first :: more) type

end

mutual

def Parse.pattern : Nat → Parse Pattern
  | 0 => unexpected []
  | fuel + 1 => do
      if ← atName then
        let head ← ident
        let args ← Parse.patternArgs fuel
        match args.getLast? with
        | none => return .name head.span head.name
        | some last => return .ctor (head.span.merge last.span) head args
      else
        Parse.atomicPattern fuel

def Parse.patternArgs : Nat → Parse (List Pattern)
  | 0 => return []
  | fuel + 1 => do
      match ← peek? with
      | some t =>
          if startsAtomicPattern t then
            let first ← Parse.atomicPattern fuel
            return first :: (← Parse.patternArgs fuel)
          else
            return []
      | none => return []

def Parse.atomicPattern : Nat → Parse Pattern
  | 0 => unexpected []
  | fuel + 1 => do
      match ← peek? with
      | some (.name _) =>
          let name ← ident
          return .name name.span name.name
      | some (.mark .underscore) =>
          return .placeholder (← expectMark .underscore)
      | some (.mark .openParen) =>
          let _ ← expectMark .openParen
          let pattern ← Parse.pattern fuel
          let _ ← expectMark .closeParen
          return pattern
      | some (.mark .fullStop) =>
          let start ← expectMark .fullStop
          if ← atMark .openParen then
            let _ ← expectMark .openParen
            let term ← Parse.term fuel
            let _ ← expectMark .closeParen
            return .inaccessible (start.merge term.span) term
          else
            let name ← ident
            return .inaccessible (start.merge name.span) (.name name.span name.name)
      | some (.mark .openBracket) =>
          let start ← expectMark .openBracket
          let elems ← Parse.patternElems fuel
          let stop ← expectMark .closeBracket
          return .list (start.merge stop) elems
      | _ => unexpected ["name", "_", "(", ".", "["]

/-- The elements of a list pattern, with a comma after each but perhaps the last. -/
def Parse.patternElems : Nat → Parse (List Pattern)
  | 0 => return []
  | fuel + 1 => do
      if ← atMark .closeBracket then
        return []
      else
        let first ← Parse.pattern fuel
        match ← eatMark? .comma with
        | some _ => return first :: (← Parse.patternElems fuel)
        | none => return [first]

end

/-- Patterns after a first one, each after a comma. -/
def Parse.morePatterns : Nat → Parse (List Pattern)
  | 0 => return []
  | fuel + 1 => do
      match ← eatMark? .comma with
      | some _ =>
          let first ← Parse.pattern fuel
          return first :: (← Parse.morePatterns fuel)
      | none => return []

/-- The patterns of a clause.  A definition without parameters has none. -/
def Parse.clausePatterns (fuel : Nat) : Parse (List Pattern) := do
  match ← peek? with
  | some (.mark .fatArrow) | some (.keyword .inspect) => return []
  | _ =>
      let first ← Parse.pattern fuel
      return first :: (← Parse.morePatterns fuel)

mutual

def Parse.clauses : Nat → Parse (List Clause)
  | 0 => return []
  | fuel + 1 => do
      if ← atMark .pipe then
        let first ← Parse.clause fuel
        return first :: (← Parse.clauses fuel)
      else
        return []

def Parse.clause : Nat → Parse Clause
  | 0 => unexpected []
  | fuel + 1 => do
      let start ← expectMark .pipe
      let patterns ← Parse.clausePatterns fuel
      let before := patterns.foldl (fun span p => span.merge p.span) start
      let (rhs, span) ← Parse.rhs fuel before
      match ← eatKeyword? .auxiliaries with
      | none => return .mk span patterns rhs []
      | some _ =>
          let auxiliaries ← Parse.auxiliaries fuel
          if auxiliaries.isEmpty then
            unexpected ["name"]
          else
            let whole := auxiliaries.foldl (fun span d => span.merge d.span) span
            return .mk whole patterns rhs auxiliaries

/-- The right-hand side after patterns of a given span, and the span of both. -/
def Parse.rhs : Nat → Span → Parse (Rhs × Span)
  | 0, _ => unexpected []
  | fuel + 1, before => do
      if (← eatMark? .fatArrow).isSome then
        let body ← Parse.term fuel
        return (.term body, before.merge body.span)
      else if (← eatKeyword? .inspect).isSome then
        let scrut ← Parse.term fuel
        let equation ← match ← eatKeyword? .naming with
          | some _ => some <$> ident
          | none => pure none
        let _ ← expectMark .openBrace
        let clauses ← Parse.clauses fuel
        let stop ← expectMark .closeBrace
        return (.inspect scrut equation clauses, before.merge stop)
      else
        return (.absurd before, before)

def Parse.auxiliaries : Nat → Parse (List Definition)
  | 0 => return []
  | fuel + 1 => do
      if ← atName then
        let first ← Parse.definition fuel (← offset) false
        return first :: (← Parse.auxiliaries fuel)
      else
        return []

/-- A definition from its name on. -/
def Parse.definition : Nat → (start : Nat) → (transparent : Bool) → Parse Definition
  | 0, _, _ => unexpected []
  | fuel + 1, start, transparent => do
      let name ← ident
      let params ← Parse.params fuel
      let _ ← expectMark .colon
      let type ← Parse.term fuel
      let _ ← expectMark .openBrace
      let clauses ← Parse.clauses fuel
      let stop ← expectMark .closeBrace
      return .mk ⟨start, stop.stop⟩ name transparent params type clauses

end

/-- The constructors of a family, with a comma after each but perhaps the last. -/
def Parse.ctors : Nat → Parse (List CtorDecl)
  | 0 => return []
  | fuel + 1 => do
      if ← atMark .closeBrace then
        return []
      else
        let name ← ident
        let _ ← expectMark .colon
        let type ← Parse.term fuel
        match ← eatMark? .comma with
        | some _ => return ⟨name, type⟩ :: (← Parse.ctors fuel)
        | none => return [⟨name, type⟩]

/-- A named type ended by a semicolon. -/
def Parse.typing (fuel : Nat) : Parse (Ident × Term × Nat) := do
  let name ← ident
  let _ ← expectMark .colon
  let type ← Parse.term fuel
  let stop ← expectMark .semicolon
  return (name, type, stop.stop)

def Parse.item (fuel : Nat) : Parse Item := do
  let start ← offset
  match ← peek? with
  | some (.keyword .family) =>
      let _ ← next?
      let name ← ident
      let params ← Parse.params fuel
      let _ ← expectMark .colon
      let type ← Parse.term fuel
      let _ ← expectMark .openBrace
      let ctors ← Parse.ctors fuel
      let stop ← expectMark .closeBrace
      return .family ⟨⟨start, stop.stop⟩, name, params, type, ctors⟩
  | some (.keyword .transparent) =>
      let _ ← next?
      let _ ← expect (.keyword .define)
      return .definition (← Parse.definition fuel start true)
  | some (.keyword .define) =>
      let _ ← next?
      return .definition (← Parse.definition fuel start false)
  | some (.keyword .postulate) =>
      let _ ← next?
      let (name, type, stop) ← Parse.typing fuel
      return .postulate ⟨start, stop⟩ name type
  | some (.keyword .rule) =>
      let _ ← next?
      let (name, type, stop) ← Parse.typing fuel
      return .rule ⟨start, stop⟩ name type
  | some (.keyword .sugar) =>
      let _ ← next?
      match ← peek? with
      | some (.name "list") =>
          let _ ← next?
          let nil ← ident
          let cons ← ident
          let stop ← expectMark .semicolon
          return .listNotation ⟨start, stop.stop⟩ nil cons
      | _ => unexpected ["list"]
  | _ => unexpected ["inductive", "def", "transparent", "axiom", "rewrite", "notation"]

/-- Enough for every chain of nested readers: between two tokens a reader calls
only a few others. -/
def Parse.fuelFor (tokens : List TokenAt) : Nat := 8 * tokens.length + 8

/-- Skip a token and then all tokens up to the next start of an item. -/
def recover (tokens : List TokenAt) : List TokenAt :=
  (tokens.drop 1).dropWhile fun t => !startsItem t.token

/-- What was read of a module. -/
structure Parsed where
  items : List Item := []
  errors : List ParseError := []
deriving Repr

/-- Read items until the tokens end.  Every round takes a token, whether it
reads an item or recovers from a fault. -/
def items (eof : Nat) (tokens : List TokenAt) : Parsed :=
  if tokens.isEmpty then {}
  else
    let (result, after) := (Parse.item (Parse.fuelFor tokens)).run.run ⟨tokens, eof⟩
    let rest := match result with
      | .ok _ => after.tokens
      | .error _ => recover after.tokens
    let later := if _h : rest.length < tokens.length then items eof rest else {}
    match result with
    | .ok item => { later with items := item :: later.items }
    | .error error => { later with errors := error :: later.errors }
termination_by tokens.length

/-- The tokens of a text, and the faults in the text itself. -/
def lex (text : String) : List TokenAt × List ParseError :=
  let pieces := LexemeAt.ofText text
  (pieces.filterMap (·.token?), (pieces.filterMap (·.error?)).map .text)

/-- Read a module.  Faults in the text itself come before all others. -/
def parseModule (text : String) : Parsed :=
  let (tokens, faults) := lex text
  let parsed := items text.utf8ByteSize tokens
  { parsed with errors := faults ++ parsed.errors }

/-- Read a term that takes up the whole text. -/
def parseTerm (text : String) : Option Term × List ParseError :=
  let (tokens, faults) := lex text
  let (result, after) :=
    (Parse.term (Parse.fuelFor tokens)).run.run ⟨tokens, text.utf8ByteSize⟩
  match result with
  | .ok term =>
      match after.tokens with
      | [] => (some term, faults)
      | t :: _ => (none, faults ++ [.extraToken t.span t.token.description])
  | .error error => (none, faults ++ [error])

end Clausal.Surface
