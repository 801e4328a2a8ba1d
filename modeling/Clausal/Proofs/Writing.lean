import Clausal.Proofs.Phrase

/-!
# The canonical writing of surface trees

Every tree is written as tokens set apart by blanks.  Some trees cannot be written: their
names are not names of the language, a function has no parameters, a constructor pattern
no arguments, an impossible clause no patterns, or a definition for one clause only is
marked as transparent.
-/

namespace Clausal.Surface

open Bool

variable {p : Phrase}

/-! ### Terms -/

namespace Phrase

/-- A phrase as an operand. -/
def operand : Phrase → Operand
  | .spine o [] => o
  | p => .paren p

/-- A phrase as a part of another. -/
def single (p : Phrase) : Phrase := .spine p.operand []

/-- A phrase to the left of an arrow. -/
def domain : Phrase → Operand
  | .spine (.ann t type) [] => .paren (.spine (.ann t type) [])
  | p => p.operand

end Phrase

mutual

/-- How a term is written. -/
def Term.phrase : Term → Phrase
  | .name _ n => .spine (.name n) []
  | .univ _ => .spine .univ []
  | .ann _ t type => .spine (.ann t.phrase.single type.phrase.single) []
  | .arrow _ dom cod => .arrow dom.phrase.domain [] cod.phrase.single
  | .pi _ ps body => .pi (paramsBinders ps) body.phrase.single
  | .lam _ ps body => .lam (paramsBinders ps) body.phrase.single
  | .app _ head arg => .spine head.phrase.operand [arg.phrase.operand]

def Param.binder : Param → Binder
  | .mk names type => .mk (names.map (·.name)) type.phrase.single

def paramsBinders : List Param → List Binder
  | [] => []
  | p :: ps => p.binder :: paramsBinders ps

end

def Ident.writable (i : Ident) : Bool := decide i.name.Lexical

mutual

/-- Whether a term can be written. -/
def Term.writable : Term → Bool
  | .name _ n => decide n.Lexical
  | .univ _ => true
  | .ann _ t type => t.writable && type.writable
  | .arrow _ dom cod => dom.writable && cod.writable
  | .pi _ ps body => !ps.isEmpty && paramsWritable ps && body.writable
  | .lam _ ps body => !ps.isEmpty && paramsWritable ps && body.writable
  | .app _ head arg => head.writable && arg.writable

def Param.writable : Param → Bool
  | .mk names type => !names.isEmpty && names.all (·.writable) && type.writable

def paramsWritable : List Param → Bool
  | [] => true
  | p :: ps => p.writable && paramsWritable ps

end

/-- The text of a term. -/
def Term.written (t : Term) : String := Token.spaced t.phrase.tokens

/-! ### Patterns -/

/-- Parts with a comma between every two. -/
def separated : List (List Token) → List Token
  | [] => []
  | part :: parts => part ++ parts.flatMap (.mark .comma :: ·)

/-- Tokens in parentheses. -/
def parenthesised (ts : List Token) : List Token :=
  .mark .openParen :: (ts ++ [.mark .closeParen])

/-- Whether a pattern is more than a single operand. -/
def Pattern.isCompound : Pattern → Bool
  | .ctor .. => true
  | _ => false

/-- A term that is forced.  Only a name needs no parentheses. -/
def Term.forcedTokens : Term → List Token
  | .name _ n => [.mark .fullStop, .name n]
  | t => .mark .fullStop :: parenthesised t.phrase.tokens

mutual

/-- How a pattern is written. -/
def Pattern.tokens : Pattern → List Token
  | .name _ n => [.name n]
  | .placeholder _ => [.mark .underscore]
  | .ctor _ head args => .name head.name :: (partsTokens args).flatten
  | .inaccessible _ t => t.forcedTokens
  | .list _ elems => .mark .openBracket :: (separated (partsTokens elems) ++ [.mark .closeBracket])

/-- How patterns are written as parts of another. -/
def partsTokens : List Pattern → List (List Token)
  | [] => []
  | p :: ps => (if p.isCompound then parenthesised p.tokens else p.tokens) :: partsTokens ps

end

mutual

/-- A pattern without the places that it was read from. -/
def Pattern.unplaced : Pattern → Pattern
  | .name _ n => .name nowhere n
  | .placeholder _ => .placeholder nowhere
  | .ctor _ head args => .ctor nowhere head.unplaced (patternsUnplaced args)
  | .inaccessible _ t => .inaccessible nowhere t.unplaced
  | .list _ elems => .list nowhere (patternsUnplaced elems)

def patternsUnplaced : List Pattern → List Pattern
  | [] => []
  | p :: ps => p.unplaced :: patternsUnplaced ps

end

mutual

/-- Whether a pattern can be written. -/
def Pattern.writable : Pattern → Bool
  | .name _ n => decide n.Lexical
  | .placeholder _ => true
  | .ctor _ head args => head.writable && !args.isEmpty && patternsWritable args
  | .inaccessible _ t => t.writable
  | .list _ elems => patternsWritable elems

def patternsWritable : List Pattern → Bool
  | [] => true
  | p :: ps => p.writable && patternsWritable ps

end

/-! ### Clauses and definitions -/

mutual

/-- How a clause is written. -/
def Clause.tokens : Clause → List Token
  | .mk _ patterns rhs auxiliaries =>
    .mark .pipe :: (separated (patterns.map (·.tokens)) ++
      (rhs.tokens ++ auxiliariesTokens auxiliaries))

def Rhs.tokens : Rhs → List Token
  | .term body => .mark .fatArrow :: body.phrase.tokens
  | .inspect scrut equation clauses =>
    .keyword .inspect :: (scrut.phrase.tokens ++
      ((equation.toList.flatMap fun i => [.keyword .naming, .name i.name]) ++
        .mark .openBrace :: (clausesTokens clauses ++ [.mark .closeBrace])))
  | .absurd _ => []

/-- How a definition is written, from its name on. -/
def Definition.tokens : Definition → List Token
  | .mk _ name _ params type clauses =>
    .name name.name :: (bindersTokens (paramsBinders params) ++
      .mark .colon :: (type.phrase.tokens ++
        .mark .openBrace :: (clausesTokens clauses ++ [.mark .closeBrace])))

def clausesTokens : List Clause → List Token
  | [] => []
  | c :: cs => c.tokens ++ clausesTokens cs

def definitionsTokens : List Definition → List Token
  | [] => []
  | d :: ds => d.tokens ++ definitionsTokens ds

/-- The definitions for one clause; there is nothing to write if there are none. -/
def auxiliariesTokens : List Definition → List Token
  | [] => []
  | d :: ds => .keyword .auxiliaries :: (d.tokens ++ definitionsTokens ds)

end

mutual

def Clause.unplaced : Clause → Clause
  | .mk _ patterns rhs auxiliaries =>
    .mk nowhere (patterns.map (·.unplaced)) rhs.unplaced (definitionsUnplaced auxiliaries)

def Rhs.unplaced : Rhs → Rhs
  | .term body => .term body.unplaced
  | .inspect scrut equation clauses =>
    .inspect scrut.unplaced (equation.map (·.unplaced)) (clausesUnplaced clauses)
  | .absurd _ => .absurd nowhere

def Definition.unplaced : Definition → Definition
  | .mk _ name transparent params type clauses =>
    .mk nowhere name.unplaced transparent (paramsUnplaced params) type.unplaced
      (clausesUnplaced clauses)

def clausesUnplaced : List Clause → List Clause
  | [] => []
  | c :: cs => c.unplaced :: clausesUnplaced cs

def definitionsUnplaced : List Definition → List Definition
  | [] => []
  | d :: ds => d.unplaced :: definitionsUnplaced ds

end

def Rhs.isAbsurd : Rhs → Bool
  | .absurd _ => true
  | _ => false

mutual

def Clause.writable : Clause → Bool
  | .mk _ patterns rhs auxiliaries =>
    patterns.all (·.writable) && (!rhs.isAbsurd || !patterns.isEmpty) && rhs.writable &&
      auxiliariesWritable auxiliaries

def Rhs.writable : Rhs → Bool
  | .term body => body.writable
  | .inspect scrut equation clauses =>
    scrut.writable && equation.all (·.writable) && clausesWritable clauses
  | .absurd _ => true

def Definition.writable : Definition → Bool
  | .mk _ name _ params type clauses =>
    name.writable && paramsWritable params && type.writable && clausesWritable clauses

def clausesWritable : List Clause → Bool
  | [] => true
  | c :: cs => c.writable && clausesWritable cs

def auxiliariesWritable : List Definition → Bool
  | [] => true
  | d :: ds => !d.transparent && d.writable && auxiliariesWritable ds

end

/-! ### Items -/

def CtorDecl.tokens (c : CtorDecl) : List Token :=
  .name c.name.name :: .mark .colon :: c.type.phrase.tokens

def CtorDecl.unplaced (c : CtorDecl) : CtorDecl := ⟨c.name.unplaced, c.type.unplaced⟩

def CtorDecl.writable (c : CtorDecl) : Bool := c.name.writable && c.type.writable

namespace Item

/-- A name with its type, ended by a semicolon. -/
def typingTokens (name : Ident) (type : Term) : List Token :=
  .name name.name :: .mark .colon :: (type.phrase.tokens ++ [.mark .semicolon])

def tokens : Item → List Token
  | .family f =>
    .keyword .family :: .name f.name.name :: (bindersTokens (paramsBinders f.params) ++
      .mark .colon :: (f.type.phrase.tokens ++
        .mark .openBrace :: (separated (f.ctors.map (·.tokens)) ++ [.mark .closeBrace])))
  | .definition d =>
    if d.transparent then .keyword .transparent :: .keyword .define :: d.tokens
    else .keyword .define :: d.tokens
  | .postulate _ name type => .keyword .postulate :: typingTokens name type
  | .rule _ name type => .keyword .rule :: typingTokens name type
  | .listNotation _ nil cons =>
    [.keyword .sugar, .name "list", .name nil.name, .name cons.name, .mark .semicolon]

def unplaced : Item → Item
  | .family f =>
    .family ⟨nowhere, f.name.unplaced, paramsUnplaced f.params, f.type.unplaced,
      f.ctors.map (·.unplaced)⟩
  | .definition d => .definition d.unplaced
  | .postulate _ name type => .postulate nowhere name.unplaced type.unplaced
  | .rule _ name type => .rule nowhere name.unplaced type.unplaced
  | .listNotation _ nil cons => .listNotation nowhere nil.unplaced cons.unplaced

def writable : Item → Bool
  | .family f =>
    f.name.writable && paramsWritable f.params && f.type.writable && f.ctors.all (·.writable)
  | .definition d => d.writable
  | .postulate _ name type => name.writable && type.writable
  | .rule _ name type => name.writable && type.writable
  | .listNotation _ nil cons => nil.writable && cons.writable

end Item

/-- The text of a module. -/
def writtenModule (items : List Item) : String := Token.spaced (items.flatMap (·.tokens))

/-! ### Induction over trees -/

open List

/-- A property of all terms follows from their parts, the types of parameters
among them. -/
lemma Term.induct {P : Term → Prop} (name : ∀ span n, P (.name span n))
    (univ : ∀ span, P (.univ span))
    (ann : ∀ span t type, P t → P type → P (.ann span t type))
    (arrow : ∀ span dom cod, P dom → P cod → P (.arrow span dom cod))
    (pi : ∀ span ps body, (∀ p ∈ ps, P p.type) → P body → P (.pi span ps body))
    (lam : ∀ span ps body, (∀ p ∈ ps, P p.type) → P body → P (.lam span ps body))
    (app : ∀ span head arg, P head → P arg → P (.app span head arg)) (t : Term) : P t :=
  @Term.rec P (fun p => P p.type) (fun ps => ∀ p ∈ ps, P p.type)
    name univ ann arrow pi lam app (fun _ _ h => h) (by simp)
    (fun _ _ h hs => forall_mem_cons.mpr ⟨h, hs⟩) t

lemma Pattern.induct {P : Pattern → Prop} (name : ∀ span n, P (.name span n))
    (placeholder : ∀ span, P (.placeholder span))
    (ctor : ∀ span head args, (∀ p ∈ args, P p) → P (.ctor span head args))
    (inaccessible : ∀ span t, P (.inaccessible span t))
    (list : ∀ span elems, (∀ p ∈ elems, P p) → P (.list span elems)) (p : Pattern) : P p :=
  @Pattern.rec P (fun ps => ∀ p ∈ ps, P p) name placeholder ctor
    inaccessible list (by simp) (fun _ _ h hs => forall_mem_cons.mpr ⟨h, hs⟩) p

/-- The clauses of an inspection. -/
def Rhs.clauses : Rhs → List Clause
  | .inspect _ _ clauses => clauses
  | _ => []

lemma Definition.induct {P : Clause → Prop} {Q : Definition → Prop}
    (clause : ∀ span patterns rhs auxiliaries, (∀ c ∈ Rhs.clauses rhs, P c) →
      (∀ d ∈ auxiliaries, Q d) → P (.mk span patterns rhs auxiliaries))
    (definition : ∀ span name transparent params type clauses, (∀ c ∈ clauses, P c) →
      Q (.mk span name transparent params type clauses)) (d : Definition) : Q d :=
  @Definition.rec P (fun rhs => ∀ c ∈ rhs.clauses, P c) Q (fun ds => ∀ d ∈ ds, Q d)
    (fun cs => ∀ c ∈ cs, P c) clause (fun _ => by simp [Rhs.clauses]) (fun _ _ _ h => h)
    (fun _ => by simp [Rhs.clauses]) definition (by simp)
    (fun _ _ h hs => forall_mem_cons.mpr ⟨h, hs⟩) (by simp)
    (fun _ _ h hs => forall_mem_cons.mpr ⟨h, hs⟩) d

/-! ### What is written of a term

The phrase of a term stands for the term, its parameters are where they must be,
and its tokens are tokens of the language. -/

def AllLexical (ts : List Token) : Prop := ∀ u ∈ ts, u.Lexical

@[simp] lemma allLexical_nil : AllLexical [] := nofun

@[simp] lemma allLexical_cons : AllLexical (t :: ts) ↔ t.Lexical ∧ AllLexical ts := forall_mem_cons

@[simp] lemma allLexical_append : AllLexical (ts ++ us) ↔ AllLexical ts ∧ AllLexical us :=
  forall_mem_append

@[simp] lemma allLexical_map {as : List α} {f : α → Token} :
    AllLexical (as.map f) ↔ ∀ a ∈ as, (f a).Lexical := forall_mem_map

lemma allLexical_flatMap {as : List α} {f : α → List Token} :
    AllLexical (as.flatMap f) ↔ ∀ a ∈ as, AllLexical (f a) := forall_mem_flatMap

attribute [local simp] Token.Lexical Phrase.tokens Operand.tokens operandsTokens

namespace Phrase

lemma operand_tree (p : Phrase) : p.operand.tree = p.tree := by
  cases p with
  | spine o args => cases args <;> rfl
  | _ => rfl

lemma operand_clear (h : p.Clear) : p.operand.Clear := by
  cases p with
  | spine o args =>
    cases args with
    | nil => exact h.1
    | cons => exact h
  | _ => exact h

lemma domain_tree (p : Phrase) : p.domain.tree = p.tree := by
  cases p with
  | spine o args =>
    cases o with
    | ann t type => cases args <;> rfl
    | _ => exact operand_tree _
  | _ => rfl

lemma domain_clear (h : p.Clear) : p.domain.Clear := by
  cases p with
  | spine o args =>
    cases o with
    | ann t type => cases args <;> exact h
    | _ => exact operand_clear h
  | _ => exact h

/-- What is written to the left of an arrow does not look like parameters. -/
lemma domain_isBinder (p : Phrase) : p.domain.isBinder = false := by
  cases p with
  | spine o args => cases o <;> cases args <;> rfl
  | _ => rfl

lemma paren_lexical (h : AllLexical p.tokens) : AllLexical (Operand.paren p).tokens := by
  simpa using h

lemma operand_lexical (h : AllLexical p.tokens) : AllLexical p.operand.tokens := by
  cases p with
  | spine o args =>
    cases args with
    | nil => exact fun u hu => h u (mem_append_left _ hu)
    | cons => exact paren_lexical h
  | _ => exact paren_lexical h

lemma domain_lexical (h : AllLexical p.tokens) : AllLexical p.domain.tokens := by
  cases p with
  | spine o args =>
    cases o with
    | ann t type => cases args <;> exact paren_lexical h
    | _ => exact operand_lexical h
  | _ => exact paren_lexical h

lemma single_tree (p : Phrase) : p.single.tree = p.tree := p.operand_tree

lemma single_clear (h : p.Clear) : p.single.Clear := ⟨operand_clear h, trivial⟩

lemma single_tokens (p : Phrase) : p.single.tokens = p.operand.tokens := append_nil _

lemma single_lexical (h : AllLexical p.tokens) : AllLexical p.single.tokens := by
  rw [single_tokens]
  exact operand_lexical h

end Phrase

attribute [local simp] Term.phrase Term.unplaced Term.writable Pattern.tokens Pattern.unplaced
  Pattern.writable Clause.tokens Clause.unplaced Clause.writable Rhs.tokens Rhs.unplaced
  Rhs.writable Definition.tokens Definition.unplaced Definition.writable Param.binder Param.writable
  paramsBinders paramsWritable partsTokens patternsUnplaced patternsWritable clausesTokens
  clausesUnplaced clausesWritable definitionsTokens definitionsUnplaced auxiliariesTokens
  auxiliariesWritable

lemma Ident.lexical {i : Ident} (h : i.writable = true) : (Token.name i.name).Lexical := by
  simpa [Ident.writable, Token.Lexical] using h

lemma paramsBinders_eq_map (ps : List Param) : paramsBinders ps = ps.map (·.binder) := by
  induction ps with
  | nil => rfl
  | cons p ps ih => rw [paramsBinders, ih, map_cons]

lemma paramsWritable_iff (ps : List Param) :
    paramsWritable ps = true ↔ ∀ p ∈ ps, p.writable = true := by
  induction ps with
  | nil => simp [paramsWritable]
  | cons p ps ih => rw [paramsWritable, and_eq_true, ih, forall_mem_cons]

lemma bindersTree_paramsBinders (h : ∀ p ∈ ps, p.type.phrase.tree = p.type.unplaced) :
    bindersTree (paramsBinders ps) = paramsUnplaced ps := by
  rw [bindersTree_eq_map, paramsBinders_eq_map, paramsUnplaced_eq_map, map_map]
  refine map_congr_left fun p hp => ?_
  obtain ⟨names, type⟩ := p
  have htype : type.phrase.tree = type.unplaced := h _ hp
  simp [Param.binder, Binder.tree, Param.unplaced, Ident.unplaced, Phrase.single_tree, htype]

lemma Term.phrase_tree (t : Term) : t.phrase.tree = t.unplaced := by
  induction t using Term.induct with
  | name | univ => rfl
  | ann span t type iht ihtype =>
    simp [Phrase.tree, Operand.tree, operandsTree, Phrase.single_tree, iht, ihtype]
  | arrow span dom cod ihdom ihcod =>
    simp [Phrase.tree, operandsTree, Phrase.single_tree, Phrase.domain_tree, ihdom, ihcod]
  | pi span ps body ihps ihbody | lam span ps body ihps ihbody =>
    simp [Phrase.tree, Phrase.single_tree, bindersTree_paramsBinders ihps, ihbody]
  | app span head arg ihhead iharg =>
    simp [Phrase.tree, operandsTree, Phrase.operand_tree, ihhead, iharg]

lemma Param.writable_type {p : Param} (h : p.writable = true) : p.type.writable = true := by
  obtain ⟨names, type⟩ := p
  exact (and_eq_true_iff.mp h).2

lemma paramsBinders_clear (hps : paramsWritable ps = true)
    (h : ∀ p ∈ ps, p.type.writable = true → p.type.phrase.Clear) :
    bindersClear (paramsBinders ps) := by
  rw [bindersClear_iff, paramsBinders_eq_map]
  rw [paramsWritable_iff] at hps
  rintro _ hb
  obtain ⟨p, hp, rfl⟩ := mem_map.mp hb
  have htype := h p hp (Param.writable_type (hps p hp))
  obtain ⟨names, type⟩ := p
  have hnames : names ≠ [] := by
    have := hps _ hp
    rintro rfl
    cases this
  exact ⟨by simpa using hnames, Phrase.single_clear htype⟩

/-- What is written of a term is read in one way only. -/
lemma Term.phrase_clear (t : Term) (h : t.writable = true) : t.phrase.Clear := by
  induction t using Term.induct with
  | name span n | univ span => exact ⟨trivial, trivial⟩
  | ann span t type iht ihtype =>
    obtain ⟨ht, htype⟩ := and_eq_true_iff.mp h
    exact ⟨⟨Phrase.single_clear (iht ht), Phrase.single_clear (ihtype htype)⟩, trivial⟩
  | arrow span dom cod ihdom ihcod =>
    obtain ⟨hdom, hcod⟩ := and_eq_true_iff.mp h
    exact ⟨Phrase.domain_clear (ihdom hdom), trivial, Phrase.single_clear (ihcod hcod),
      by simp [Phrase.domain_isBinder]⟩
  | pi span ps body ihps ihbody | lam span ps body ihps ihbody =>
    simp only [Term.writable, and_eq_true, not_eq_true', isEmpty_eq_false_iff] at h
    obtain ⟨⟨hne, hps⟩, hbody⟩ := h
    exact ⟨by simpa [paramsBinders_eq_map] using hne, paramsBinders_clear hps ihps,
      Phrase.single_clear (ihbody hbody)⟩
  | app span head arg ihhead iharg =>
    obtain ⟨hhead, harg⟩ := and_eq_true_iff.mp h
    exact ⟨Phrase.operand_clear (ihhead hhead), Phrase.operand_clear (iharg harg), trivial⟩

lemma paramsBinders_lexical (hps : paramsWritable ps = true)
    (h : ∀ p ∈ ps, p.type.writable = true → AllLexical p.type.phrase.tokens) :
    AllLexical (bindersTokens (paramsBinders ps)) := by
  rw [bindersTokens_eq_flatMap, paramsBinders_eq_map, allLexical_flatMap, forall_mem_map]
  rw [paramsWritable_iff] at hps
  intro p hp
  have htype := Phrase.single_lexical (h p hp (Param.writable_type (hps p hp)))
  have hnames := hps p hp
  obtain ⟨names, type⟩ := p
  simp only [Param.writable, and_eq_true, all_eq_true, Ident.writable,
    decide_eq_true_eq] at hnames
  simpa [Param.binder, Binder.tokens] using ⟨hnames.1.2, htype⟩

lemma Term.phrase_lexical (t : Term) (h : t.writable = true) : AllLexical t.phrase.tokens := by
  induction t using Term.induct with
  | name span n => simpa using h
  | univ span => simp
  | ann span t type iht ihtype =>
    obtain ⟨ht, htype⟩ := and_eq_true_iff.mp h
    simp [Phrase.single_lexical (iht ht), Phrase.single_lexical (ihtype htype)]
  | arrow span dom cod ihdom ihcod =>
    obtain ⟨hdom, hcod⟩ := and_eq_true_iff.mp h
    simp [Phrase.domain_lexical (ihdom hdom), Phrase.single_lexical (ihcod hcod)]
  | pi span ps body ihps ihbody | lam span ps body ihps ihbody =>
    simp only [Term.writable, and_eq_true] at h
    simp [paramsBinders_lexical h.1.2 ihps, Phrase.single_lexical (ihbody h.2)]
  | app span head arg ihhead iharg =>
    obtain ⟨hhead, harg⟩ := and_eq_true_iff.mp h
    simp [Phrase.operand_lexical (ihhead hhead), Phrase.operand_lexical (iharg harg)]

/-! ### What is written of patterns, clauses and items -/

/-- How a pattern is written as a part of another. -/
def Pattern.partTokens (p : Pattern) : List Token :=
  if p.isCompound then parenthesised p.tokens else p.tokens

lemma partsTokens_eq_map (ps : List Pattern) : partsTokens ps = ps.map (·.partTokens) := by
  induction ps with
  | nil => rfl
  | cons p ps ih => rw [partsTokens, ih, map_cons, Pattern.partTokens]

lemma patternsUnplaced_eq_map (ps : List Pattern) :
    patternsUnplaced ps = ps.map (·.unplaced) := by
  induction ps with
  | nil => rfl
  | cons p ps ih => rw [patternsUnplaced, ih, map_cons]

lemma patternsWritable_iff (ps : List Pattern) :
    patternsWritable ps = true ↔ ∀ p ∈ ps, p.writable = true := by
  induction ps with
  | nil => simp [patternsWritable]
  | cons p ps ih => rw [patternsWritable, and_eq_true, ih, forall_mem_cons]

lemma clausesTokens_eq_flatMap (cs : List Clause) :
    clausesTokens cs = cs.flatMap (·.tokens) := by
  induction cs with
  | nil => rfl
  | cons c cs ih => rw [clausesTokens, ih, flatMap_cons]

lemma clausesWritable_iff (cs : List Clause) :
    clausesWritable cs = true ↔ ∀ c ∈ cs, c.writable = true := by
  induction cs with
  | nil => simp [clausesWritable]
  | cons c cs ih => rw [clausesWritable, and_eq_true, ih, forall_mem_cons]

lemma definitionsTokens_eq_flatMap (ds : List Definition) :
    definitionsTokens ds = ds.flatMap (·.tokens) := by
  induction ds with
  | nil => rfl
  | cons d ds ih => rw [definitionsTokens, ih, flatMap_cons]

lemma auxiliariesWritable_iff (ds : List Definition) :
    auxiliariesWritable ds = true ↔
      ∀ d ∈ ds, d.transparent = false ∧ d.writable = true := by
  induction ds with
  | nil => simp [auxiliariesWritable]
  | cons d ds ih =>
    rw [auxiliariesWritable, and_eq_true, and_eq_true, not_eq_true', ih,
      forall_mem_cons]

lemma separated_lexical (h : ∀ part ∈ parts, AllLexical part) : AllLexical (separated parts) := by
  cases parts with
  | nil => simp [separated]
  | cons part parts =>
    obtain ⟨hpart, hparts⟩ := forall_mem_cons.mp h
    simpa [separated, allLexical_flatMap] using ⟨hpart, hparts⟩

lemma parenthesised_lexical (h : AllLexical ts) : AllLexical (parenthesised ts) := by
  simpa [parenthesised] using h

lemma Pattern.partTokens_lexical {p : Pattern} (h : AllLexical p.tokens) :
    AllLexical p.partTokens := by
  rw [Pattern.partTokens]
  split
  · exact parenthesised_lexical h
  · exact h

lemma partsTokens_lexical {ps : List Pattern} (hps : patternsWritable ps = true)
    (h : ∀ p ∈ ps, p.writable = true → AllLexical p.tokens) :
    ∀ part ∈ partsTokens ps, AllLexical part := by
  rw [partsTokens_eq_map, forall_mem_map]
  rw [patternsWritable_iff] at hps
  exact fun p hp => Pattern.partTokens_lexical (h p hp (hps p hp))

lemma Term.forcedTokens_lexical {t : Term} (h : t.writable = true) : AllLexical t.forcedTokens := by
  rw [Term.forcedTokens.eq_def]
  split
  · simpa using h
  · simpa using parenthesised_lexical (t.phrase_lexical h)

lemma Pattern.tokens_lexical (p : Pattern) (h : p.writable = true) : AllLexical p.tokens := by
  induction p using Pattern.induct with
  | name span n => simpa using h
  | placeholder span => simp
  | ctor span head args ih =>
    simp only [Pattern.writable, and_eq_true] at h
    have hargs : AllLexical (partsTokens args).flatten :=
      forall_mem_flatten.mpr (partsTokens_lexical h.2 ih)
    simpa [hargs] using Ident.lexical h.1.1
  | inaccessible span t => exact Term.forcedTokens_lexical h
  | list span elems ih => simpa using separated_lexical (partsTokens_lexical h ih)

lemma clausesTokens_lexical (hcs : clausesWritable cs = true)
    (h : ∀ c ∈ cs, c.writable = true → AllLexical c.tokens) : AllLexical (clausesTokens cs) := by
  rw [clausesTokens_eq_flatMap, allLexical_flatMap]
  rw [clausesWritable_iff] at hcs
  exact fun c hc => h c hc (hcs c hc)

lemma auxiliariesTokens_lexical (hds : auxiliariesWritable ds = true)
    (h : ∀ d ∈ ds, d.writable = true → AllLexical d.tokens) :
    AllLexical (auxiliariesTokens ds) := by
  rw [auxiliariesWritable_iff] at hds
  cases ds with
  | nil => simp [auxiliariesTokens]
  | cons d ds =>
    rw [auxiliariesTokens, ← definitionsTokens, definitionsTokens_eq_flatMap, allLexical_cons,
      allLexical_flatMap]
    exact ⟨trivial, fun e he => h e he (hds e he).2⟩

lemma Rhs.tokens_lexical {r : Rhs} (hr : r.writable = true)
    (h : ∀ c ∈ r.clauses, c.writable = true → AllLexical c.tokens) : AllLexical r.tokens := by
  cases r with
  | term body => simpa using body.phrase_lexical hr
  | inspect scrut equation cs =>
    simp only [Rhs.writable, and_eq_true] at hr
    simp only [Rhs.tokens, allLexical_cons, allLexical_append]
    refine ⟨trivial, scrut.phrase_lexical hr.1.1, ?_, trivial, clausesTokens_lexical hr.2 h,
      by simp⟩
    cases equation with
    | none => simp
    | some i => simpa [Ident.writable] using hr.1.2
  | absurd span => simp

lemma Clause.tokens_lexical {c : Clause} (hc : c.writable = true)
    (hrhs : ∀ e ∈ c.rhs.clauses, e.writable = true → AllLexical e.tokens)
    (haux : ∀ d ∈ c.auxiliaries, d.writable = true → AllLexical d.tokens) :
    AllLexical c.tokens := by
  obtain ⟨span, patterns, rhs, auxiliaries⟩ := c
  simp only [Clause.writable, and_eq_true, all_eq_true] at hc
  simp only [Clause.tokens, allLexical_cons, allLexical_append]
  refine ⟨trivial, separated_lexical (forall_mem_map.mpr fun p hp => ?_),
    Rhs.tokens_lexical hc.1.2 hrhs, auxiliariesTokens_lexical hc.2 haux⟩
  exact p.tokens_lexical (hc.1.1.1 p hp)

lemma Definition.tokens_lexical (d : Definition) (h : d.writable = true) : AllLexical d.tokens := by
  induction d using Definition.induct (P := fun c => c.writable = true → AllLexical c.tokens) with
  | clause span patterns rhs auxiliaries ihrhs ihaux hc =>
    exact Clause.tokens_lexical hc ihrhs ihaux
  | definition span name transparent params type clauses ih =>
    simp only [Definition.writable, and_eq_true] at h
    simp only [Definition.tokens, allLexical_cons, allLexical_append]
    exact ⟨Ident.lexical h.1.1.1, paramsBinders_lexical h.1.1.2 fun p _ hp =>
      p.type.phrase_lexical hp, trivial, type.phrase_lexical h.1.2, trivial,
      clausesTokens_lexical h.2 ih, by simp⟩

lemma Item.typingTokens_lexical (hname : name.writable = true) (htype : type.writable = true) :
    AllLexical (Item.typingTokens name type) := by
  simpa [Item.typingTokens] using ⟨Ident.lexical hname, type.phrase_lexical htype⟩

lemma Item.tokens_lexical {i : Item} (h : i.writable = true) : AllLexical i.tokens := by
  cases i with
  | family f =>
    simp only [Item.writable, and_eq_true, all_eq_true] at h
    simp only [Item.tokens, allLexical_cons, allLexical_append]
    refine ⟨trivial, Ident.lexical h.1.1.1,
      paramsBinders_lexical h.1.1.2 fun p _ hp => p.type.phrase_lexical hp, trivial,
      f.type.phrase_lexical h.1.2, trivial, separated_lexical (forall_mem_map.mpr fun c hc => ?_),
      by simp⟩
    obtain ⟨hname, htype⟩ := and_eq_true_iff.mp (h.2 c hc)
    simpa [CtorDecl.tokens] using ⟨Ident.lexical hname, c.type.phrase_lexical htype⟩
  | definition d =>
    have hd := d.tokens_lexical h
    rw [Item.tokens]
    split <;> simpa using hd
  | postulate span name type | rule span name type =>
    obtain ⟨hname, htype⟩ := and_eq_true_iff.mp h
    simpa [Item.tokens] using Item.typingTokens_lexical hname htype
  | listNotation span nil cons =>
    obtain ⟨hnil, hcons⟩ := and_eq_true_iff.mp h
    have hlist : Name.Lexical "list" := by decide
    simpa [Item.tokens] using ⟨hlist, Ident.lexical hnil, Ident.lexical hcons⟩

end Clausal.Surface
