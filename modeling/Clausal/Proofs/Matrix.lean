import Clausal.Module.Elaboration
import Clausal.Proofs.Telescope

/-!
# The rows of a matrix

When clauses become rows, the patterns are counted, constructors get all their
fields, and list patterns are spelled out.  The name of an equation is not looked
at: it may repeat an earlier name.
-/

namespace Clausal

open Elaborate Except List

lemma bind_eq_ok {ε α β : Type} {x : Except ε α} {f : α → Except ε β} {b : β} :
    x >>= f = .ok b ↔ ∃ a, x = .ok a ∧ f a = .ok b := by
  cases x <;> simp [bind, Except.bind]

lemma firstRebound?_eq_none :
    firstRebound? seen idents = none ↔
      (∀ ident ∈ idents, ∀ other ∈ seen, other.name ≠ ident.name) ∧
        idents.Pairwise fun a b => a.name ≠ b.name := by
  induction idents generalizing seen with
  | nil => simp [firstRebound?]
  | cons ident idents ih =>
    rw [firstRebound?, pairwise_cons]
    split
    · next previous hfound =>
        have hmem := mem_of_find?_eq_some hfound
        have hname : previous.name = ident.name := by simpa using find?_some hfound
        exact ⟨fun h => (by cases h), fun h => (h.1 ident mem_cons_self previous hmem hname).elim⟩
    · next hfound =>
        simp only [find?_eq_none, beq_iff_eq] at hfound
        rw [ih]
        grind

/-- The rows of the inspection of a right-hand side. -/
def RowRhs.rows : RowRhs → List Row
  | .inspect _ _ rows => rows
  | .term _ | .absurd _ => []

/-- The name of its equation, if there is one. -/
def RowRhs.equations : RowRhs → List Surface.Ident
  | .inspect _ equation _ => equation.toList
  | .term _ | .absurd _ => []

namespace Signature

variable {sig : Signature}

/-! ### Patterns -/

/-- A pattern whose names are resolved and whose constructors have all their fields, before it
is looked at what list patterns stand for. -/
inductive Resolved (sig : Signature) : Pattern → Prop
  | wildcard (span : Span) : Resolved sig (.wildcard span)
  | var {name : Name} (span : Span) : sig.ctor? name = none → Resolved sig (.var span name)
  | ctor {name : Name} {c : Ctor} {args : List Pattern} (span : Span) :
      sig.ctor? name = some c → args.length = c.numFields → (∀ p ∈ args, Resolved sig p) →
      Resolved sig (.ctor span name args)
  | inaccessible (span : Span) (term : Surface.Term) : Resolved sig (.inaccessible span term)
  | list {nil cons : Name} {elems : List Pattern} (span : Span) :
      sig.listNotation = some (nil, cons) → (∀ p ∈ elems, Resolved sig p) →
      Resolved sig (listPattern nil cons span elems)

mutual

/-- What is read of a pattern is resolved, by induction on the pattern. -/
lemma pattern_resolved : (p : Surface.Pattern) → {q : Pattern} → sig.pattern p = .ok q →
    sig.Resolved q
  | .name span name, q, h => by
    rw [pattern] at h
    split at h
    · next c hctor =>
        split at h
        · next hfields => exact ok.inj h ▸ .ctor span hctor hfields.symm (forall_mem_nil _)
        · cases h
    · next hctor => exact ok.inj h ▸ .var span hctor
  | .placeholder span, q, h => ok.inj h ▸ .wildcard span
  | .ctor span head args, q, h => by
    rw [pattern] at h
    split at h
    · next c hctor =>
        split at h
        · next hfields =>
            obtain ⟨qs, hqs, h⟩ := bind_eq_ok.1 h
            obtain ⟨hlength, hall⟩ := patterns_resolved args hqs
            exact ok.inj h ▸ .ctor span hctor (hlength.trans hfields.symm) hall
        · cases h
    · split at h <;> cases h
  | .inaccessible span term, q, h => ok.inj h ▸ .inaccessible span term
  | .list span elems, q, h => by
    rw [pattern] at h
    split at h
    · next nil cons hnotation =>
        obtain ⟨qs, hqs, h⟩ := bind_eq_ok.1 h
        exact ok.inj h ▸ .list span hnotation (patterns_resolved elems hqs).2
    · cases h

lemma patterns_resolved : (ps : List Surface.Pattern) → {qs : List Pattern} →
    sig.patterns ps = .ok qs → qs.length = ps.length ∧ ∀ q ∈ qs, sig.Resolved q
  | [], qs, h => ok.inj h ▸ ⟨rfl, forall_mem_nil _⟩
  | p :: ps, qs, h => by
    rw [patterns] at h
    obtain ⟨q, hq, h⟩ := bind_eq_ok.1 h
    obtain ⟨rest, hrest, h⟩ := bind_eq_ok.1 h
    obtain ⟨hlength, hall⟩ := patterns_resolved ps hrest
    exact ok.inj h ▸ ⟨congrArg (· + 1) hlength, forall_mem_cons.2 ⟨pattern_resolved p hq, hall⟩⟩

end

variable {ps : List Surface.Pattern} {qs : List Pattern}

lemma patterns_forall₂ (h : sig.patterns ps = .ok qs) :
    Forall₂ (fun p q => sig.pattern p = .ok q) ps qs := by
  induction ps generalizing qs with
  | nil => exact ok.inj h ▸ .nil
  | cons p ps ih =>
    rw [Signature.patterns] at h
    obtain ⟨q, hq, h⟩ := bind_eq_ok.1 h
    obtain ⟨rest, hrest, h⟩ := bind_eq_ok.1 h
    exact ok.inj h ▸ .cons hq (ih hrest)

lemma clausePatterns_eq_ok {arity : Nat} {inherited : List Surface.Ident} {span : Span}
    (h : sig.clausePatterns arity inherited span ps = .ok qs) :
    ps.length = arity ∧ sig.patterns ps = .ok qs ∧
      firstRebound? inherited (patternsBindings qs) = none := by
  unfold clausePatterns at h
  split at h
  · next hlength =>
      obtain ⟨rs, hrs, h⟩ := bind_eq_ok.1 h
      split at h
      · cases h
      · next hnone =>
          obtain rfl := ok.inj h
          exact ⟨hlength, hrs, hnone⟩
  · cases h

/-! ### Clauses -/

/-- What becomes of a right-hand side, if its clauses become their rows. -/
inductive RhsBy (P : Nat → List Surface.Ident → Surface.Clause → Row → Prop)
    (bound : List Surface.Ident) : Surface.Rhs → RowRhs → Prop
  | term (body : Surface.Term) : RhsBy P bound (.term body) (.term body)
  | absurd (span : Span) : RhsBy P bound (.absurd span) (.absurd span)
  | inspect (scrut : Surface.Term) {equation : Option Surface.Ident}
      {clauses : List Surface.Clause} {rows : List Row} :
      Forall₂ (P 1 (bound ++ equation.toList)) clauses rows →
      RhsBy P bound (.inspect scrut equation clauses) (.inspect scrut equation rows)

lemma RhsBy.inner (h : RhsBy P bound rhs rhs') :
    ∀ inner ∈ rhs'.rows, ∃ c, P 1 (bound ++ rhs'.equations) c inner := by
  cases h with
  | term | absurd => exact forall_mem_nil _
  | inspect scrut hall =>
    intro inner hinner
    obtain ⟨c, -, hc⟩ := mem_of_forall₂ hall hinner
    exact ⟨c, hc⟩

/-- A relation between clauses and their rows, with the number of patterns and the names bound
around them, that holds of clauses if it holds of those of their inspections. -/
def RowsBy (sig : Signature) (P : Nat → List Surface.Ident → Surface.Clause → Row → Prop) : Prop :=
  ∀ ⦃arity : Nat⦄ ⦃inherited : List Surface.Ident⦄ ⦃ps : List Surface.Pattern⦄ ⦃qs : List Pattern⦄
    ⦃rhs : Surface.Rhs⦄ ⦃rhs' : RowRhs⦄ (span : Span) (auxiliaries : List Surface.Definition),
    ps.length = arity → sig.patterns ps = .ok qs →
    firstRebound? inherited (patternsBindings qs) = none →
    RhsBy P (inherited ++ patternsBindings qs) rhs rhs' →
    P arity inherited (.mk span ps rhs auxiliaries) (.mk span qs rhs' auxiliaries)

mutual

lemma RowsBy.row (hP : sig.RowsBy P) {arity : Nat} {inherited : List Surface.Ident} :
    (c : Surface.Clause) →
    {r : Row} → sig.row arity inherited c = .ok r → P arity inherited c r
  | .mk span ps rhs auxiliaries, r, h => by
    rw [Signature.row] at h
    obtain ⟨qs, hqs, h⟩ := bind_eq_ok.1 h
    obtain ⟨rhs', hrhs, h⟩ := bind_eq_ok.1 h
    obtain ⟨hlength, hps, hnone⟩ := clausePatterns_eq_ok hqs
    exact ok.inj h ▸ hP span auxiliaries hlength hps hnone (hP.rhs rhs hrhs)

lemma RowsBy.rhs (hP : sig.RowsBy P) {bound : List Surface.Ident} : (rhs : Surface.Rhs) →
    {r : RowRhs} → sig.rowRhs bound rhs = .ok r → RhsBy P bound rhs r
  | .term body, r, h => ok.inj h ▸ .term body
  | .absurd span, r, h => ok.inj h ▸ .absurd span
  | .inspect scrut equation clauses, r, h => by
    rw [rowRhs] at h
    obtain ⟨rows, hrows, h⟩ := bind_eq_ok.1 h
    exact ok.inj h ▸ .inspect scrut (hP.rows clauses hrows)

lemma RowsBy.rows (hP : sig.RowsBy P) {arity : Nat} {inherited : List Surface.Ident} :
    (cs : List Surface.Clause) → {rs : List Row} → sig.rows arity inherited cs = .ok rs →
    Forall₂ (P arity inherited) cs rs
  | [], rs, h => ok.inj h ▸ .nil
  | c :: cs, rs, h => by
    rw [Signature.rows] at h
    obtain ⟨r, hr, h⟩ := bind_eq_ok.1 h
    obtain ⟨rs', hrs, h⟩ := bind_eq_ok.1 h
    exact ok.inj h ▸ .cons (hP.row c hr) (hP.rows cs hrs)

end

end Signature

/-! ### Shapes -/

/-- Constructors are known and have all their fields, and no variable is named like one. -/
inductive Pattern.Shaped (sig : Signature) : Pattern → Prop
  | wildcard (span : Span) : Shaped sig (.wildcard span)
  | var {name : Name} (span : Span) : sig.ctor? name = none → Shaped sig (.var span name)
  | ctor {name : Name} {c : Ctor} {args : List Pattern} (span : Span) :
      sig.ctor? name = some c → args.length = c.numFields → (∀ p ∈ args, Shaped sig p) →
      Shaped sig (.ctor span name args)
  | inaccessible (span : Span) (term : Surface.Term) : Shaped sig (.inaccessible span term)

/-- The row has so many patterns, and the rows of inspections have one, at any depth. -/
inductive Row.Shaped (sig : Signature) : Nat → Row → Prop
  | intro {row : Row} {arity : Nat} : row.patterns.length = arity →
      (∀ p ∈ row.patterns, p.Shaped sig) → (∀ inner ∈ row.rhs.rows, Shaped sig 1 inner) →
      Shaped sig arity row

/-- The second span lies in the first. -/
def Span.Contains (a b : Span) : Prop := a.start ≤ b.start ∧ b.stop ≤ a.stop

lemma Span.merge_contains (a b : Span) : (a.merge b).Contains a ∧ (a.merge b).Contains b := by
  simp only [Contains, merge]
  omega

/-- A pattern that spells out a list: a node for each element, around it and what follows. -/
inductive Pattern.Spells (nil cons : Name) (span : Span) : List Pattern → Pattern → Prop
  | nil : Spells nil cons span [] (.ctor span nil [])
  | cons {head tail : Pattern} {elems : List Pattern} {node : Span} :
      node.Contains head.span → node.Contains tail.span → Spells nil cons span elems tail →
      Spells nil cons span (head :: elems) (.ctor node cons [head, tail])

namespace Signature

variable {sig : Signature}

lemma listPattern_spells (nil cons : Name) (span : Span) (elems : List Pattern) :
    (listPattern nil cons span elems).Spells nil cons span elems := by
  induction elems with
  | nil => exact .nil
  | cons head elems ih =>
    obtain ⟨hhead, htail⟩ := head.span.merge_contains (listPattern nil cons span elems).span
    exact .cons hhead htail ih

lemma listPattern_shaped {nil cons : Name} (h : isListNotation sig nil cons = true) (span : Span)
    (helems : ∀ p ∈ elems, p.Shaped sig) :
    (listPattern nil cons span elems).Shaped sig := by
  unfold isListNotation at h
  split at h
  · next n c hnil hcons =>
      simp only [Bool.and_eq_true, beq_iff_eq] at h
      obtain ⟨⟨-, hn⟩, hc⟩ := h
      induction elems with
      | nil => exact .ctor span hnil hn.symm (forall_mem_nil _)
      | cons head elems ih =>
        obtain ⟨hhead, helems⟩ := forall_mem_cons.1 helems
        exact .ctor _ hcons hc.symm (by simpa using ⟨hhead, ih helems⟩)
  · cases h

variable {q : Pattern}

section

variable (hlists : ∀ nil cons, sig.listNotation = some (nil, cons) →
  isListNotation sig nil cons = true)

include hlists

lemma Resolved.shaped
    (h : sig.Resolved q) : q.Shaped sig := by
  induction h with
  | wildcard span => exact .wildcard span
  | var span hctor => exact .var span hctor
  | ctor span hctor hlength _ ih => exact .ctor span hctor hlength ih
  | inaccessible span term => exact .inaccessible span term
  | list span hnotation _ ih => exact listPattern_shaped (hlists _ _ hnotation) span ih

lemma shaped_rowsBy : sig.RowsBy fun arity _ _ row => row.Shaped sig arity := by
  intro arity inherited ps qs rhs rhs' span auxiliaries harity hqs _ hrhs
  obtain ⟨hlength, hresolved⟩ := patterns_resolved ps hqs
  refine .intro (hlength.trans harity) (fun q hq => (hresolved q hq).shaped hlists) ?_
  exact fun inner hinner => (hrhs.inner inner hinner).elim fun _ h => h

end

lemma pattern_list {span : Span} {elems : List Surface.Pattern}
    (h : sig.pattern (.list span elems) = .ok q) :
    ∃ nil cons qs, sig.listNotation = some (nil, cons) ∧
      Forall₂ (fun e p => sig.pattern e = .ok p) elems qs ∧ q.Spells nil cons span qs := by
  rw [pattern] at h
  split at h
  · next nil cons hnotation =>
      obtain ⟨qs, hqs, h⟩ := bind_eq_ok.1 h
      exact ⟨nil, cons, qs, hnotation, patterns_forall₂ hqs,
        ok.inj h ▸ listPattern_spells nil cons span qs⟩
  · cases h

end Signature

lemma Row.pad_patterns (row : Row) (before after : Nat) : (row.pad before after).patterns =
    replicate before (.wildcard row.span) ++ row.patterns ++
      replicate after (.wildcard row.span) := rfl

/-- The rows of a matrix are well shaped.  At any depth, rows have as many patterns as they match
arguments and constructors as many as they have fields.  A list pattern becomes a node for each
of its elements, in order.  Padding moves the patterns of a row and puts wildcards around them. -/
theorem Signature.matrix_wellShaped {sig : Signature}
    (hlists : ∀ nil cons, sig.listNotation = some (nil, cons) →
      Elaborate.isListNotation sig nil cons = true)
    {arity : Nat} {clauses : List Surface.Clause} {rows : List Row}
    (h : sig.matrix arity clauses = .ok rows) :
    (∀ row ∈ rows, row.Shaped sig arity) ∧
    (∀ span elems q, sig.pattern (.list span elems) = .ok q → ∃ nil cons qs,
      sig.listNotation = some (nil, cons) ∧ Forall₂ (fun e p => sig.pattern e = .ok p) elems qs ∧
        q.Spells nil cons span qs) ∧
    ∀ (row : Row) (before after : Nat), (row.pad before after).rhs = row.rhs ∧
      (row.pad before after).patterns.length = before + row.patterns.length + after ∧
      ∀ i p, (row.pad before after).patterns[i]? = some p →
        if before ≤ i ∧ i < before + row.patterns.length then row.patterns[i - before]? = some p
        else p = .wildcard row.span := by
  refine ⟨fun row hrow => ?_, fun span elems q => pattern_list, fun row before after => ?_⟩
  · obtain ⟨c, -, hc⟩ := mem_of_forall₂ ((shaped_rowsBy hlists).rows clauses h) hrow
    exact hc
  · rw [row.pad_patterns]
    refine ⟨rfl, by simp [Nat.add_assoc], fun i p hp => ?_⟩
    grind

namespace Matrix

/-- Lists, with their notation. -/
def lists : Signature where
  entries := [("nil", .ctor ⟨"nil", "List", 1, 0, .univ⟩),
    ("cons", .ctor ⟨"cons", "List", 1, 2, .univ⟩)]
  listNotation := some ("nil", "cons")

/-- A clause for lists of two elements. -/
def pair : Surface.Clause :=
  .mk default [.list ⟨0, 6⟩ [.name ⟨1, 2⟩ "x", .placeholder ⟨4, 5⟩]] (.term (.name default "x")) []

theorem pair_wellShaped : ∃ row, lists.matrix 1 [pair] = .ok [row] ∧ row.Shaped lists 1 ∧
    row.patterns.map (·.span) = [⟨0, 6⟩] := by
  have hlists : ∀ nil cons, lists.listNotation = some (nil, cons) →
      Elaborate.isListNotation lists nil cons = true := by
    rintro _ _ ⟨⟩
    rfl
  have hrows : lists.matrix 1 [pair] = _ := rfl
  exact ⟨_, hrows, (Signature.matrix_wellShaped hlists hrows).1 _ mem_cons_self, rfl⟩

end Matrix

/-! ### Names -/

/-- A name that a row binds. -/
structure Binding where
  name : Name
  /-- Whether it is the name of an equation. -/
  equation : Bool

/-- The names that a row binds, from left to right. -/
def Row.bindings (row : Row) : List Binding :=
  (patternsBindings row.patterns).map (⟨·.name, false⟩) ++ row.rhs.equations.map (⟨·.name, true⟩)

/-- A later name of a pattern differs from an earlier name. -/
def Binding.Apart (earlier later : Binding) : Prop :=
  later.equation = false → earlier.name ≠ later.name

lemma Row.bindings_apart (row : Row)
    (h : firstRebound? inherited (patternsBindings row.patterns) = none) :
    row.bindings.Pairwise Binding.Apart ∧
      ∀ b ∈ row.bindings, b.equation = false → ∀ ident ∈ inherited, ident.name ≠ b.name := by
  obtain ⟨hseen, hdistinct⟩ := firstRebound?_eq_none.1 h
  constructor
  · refine pairwise_append.2 ⟨pairwise_map.2 ?_, pairwise_map.2 ?_, ?_⟩
    · exact hdistinct.imp fun hne => by exact fun _ => hne
    · exact pairwise_of_forall fun _ _ h => by cases h
    · intro a _ b hb heq
      obtain ⟨_, -, rfl⟩ := mem_map.1 hb
      cases heq
  · intro b hb heq ident hident
    rcases mem_append.1 hb with hb | hb <;> obtain ⟨bound, hbound, rfl⟩ := mem_map.1 hb
    · exact hseen bound hbound ident hident
    · cases heq

/-- A chain of rows, each in the inspection of the one before it. -/
def Row.Chain (rows : List Row) : Prop := rows.IsChain fun outer inner => inner ∈ outer.rhs.rows

/-- Along a chain from a row, patterns bind new names. -/
lemma Signature.chains_rowsBy {sig : Signature} : sig.RowsBy fun _ inherited _ row =>
    ∀ rest, Row.Chain (row :: rest) →
      ((row :: rest).flatMap Row.bindings).Pairwise Binding.Apart ∧
        ∀ b ∈ (row :: rest).flatMap Row.bindings, b.equation = false →
          ∀ ident ∈ inherited, ident.name ≠ b.name := by
  intro arity inherited ps qs rhs rhs' span auxiliaries _ _ hnone hrhs rest hchain
  obtain ⟨hrow, hinherited⟩ := (Row.mk span qs rhs' auxiliaries).bindings_apart hnone
  rw [flatMap_cons]
  cases rest with
  | nil => simpa using ⟨hrow, hinherited⟩
  | cons inner rest =>
    obtain ⟨hinner, hchain⟩ := isChain_cons_cons.1 hchain
    obtain ⟨c, hc⟩ := hrhs.inner inner hinner
    obtain ⟨hlater, hbound⟩ := hc rest hchain
    refine ⟨pairwise_append.2 ⟨hrow, hlater, fun a ha b hb heq => ?_⟩, fun b hb heq => ?_⟩
    · have hname : ∃ ident ∈ inherited ++ patternsBindings qs ++ rhs'.equations,
          ident.name = a.name := by
        rcases mem_append.1 ha with ha | ha <;> obtain ⟨ident, hident, rfl⟩ := mem_map.1 ha
        · exact ⟨ident, by simp [show ident ∈ patternsBindings qs from hident], rfl⟩
        · exact ⟨ident, by simp [show ident ∈ rhs'.equations from hident], rfl⟩
      obtain ⟨ident, hident, hname⟩ := hname
      exact hname ▸ hbound b hb heq ident hident
    · rcases mem_append.1 hb with hb | hb
      · exact hinherited b hb heq
      · exact fun ident hident => hbound b hb heq ident (by simp [hident])

/-- Along every chain of rows of a matrix, patterns bind no name that was bound before.  So all
names are distinct if and only if the names of equations are new where they are bound. -/
theorem Signature.matrix_binds_once {sig : Signature} {arity : Nat}
    {clauses : List Surface.Clause} {rows : List Row} (h : sig.matrix arity clauses = .ok rows)
    {row : Row} (hrow : row ∈ rows) {rest : List Row} (hchain : Row.Chain (row :: rest)) :
    let bound := (row :: rest).flatMap Row.bindings
    bound.Pairwise Binding.Apart ∧
      ((bound.map (·.name)).Nodup ↔ bound.Pairwise fun earlier later =>
        later.equation = true → earlier.name ≠ later.name) := by
  intro bound
  obtain ⟨c, -, hc⟩ := mem_of_forall₂ (chains_rowsBy.rows clauses h) hrow
  have hapart : bound.Pairwise Binding.Apart := (hc rest hchain).1
  refine ⟨hapart, ?_⟩
  rw [List.Nodup, pairwise_map]
  constructor
  · exact fun hnodup => hnodup.imp fun hne => by exact fun _ => hne
  · refine fun hequations => (hapart.and hequations).imp fun {a b} hboth => ?_
    cases hb : b.equation with
    | false => exact hboth.1 hb
    | true => exact hboth.2 hb

namespace Matrix

/-- A clause that inspects its argument, with a name for the equation. -/
def inspecting (equation : Name) : Surface.Clause :=
  .mk default [.name default "n"] (.inspect (.name default "n") (some ⟨default, equation⟩)
    [.mk default [.name default "m"] (.term (.name default "m")) []]) []

/-- With a name of its own the equation is told apart from both variables. -/
theorem inspecting_binds_once : ∃ row inner,
    ({} : Signature).matrix 1 [inspecting "h"] = .ok [row] ∧ Row.Chain [row, inner] ∧
    ([row, inner].flatMap Row.bindings).map (·.name) = ["n", "h", "m"] ∧
    (([row, inner].flatMap Row.bindings).map (·.name)).Nodup := by
  have hrows : ({} : Signature).matrix 1 [inspecting "h"] = _ := rfl
  refine ⟨_, _, hrows, isChain_cons_cons.2 ⟨mem_cons_self, .singleton _⟩, rfl, ?_⟩
  exact (Signature.matrix_binds_once hrows mem_cons_self
    (isChain_cons_cons.2 ⟨mem_cons_self, .singleton _⟩)).2.2 (by decide)

/-- The name of an equation may repeat that of a variable. -/
theorem inspecting_rebinds : ∃ row, ({} : Signature).matrix 1 [inspecting "n"] = .ok [row] ∧
    Row.Chain [row] ∧ row.bindings.map (·.name) = ["n", "n"] :=
  ⟨_, rfl, .singleton _, rfl⟩

end Matrix

end Clausal
