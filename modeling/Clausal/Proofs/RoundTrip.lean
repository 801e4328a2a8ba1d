import Clausal.Proofs.Writing

/-!
# Reading what is written

Every reader takes what is written of its trees and gives these trees back, up to
places.  Readers look at the next token, so what may follow is part of every statement.
-/

namespace Clausal.Surface

open Bool List Parse

variable {p : Pattern} {ps : List Pattern} {r : Rhs} {t : Term}

namespace Parse

/-! ### Terms and parameters -/

lemma written_term_reads (ht : t.writable = true)
    (hfuel : 4 * t.phrase.tokens.length + 3 ≤ fuel) :
    Reads (term fuel) t.phrase.tokens EndsTerm (·.unplaced = t.unplaced) := by
  rw [← t.phrase_tree]
  exact term_reads (t.phrase_clear ht) hfuel

lemma written_params_read {ps : List Param} (hps : paramsWritable ps = true)
    (hfuel : 4 * (bindersTokens (paramsBinders ps)).length + 1 ≤ fuel) :
    Reads (params fuel) (bindersTokens (paramsBinders ps)) (· ≠ some (.mark .openParen))
      (paramsUnplaced · = paramsUnplaced ps) := by
  have hclear := paramsBinders_clear hps fun p _ hp => p.type.phrase_clear hp
  have hread := params_reads (termsRead _) hclear (Nat.le_refl _) hfuel
  rwa [bindersTree_paramsBinders fun p _ => p.type.phrase_tree] at hread

/-! ### Patterns -/

-- The lemmas below step through these readers by their equations.
attribute [local simp] pattern patternArgs atomicPattern patternElems
  clauses clause rhs auxiliaries definition

/-- What ends the arguments of a constructor pattern. -/
def EndsPattern (o : Option Token) : Prop := ∀ t, o = some t → startsAtomicPattern t = false

lemma endsPattern_some {t : Token} (h : startsAtomicPattern t = false) :
    EndsPattern (some t) := by
  rintro u ⟨⟩
  exact h

/-- The pattern is read as an operand. -/
def OperandReads (p : Pattern) : Prop :=
  ∀ fuel, 4 * p.partTokens.length ≤ fuel →
    Reads (atomicPattern fuel) p.partTokens (fun _ => True) (·.unplaced = p.unplaced)

/-- The pattern is read where patterns stand. -/
def PatternReads (p : Pattern) : Prop :=
  ∀ fuel, 4 * p.tokens.length + 1 ≤ fuel →
    Reads (pattern fuel) p.tokens EndsPattern (·.unplaced = p.unplaced)

end Parse

lemma Term.exists_forcedTokens (t : Term) : ∃ ts, t.forcedTokens = .mark .fullStop :: ts := by
  rw [Term.forcedTokens.eq_def]
  split <;> exact ⟨_, rfl⟩

lemma Term.forcedTokens_eq (t : Term) :
    (∃ span n, t = .name span n) ∨
      t.forcedTokens = .mark .fullStop :: parenthesised t.phrase.tokens := by
  cases t with
  | name span n => exact .inl ⟨span, n, rfl⟩
  | _ => exact .inr rfl

lemma Pattern.exists_partTokens (p : Pattern) :
    ∃ t ts, p.partTokens = t :: ts ∧ startsAtomicPattern t = true := by
  cases p with
  | name span n | placeholder span | ctor span head args | list span elems => exact ⟨_, _, rfl, rfl⟩
  | inaccessible span t =>
    obtain ⟨ts, hts⟩ := t.exists_forcedTokens
    exact ⟨_, ts, hts, rfl⟩

lemma Clause.exists_tokens (c : Clause) : ∃ ts, c.tokens = .mark .pipe :: ts := by
  obtain ⟨span, patterns, rhs, auxiliaries⟩ := c
  exact ⟨_, rfl⟩

lemma Definition.exists_tokens (d : Definition) : ∃ ts, d.tokens = .name d.name.name :: ts := by
  obtain ⟨span, name, transparent, params, type, clauses⟩ := d
  exact ⟨_, rfl⟩

lemma Rhs.writable_clauses (h : r.writable = true) : ∀ c ∈ r.clauses, c.writable = true := by
  cases r with
  | inspect scrut equation clauses =>
    rw [Rhs.writable, and_eq_true] at h
    exact (clausesWritable_iff clauses).mp h.2
  | _ => simp [Rhs.clauses]

lemma Pattern.exists_tokens (p : Pattern) :
    ∃ t ts, p.tokens = t :: ts ∧ startsAtomicPattern t = true := by
  cases hp : p.isCompound with
  | false =>
    have htokens : p.partTokens = p.tokens := by simp [Pattern.partTokens, hp]
    rw [← htokens]
    exact p.exists_partTokens
  | true =>
    cases p with
    | ctor span head args => exact ⟨_, _, rfl, rfl⟩
    | _ => cases hp

lemma Pattern.partTokens_pos (p : Pattern) : 0 < p.partTokens.length := by
  obtain ⟨t, ts, h, -⟩ := p.exists_partTokens
  simp [h]

namespace Parse

variable {fuel : Nat}

/-- An operand that does not start with a name is read where patterns stand. -/
lemma OperandReads.pattern_reads (h : OperandReads p)
    (hname : ∀ n ts, p.partTokens ≠ .name n :: ts) (hfuel : 4 * p.partTokens.length + 1 ≤ fuel) :
    Reads (pattern fuel) p.partTokens EndsPattern (·.unplaced = p.unplaced) := by
  rcases fuel with _ | fuel
  · omega
  obtain ⟨t, ts, htokens, -⟩ := p.exists_partTokens
  rw [pattern]
  refine atName_misses.bind_nil (fun b hb => ?_) (fun _ _ => ?_)
  · subst hb
    exact (h fuel (by omega)).imp (fun _ _ => trivial) fun _ h => h
  · rw [htokens]
    rintro ⟨n, ⟨⟩⟩
    exact hname n ts htokens

lemma patternArgs_read (h : ∀ p ∈ args, OperandReads p)
    (hfuel : 4 * (partsTokens args).flatten.length + 1 ≤ fuel) :
    Reads (patternArgs fuel) (partsTokens args).flatten EndsPattern
      (·.map (·.unplaced) = args.map (·.unplaced)) := by
  rcases fuel with _ | fuel
  · omega
  rw [partsTokens_eq_map] at hfuel ⊢
  induction args generalizing fuel with
  | nil =>
    rw [patternArgs]
    refine (peek?_reads EndsPattern).bind_nil (fun next hnext => ?_) (fun _ h => h)
    cases next with
    | none => exact Reads.pure (by rfl) _
    | some t =>
      simp only [hnext t rfl, false_eq_true, if_false]
      exact Reads.pure (by rfl) _
  | cons p args ih =>
    obtain ⟨hp, hargs⟩ := forall_mem_cons.mp h
    obtain ⟨t, ts, htokens, hstart⟩ := p.exists_partTokens
    have hpos := p.partTokens_pos
    rw [map_cons, flatten_cons, length_append] at hfuel
    rw [patternArgs, map_cons, flatten_cons]
    refine (peek?_reads (· = some t)).bind_nil (fun next hnext => ?_)
      (fun _ _ => by rw [htokens]; rfl)
    subst hnext
    simp only [hstart, if_true]
    refine (hp fuel (by omega)).bind_any fun q hq => ?_
    rcases fuel with _ | fuel
    · omega
    exact (ih hargs fuel (by omega)).map fun qs hqs => by simp [hq, hqs]

/-- Elements of a list pattern are read up to the closing bracket. -/
lemma patternElems_read
    (h : ∀ p ∈ elems, ∀ fuel, 4 * p.partTokens.length + 1 ≤ fuel →
      Reads (pattern fuel) p.partTokens EndsPattern (·.unplaced = p.unplaced))
    (hfuel : 4 * (separated (partsTokens elems)).length + 2 ≤ fuel) :
    Reads (patternElems fuel) (separated (partsTokens elems))
      (· = some (.mark .closeBracket)) (·.map (·.unplaced) = elems.map (·.unplaced)) := by
  rcases fuel with _ | fuel
  · omega
  rw [partsTokens_eq_map] at hfuel ⊢
  induction elems generalizing fuel with
  | nil =>
    rw [patternElems]
    refine (atMark_reads .closeBracket).bind_nil (fun b hb => ?_) (fun _ h => h)
    subst hb
    exact Reads.pure (by rfl) _
  | cons p elems ih =>
    obtain ⟨hp, helems⟩ := forall_mem_cons.mp h
    obtain ⟨t, ts, htokens, hstart⟩ := p.exists_partTokens
    rw [map_cons, separated, length_append] at hfuel
    rw [patternElems, map_cons, separated]
    refine (atMark_misses .closeBracket).bind_nil (fun b hb => ?_) (fun _ _ => ?_)
    · subst hb
      -- The bracket follows the last element, a comma every other one.
      cases elems with
      | nil =>
        refine (hp fuel (by omega)).bind (fun q hq => ?_) ?_
        · refine (eat?_misses (.mark .comma)).bind_nil (fun o ho => ?_) (fun _ h => ?_)
          · subst ho
            exact Reads.pure (by simp [hq]) _
          · rintro ⟨⟩
            cases h
        · rintro _ rfl
          exact endsPattern_some rfl
      | cons r elems =>
        refine (hp fuel (by omega)).bind (fun q hq => ?_) (fun _ _ => endsPattern_some rfl)
        refine Reads.bind_eat fun span => ?_
        rcases fuel with _ | fuel
        · omega
        refine (ih helems fuel ?_).map fun qs hqs => by simp [hq, hqs]
        simp only [map_cons, separated, flatMap_cons, length_append,
          length_cons] at hfuel ⊢
        omega
    · rw [htokens]
      rintro ⟨⟩
      cases hstart

lemma operandReads_of_compound (hp : p.isCompound = true) (h : PatternReads p) :
    OperandReads p := by
  intro fuel hfuel
  have htokens : p.partTokens = parenthesised p.tokens := if_pos hp
  simp only [htokens, parenthesised, length_cons, length_append, length_nil] at hfuel
  rcases fuel with _ | fuel
  · omega
  rw [atomicPattern, htokens, parenthesised]
  refine Reads.bind_peek ?_
  refine Reads.bind_expect fun _ => ?_
  refine (h fuel (by omega)).bind (fun q hq => ?_) (fun _ _ => endsPattern_some rfl)
  exact (expect_reads _).map fun _ _ => hq

lemma part_reads (h : PatternReads p) (h' : OperandReads p)
    (hfuel : 4 * p.partTokens.length + 1 ≤ fuel) :
    Reads (pattern fuel) p.partTokens EndsPattern (·.unplaced = p.unplaced) := by
  cases hp : p.isCompound with
  | false =>
    have htokens : p.partTokens = p.tokens := by simp [Pattern.partTokens, hp]
    rw [htokens] at hfuel ⊢
    exact h fuel hfuel
  | true =>
    refine h'.pattern_reads (fun n ts hts => ?_) hfuel
    rw [Pattern.partTokens, if_pos hp] at hts
    cases hts

lemma forced_reads (span : Span) (ht : t.writable = true) :
    OperandReads (.inaccessible span t) := by
  intro fuel hfuel
  change 4 * t.forcedTokens.length ≤ fuel at hfuel
  change Reads _ t.forcedTokens _ _
  rcases t.forcedTokens_eq with ⟨place, n, rfl⟩ | htokens
  · change 4 * 2 ≤ fuel at hfuel
    rcases fuel with _ | fuel
    · omega
    rw [atomicPattern]
    refine Reads.bind_peek ?_
    refine Reads.bind_expect fun _ => ?_
    refine Reads.bind_atMark_miss (fun _ _ => by simp) ?_
    exact (ident_reads n).map fun i hi => by simp [Pattern.unplaced, Term.unplaced, hi]
  · rw [htokens] at hfuel ⊢
    simp only [parenthesised, length_cons, length_append, length_nil] at hfuel
    rcases fuel with _ | fuel
    · omega
    rw [atomicPattern]
    refine Reads.bind_peek ?_
    refine Reads.bind_expect fun _ => ?_
    refine Reads.bind_atMark ?_
    refine Reads.bind_expect fun _ => ?_
    refine (written_term_reads ht (by omega)).bind_ends fun u hu => ?_
    exact (expect_reads _).map fun _ _ => by simp [Pattern.unplaced, hu]

/-- Patterns are read as they are written. -/
lemma pattern_reads (p : Pattern) (h : p.writable = true) : PatternReads p ∧ OperandReads p := by
  induction p using Pattern.induct with
  | name span n =>
    constructor
    · intro fuel hfuel
      change 4 * 1 + 1 ≤ fuel at hfuel
      rcases fuel with _ | fuel
      · omega
      rw [pattern]
      refine Reads.bind_atName ?_
      refine Reads.bind_ident fun i hi => ?_
      -- A name is a constructor with arguments only if an operand follows.
      have hnone := @patternArgs_read fuel [] (by simp) (by change 4 * 0 + 1 ≤ fuel; omega)
      refine hnone.bind_nil (fun args hargs => ?_) (fun _ h => h)
      obtain rfl : args = [] := by simpa using hargs
      exact Reads.pure (by simp [Pattern.unplaced, hi]) _
    · intro fuel hfuel
      change 4 * 1 ≤ fuel at hfuel
      rcases fuel with _ | fuel
      · omega
      rw [atomicPattern]
      refine Reads.bind_peek ?_
      exact (ident_reads n).map fun i hi => by simp [Pattern.unplaced, hi]
  | placeholder span =>
    have hoperand : OperandReads (.placeholder span) := by
      intro fuel hfuel
      change 4 * 1 ≤ fuel at hfuel
      rcases fuel with _ | fuel
      · omega
      rw [atomicPattern]
      refine Reads.bind_peek ?_
      exact (expect_reads _).map fun _ _ => rfl
    exact ⟨fun fuel hfuel => hoperand.pattern_reads (fun _ _ h => by cases h) hfuel, hoperand⟩
  | ctor span head args ih =>
    simp only [Pattern.writable, and_eq_true, not_eq_true', isEmpty_eq_false_iff,
      patternsWritable_iff] at h
    have hpattern : PatternReads (.ctor span head args) := by
      intro fuel hfuel
      rw [Pattern.tokens, length_cons] at hfuel
      rcases fuel with _ | fuel
      · omega
      rw [pattern, Pattern.tokens]
      refine Reads.bind_atName ?_
      refine Reads.bind_ident fun i hi => ?_
      have hread := @patternArgs_read fuel args (fun p hp => (ih p hp (h.2 p hp)).2) (by omega)
      rw [← append_nil (partsTokens args).flatten]
      refine hread.bind (fun qs hqs => ?_) (fun _ h => h)
      have hqs' : qs ≠ [] := by
        rintro rfl
        exact h.1.2 (by simpa using hqs.symm)
      rw [getLast?_eq_getLast_of_ne_nil hqs']
      refine Reads.pure ?_ _
      simp [Pattern.unplaced, patternsUnplaced_eq_map, hqs, Ident.unplaced, hi]
    exact ⟨hpattern, operandReads_of_compound rfl hpattern⟩
  | inaccessible span t =>
    have hoperand := forced_reads span h
    obtain ⟨ts, hts⟩ := t.exists_forcedTokens
    refine ⟨fun fuel hfuel => hoperand.pattern_reads (fun n us hus => ?_) hfuel, hoperand⟩
    cases hts.symm.trans hus
  | list span elems ih =>
    have hoperand : OperandReads (.list span elems) := by
      intro fuel hfuel
      change 4 * (Pattern.list span elems).tokens.length ≤ fuel at hfuel
      change Reads _ (Pattern.list span elems).tokens _ _
      simp only [Pattern.tokens, length_cons, length_append, length_nil] at hfuel
      rcases fuel with _ | fuel
      · omega
      rw [atomicPattern, Pattern.tokens]
      refine Reads.bind_peek ?_
      refine Reads.bind_expect fun _ => ?_
      have hparts (p : Pattern) (hp : p ∈ elems) := ih p hp ((patternsWritable_iff _).mp h p hp)
      have hread := @patternElems_read fuel elems
        (fun p hp _ => part_reads (hparts p hp).1 (hparts p hp).2) (by omega)
      refine hread.bind (fun qs hqs => ?_) (fun _ _ => rfl)
      exact (expect_reads _).map fun _ _ => by
        simp [Pattern.unplaced, patternsUnplaced_eq_map, hqs]
    exact ⟨fun fuel hfuel => hoperand.pattern_reads (fun _ _ h => by cases h) hfuel, hoperand⟩

/-! ### Clauses and definitions -/

lemma morePatterns_read (hps : ∀ p ∈ ps, p.writable = true)
    (hfuel : 4 * ((ps.map (·.tokens)).flatMap (.mark .comma :: ·)).length + 1 ≤ fuel) :
    Reads (morePatterns fuel) ((ps.map (·.tokens)).flatMap (.mark .comma :: ·))
      (fun o => EndsPattern o ∧ o ≠ some (.mark .comma))
      (·.map (·.unplaced) = ps.map (·.unplaced)) := by
  rcases fuel with _ | fuel
  · omega
  induction ps generalizing fuel with
  | nil =>
    rw [morePatterns]
    exact Reads.bind_eat_miss (fun _ h => h.2) (Reads.pure (by rfl) _)
  | cons p ps ih =>
    obtain ⟨hp, hps⟩ := forall_mem_cons.mp hps
    simp only [map_cons, flatMap_cons, length_append, length_cons] at hfuel
    rw [morePatterns, map_cons, flatMap_cons]
    refine Reads.bind_eat fun span => ?_
    refine ((pattern_reads p hp).1 fuel (by omega)).bind (fun q hq => ?_) (fun o ho => ?_)
    · rcases fuel with _ | fuel
      · omega
      exact (ih hps fuel (by omega)).map fun qs hqs => by simp [hq, hqs]
    · cases ps with
      | nil => exact ho.1
      | cons r ps => exact endsPattern_some rfl

/-- What ends the patterns of a clause. -/
structure EndsPatterns (ps : List Pattern) (o : Option Token) : Prop where
  ends : EndsPattern o
  not_comma : o ≠ some (.mark .comma)
  /-- Without patterns, the right-hand side must tell. -/
  of_nil : ps = [] → o = some (.mark .fatArrow) ∨ o = some (.keyword .inspect)

lemma clausePatterns_read (hps : ∀ p ∈ ps, p.writable = true)
    (hfuel : 4 * (separated (ps.map (·.tokens))).length + 1 ≤ fuel) :
    Reads (clausePatterns fuel) (separated (ps.map (·.tokens))) (EndsPatterns ps)
      (·.map (·.unplaced) = ps.map (·.unplaced)) := by
  rw [clausePatterns]
  cases ps with
  | nil =>
    refine (peek?_reads (EndsPatterns [])).bind_nil (fun next hnext => ?_) (fun _ h => h)
    obtain rfl | rfl := hnext.of_nil rfl
    · exact Reads.pure (by rfl) _
    · exact Reads.pure (by rfl) _
  | cons p ps =>
    obtain ⟨hp, hps⟩ := forall_mem_cons.mp hps
    rw [map_cons, separated, length_append] at hfuel
    obtain ⟨t, ts, htokens, hstart⟩ := p.exists_tokens
    rw [map_cons, separated]
    refine (peek?_reads (· = some t)).bind_nil (fun next hnext => ?_)
      (fun _ _ => by rw [htokens]; rfl)
    subst hnext
    -- No pattern starts like a right-hand side.
    split
    · next heq =>
        cases heq
        cases hstart
    · next heq =>
        cases heq
        cases hstart
    · refine ((pattern_reads p hp).1 fuel (by omega)).bind (fun q hq => ?_) (fun o ho => ?_)
      · refine ((morePatterns_read hps (by omega)).imp (fun o ho => ?_) fun _ h => h).map
          fun qs hqs => by simp [hq, hqs]
        exact ⟨ho.ends, ho.not_comma⟩
      · cases ps with
        | nil => exact ho.ends
        | cons r ps => exact endsPattern_some rfl

def EndsClause (o : Option Token) : Prop := o = some (.mark .pipe) ∨ o = some (.mark .closeBrace)

def EndsRhs (o : Option Token) : Prop := o = some (.keyword .auxiliaries) ∨ EndsClause o

lemma EndsRhs.endsTerm (h : EndsRhs o) : EndsTerm o := by
  rcases h with rfl | rfl | rfl <;> exact endsTerm_some rfl (by decide)

def ClauseReads (c : Clause) : Prop :=
  ∀ fuel, 4 * c.tokens.length ≤ fuel →
    Reads (clause fuel) c.tokens EndsClause (·.unplaced = c.unplaced)

def DefinitionReads (d : Definition) : Prop :=
  ∀ fuel start, 4 * d.tokens.length ≤ fuel →
    Reads (definition fuel start d.transparent) d.tokens (fun _ => True)
      (·.unplaced = d.unplaced)

lemma clauses_read (h : ∀ c ∈ cs, ClauseReads c)
    (hfuel : 4 * (clausesTokens cs).length + 1 ≤ fuel) :
    Reads (clauses fuel) (clausesTokens cs) (· = some (.mark .closeBrace))
      (clausesUnplaced · = clausesUnplaced cs) := by
  rcases fuel with _ | fuel
  · omega
  induction cs generalizing fuel with
  | nil =>
    rw [clauses]
    refine Reads.bind_atMark_miss (fun _ h => ?_) (Reads.pure (by rfl) _)
    rintro ⟨⟩
    cases h
  | cons c cs ih =>
    obtain ⟨hc, hcs⟩ := forall_mem_cons.mp h
    obtain ⟨ts, hts⟩ := c.exists_tokens
    rw [clausesTokens, length_append] at hfuel
    have hpos : 0 < c.tokens.length := by simp [hts]
    rw [clauses, clausesTokens]
    refine (atMark_reads .pipe).bind_nil (fun b hb => ?_) (fun _ _ => by rw [hts]; rfl)
    subst hb
    refine (hc fuel (by omega)).bind (fun d hd => ?_) (fun o ho => ?_)
    · rcases fuel with _ | fuel
      · omega
      exact (ih hcs fuel (by omega)).map fun ds hds => by simp [clausesUnplaced, hd, hds]
    · cases cs with
      | nil => exact .inr ho
      | cons e cs =>
        obtain ⟨us, hus⟩ := e.exists_tokens
        rw [clausesTokens, hus]
        exact .inl rfl

lemma rhs_reads (hr : r.writable = true) (h : ∀ c ∈ r.clauses, ClauseReads c) (before : Span)
    (hfuel : 4 * r.tokens.length + 1 ≤ fuel) :
    Reads (rhs fuel before) r.tokens EndsRhs (·.1.unplaced = r.unplaced) := by
  rcases fuel with _ | fuel
  · omega
  rw [rhs]
  cases r with
  | term body =>
    rw [Rhs.tokens, length_cons] at hfuel
    refine Reads.bind_eat fun span => ?_
    refine ((written_term_reads hr (by omega)).imp (fun o ho => ho.endsTerm) fun _ h => h).map
      fun u hu => by simp [Rhs.unplaced, hu]
  | inspect scrut equation cs =>
    change ∀ c ∈ cs, ClauseReads c at h
    simp only [Rhs.writable, and_eq_true] at hr
    simp only [Rhs.tokens, length_cons, length_append] at hfuel
    refine Reads.bind_eat_miss (fun _ _ => by simp [Rhs.tokens]) ?_
    refine Reads.bind_eat fun span => ?_
    refine (written_term_reads hr.1.1 (by omega)).bind (fun u hu => ?_) (fun _ _ => ?_)
    · -- What follows the name of the equation does not depend on whether there is one.
      have hblock (e : Option Ident) (he : e.map (·.unplaced) = equation.map (·.unplaced)) :
          Reads (do
              let _ ← expectMark .openBrace
              let clauses ← clauses fuel
              let stop ← expectMark .closeBrace
              return (Rhs.inspect u e clauses, before.merge stop))
            (.mark .openBrace :: (clausesTokens cs ++ [.mark .closeBrace])) EndsRhs
            (·.1.unplaced = (Rhs.inspect scrut equation cs).unplaced) := by
        refine Reads.bind_expect fun _ => ?_
        refine (clauses_read h (by omega)).bind (fun ds hds => ?_) (fun _ _ => rfl)
        exact Reads.bind_expect fun _ => Reads.pure (by simp [Rhs.unplaced, hu, he, hds]) _
      cases equation with
      | none =>
        refine Reads.bind_eat_miss (fun _ _ => by simp) ?_
        exact hblock none rfl
      | some i =>
        refine Reads.bind_eat fun span => ?_
        simp only [map_eq_pure_bind, bind_assoc, pure_bind]
        exact Reads.bind_ident fun j hj => hblock (some j) (by simp [Ident.unplaced, hj])
    · cases equation with
      | none | some i => exact endsTerm_some rfl (by decide)
  | absurd span =>
    refine Reads.bind_eat_miss (fun o ho => ?_) (Reads.bind_eat_miss (fun o ho => ?_) ?_)
    · rcases ho with rfl | rfl | rfl <;> simp [Rhs.tokens]
    · rcases ho with rfl | rfl | rfl <;> simp [Rhs.tokens]
    · exact Reads.pure (by rfl) _

lemma auxiliaries_read (h : ∀ d ∈ ds, d.transparent = false ∧ DefinitionReads d)
    (hfuel : 4 * (definitionsTokens ds).length + 1 ≤ fuel) :
    Reads (auxiliaries fuel) (definitionsTokens ds) EndsClause
      (definitionsUnplaced · = definitionsUnplaced ds) := by
  rcases fuel with _ | fuel
  · omega
  induction ds generalizing fuel with
  | nil =>
    rw [auxiliaries]
    refine Reads.bind_atName_miss (fun o ho => ?_) (Reads.pure (by rfl) _)
    rintro ⟨n, hn⟩
    rcases ho with rfl | rfl <;> cases hn
  | cons d ds ih =>
    obtain ⟨⟨hopen, hd⟩, hds⟩ := forall_mem_cons.mp h
    obtain ⟨ts, hts⟩ := d.exists_tokens
    rw [definitionsTokens, length_append] at hfuel
    have hpos : 0 < d.tokens.length := by simp [hts]
    rw [auxiliaries, definitionsTokens]
    refine atName_reads.bind_nil (fun b hb => ?_) (fun _ _ => by rw [hts]; exact ⟨_, rfl⟩)
    subst hb
    refine offset_reads.bind_nil (fun start _ => ?_) (fun _ _ => trivial)
    have hfirst := hd fuel start (by omega)
    rw [hopen] at hfirst
    refine hfirst.bind_any fun e he => ?_
    rcases fuel with _ | fuel
    · omega
    exact (ih hds fuel (by omega)).map fun es hes => by simp [definitionsUnplaced, he, hes]

/-- What follows the right-hand side of a clause. -/
lemma first_auxiliariesTokens (ds : List Definition) (ho : EndsClause o) :
    EndsRhs (first (auxiliariesTokens ds) o) := by
  cases ds with
  | nil => exact .inr ho
  | cons d ds => exact .inl rfl

/-- What follows the patterns of a clause. -/
lemma first_rhsTokens (h : r.isAbsurd = true → ps ≠ []) (ho : EndsRhs o) :
    EndsPatterns ps (first r.tokens o) := by
  cases r with
  | term body => exact ⟨endsPattern_some rfl, by simp [Rhs.tokens], fun _ => .inl rfl⟩
  | inspect scrut equation clauses =>
    exact ⟨endsPattern_some rfl, by simp [Rhs.tokens], fun _ => .inr rfl⟩
  | absurd span =>
    rcases ho with rfl | rfl | rfl <;>
      exact ⟨endsPattern_some rfl, by simp [Rhs.tokens], fun hps => (h rfl hps).elim⟩

lemma clause_reads (hc : c.writable = true)
    (hrhs : ∀ e ∈ c.rhs.clauses, ClauseReads e)
    (haux : ∀ d ∈ c.auxiliaries, DefinitionReads d) : ClauseReads c := by
  intro fuel hfuel
  obtain ⟨span, patterns, rhs, auxiliaries⟩ := c
  simp only [Clause.writable, and_eq_true, all_eq_true, or_eq_true,
    not_eq_true', isEmpty_eq_false_iff] at hc
  simp only [Clause.tokens, length_cons, length_append] at hfuel
  rcases fuel with _ | fuel
  · omega
  rw [clause, Clause.tokens]
  refine Reads.bind_expect fun start => ?_
  refine (clausePatterns_read hc.1.1.1 (by omega)).bind (fun ps hps => ?_) (fun o ho => ?_)
  · refine (rhs_reads hc.1.2 hrhs _ (by omega)).bind (fun r hr => ?_)
      (fun o => first_auxiliariesTokens auxiliaries)
    cases auxiliaries with
    | nil =>
      refine Reads.bind_eat_miss (fun o ho => ?_) ?_
      · rcases ho with rfl | rfl <;> simp [auxiliariesTokens]
      · exact Reads.pure (by simp [Clause.unplaced, hps, hr, definitionsUnplaced]) _
    | cons d ds =>
      have hwritable := (auxiliariesWritable_iff (d :: ds)).mp hc.2
      change ∀ e ∈ d :: ds, DefinitionReads e at haux
      rw [auxiliariesTokens, length_cons, ← definitionsTokens] at hfuel
      rw [auxiliariesTokens, ← definitionsTokens, ← append_nil (definitionsTokens _)]
      refine Reads.bind_eat fun _ => ?_
      refine (auxiliaries_read (fun e he => ⟨(hwritable e he).1, haux e he⟩) (by omega)).bind
        (fun es hes => ?_) (fun _ h => h)
      cases es with
      | nil => cases hes
      | cons e es => exact Reads.pure (by simp [Clause.unplaced, hps, hr, hes]) _
  · rw [first_append]
    refine first_rhsTokens (fun habsurd => ?_) (first_auxiliariesTokens auxiliaries ho)
    exact hc.1.1.2.resolve_left (by simp [habsurd])

/-- Definitions are read as they are written, with all that is in them. -/
lemma definition_reads (d : Definition) (h : d.writable = true) : DefinitionReads d := by
  -- Clauses hold definitions and definitions clauses: the induction is over both.
  induction d using Definition.induct (P := fun c => c.writable = true → ClauseReads c) with
  | clause span patterns rhs auxiliaries ihrhs ihaux hc =>
    have hc' := hc
    simp only [Clause.writable, and_eq_true] at hc'
    refine clause_reads hc (fun e he => ihrhs e he ?_) fun d hd => ihaux d hd ?_
    · exact Rhs.writable_clauses hc'.1.2 e he
    · exact ((auxiliariesWritable_iff _).mp hc'.2 d hd).2
  | definition span name transparent params type clauses ih =>
    simp only [Definition.writable, and_eq_true] at h
    intro fuel start hfuel
    simp only [Definition.tokens, length_cons, length_append] at hfuel
    rcases fuel with _ | fuel
    · omega
    rw [definition, Definition.tokens]
    refine Reads.bind_ident fun i hi => ?_
    refine (written_params_read h.1.1.2 (by omega)).bind (fun ps hps => ?_) (fun _ _ => by simp)
    refine Reads.bind_expect fun _ => ?_
    refine (written_term_reads h.1.2 (by omega)).bind_ends fun t ht => ?_
    refine Reads.bind_expect fun _ => ?_
    have hclauses := (clausesWritable_iff clauses).mp h.2
    refine (clauses_read (fun c hc => ih c hc (hclauses c hc)) (by omega)).bind (fun cs hcs => ?_)
      (fun _ _ => rfl)
    refine Reads.bind_expect fun _ => Reads.pure ?_ _
    simp [Definition.unplaced, Definition.transparent, Ident.unplaced, hi, hps, ht, hcs]

/-! ### Items -/

lemma ctors_read {cs : List CtorDecl} (hcs : ∀ c ∈ cs, c.writable = true)
    (hfuel : 4 * (separated (cs.map (·.tokens))).length + 1 ≤ fuel) :
    Reads (ctors fuel) (separated (cs.map (·.tokens))) (· = some (.mark .closeBrace))
      (·.map (·.unplaced) = cs.map (·.unplaced)) := by
  rcases fuel with _ | fuel
  · omega
  induction cs generalizing fuel with
  | nil =>
    rw [ctors]
    refine (atMark_reads .closeBrace).bind_nil (fun b hb => ?_) (fun _ h => h)
    subst hb
    exact Reads.pure (by rfl) _
  | cons c cs ih =>
    obtain ⟨hc, hcs⟩ := forall_mem_cons.mp hcs
    obtain ⟨hname, htype⟩ := and_eq_true_iff.mp hc
    rw [map_cons, separated, length_append, CtorDecl.tokens, length_cons,
      length_cons] at hfuel
    rw [ctors, map_cons, separated, CtorDecl.tokens]
    refine Reads.bind_atMark_miss (fun _ _ => by simp) ?_
    refine Reads.bind_ident fun i hi => Reads.bind_expect fun _ => ?_
    cases cs with
    | nil =>
      refine (written_term_reads htype (by omega)).bind (fun t ht => ?_) (fun o ho => ?_)
      · refine Reads.bind_eat_miss (fun o ho => ?_) (Reads.pure ?_ _)
        · subst ho
          simp
        · simp [CtorDecl.unplaced, Ident.unplaced, hi, ht]
      · subst ho
        exact endsTerm_some rfl (by decide)
    | cons d cs =>
      refine (written_term_reads htype (by omega)).bind_ends fun t ht => ?_
      refine Reads.bind_eat fun _ => ?_
      rcases fuel with _ | fuel
      · omega
      refine (ih hcs fuel ?_).map fun ds hds => ?_
      · simp only [map_cons, separated, flatMap_cons, length_append,
          length_cons] at hfuel ⊢
        omega
      · have hone : CtorDecl.unplaced ⟨i, t⟩ = c.unplaced := by
          simp [CtorDecl.unplaced, Ident.unplaced, hi, ht]
        rw [map_cons, map_cons, hone, hds]

lemma typing_reads (htype : type.writable = true)
    (hfuel : 4 * (Item.typingTokens name type).length ≤ fuel) :
    Reads (typing fuel) (Item.typingTokens name type) (fun _ => True)
      (fun r => r.1.unplaced = name.unplaced ∧ r.2.1.unplaced = type.unplaced) := by
  simp only [Item.typingTokens, length_cons, length_append] at hfuel
  rw [typing, Item.typingTokens]
  refine Reads.bind_ident fun i hi => Reads.bind_expect fun _ => ?_
  refine (written_term_reads htype (by omega)).bind_ends fun t ht => ?_
  exact Reads.bind_expect fun _ => Reads.pure (by simp [Ident.unplaced, hi, ht]) _

lemma item_reads {i : Item} (hi : i.writable = true) (hfuel : 4 * i.tokens.length ≤ fuel) :
    Reads (item fuel) i.tokens (fun _ => True) (·.unplaced = i.unplaced) := by
  rw [item]
  refine offset_reads.bind_nil (fun start _ => ?_) (fun _ _ => trivial)
  cases i with
  | family f =>
    simp only [Item.writable, and_eq_true, all_eq_true] at hi
    simp only [Item.tokens, length_cons, length_append] at hfuel
    refine Reads.bind_peek ((next?_reads _).bind_any fun _ _ => ?_)
    refine Reads.bind_ident fun i hname => ?_
    refine (written_params_read hi.1.1.2 (by omega)).bind (fun ps hps => ?_) (fun _ _ => by simp)
    refine Reads.bind_expect fun _ => ?_
    refine (written_term_reads hi.1.2 (by omega)).bind_ends fun t ht => ?_
    refine Reads.bind_expect fun _ => ?_
    refine (ctors_read hi.2 (by omega)).bind (fun cs hcs => ?_) (fun _ _ => rfl)
    refine Reads.bind_expect fun _ => Reads.pure ?_ _
    simp [Item.unplaced, Ident.unplaced, hname, hps, ht, hcs]
  | definition d =>
    have hread := definition_reads d hi fuel start
    rw [Item.tokens] at hfuel ⊢
    cases htransparent : d.transparent with
    | true =>
      simp only [htransparent, if_true, length_cons] at hfuel ⊢
      rw [htransparent] at hread
      refine Reads.bind_peek ((next?_reads _).bind_any fun _ _ => ?_)
      refine Reads.bind_expect fun _ => ?_
      exact (hread (by omega)).map fun e he => by simp [Item.unplaced, he]
    | false =>
      simp only [htransparent, false_eq_true, if_false, length_cons] at hfuel ⊢
      rw [htransparent] at hread
      refine Reads.bind_peek ((next?_reads _).bind_any fun _ _ => ?_)
      exact (hread (by omega)).map fun e he => by simp [Item.unplaced, he]
  | postulate span name type | rule span name type =>
    obtain ⟨hname, htype⟩ := and_eq_true_iff.mp hi
    rw [Item.tokens, length_cons] at hfuel
    refine Reads.bind_peek ((next?_reads _).bind_any fun _ _ => ?_)
    exact (typing_reads htype (by omega)).map fun r hr => by simp [Item.unplaced, hr]
  | listNotation span nil cons =>
    refine Reads.bind_peek ((next?_reads _).bind_any fun _ _ => ?_)
    refine Reads.bind_peek ((next?_reads _).bind_any fun _ _ => ?_)
    refine Reads.bind_ident fun i hi => Reads.bind_ident fun j hj => ?_
    refine Reads.bind_expect fun _ => Reads.pure ?_ _
    simp [Item.unplaced, Ident.unplaced, hi, hj]

end Parse

/-! ### Texts -/

lemma Item.tokens_pos (i : Item) : 0 < i.tokens.length := by
  cases i with
  | definition d =>
    rw [Item.tokens]
    split <;> simp
  | _ => simp [Item.tokens]

/-- The items of a module are read one after another, and nothing is left. -/
lemma items_read {is : List Item} (his : ∀ i ∈ is, i.writable = true) (eof : Nat)
    (htokens : tokens.map (·.token) = is.flatMap (·.tokens)) :
    (items eof tokens).errors = [] ∧
      (items eof tokens).items.map (·.unplaced) = is.map (·.unplaced) := by
  induction is generalizing tokens with
  | nil =>
    obtain rfl : tokens = [] := by simpa using htokens
    simp [items]
  | cons i is ih =>
    obtain ⟨hi, his⟩ := forall_mem_cons.mp his
    rw [flatMap_cons] at htokens
    obtain ⟨taken, rest, rfl, htaken, hrest⟩ := map_eq_append_iff.mp htokens
    have hlength : taken.length = i.tokens.length := by simp [← htaken]
    have hpos := i.tokens_pos
    have hfuel : 4 * i.tokens.length ≤ fuelFor (taken ++ rest) := by
      rw [fuelFor, length_append]
      omega
    obtain ⟨j, hrun, hj⟩ := item_reads hi hfuel taken rest eof htaken trivial
    obtain ⟨herrors, hitems⟩ := ih his hrest
    have hne : (taken ++ rest).isEmpty = false := by
      rw [isEmpty_eq_false_iff, ← length_pos_iff, length_append]
      omega
    -- An item takes at least one token, so the rest is read in its turn.
    have hless : rest.length < (taken ++ rest).length := by
      rw [length_append]
      omega
    rw [items, hne, hrun]
    simp only [false_eq_true, if_false, dif_pos hless]
    exact ⟨herrors, by rw [map_cons, map_cons, hj, hitems]⟩

lemma lex_spaced (hts : ∀ t ∈ ts, t.Lexical) :
    ((lex (Token.spaced ts)).1).map (·.token) = ts ∧ (lex (Token.spaced ts)).2 = [] := by
  obtain ⟨htokens, herrors⟩ := lexes_spaced hts 0
  exact ⟨htokens, by rw [lex, LexemeAt.ofText, herrors, map_nil]⟩

/-- Reading is a left inverse of writing, up to places: a module that can be
written is read back item by item and without a fault, and so is a term. -/
theorem reading_inverts_writing :
    (∀ is : List Item, (∀ i ∈ is, i.writable = true) →
      (parseModule (writtenModule is)).errors = [] ∧
        (parseModule (writtenModule is)).items.map (·.unplaced) = is.map (·.unplaced)) ∧
    (∀ t : Term, t.writable = true →
      ∃ u, parseTerm t.written = (some u, []) ∧ u.unplaced = t.unplaced) := by
  constructor
  · intro is his
    have hlexical : ∀ u ∈ is.flatMap (·.tokens), u.Lexical := by
      intro u hu
      obtain ⟨i, hi, hu⟩ := mem_flatMap.mp hu
      exact Item.tokens_lexical (his i hi) u hu
    obtain ⟨htokens, hfaults⟩ := lex_spaced hlexical
    obtain ⟨herrors, hitems⟩ := items_read his (writtenModule is).utf8ByteSize htokens
    refine ⟨?_, hitems⟩
    change (lex (writtenModule is)).2 ++ (items _ (lex (writtenModule is)).1).errors = []
    rw [writtenModule, hfaults]
    exact herrors
  · intro t ht
    rw [← t.phrase_tree]
    exact parseTerm_of_lexes (lexes_spaced (t.phrase_lexical ht)) (t.phrase_clear ht)

/-- A module with a family, a definition with clauses for one clause only, an
inspection, an annotation to the left of an arrow, and all kinds of patterns. -/
def RoundTrip.sample : List Item :=
  let name (n : Name) : Term := .name nowhere n
  let ident (n : Name) : Ident := ⟨nowhere, n⟩
  let var (n : Name) : Pattern := .name nowhere n
  [.family ⟨nowhere, ident "Nat", [], .univ nowhere,
    [⟨ident "zero", name "Nat"⟩, ⟨ident "succ", .arrow nowhere (name "Nat") (name "Nat")⟩]⟩,
   .listNotation nowhere (ident "nil") (ident "cons"),
   .postulate nowhere (ident "ax")
    (.arrow nowhere (.ann nowhere (name "Nat") (.univ nowhere)) (name "Nat")),
   .rule nowhere (ident "r")
    (.pi nowhere [.mk [ident "x", ident "y"] (name "Nat")] (.app nowhere (name "P") (name "x"))),
   .definition (.mk nowhere (ident "f") true [.mk [ident "n"] (name "Nat")] (name "Nat")
    [.mk nowhere [.ctor nowhere (ident "succ") [.ctor nowhere (ident "succ") [var "m"]],
        .inaccessible nowhere (.app nowhere (name "g") (name "m")),
        .list nowhere [.placeholder nowhere, var "a"]]
      (.inspect (name "m") (some (ident "e"))
        [.mk nowhere [.inaccessible nowhere (name "m")] (.absurd nowhere) [],
         .mk nowhere [] (.term (.lam nowhere [.mk [ident "z"] (name "Nat")] (name "z"))) []])
      [.mk nowhere (ident "g") false [] (name "Nat") []]])]

theorem RoundTrip.sample_reads :
    (∀ i ∈ RoundTrip.sample, i.writable = true) ∧
      (parseModule (writtenModule RoundTrip.sample)).errors = [] ∧
      (parseModule (writtenModule RoundTrip.sample)).items.map (·.unplaced) =
        RoundTrip.sample.map (·.unplaced) := by
  have hwritable : ∀ i ∈ RoundTrip.sample, i.writable = true := by
    decide +kernel
  exact ⟨hwritable, reading_inverts_writing.1 _ hwritable⟩

end Clausal.Surface
