import Clausal.Proofs.HeadForms
import Clausal.Proofs.TreeScoping

/-!
# Patterns against forms

What a pattern has to say about a term is stated here by weak-head steps alone, apart
from the algorithm that matches rows: it matches, clashes, or is blocked by a variable.
If that variable is replaced by a constructor form, one more constructor of the pattern
is met, or the pattern clashes.
-/

namespace Clausal

open Eval List Option Reach Term
open Nameless (Rules HeadReduces)

variable {k : Ctor}

mutual

/-- The constructors that a pattern asks for, one for each constructor pattern in it. -/
def Pattern.ctors : Pattern → List Name
  | .ctor _ c args => c :: patternsCtors args
  | .wildcard _ | .var _ _ | .inaccessible _ _ => []

def patternsCtors : List Pattern → List Name
  | [] => []
  | p :: ps => p.ctors ++ patternsCtors ps

end

def Row.ctors (row : Row) : List Name := patternsCtors row.patterns

/-- The form reduces to a constructor with these fields. -/
def Nameless.Rules.Shows (R : Rules) (t : Nameless) (c : Name) (fields : List Nameless) : Prop :=
  ∃ k args, R.ctor c = some k ∧ HeadReduces R t ((Nameless.global c).apps args) ∧
    fields = args.drop k.2

namespace Nameless.Rules.Shows

variable {R : Rules}

section

variable (h : R.Shows t c fields)

include h

lemma unique (h' : R.Shows t c' fields') :
    c = c' ∧ fields = fields' := by
  obtain ⟨k, args, hc, hred, rfl⟩ := h
  obtain ⟨k', args', hc', hred', rfl⟩ := h'
  obtain ⟨rfl, rfl⟩ := hred.ctor_unique hc hc' hred'
  cases hc.symm.trans hc'
  exact ⟨rfl, rfl⟩

lemma not_free : ¬ HeadReduces R t (.free v) := by
  obtain ⟨k, args, hc, hred, -⟩ := h
  exact hred.ctor_ne_free hc

/-- What a form shows stays when its variables are replaced and rules are added. -/
lemma carry (hle : R.Le R') (s : Filling) :
    R'.Shows (t.fill s) c (fields.map (Nameless.fill s)) := by
  obtain ⟨k, args, hc, hred, rfl⟩ := h
  refine ⟨k, args.map (Nameless.fill s), hle.ctor hc, ?_, map_drop⟩
  have hfilled := (hred.mono hle).fill s
  rwa [fill_apps] at hfilled

lemma mono (hle : R.Le R') : R'.Shows t c fields := by
  obtain ⟨k, args, hc, hred, rfl⟩ := h
  exact ⟨k, args, hle.ctor hc, hred.mono hle, rfl⟩

end

/-- A form that steps to what shows a constructor shows it as well. -/
lemma of_reduces (h : R.Shows u c fields) (hred : HeadReduces R t u) : R.Shows t c fields := by
  obtain ⟨k, args, hc, hrest, rfl⟩ := h
  exact ⟨k, args, hc, hred.trans hrest, rfl⟩

end Nameless.Rules.Shows

/-! ### Matches, clashes and blocked patterns -/

section Definitions

variable (R : Rules)

mutual

/-- The form matches the pattern: where a constructor is wanted, it reduces to the
constructor, with fields that match. -/
def Pattern.Matches : Pattern → Nameless → Prop
  | .ctor _ c args, t => ∃ fields, R.Shows t c fields ∧ patternsMatch args fields
  | .wildcard _, _ | .var _ _, _ | .inaccessible _ _, _ => True

def patternsMatch : List Pattern → List Nameless → Prop
  | p :: ps, t :: ts => p.Matches t ∧ patternsMatch ps ts
  | [], _ | _ :: _, [] => True

end

mutual

/-- Somewhere the form reduces to another constructor than the pattern wants. -/
def Pattern.Clashes : Pattern → Nameless → Prop
  | .ctor _ c args, t => ∃ c' fields, R.Shows t c' fields ∧ (c' ≠ c ∨ patternsClash args fields)
  | .wildcard _, _ | .var _ _, _ | .inaccessible _ _, _ => False

def patternsClash : List Pattern → List Nameless → Prop
  | p :: ps, t :: ts => p.Clashes t ∨ patternsClash ps ts
  | [], _ | _ :: _, [] => False

end

mutual

/-- Somewhere the form reduces to the variable where the pattern wants a constructor. -/
def Pattern.Blocks (v : Var) : Pattern → Nameless → Prop
  | .ctor _ c args, t =>
    HeadReduces R t (.free v) ∨ ∃ fields, R.Shows t c fields ∧ patternsBlock v args fields
  | .wildcard _, _ | .var _ _, _ | .inaccessible _ _, _ => False

def patternsBlock (v : Var) : List Pattern → List Nameless → Prop
  | p :: ps, t :: ts => p.Blocks v t ∨ patternsBlock v ps ts
  | [], _ | _ :: _, [] => False

end

mutual

/-- The form has met so many constructors of the pattern, from the outside in. -/
def Pattern.Meets : Pattern → Nameless → Nat → Prop
  | .ctor _ c args, t, j =>
    j = 0 ∨ ∃ fields i, R.Shows t c fields ∧ patternsMeet args fields i ∧ j = i + 1
  | .wildcard _, _, j | .var _ _, _, j | .inaccessible _ _, _, j => j = 0

def patternsMeet : List Pattern → List Nameless → Nat → Prop
  | p :: ps, t :: ts, j => ∃ a b, p.Meets t a ∧ patternsMeet ps ts b ∧ j = a + b
  | [], _, j | _ :: _, [], j => j = 0

end

end Definitions

/-! ### What is kept -/

mutual

lemma Pattern.Clashes.carry (hle : R.Le R') (s : Filling) : (p : Pattern) → {t : Nameless} →
    p.Clashes R t → p.Clashes R' (t.fill s)
  | .ctor _ c args, t, h => by
    obtain ⟨c', fields, hshows, hclash⟩ := h
    exact ⟨c', _, hshows.carry hle s, hclash.imp_right (patternsClash_carry hle s args)⟩

lemma patternsClash_carry (hle : R.Le R') (s : Filling) : (ps : List Pattern) →
    {ts : List Nameless} → patternsClash R ps ts → patternsClash R' ps (ts.map (Nameless.fill s))
  | p :: ps, _ :: _, h => h.imp (Pattern.Clashes.carry hle s p) (patternsClash_carry hle s ps)

end

mutual

lemma Pattern.Meets.carry (hle : R.Le R') (s : Filling) : (p : Pattern) → {t : Nameless} →
    {j : Nat} → p.Meets R t j → p.Meets R' (t.fill s) j
  | .ctor _ c args, t, j, h => by
    refine h.imp_right fun ⟨fields, i, hshows, hmeet, hj⟩ => ?_
    exact ⟨_, i, hshows.carry hle s, patternsMeet_carry hle s args hmeet, hj⟩
  | .wildcard _, _, _, h | .var _ _, _, _, h | .inaccessible _ _, _, _, h => h

lemma patternsMeet_carry (hle : R.Le R') (s : Filling) : (ps : List Pattern) →
    {ts : List Nameless} → {j : Nat} → patternsMeet R ps ts j →
    patternsMeet R' ps (ts.map (Nameless.fill s)) j
  | p :: ps, t :: ts, j, h => by
    obtain ⟨a, b, ha, hb, hj⟩ := h
    exact ⟨a, b, Pattern.Meets.carry hle s p ha, patternsMeet_carry hle s ps hb, hj⟩
  | [], _, _, h | _ :: _, [], _, h => h

end

/-! ### What excludes what -/

mutual

lemma Pattern.Clashes.not_matches : (p : Pattern) → {t : Nameless} → p.Clashes R t → ¬ p.Matches R t
  | .ctor _ c args, t, h, hmatch => by
    obtain ⟨c', fields, hshows, hclash⟩ := h
    obtain ⟨fields', hshows', hmatch⟩ := hmatch
    obtain ⟨rfl, rfl⟩ := hshows.unique hshows'
    exact hclash.elim (fun hne => hne rfl) fun hclash =>
      patternsClash_not_match args hclash hmatch

lemma patternsClash_not_match : (ps : List Pattern) → {ts : List Nameless} →
    patternsClash R ps ts → ¬ patternsMatch R ps ts
  | p :: ps, _ :: _, h, hmatch =>
    h.elim (fun hclash => Pattern.Clashes.not_matches p hclash hmatch.1)
      fun hclash => patternsClash_not_match ps hclash hmatch.2

end

/-! ### Constructors that are met -/

lemma Pattern.meets_zero (p : Pattern) (t : Nameless) : p.Meets R t 0 := by
  cases p with
  | ctor span c args => exact .inl rfl
  | _ => rfl

lemma patternsMeet_zero (ps : List Pattern) (ts : List Nameless) : patternsMeet R ps ts 0 := by
  induction ps generalizing ts with
  | nil => rfl
  | cons p ps ih =>
    cases ts with
    | nil => rfl
    | cons t ts => exact ⟨0, 0, p.meets_zero t, ih ts, rfl⟩

mutual

lemma Pattern.Meets.le : (p : Pattern) → {t : Nameless} → {j : Nat} → p.Meets R t j →
    j ≤ p.ctors.length
  | .ctor _ c args, t, j, h => by
    rcases h with rfl | ⟨fields, i, -, hmeet, rfl⟩
    · exact Nat.zero_le _
    · exact Nat.succ_le_succ (patternsMeet_le args hmeet)
  | .wildcard _, _, _, h | .var _ _, _, _, h | .inaccessible _ _, _, _, h => le_of_eq h

lemma patternsMeet_le : (ps : List Pattern) → {ts : List Nameless} → {j : Nat} →
    patternsMeet R ps ts j → j ≤ (patternsCtors ps).length
  | p :: ps, t :: ts, j, h => by
    obtain ⟨a, b, ha, hb, rfl⟩ := h
    rw [patternsCtors, length_append]
    exact Nat.add_le_add (Pattern.Meets.le p ha) (patternsMeet_le ps hb)
  | [], _, j, h | _ :: _, [], j, h => by
    have hj : j = 0 := h
    rw [hj]
    exact Nat.zero_le _

end

mutual

/-- A split of the blocking variable gets a pattern further, or fails it. -/
lemma Pattern.Meets.advance (hle : R.Le R') (hv : R'.Shows (s.free v) c fields) :
    (p : Pattern) → {t : Nameless} →
    {j : Nat} → p.Meets R t j → p.Blocks R v t → j + 1 ≤ p.ctors.length ∧
    (p.Meets R' (t.fill s) (j + 1) ∨ p.Clashes R' (t.fill s))
  | .ctor span d args, t, j, hmeets, hblocks => by
    rcases hblocks with hfree | ⟨inner, hshows, hblocks⟩
    · -- The variable stands here, and becomes this constructor or another one.
      have hj : j = 0 := by
        rcases hmeets with hj | ⟨inner, i, hshows, -, -⟩
        · exact hj
        · exact (hshows.not_free hfree).elim
      subst hj
      refine ⟨Nat.succ_le_succ (Nat.zero_le _), ?_⟩
      have hshows : R'.Shows (t.fill s) c fields := hv.of_reduces ((hfree.mono hle).fill s)
      by_cases hc : c = d
      · subst hc
        exact .inl (.inr ⟨fields, 0, hshows, patternsMeet_zero args fields, rfl⟩)
      · exact .inr ⟨c, fields, hshows, .inl hc⟩
    · -- It stands further in, below a constructor that is met.
      have hcarried := hshows.carry hle s
      rcases hmeets with rfl | ⟨inner', i, hshows', hmeet, rfl⟩
      · exact ⟨Nat.succ_le_succ (Nat.zero_le _),
          .inl (.inr ⟨_, 0, hcarried, patternsMeet_zero args _, rfl⟩)⟩
      · obtain ⟨-, rfl⟩ := hshows.unique hshows'
        obtain ⟨hlt, hnext⟩ := patternsMeet_advance hle hv args hmeet hblocks
        refine ⟨Nat.succ_le_succ hlt, hnext.imp (fun hmeet => ?_) fun hclash => ?_⟩
        · exact .inr ⟨_, i + 1, hcarried, hmeet, rfl⟩
        · exact ⟨d, _, hcarried, .inr hclash⟩

/-- Once the variable that blocks patterns is a constructor form, one more of their
constructors is met, or they clash. -/
lemma patternsMeet_advance (hle : R.Le R') (hv : R'.Shows (s.free v) c fields) :
    (ps : List Pattern) →
    {ts : List Nameless} → {j : Nat} → patternsMeet R ps ts j → patternsBlock R v ps ts →
    j + 1 ≤ (patternsCtors ps).length ∧ (patternsMeet R' ps (ts.map (Nameless.fill s)) (j + 1) ∨
      patternsClash R' ps (ts.map (Nameless.fill s)))
  | p :: ps, t :: ts, j, hmeets, hblocks => by
    obtain ⟨a, b, ha, hb, rfl⟩ := hmeets
    rw [patternsCtors, length_append]
    rcases hblocks with hblocks | hblocks
    · obtain ⟨hlt, hnext⟩ := Pattern.Meets.advance hle hv p ha hblocks
      have hrest := patternsMeet_le ps hb
      refine ⟨by omega, hnext.imp (fun hmeets => ?_) .inl⟩
      exact ⟨a + 1, b, hmeets, patternsMeet_carry hle s ps hb, by omega⟩
    · obtain ⟨hlt, hnext⟩ := patternsMeet_advance hle hv ps hb hblocks
      have hfirst := Pattern.Meets.le p ha
      refine ⟨by omega, hnext.imp (fun hmeets => ?_) .inr⟩
      exact ⟨a, b + 1, Pattern.Meets.carry hle s p ha, hmeets, by omega⟩

end

/-! ### Matching rows -/

namespace Env

variable {env : Env}

lemma valueShape_other (h : env.valueShape ctor value = .otherCtor) :
    ∃ c k args, c ≠ ctor ∧ env.ctor? c = some k ∧ value = (global c).apps args := by
  unfold valueShape at h
  split at h
  · cases h
  · next head args _ hspine =>
      split at h
      · cases h
      · next hne =>
          split at h
          · next hctor =>
              obtain ⟨k, hk⟩ := isSome_iff_exists.1 hctor
              exact ⟨head, k, args, fun he => hne (beq_iff_eq.2 he), hk,
                eq_of_globalSpine? hspine⟩
          · cases h
  · cases h

lemma valueShape_same (hk : env.ctor? ctor = some k)
    (h : env.valueShape ctor value = .ctor fields) :
    ∃ args, value = (global ctor).apps args ∧ fields = args.drop k.numParams := by
  unfold valueShape at h
  split at h
  · cases h
  · next head args _ hspine =>
      split at h
      · next heq =>
          obtain rfl := eq_of_beq heq
          rw [hk, map_some, getD_some] at h
          exact ⟨args, eq_of_globalSpine? hspine, (ValueShape.ctor.inj h).symm⟩
      · split at h <;> cases h
  · cases h

lemma valueShape_apps (ctor : Name) (hk : env.ctor? c = some k) (args : List Term) :
    env.valueShape ctor ((global c).apps args) =
      if c = ctor then .ctor (args.drop k.numParams) else .otherCtor := by
  have hvar : ((global c).apps args).var? = none := by
    rcases eq_nil_or_concat args with rfl | ⟨args, a, rfl⟩
    · rfl
    · rw [concat_eq_append, apps_concat]
      rfl
  simp only [valueShape, hvar, globalSpine?_apps, hk, beq_iff_eq, map_some,
    getD_some, isSome_some, if_true]

variable (hclosed : env.Closed)

/-- A term that reduces to a constructor form shows the constructor. -/
lemma shows_of_value {t : Term} (hk : env.ctor? c = some k)
    (hvalue : value = (global c).apps args)
    (hsteps : HeadReduces (env.rules hclosed) (t.nameless []) (value.nameless [])) :
    (env.rules hclosed).Shows (t.nameless []) c
      ((args.drop k.numParams).map (nameless [])) := by
  subst hvalue
  rw [nameless_apps] at hsteps
  refine ⟨(k.name, k.numParams), _, ?_, hsteps, map_drop⟩
  change (env.ctor? c).map _ = _
  rw [hk, map_some]

/-- The constructors of patterns are constructors of the signature. -/
def Knows (env : Env) (ctors : List Name) : Prop := ∀ c ∈ ctors, (env.ctor? c).isSome = true

lemma knows_nil : env.Knows [] := fun _ hc => absurd hc not_mem_nil

lemma Knows.append (hcs : env.Knows cs) (hds : env.Knows ds) : env.Knows (cs ++ ds) :=
  forall_mem_append.2 ⟨hcs, hds⟩

/-- Why matching ends as it does: without a match there is a clash, and where a new
variable is noted, it blocks. -/
def Explains (clash : Prop) (blocks : Var → Prop) (p : Progress) : Option Progress → Prop
  | none => clash
  | some p' => p'.blocked = p.blocked ∨ ∃ v wanted, p'.blocked = some (v, wanted) ∧ blocks v

lemma Explains.imp (h : Explains clash blocks p r) (hclash : clash → clash')
    (hblocks : ∀ v, blocks v → blocks' v) : Explains clash' blocks' p r := by
  cases r with
  | none => exact hclash h
  | some p' => exact h.imp_right fun ⟨v, wanted, heq, hv⟩ => ⟨v, wanted, heq, hblocks v hv⟩

mutual

/-- A pattern fails at a clash and waits at a variable that blocks it. -/
lemma matchPattern_explains : (pattern : Pattern) → ∀ {t p r n m}, env.Knows pattern.ctors →
    t.Over (.below n) → Returns (env.matchPattern pattern t p) n r m →
    Explains (pattern.Clashes (env.rules hclosed) (t.nameless []))
      (pattern.Blocks (env.rules hclosed) · (t.nameless [])) p r
  | .wildcard _, _, _, _, _, _, _, _, h | .var _ _, _, _, _, _, _, _, _, h
  | .inaccessible _ _, _, _, _, _, _, _, _, h => by
    obtain ⟨rfl, -⟩ := returns_pure.1 h
    exact .inl rfl
  | .ctor span ctor args, t, p, r, n, m, hknown, ht, h => by
    simp only [matchPattern, returns_bind] at h
    obtain ⟨value, l, hwhnf, h⟩ := h
    have hreduct := whnf_reduct (agrees_rules hclosed fun x => x.id < n) (fun _ hx => hx) ht hwhnf
    obtain ⟨hctor, hknown⟩ := forall_mem_cons.1 hknown
    split at h
    · next v hshape =>
        obtain ⟨rfl, -⟩ := returns_pure.1 h
        -- The first variable that blocks a row is the one that is remembered.
        cases hblocked : p.blocked with
        | some b => exact .inl (by simp [Progress.block, hblocked])
        | none =>
          refine .inr ⟨v, .ctor span ctor args, by simp [Progress.block, hblocked], .inl ?_⟩
          have hsteps := hreduct.steps
          rwa [valueShape_var hshape] at hsteps
    · next fields hshape =>
        obtain ⟨k, hk⟩ := isSome_iff_exists.1 hctor
        obtain ⟨us, hvalue, rfl⟩ := valueShape_same hk hshape
        have hshows := shows_of_value hclosed hk hvalue hreduct.steps
        refine (matchPatterns_explain args hknown (fun u hu => ?_) h).imp
          (fun hclash => ⟨ctor, _, hshows, .inr hclash⟩) fun v hblock => .inr ⟨_, hshows, hblock⟩
        exact (valueShape_ctor hshape hreduct.reach u hu).mono (below_le hreduct.next)
    · next hshape =>
        obtain ⟨rfl, -⟩ := returns_pure.1 h
        obtain ⟨c, k, us, hne, hk, hvalue⟩ := valueShape_other hshape
        exact ⟨c, _, shows_of_value hclosed hk hvalue hreduct.steps, .inl hne⟩
    · obtain ⟨rfl, -⟩ := returns_pure.1 h
      exact .inl rfl

/-- Patterns that fail to match clash, and a variable that blocks them stands where they
want a constructor. -/
lemma matchPatterns_explain : (patterns : List Pattern) → ∀ {ts p r n m},
    env.Knows (patternsCtors patterns) → (∀ t ∈ ts, t.Over (.below n)) →
    Returns (env.matchPatterns patterns ts p) n r m →
    Explains (patternsClash (env.rules hclosed) patterns (ts.map (nameless [])))
      (patternsBlock (env.rules hclosed) · patterns (ts.map (nameless []))) p r
  | [], _, _, _, _, _, _, _, h | _ :: _, [], _, _, _, _, _, _, h => by
    obtain ⟨rfl, -⟩ := returns_pure.1 h
    exact .inl rfl
  | pattern :: patterns, t :: ts, p, r, n, m, hknown, hts, h => by
    simp only [matchPatterns, returns_bind] at h
    obtain ⟨first, k, hfirst, h⟩ := h
    obtain ⟨ht, hts⟩ := forall_mem_cons.1 hts
    obtain ⟨hknown₁, hknown₂⟩ := forall_mem_append.1 hknown
    have hk := matchPattern_forward _ _ _ hfirst
    have hfirst := matchPattern_explains pattern hknown₁ ht hfirst
    split at h
    · have hrest := matchPatterns_explain patterns hknown₂
        (fun t ht => (hts t ht).mono (below_le hk)) h
      cases r with
      | none => exact .inr hrest
      | some p' =>
        rcases hrest with hsame | ⟨v, wanted, hblocked, hblock⟩
        · exact Or.imp hsame.trans (fun ⟨v, wanted, hblocked, hblock⟩ =>
            ⟨v, wanted, hsame.trans hblocked, .inl hblock⟩) hfirst
        · exact .inr ⟨v, wanted, hblocked, .inr hblock⟩
    · obtain ⟨rfl, -⟩ := returns_pure.1 h
      exact .inl hfirst

end

mutual

lemma matchPattern_of_clashes : (pattern : Pattern) → ∀ {t p r n m}, t.Over (.below n) →
    pattern.Clashes (env.rules hclosed) (t.nameless []) →
    Returns (env.matchPattern pattern t p) n r m → r = none
  | .wildcard _, _, _, _, _, _, _, hclash, _ | .var _ _, _, _, _, _, _, _, hclash, _
  | .inaccessible _ _, _, _, _, _, _, _, hclash, _ => False.elim hclash
  | .ctor span ctor args, t, p, r, n, m, ht, hclash, h => by
    simp only [matchPattern, returns_bind] at h
    obtain ⟨value, l, hwhnf, h⟩ := h
    obtain ⟨c, fields, ⟨⟨name, params⟩, us, hc, hred, rfl⟩, hclash⟩ := hclash
    -- Reduction finds the constructor form.
    have hreduct := whnf_reduct (agrees_rules hclosed fun x => x.id < n) (fun _ hx => hx) ht hwhnf
    obtain ⟨ts, rfl, rfl⟩ := eq_apps_of_nameless (whnf_ctor hclosed ht hwhnf hc hred)
    obtain ⟨k, hk, rfl, rfl⟩ := ctor?_of_rules hclosed hc
    rw [valueShape_apps ctor hk] at h
    by_cases hcc : c = ctor
    · rw [if_pos hcc] at h
      have hinner := hclash.resolve_left (fun hne => hne hcc)
      rw [← map_drop] at hinner
      refine matchPatterns_of_clash args (fun u hu => ?_) hinner h
      exact ((over_apps.1 hreduct.reach).2 u (mem_of_mem_drop hu)).mono
        (below_le hreduct.next)
    · rw [if_neg hcc] at h
      exact (returns_pure.1 h).1.symm

lemma matchPatterns_of_clash : (patterns : List Pattern) → ∀ {ts p r n m},
    (∀ t ∈ ts, t.Over (.below n)) →
    patternsClash (env.rules hclosed) patterns (ts.map (nameless [])) →
    Returns (env.matchPatterns patterns ts p) n r m → r = none
  | [], _, _, _, _, _, _, hclash, _ | _ :: _, [], _, _, _, _, _, hclash, _ => False.elim hclash
  | pattern :: patterns, t :: ts, p, r, n, m, hts, hclash, h => by
    simp only [matchPatterns, returns_bind] at h
    obtain ⟨first, k, hfirst, h⟩ := h
    obtain ⟨ht, hts⟩ := forall_mem_cons.1 hts
    have hk := matchPattern_forward _ _ _ hfirst
    split at h
    · refine matchPatterns_of_clash patterns (fun t ht => (hts t ht).mono (below_le hk))
        (hclash.resolve_left fun hclash => ?_) h
      have hnone := matchPattern_of_clashes pattern ht hclash hfirst
      cases hnone
    · exact (returns_pure.1 h).1.symm

end

variable {row : Row} {args : List Term}

/-- A row fails to match exactly if it clashes. -/
lemma matchRow_mismatch_iff (hknown : env.Knows row.ctors) (hargs : ∀ a ∈ args, a.Over (.below n))
    (h : Returns (env.matchRow row args locals) n r m) :
    r = .mismatch ↔
      patternsClash (env.rules hclosed) row.patterns (args.map (nameless [])) := by
  simp only [matchRow, returns_bind] at h
  obtain ⟨progress, k, hmatch, h⟩ := h
  split at h
  · next p =>
      obtain ⟨rfl, -⟩ := returns_pure.1 h
      constructor
      · intro hout
        unfold Progress.outcome at hout
        split at hout <;> cases hout
      · intro hclash
        have hnone := matchPatterns_of_clash hclosed row.patterns hargs hclash hmatch
        cases hnone
  · obtain ⟨rfl, -⟩ := returns_pure.1 h
    exact ⟨fun _ => matchPatterns_explain hclosed row.patterns hknown hargs hmatch, fun _ => rfl⟩

lemma matchRow_blocks (hknown : env.Knows row.ctors) (hargs : ∀ a ∈ args, a.Over (.below n))
    (h : Returns (env.matchRow row args locals) n (.blocked v wanted) m) :
    patternsBlock (env.rules hclosed) v row.patterns (args.map (nameless [])) := by
  simp only [matchRow, returns_bind] at h
  obtain ⟨progress, k, hmatch, h⟩ := h
  split at h
  · next p =>
      obtain ⟨hout, -⟩ := returns_pure.1 h
      unfold Progress.outcome at hout
      split at hout
      · next v' wanted' _ hblocked =>
          obtain ⟨rfl, -⟩ := RowMatch.blocked.inj hout
          rcases matchPatterns_explain hclosed row.patterns hknown hargs hmatch with
            hnone | ⟨v', wanted', hblocked', hblock⟩
          · rw [hblocked] at hnone
            cases hnone
          · rw [hblocked] at hblocked'
            obtain ⟨rfl, -⟩ := Prod.mk.inj (Option.some.inj hblocked')
            exact hblock
      · cases hout
      · cases hout
  · cases (returns_pure.1 h).1

/-! ### Decisions -/

variable {p : Problem}

/-- The rows that a decision passes over clash. -/
lemma decideRows_skips (hknown : ∀ e ∈ rows, env.Knows e.2.ctors)
    (hargs : ∀ a ∈ p.args, a.Over (.below n)) (h : Returns (env.decideRows p rows) n d m) :
    ∃ skipped rest, rows = skipped ++ rest ∧
      (∀ e ∈ skipped, patternsClash (env.rules hclosed) e.2.patterns
        (p.args.map (nameless []))) ∧
      (d = .exhausted → rest = []) ∧
      ∀ v wanted later, d = .split v wanted later → rest = later ∧ ∃ e others, later = e :: others ∧
        patternsBlock (env.rules hclosed) v e.2.patterns (p.args.map (nameless [])) ∧
        ¬ patternsClash (env.rules hclosed) e.2.patterns (p.args.map (nameless [])) := by
  induction rows generalizing n with
  | nil =>
    obtain ⟨rfl, -⟩ := returns_pure.1 h
    exact ⟨[], [], rfl, forall_mem_nil _, fun _ => rfl, fun _ _ _ heq => by cases heq⟩
  | cons e rows ih =>
    obtain ⟨index, row⟩ := e
    obtain ⟨hrow, hrows⟩ := forall_mem_cons.1 hknown
    simp only [decideRows, returns_bind] at h
    obtain ⟨outcome, k, hmatch, h⟩ := h
    have hk := matchRow_forward _ _ _ hmatch
    have hmismatch := matchRow_mismatch_iff hclosed hrow hargs hmatch
    split at h
    · obtain ⟨skipped, rest, rfl, hskipped, hdecided⟩ :=
        ih hrows (fun a ha => (hargs a ha).mono (below_le hk)) h
      exact ⟨(index, row) :: skipped, rest, rfl,
        forall_mem_cons.2 ⟨hmismatch.1 rfl, hskipped⟩, hdecided⟩
    · obtain ⟨rfl, -⟩ := returns_pure.1 h
      exact ⟨[], _, rfl, forall_mem_nil _, fun heq => (by cases heq), fun _ _ _ heq => by cases heq⟩
    · next v wanted =>
        obtain ⟨rfl, -⟩ := returns_pure.1 h
        refine ⟨[], _, rfl, forall_mem_nil _, fun heq => (by cases heq), fun _ _ _ heq => ?_⟩
        obtain ⟨rfl, -, rfl⟩ := Decision.split.inj heq
        -- A row that clashes is passed over, even if a variable blocks it as well.
        refine ⟨rfl, _, _, rfl, matchRow_blocks hclosed hrow hargs hmatch, fun hclash => ?_⟩
        have hne := hmismatch.2 hclash
        cases hne
    · obtain ⟨rfl, -⟩ := returns_pure.1 h
      exact ⟨[], _, rfl, forall_mem_nil _, fun heq => (by cases heq), fun _ _ _ heq => by cases heq⟩

end Env

end Clausal
