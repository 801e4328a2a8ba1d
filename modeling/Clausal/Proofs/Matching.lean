import Clausal.Proofs.Checking
import Clausal.Proofs.Resolution
import Clausal.Splitting.Problem

/-!
# Matching rows

Matching only looks at terms by reducing them, so what names are bound to has
no case splits if the arguments have none.
-/

namespace Clausal

open Eval Option

variable {locals : Surface.Locals}

namespace Env

variable {env : Env}

/-! ### The supply -/

mutual

lemma matchPattern_forward : (pattern : Pattern) → (t : Term) → (p : Progress) →
    Forward (env.matchPattern pattern t p)
  | .wildcard _, _, _ | .var _ _, _, _ | .inaccessible _ _, _, _ => .pure _
  | .ctor span ctor args, t, p => by
    rw [matchPattern]
    refine .bind (env.whnf_forward t) fun value => ?_
    split
    · exact .pure _
    · exact matchPatterns_forward args _ p
    · exact .pure _
    · exact .pure _

lemma matchPatterns_forward : (patterns : List Pattern) → (ts : List Term) → (p : Progress) →
    Forward (env.matchPatterns patterns ts p)
  | [], _, _ | _ :: _, [], _ => .pure _
  | pattern :: patterns, t :: ts, p => by
    rw [matchPatterns]
    refine .bind (matchPattern_forward pattern t p) fun r => ?_
    split
    · exact matchPatterns_forward patterns ts _
    · exact .pure _

end

lemma matchRow_forward (row : Row) (args : List Term) (locals : Surface.Locals) :
    Forward (env.matchRow row args locals) := by
  unfold matchRow
  refine .bind (matchPatterns_forward _ _ _) fun r => ?_
  split <;> exact .pure _

lemma decideRows_forward (p : Problem) (rows : List (Nat × Row)) :
    Forward (env.decideRows p rows) := by
  induction rows with
  | nil => exact .pure _
  | cons row rows ih =>
    rw [decideRows]
    refine .bind (matchRow_forward _ _ _) fun r => ?_
    split
    · exact ih
    · exact .pure _
    · exact .pure _
    · exact .pure _

/-! ### What names are bound to -/

lemma valueShape_fields (h : env.valueShape ctor value = .ctor fields) :
    ∃ head args, value = Term.apps (.global head) args ∧ ∀ t ∈ fields, t ∈ args := by
  unfold valueShape at h
  split at h
  · cases h
  · next head args _ hspine =>
      split at h
      · obtain rfl := ValueShape.ctor.inj h
        exact ⟨head, args, Term.eq_of_globalSpine? hspine, fun t ht => List.mem_of_mem_drop ht⟩
      · split at h <;> cases h
  · cases h

/-- Reduction and taking fields keep a property of values, and what one pattern adds keeps a
property of the progress. -/
structure MatchKeeps (env : Env) (P : Nat → Term → Prop) (Q : Nat → Progress → Prop) : Prop where
  mono : ∀ {n m t}, n ≤ m → P n t → P m t
  later : ∀ {n m p}, n ≤ m → Q n p → Q m p
  whnf : ∀ {n m t value}, P n t → Returns (env.whnf t) n value m → P m value
  fields : ∀ {n c value us}, P n value → env.valueShape c value = .ctor us → ∀ u ∈ us, P n u
  bind : ∀ {n t p} name, P n t → Q n p → Q n { p with locals := (name, t) :: p.locals }
  force : ∀ {n p} forced, Q n p → Q n { p with forced }
  block : ∀ {n c value v p} pattern, P n value → env.valueShape c value = .var v → Q n p →
    Q n (p.block v pattern)
  fail : ∀ {n p} span value, Q n p → Q n (p.fail (.typing span (.caseOnNonVariable value)))

section

variable {P : Nat → Term → Prop} {Q : Nat → Progress → Prop}

mutual

/-- Matching keeps both properties, by induction on the pattern. -/
lemma MatchKeeps.pattern (hkeeps : env.MatchKeeps P Q) : (pattern : Pattern) →
    ∀ {t p p' n m}, P n t → Q n p → Returns (env.matchPattern pattern t p) n (some p') m → Q m p'
  | .wildcard _, _, _, _, _, _, _, hp, h => by
    obtain ⟨heq, rfl⟩ := returns_pure.1 h
    exact some.inj heq ▸ hp
  | .var _ name, _, _, _, _, _, ht, hp, h => by
    obtain ⟨heq, rfl⟩ := returns_pure.1 h
    exact some.inj heq ▸ hkeeps.bind name ht hp
  | .inaccessible _ _, _, _, _, _, _, _, hp, h => by
    obtain ⟨heq, rfl⟩ := returns_pure.1 h
    exact some.inj heq ▸ hkeeps.force _ hp
  | .ctor span ctor args, t, p, p', n, m, ht, hp, h => by
    simp only [matchPattern, returns_bind] at h
    obtain ⟨value, k, hwhnf, h⟩ := h
    have hvalue := hkeeps.whnf ht hwhnf
    have hp := hkeeps.later (env.whnf_forward _ hwhnf) hp
    split at h
    · next v hshape =>
        obtain ⟨heq, rfl⟩ := returns_pure.1 h
        exact some.inj heq ▸ hkeeps.block _ hvalue hshape hp
    · next fields hshape =>
        exact hkeeps.patterns args (hkeeps.fields hvalue hshape) hp h
    · cases (returns_pure.1 h).1
    · obtain ⟨heq, rfl⟩ := returns_pure.1 h
      exact some.inj heq ▸ hkeeps.fail span value hp

lemma MatchKeeps.patterns (hkeeps : env.MatchKeeps P Q) : (patterns : List Pattern) →
    ∀ {ts p p' n m}, (∀ t ∈ ts, P n t) → Q n p →
    Returns (env.matchPatterns patterns ts p) n (some p') m → Q m p'
  | [], _, _, _, _, _, _, hp, h | _ :: _, [], _, _, _, _, _, hp, h => by
    obtain ⟨heq, rfl⟩ := returns_pure.1 h
    exact some.inj heq ▸ hp
  | pattern :: patterns, t :: ts, p, p', n, m, hts, hp, h => by
    simp only [matchPatterns, returns_bind] at h
    obtain ⟨r, k, hfirst, h⟩ := h
    obtain ⟨ht, hts⟩ := List.forall_mem_cons.1 hts
    have hk := matchPattern_forward _ _ _ hfirst
    split at h
    · next q =>
        exact hkeeps.patterns patterns (fun t ht => hkeeps.mono hk (hts t ht))
          (hkeeps.pattern pattern ht hp hfirst) h
    · cases (returns_pure.1 h).1

end

end

lemma matchKeeps_splitFree (hkeeps : env.Keeps Term.SplitFree n₀) :
    env.MatchKeeps (fun n t => n₀ ≤ n ∧ t.SplitFree n) fun n p => p.locals.SplitFree n where
  mono hnm ht := ⟨ht.1.trans hnm, ht.2.mono hnm⟩
  later hnm hp := hp.mono hnm
  whnf ht h := ⟨ht.1.trans (env.whnf_forward _ h), hkeeps.whnf ht.1 ht.2 h⟩
  fields hvalue hshape t ht := by
    obtain ⟨head, args, rfl, hargs⟩ := valueShape_fields hshape
    exact ⟨hvalue.1, (Term.splitFree_hereditary.apps.1 hvalue.2).2 t (hargs t ht)⟩
  bind name ht hp := hp.cons name ht.2
  force _ hp := hp
  block _ _ _ hp := hp
  fail _ _ hp := hp

lemma matchRow_splitFree (hkeeps : env.Keeps Term.SplitFree n₀) (hn : n₀ ≤ n)
    (hargs : ∀ a ∈ args, a.SplitFree n) (hlocals : locals.SplitFree n)
    (h : Returns (env.matchRow row args locals) n (.matched locals' forced) m) :
    locals'.SplitFree m := by
  simp only [matchRow, returns_bind] at h
  obtain ⟨r, k, hmatch, h⟩ := h
  split at h
  · next p =>
      obtain ⟨hout, rfl⟩ := returns_pure.1 h
      have hp := (matchKeeps_splitFree hkeeps).patterns row.patterns
        (fun a ha => ⟨hn, hargs a ha⟩) hlocals hmatch
      unfold Progress.outcome at hout
      split at hout
      · cases hout
      · cases hout
      · obtain ⟨rfl, -⟩ := RowMatch.matched.inj hout
        exact hp
  · cases (returns_pure.1 h).1

end Env

/-- The terms of a problem have no case splits. -/
structure Problem.SplitFree (n : Nat) (p : Problem) : Prop where
  context : p.context.All Term.SplitFree n
  goal : p.goal.SplitFree n
  args : ∀ a ∈ p.args, a.SplitFree n
  locals : p.locals.SplitFree n

variable {p : Problem}

lemma Problem.SplitFree.mono (h : p.SplitFree n) (hnm : n ≤ m) : p.SplitFree m where
  context := Term.splitFree_hereditary.telescope_mono h.context hnm
  goal := h.goal.mono hnm
  args a ha := (h.args a ha).mono hnm
  locals := h.locals.mono hnm

lemma Env.decideRows_splitFree {env : Env} (hkeeps : env.Keeps Term.SplitFree n)
    (hp : p.SplitFree n)
    (h : Returns (env.decideRows p rows) n (.reached index row locals forced) m) :
    locals.SplitFree m := by
  induction rows generalizing n with
  | nil =>
    cases (returns_pure.1 h).1
  | cons r rows ih =>
    simp only [decideRows, returns_bind] at h
    obtain ⟨outcome, k, hmatch, h⟩ := h
    have hk := matchRow_forward _ _ _ hmatch
    split at h
    · exact ih (hkeeps.mono hk) (hp.mono hk) h
    · obtain ⟨heq, rfl⟩ := returns_pure.1 h
      obtain ⟨-, -, rfl, -⟩ := Decision.reached.inj heq
      exact matchRow_splitFree hkeeps (by omega) hp.args hp.locals hmatch
    · cases (returns_pure.1 h).1
    · cases (returns_pure.1 h).1

/-! ### Rows that are tried -/

namespace Env

variable {env : Env} {p : Problem}

lemma decideRows_reached
    (h : Returns (env.decideRows p rows) n (.reached index row locals forced) m) :
    (index, row) ∈ rows := by
  induction rows generalizing n with
  | nil => simp [decideRows] at h
  | cons entry rows ih =>
    rw [decideRows] at h
    obtain ⟨result, k, -, h⟩ := returns_bind.1 h
    cases result with
    | mismatch => exact List.mem_cons_of_mem _ (ih h)
    | matched locals' forced' =>
      cases (returns_pure.1 h).1
      exact List.mem_cons_self
    | blocked | failed => simp at h

lemma decideRows_split (h : Returns (env.decideRows p rows) n (.split v pattern later) m) :
    later <:+ rows := by
  induction rows generalizing n with
  | nil => simp [decideRows] at h
  | cons entry rows ih =>
    rw [decideRows] at h
    obtain ⟨result, k, -, h⟩ := returns_bind.1 h
    cases result with
    | mismatch => exact (ih h).trans (List.suffix_cons _ _)
    | matched locals' forced' => simp at h
    | blocked w pattern' =>
      cases (returns_pure.1 h).1
      exact List.suffix_refl _
    | failed error => simp at h

end Env

end Clausal
