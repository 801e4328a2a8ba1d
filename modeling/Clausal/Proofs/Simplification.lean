import Clausal.Goal.Simplification
import Clausal.Proofs.NormalForms
import Clausal.Proofs.Rewriting

/-!
# Simplification is idempotent

A goal that was simplified with fewer contractions than allowed is a normal form
to which no rule applies.
-/

namespace Clausal

open Eval Fresh List Term

variable {σ τ : Subst}

/-! ### Contraction from a later supply -/

/-- All variables of the rule are behind the supply. -/
structure Rule.Below (n : Nat) (r : Rule) : Prop where
  context : ∀ x ∈ r.context.vars, x.id < n
  lhs : r.lhs.AllBelow n
  rhs : r.rhs.AllBelow n

variable {n : Nat} {s : Slide}

lemma Rule.Below.mono {r : Rule} (h : r.Below n) (hnm : n ≤ m) : r.Below m :=
  ⟨fun x hx => lt_of_lt_of_le (h.context x hx) hnm, h.lhs.mono hnm, h.rhs.mono hnm⟩

lemma Rule.Below.fixed {r : Rule} (h : r.Below s.start) : r.Fixed s :=
  ⟨fun x hx => s.var_old (h.context x hx), s.term_old h.lhs, s.term_old h.rhs⟩

lemma Env.isTrivial_slides {env : Env} (hbodies : env.BodiesFixed s) (t : Term) :
    Slides s id (env.isTrivial t) (env.isTrivial (t.mapVars s.var)) := by
  rw [isTrivial, isTrivial, globalSpine?_slide]
  rcases t.globalSpine? with _ | ⟨head, _ | ⟨_, _ | ⟨lhs, _ | ⟨rhs, _ | ⟨_, _⟩⟩⟩⟩⟩
  case some.cons.cons.cons.nil =>
      simp only [Option.map_some, map_cons, map_nil]
      split
      · exact convertible_slides hbodies lhs rhs
      · exact .pure _ rfl
  all_goals exact .pure _ rfl

/-! ### Contraction keeps variables behind the supply -/

lemma Subst.All.guard (hσ : σ.All P n) [Decidable test]
    (h : (if test then some σ else none) = some τ) : τ.All P n := by
  split at h
  · exact Option.some.inj h ▸ hσ
  · cases h

lemma Term.matchWith_allBelow (pattern : Term) (hσ : σ.All AllBelow n)
    (hterm : term.AllBelow n) (h : (pattern.matchWith Γ term σ).value n = some τ) :
    τ.All AllBelow ((pattern.matchWith Γ term σ).next n) := by
  induction pattern, term, σ using matchWith.induct (Γ := Γ) generalizing n τ with
  | case1 head arg head' arg' σ ihhead iharg =>
    rw [matchWith, value_bind] at h
    rw [matchWith, next_bind]
    have hnext := head.matchWith_next Γ head' σ n
    cases hhead : (head.matchWith Γ head' σ).value n with
    | none =>
      rw [hhead] at h
      cases h
    | some ρ =>
      rw [hhead] at h
      exact iharg ρ (ihhead hσ hterm.1 hhead) (AllBelow.mono hnext hterm.2) h
  | case2 v term σ hv value hget =>
    rw [matchWith, if_pos hv, hget] at h ⊢
    exact hσ.guard h
  | case3 v term σ hv hget =>
    rw [matchWith, if_pos hv, hget] at h ⊢
    cases h
    exact hσ.insert allBelow_hereditary hterm
  | case4 v term σ hv =>
    rw [matchWith, if_neg hv] at h ⊢
    exact hσ.guard h
  | case5 pattern term σ happ hvar =>
    rw [matchWith] at h ⊢
    · exact hσ.guard h
    all_goals assumption

namespace Rule

variable {r : Rule} {t u : Term} {n : Nat}

lemma fire?_allBelow (hr : r.Below n) (ht : t.AllBelow n) (h : (r.fire? t).value n = some u) :
    u.AllBelow ((r.fire? t).next n) := by
  rw [fire?, value_bind] at h
  rw [fire?, next_bind]
  cases hmatch : (r.lhs.matchWith r.context t .empty).value n with
  | none =>
    rw [hmatch] at h
    cases h
  | some σ =>
    rw [hmatch] at h
    have hσ := matchWith_allBelow r.lhs Subst.All.empty ht hmatch
    have hrhs := hr.rhs.mono (matchWith_next r.context r.lhs t .empty n)
    dsimp only at h ⊢
    split at h
    next hbinds =>
      rw [if_pos hbinds]
      cases h
      exact Subst.apply_allBelow hσ hrhs
    next => cases h

lemma fireFirst?_allBelow (hrules : ∀ r ∈ rules, r.Below n) (ht : t.AllBelow n)
    (h : (fireFirst? rules t).value n = some u) : u.AllBelow ((fireFirst? rules t).next n) := by
  induction rules generalizing n with
  | nil => cases h
  | cons r rules ih =>
    rw [fireFirst?, value_bind] at h
    rw [fireFirst?, next_bind]
    cases hfire : (r.fire? t).value n with
    | some v =>
      rw [hfire] at h
      cases h
      exact fire?_allBelow (hrules r mem_cons_self) ht hfire
    | none =>
      rw [hfire] at h
      have hnext := r.fire?_next t n
      exact ih (fun r' hr' => (hrules r' (mem_cons_of_mem r hr')).mono hnext) (ht.mono hnext) h

end Rule

lemma Branches.AllBelow.setBody {u : Term} (hu : u.AllBelow n) : {bs : Branches} →
    bs.AllBelow n → (i : Nat) → (bs.setBody i u).AllBelow n
  | .nil, _, _ => trivial
  | .cons _ _ _ _, hbs, 0 => ⟨hbs.1, hu, hbs.2.2⟩
  | .cons _ _ _ _, hbs, i + 1 => ⟨hbs.1, hbs.2.1, Branches.AllBelow.setBody hu hbs.2.2 i⟩

lemma Term.AllBelow.setPart {t u : Term} (ht : t.AllBelow n) (hu : u.AllBelow n) (i : Nat) :
    (t.setPart i u).AllBelow n := by
  cases t with
  | univ | var | global => exact ht
  | pi v a b | lam v a b =>
    cases i with
    | zero => exact ⟨ht.1, hu, ht.2.2⟩
    | succ => exact ⟨ht.1, ht.2.1, hu⟩
  | app a b | ann a b =>
    cases i with
    | zero => exact ⟨hu, ht.2⟩
    | succ => exact ⟨ht.1, hu⟩
  | case scrut branches =>
    cases i with
    | zero => exact ⟨hu, ht.2⟩
    | succ i => exact ⟨ht.1, Branches.AllBelow.setBody hu ht.2 i⟩
  | absurd => exact hu

namespace Term

variable {n : Nat}

lemma contractFirst?_allBelow
    (h : ∀ t ∈ ts, ∀ m ≥ n, ∀ v, (t.contract? rules).value m = some v →
      v.AllBelow ((t.contract? rules).next m))
    (hrun : (contractFirst? rules ts).value n = some (i, u)) :
    u.AllBelow ((contractFirst? rules ts).next n) := by
  induction ts generalizing n i with
  | nil => cases hrun
  | cons t ts ih =>
    rw [contractFirst?, value_bind] at hrun
    rw [contractFirst?, next_bind]
    cases hfirst : (t.contract? rules).value n with
    | some v =>
      rw [hfirst] at hrun
      cases hrun
      exact h t mem_cons_self n (le_refl n) u hfirst
    | none =>
      rw [hfirst] at hrun
      obtain ⟨⟨j, v⟩, hrest, heq⟩ := Option.map_eq_some_iff.1 hrun
      cases heq
      exact ih (fun t' ht' m hm => h t' (mem_cons_of_mem _ ht') m
        (le_trans (t.contract?_next rules n) hm)) hrest

/-- A contraction takes no variable from ahead of its supply. -/
lemma contract?_allBelow {t : Term} (hrules : ∀ r ∈ rules, r.Below n) (ht : t.AllBelow n)
    (h : (t.contract? rules).value n = some u) : u.AllBelow ((t.contract? rules).next n) := by
  induction t using induction_on_parts generalizing n u with
  | h t ih =>
    rw [contract?_eq, value_bind] at h
    rw [contract?_eq, next_bind]
    have hnext := Rule.fireFirst?_next t n rules
    cases hroot : (Rule.fireFirst? rules t).value n with
    | some v =>
      rw [hroot] at h
      cases h
      exact Rule.fireFirst?_allBelow hrules ht hroot
    | none =>
      rw [hroot] at h
      obtain ⟨⟨i, v⟩, hfound, rfl⟩ := Option.map_eq_some_iff.1 h
      have hv := contractFirst?_allBelow (fun s hs m hm w hw =>
        ih s hs (fun r hr => (hrules r hr).mono (hnext.trans hm))
          (AllBelow.mono (hnext.trans hm) (AllVars.parts ht s hs)) hw) hfound
      have hlast : (Rule.fireFirst? rules t).next n ≤
          (contractFirst? rules t.parts).next ((Rule.fireFirst? rules t).next n) :=
        contractFirst?_next _ _ _
      exact (ht.mono (hnext.trans hlast)).setPart hv i

end Term

/-! ### The number of contractions -/

namespace Env

variable {env : Env} {rules : List Rule} {n : Nat}

/-- Contract a reduced term and reduce it again, and count the contractions. -/
def contractAllCounted (env : Env) (rules : List Rule) : (steps : Nat) → Term → Eval (Term × Nat)
  | 0, t => return (t, 0)
  | steps + 1, t => do
      match ← (t.contract? rules : Fresh (Option Term)) with
      | some t =>
        let t ← env.normalise t
        let found ← contractAllCounted env rules steps t
        return (found.1, found.2 + 1)
      | none => return (t, 0)

lemma contractAll_eq (steps : Nat) (t : Term) :
    env.contractAll rules steps t = Prod.fst <$> env.contractAllCounted rules steps t := by
  induction steps generalizing t with
  | zero => rfl
  | succ steps ih =>
    rw [contractAll, contractAllCounted, map_bind]
    refine bind_congr fun found => ?_
    cases found with
    | none => rfl
    | some u =>
      simp only [map_bind, bind_pure_comp, Functor.map_map, ih]

variable {t u : Term}

/-- With fewer contractions than allowed, what is left is a normal form without a contraction. -/
lemma contractAllCounted_ends (hclosed : env.Closed) (hbodies : env.BodiesBelow n)
    (hrules : ∀ r ∈ rules, r.Below n) {count : Nat} (ht : t.AllBelow n)
    (hagain : ∀ j, n ≤ j → ∃ j', j ≤ j' ∧ Returns (env.normalise t) j t j')
    (hrun : Returns (env.contractAllCounted rules steps t) n (u, count) m)
    (hcount : count < steps) :
    ∃ k, n ≤ k ∧ u.AllBelow k ∧
      (∀ j, k ≤ j → ∃ j', j ≤ j' ∧ Returns (env.normalise u) j u j') ∧
      (u.contract? rules).value k = none ∧ (u.contract? rules).next k = m := by
  induction steps generalizing n t count with
  | zero => exact (Nat.not_lt_zero count hcount).elim
  | succ steps ih =>
    simp only [contractAllCounted, returns_bind, returns_lift] at hrun
    obtain ⟨found, k, ⟨hfound, rfl⟩, hrun⟩ := hrun
    cases found with
    | none =>
      obtain ⟨heq, hm⟩ := returns_pure.1 hrun
      cases heq
      exact ⟨n, le_refl n, ht, hagain, hfound, hm⟩
    | some v =>
      simp only [returns_bind, returns_pure] at hrun
      obtain ⟨w, k, hw, ⟨u', count'⟩, m', hrest, heq, rfl⟩ := hrun
      cases heq
      -- What was contracted is reduced again, so the rest starts from a normal form too.
      have hnext := t.contract?_next rules n
      obtain ⟨hle, hbelow, hagain'⟩ := normalise_again hclosed hbodies hnext
        (contract?_allBelow hrules ht hfound) hw
      have hnk := hnext.trans hle
      obtain ⟨j, hj, hends⟩ := ih (hbodies.mono hnk) (fun r hr => (hrules r hr).mono hnk) hbelow
        hagain' hrest (Nat.lt_of_succ_lt_succ hcount)
      exact ⟨j, hnk.trans hj, hends⟩

lemma contractAllCounted_of_none (env : Env) (hsteps : 0 < steps)
    (h : (t.contract? rules).value n = none) :
    Returns (env.contractAllCounted rules steps t) n (t, 0) ((t.contract? rules).next n) := by
  cases steps with
  | zero => exact (lt_irrefl 0 hsteps).elim
  | succ steps =>
    rw [contractAllCounted]
    exact returns_bind.2 ⟨none, _, returns_lift.2 ⟨h, rfl⟩, rfl⟩

/-- The end of a contraction is the same from a later supply. -/
lemma contract?_none_later (hrules : ∀ r ∈ rules, r.Below n) (hu : u.AllBelow n)
    (h : (u.contract? rules).value n = none) (hk : n ≤ k) :
    (u.contract? rules).value k = none ∧
      (u.contract? rules).next k = (u.contract? rules).next n + (k - n) := by
  have hslides := (u.contract?_slides (s := ⟨n, k - n⟩) (fun r hr => (hrules r hr).fixed) n
    (le_refl n)).2
  rw [Slide.term_old _ hu, h, Nat.add_sub_cancel' hk] at hslides
  exact ⟨congrArg Prod.fst hslides, congrArg Prod.snd hslides⟩

lemma isTrivial_later (hbodies : env.BodiesBelow n) (hu : u.AllBelow n)
    (h : Returns (env.isTrivial u) n b m) (hk : n ≤ k) :
    ∃ m', Returns (env.isTrivial u) k b m' := by
  have hslides := (isTrivial_slides (s := ⟨n, k - n⟩) hbodies.fixed u).run n (le_refl n)
  rw [Slide.term_old _ hu, show env.isTrivial u n = some (b, m) from h, Nat.add_sub_cancel' hk]
    at hslides
  exact ⟨_, hslides⟩

end Env

/-- Simplification of a goal, and the number of contractions. -/
def Goal.simplifyCounted (base : RuleBase) (sig : Signature) (goal : Goal) (names : List Name) :
    Eval (Simplified × Nat) := do
  let env : Env := { sig }
  let type ← env.normalise goal.type
  let found ← env.contractAllCounted (base.rulesOfAll names) maxContractions type
  let closed ← env.isTrivial found.1
  return ({ goal := { goal with type := found.1 }, closed }, found.2)

lemma Goal.simplify_eq (base : RuleBase) (sig : Signature) (goal : Goal) (names : List Name) :
    goal.simplify base sig names = Prod.fst <$> goal.simplifyCounted base sig names := by
  simp only [simplify, simplifyCounted, map_bind, map_pure, Env.contractAll_eq, bind_map_left]

namespace Simplification

open Predecessor (x y k)

def v : Var := ⟨3, "v"⟩

def predBody : Term := Predecessor.body (.global "zero")

/-- The predecessor may be unfolded. -/
def sig : Signature :=
  ({} : Signature).addFunction
    { name := "pred", type := .univ, body := some predBody, transparent := true }

/-- `plus x zero = x`, where `x` stands for any term. -/
def plusZero : Rule where
  name := "plus_zero"
  context := [(x, .global "Nat")]
  type := .global "Nat"
  lhs := .apps (.global "plus") [.var x, .global "zero"]
  rhs := .var x

def base : RuleBase := { rules := [("plus", [plusZero])] }

def pred : Term := .app (.global "pred") (.var v)

/-- `(v : Nat) ⊢ plus (pred v) zero = pred v` -/
def goal : Goal where
  context := [(v, .global "Nat")]
  type := .eq (.global "Nat") (.apps (.global "plus") [pred, .global "zero"]) pred

lemma unfolds (h : ({ sig } : Env).sig.unfoldable? ({ sig } : Env).unfold g = some body) :
    body = predBody := by
  simp only [Signature.unfoldable?, Signature.function?, Signature.get?, sig,
    Signature.addFunction, Signature.insert, Signature.contains, find?_nil, Option.map_none,
    Option.isSome_none, Bool.false_eq_true, if_false, nil_append, find?_cons] at h
  split at h
  next f hf =>
    split at hf
    next hget =>
      split at hget
      · cases hget
        cases hf
        exact (Option.some.inj h).symm
      · cases hget
    next => cases hf
  next => cases h

end Simplification

end Clausal
