import Clausal.Proofs.Nameless.Parallel

/-!
# Evaluation of nameless forms

Weak-head reduction to a given depth as a function of forms.  A value is at rest:
evaluation leaves it as it is, and does so without a step.
-/

namespace Clausal.Nameless

open Option

/-- The head of an application, and its arguments before the given ones. -/
def unwind : Nameless → List Nameless → Nameless × List Nameless
  | app f a, args => f.unwind (a :: args)
  | head, args => (head, args)

/-- The head is a case split or a literal. -/
def isStuck : Nameless → Bool
  | app f _ => f.isStuck
  | case _ _ | lam _ _ => true
  | _ => false

/-- Whether a form is a list of arms, as in the form of every case split of a term. -/
def isArms : Nameless → Bool
  | stop => true
  | arm _ _ _ rest => rest.isArms
  | _ => false

/-- What a case split selects if its scrutinee is of constructor form. -/
def select? (R : Rules) (scrut arms : Nameless) : Option Nameless :=
  match scrut.unwind [] with
  | (global c, args) => do
      let (name, p) ← R.ctor c
      let (k, body) ← arms.arm? name
      if args.length = p + k then some (body.instantiate (args.drop p).reverse) else none
  | _ => none

mutual

/-- Evaluation to a given depth. -/
def eval (R : Rules) : Nat → Nameless → Option Nameless
  | 0, _ => none
  | fuel + 1, t =>
    match t with
    | ann t _ => eval R fuel t
    | app f a => evalSpine R fuel ((app f a).unwind []).1 ((app f a).unwind []).2
    | global g => evalSpine R fuel (global g) []
    | case scrut arms => do
        match ← evalCase R fuel scrut arms with
        | some t => eval R fuel t
        | none => some (case scrut arms)
    | t => some t

/-- Evaluation of a head applied to arguments. -/
def evalSpine (R : Rules) : Nat → Nameless → List Nameless → Option Nameless
  | 0, _, _ => none
  | fuel + 1, head, args =>
    match head, args with
    | ann t _, args => evalSpine R fuel t args
    | app f a, args => evalSpine R fuel ((app f a).unwind args).1 ((app f a).unwind args).2
    | lam _ body, arg :: args => evalSpine R fuel (body.instantiate [arg]) args
    | case scrut arms, args => do
        match ← evalCase R fuel scrut arms with
        | some t => evalSpine R fuel t args
        | none => some ((case scrut arms).apps args)
    | global g, args =>
      match R.unfold g with
      | some body => do
          let unfolded ← evalSpine R fuel body args
          if unfolded.isStuck then some ((global g).apps args) else some unfolded
      | none => some ((global g).apps args)
    | head, args => some (head.apps args)

/-- Evaluation of a scrutinee, and what a case split on it selects. -/
def evalCase (R : Rules) : Nat → Nameless → Nameless → Option (Option Nameless)
  | 0, _, _ => none
  | fuel + 1, scrut, arms =>
    if arms.isArms then (eval R fuel scrut).map fun w => select? R w arms else none

end

/-! ### Heads and arguments -/

lemma unwind_apps (head : Nameless) (args rest : List Nameless) :
    (head.apps args).unwind rest = head.unwind (args ++ rest) := by
  induction args using List.reverseRecOn generalizing rest with
  | nil => rfl
  | append_singleton args a ih =>
    rw [apps_concat, unwind, ih, List.append_assoc]
    rfl

lemma unwind_append (head : Nameless) (args rest : List Nameless) :
    head.unwind (args ++ rest) = ((head.unwind args).1, (head.unwind args).2 ++ rest) := by
  induction head generalizing args with
  | app f a ihf _ => exact ihf (a :: args)
  | _ => rfl

lemma apps_unwind (head : Nameless) (args : List Nameless) :
    (head.unwind args).1.apps (head.unwind args).2 = head.apps args := by
  induction head generalizing args with
  | app f a ihf _ => exact ihf (a :: args)
  | _ => rfl

lemma isStuck_apps (head : Nameless) (args : List Nameless) :
    (head.apps args).isStuck = head.isStuck := by
  induction args generalizing head with
  | nil => rfl
  | cons a args ih => exact ih (.app head a)

/-- What selects an arm is a constructor with as many arguments as it asks for. -/
lemma select?_eq_some : select? R scrut arms = some t ↔
    ∃ c name p k args body, scrut = (global c).apps args ∧ R.ctor c = some (name, p) ∧
      arms.arm? name = some (k, body) ∧ args.length = p + k ∧
      t = body.instantiate (args.drop p).reverse := by
  constructor
  · intro h
    have hscrut := apps_unwind scrut []
    unfold select? at h
    split at h
    next c args hunwind =>
      rw [hunwind] at hscrut
      obtain ⟨⟨name, p⟩, hc, h⟩ := bind_eq_some_iff.1 h
      obtain ⟨⟨k, body⟩, harm, h⟩ := bind_eq_some_iff.1 h
      dsimp only at h
      split at h
      next hlen =>
        exact ⟨c, name, p, k, args, body, hscrut.symm, hc, harm, hlen, (some.inj h).symm⟩
      next => cases h
    next => cases h
  · rintro ⟨c, name, p, k, args, body, rfl, hc, harm, hlen, rfl⟩
    simp [select?, unwind_apps, unwind, hc, harm, hlen]

lemma evalCase_eq_some :
    evalCase R (fuel + 1) scrut arms = some o ↔
      arms.isArms = true ∧ ∃ w, eval R fuel scrut = some w ∧ select? R w arms = o := by
  simp [evalCase]

/-! ### More depth -/

mutual

lemma eval_succ : (fuel : Nat) → {t r : Nameless} → eval R fuel t = some r →
    eval R (fuel + 1) t = some r
  | 0, _, _, h => by cases h
  | fuel + 1, t, r, h => by
    cases t with
    | ann t a => exact eval_succ fuel h
    | app f a | global g => exact evalSpine_succ fuel h
    | case scrut arms =>
      rw [eval] at h ⊢
      obtain ⟨o, ho, h⟩ := bind_eq_some_iff.1 h
      refine bind_eq_some_iff.2 ⟨o, evalCase_succ fuel ho, ?_⟩
      cases o with
      | some t => exact eval_succ fuel h
      | none => exact h
    | _ => exact h

/-- A value is kept when there is more fuel. -/
lemma evalSpine_succ : (fuel : Nat) → ∀ {head r args}, evalSpine R fuel head args = some r →
    evalSpine R (fuel + 1) head args = some r
  | 0, _, _, _, h => by cases h
  | fuel + 1, head, r, args, h => by
    cases head with
    | ann t a | app f a => exact evalSpine_succ fuel h
    | lam a body =>
      cases args with
      | nil => exact h
      | cons arg args => exact evalSpine_succ fuel h
    | case scrut arms =>
      rw [evalSpine] at h ⊢
      obtain ⟨o, ho, h⟩ := bind_eq_some_iff.1 h
      refine bind_eq_some_iff.2 ⟨o, evalCase_succ fuel ho, ?_⟩
      cases o with
      | some t => exact evalSpine_succ fuel h
      | none => exact h
    | global g =>
      rw [evalSpine] at h ⊢
      cases hbody : R.unfold g with
      | some body =>
        rw [hbody] at h
        obtain ⟨u, hu, h⟩ := bind_eq_some_iff.1 h
        exact bind_eq_some_iff.2 ⟨u, evalSpine_succ fuel hu, h⟩
      | none =>
        rw [hbody] at h
        exact h
    | _ => exact h

lemma evalCase_succ : (fuel : Nat) → ∀ {scrut arms o}, evalCase R fuel scrut arms = some o →
    evalCase R (fuel + 1) scrut arms = some o
  | 0, _, _, _, h => by cases h
  | fuel + 1, scrut, arms, o, h => by
    obtain ⟨harms, w, hw, rfl⟩ := evalCase_eq_some.1 h
    exact evalCase_eq_some.2 ⟨harms, w, eval_succ fuel hw, rfl⟩

end

lemma evalCase_mono (hle : fuel ≤ fuel') (h : evalCase R fuel scrut arms = some o) :
    evalCase R fuel' scrut arms = some o := by
  induction hle with
  | refl => exact h
  | step _ ih => exact evalCase_succ _ ih

lemma evalCase_unique (h : evalCase R fuel scrut arms = some o)
    (h' : evalCase R fuel' scrut arms = some o') : o = o' :=
  some.inj ((evalCase_mono (Nat.le_max_left fuel fuel') h).symm.trans
    (evalCase_mono (Nat.le_max_right fuel fuel') h'))

/-! ### Values are at rest -/

/-- Evaluation leaves a head with its arguments as they are, without a step. -/
def RestsSpine (R : Rules) : Nat → Nameless → List Nameless → Prop
  | 0, _, _ => False
  | fuel + 1, head, args =>
    match head with
    | ann _ _ | app _ _ => False
    | lam _ _ => args = []
    | case scrut arms => evalCase R fuel scrut arms = some none
    | global g => ∀ body, R.unfold g = some body →
        ∃ u, evalSpine R fuel body args = some u ∧ u.isStuck = true
    | _ => True

/-- Evaluation leaves a term as it is, without a step. -/
def Rests (R : Rules) : Nat → Nameless → Prop
  | 0, _ => False
  | fuel + 1, t =>
    match t with
    | ann _ _ => False
    | app f a => RestsSpine R fuel ((app f a).unwind []).1 ((app f a).unwind []).2
    | global g => RestsSpine R fuel (global g) []
    | case scrut arms => evalCase R fuel scrut arms = some none
    | _ => True

lemma RestsSpine.succ (h : RestsSpine R fuel head args) : RestsSpine R (fuel + 1) head args := by
  cases fuel with
  | zero => exact h.elim
  | succ fuel =>
    cases head with
    | case scrut arms => exact evalCase_succ fuel h
    | global g =>
      intro body hbody
      obtain ⟨u, hu, hstuck⟩ := h body hbody
      exact ⟨u, evalSpine_succ fuel hu, hstuck⟩
    | _ => exact h

/-- What evaluation returns is at rest. -/
lemma evalSpine_rests (h : evalSpine R fuel head args = some r) :
    RestsSpine R fuel (r.unwind []).1 (r.unwind []).2 := by
  induction fuel generalizing head args with
  | zero => cases h
  | succ fuel ih =>
    cases head with
    | ann t a | app f a => exact (ih h).succ
    | lam a body =>
      cases args with
      | nil => exact some.inj h ▸ rfl
      | cons arg args => exact (ih h).succ
    | case scrut arms =>
      rw [evalSpine] at h
      obtain ⟨o, ho, h⟩ := bind_eq_some_iff.1 h
      cases o with
      | some t => exact (ih h).succ
      | none =>
        cases h
        rw [unwind_apps]
        exact ho
    | global g =>
      rw [evalSpine] at h
      split at h
      next body hbody =>
        obtain ⟨u, hu, h⟩ := bind_eq_some_iff.1 h
        split at h
        next hstuck =>
          cases h
          rw [unwind_apps, List.append_nil]
          intro body' hbody'
          cases hbody.symm.trans hbody'
          exact ⟨u, hu, hstuck⟩
        next =>
          cases h
          exact (ih hu).succ
      next hnone =>
        cases h
        rw [unwind_apps]
        intro body hbody
        rw [hnone] at hbody
        cases hbody
    | _ =>
      cases h
      rw [unwind_apps]
      trivial

lemma RestsSpine.rests (h : RestsSpine R fuel (t.unwind []).1 (t.unwind []).2) :
    Rests R (fuel + 1) t := by
  cases fuel with
  | zero => exact h.elim
  | succ fuel =>
    cases t with
    | case scrut arms => exact evalCase_succ fuel h
    | ann | app | global => exact h
    | _ => trivial

lemma Rests.succ (h : Rests R fuel t) : Rests R (fuel + 1) t := by
  cases fuel with
  | zero => exact h.elim
  | succ fuel =>
    cases t with
    | case scrut arms => exact evalCase_succ fuel h
    | app | global => exact RestsSpine.succ h
    | _ => exact h

lemma eval_rests (h : eval R fuel t = some r) : Rests R fuel r := by
  induction fuel generalizing t with
  | zero => cases h
  | succ fuel ih =>
    cases t with
    | ann t a => exact (ih h).succ
    | app f a | global g => exact (evalSpine_rests h).rests
    | case scrut arms =>
      rw [eval] at h
      obtain ⟨o, ho, h⟩ := bind_eq_some_iff.1 h
      cases o with
      | some t => exact (ih h).succ
      | none => exact some.inj h ▸ ho
    | _ => exact some.inj h ▸ trivial

/-! ### Fewer arguments -/

lemma evalSpine_global_isStuck (h : evalSpine R fuel (global g) args = some r) :
    r.isStuck = false := by
  cases fuel with
  | zero => cases h
  | succ fuel =>
    rw [evalSpine] at h
    split at h
    · obtain ⟨u, -, h⟩ := bind_eq_some_iff.1 h
      split at h
      · exact some.inj h ▸ isStuck_apps (global g) args
      next hstuck =>
        cases h
        exact Bool.eq_false_iff.2 hstuck
    · exact some.inj h ▸ isStuck_apps (global g) args

/-- A value that is not stuck does not become so with more arguments. -/
lemma evalSpine_append_isStuck (h : evalSpine R fuel head args = some r) (hr : r.isStuck = false)
    (h' : evalSpine R fuel' head (args ++ rest) = some r') : r'.isStuck = false := by
  induction fuel generalizing head args fuel' with
  | zero => cases h
  | succ fuel ih =>
    cases fuel' with
    | zero => cases h'
    | succ fuel' =>
      cases head with
      | ann t a => exact ih h h'
      | app f a =>
        rw [evalSpine, unwind_append] at h'
        exact ih h h'
      | lam a body =>
        -- Without an argument a literal is stuck, which it is not by assumption.
        cases args with
        | nil =>
          cases h
          cases hr
        | cons arg args => exact ih h h'
      | case scrut arms =>
        rw [evalSpine] at h h'
        obtain ⟨o, ho, h⟩ := bind_eq_some_iff.1 h
        obtain ⟨o', ho', h'⟩ := bind_eq_some_iff.1 h'
        obtain rfl := evalCase_unique ho ho'
        cases o with
        | some t => exact ih h h'
        | none =>
          cases h
          rw [isStuck_apps] at hr
          cases hr
      | global g => exact evalSpine_global_isStuck h'
      | _ => exact some.inj h' ▸ isStuck_apps _ _

/-- A function that is stuck on some arguments and has a value on fewer is stuck on these. -/
lemma RestsSpine.dropLast (h : RestsSpine R fuel head (args ++ [a]))
    (hr : ∀ g, head = global g → evalSpine R fuel (global g) args = some r) :
    RestsSpine R fuel head args := by
  cases fuel with
  | zero => exact h.elim
  | succ fuel =>
    cases head with
    | lam =>
      have hnil : args ++ [a] = [] := h
      simp at hnil
    | global g =>
      intro body hbody
      obtain ⟨v, hv, hstuck⟩ := h body hbody
      have hg := hr g rfl
      rw [evalSpine, hbody] at hg
      obtain ⟨u, hu, -⟩ := bind_eq_some_iff.1 hg
      refine ⟨u, hu, (Bool.eq_false_or_eq_true u.isStuck).resolve_right fun hfree => ?_⟩
      rw [evalSpine_append_isStuck hu hfree hv] at hstuck
      cases hstuck
    | _ => exact h

/-- What is applied in a term at rest is at rest itself, if it has a value. -/
lemma Rests.head (h : Rests R fuel (app f a)) (hf : eval R fuel f = some r) : Rests R fuel f := by
  cases fuel with
  | zero => exact h.elim
  | succ fuel =>
    have hspine : RestsSpine R fuel (f.unwind []).1 ((f.unwind []).2 ++ [a]) := by
      have happ : (app f a).unwind [] = _ := unwind_append f [] [a]
      simpa only [Rests, happ] using h
    refine (hspine.dropLast (r := r) fun g hg => ?_).rests
    cases f with
    | app =>
      rw [← hg]
      exact hf
    | global =>
      cases hg
      exact hf
    | _ => cases hg

end Clausal.Nameless
