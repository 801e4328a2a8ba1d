import Clausal.Proofs.Reduction

/-!
# More depth

What weak-head reduction returns to some depth, it returns to every greater depth, from
the same supply and with the same variables taken.

Main statement: `Env.whnfWith_mono`.
-/

namespace Clausal

open Eval

variable {fuel fuel' : Nat}

/-- What the one computation returns, the other returns as well. -/
def Eval.Within {α : Type} (x y : Eval α) : Prop :=
  ∀ ⦃n : Nat⦄ ⦃a : α⦄ ⦃m : Nat⦄, Returns x n a m → Returns y n a m

namespace Eval.Within

variable {α β : Type}

protected lemma refl (x : Eval α) : Within x x := fun _ _ _ h => h

protected lemma trans (h : Within x y) (h' : Within y z) : Within x z :=
  fun _ _ _ hx => h' (h hx)

protected lemma outOfFuel (y : Eval α) : Within outOfFuel y :=
  fun _ _ _ h => (returns_outOfFuel h).elim

protected lemma bind (hxy : Within x y) (hfg : ∀ a, Within (f a) (g a)) :
    Within (x >>= f) (y >>= g) := by
  intro n b m h
  obtain ⟨a, k, ha, hb⟩ := returns_bind.1 h
  exact returns_bind.2 ⟨a, k, hxy ha, hfg a hb⟩

lemma of_le {x : Nat → Eval α} (hsucc : ∀ fuel, Within (x fuel) (x (fuel + 1)))
    (h : fuel ≤ fuel') : Within (x fuel) (x fuel') := by
  induction h with
  | refl => exact .refl _
  | step _ ih => exact ih.trans (hsucc _)

end Eval.Within

namespace Env

variable {env : Env}

mutual

lemma whnfWith_succ : (fuel : Nat) → (t : Term) →
    Within (env.whnfWith fuel t) (env.whnfWith (fuel + 1) t)
  | 0, _ => .outOfFuel _
  | fuel + 1, t => by
    cases t with
    | ann t type => exact whnfWith_succ fuel t
    | app f a | global g => exact whnfSpine_succ fuel _ _
    | case scrut branches =>
      rw [whnfWith, whnfWith]
      refine (reduceCase_succ fuel scrut branches).bind fun o => ?_
      cases o with
      | some t => exact whnfWith_succ fuel t
      | none => exact .refl _
    | _ => exact .refl _

/-- A result is kept when there is more fuel. -/
lemma whnfSpine_succ : (fuel : Nat) → (head : Term) → (args : List Term) →
    Within (env.whnfSpine fuel head args) (env.whnfSpine (fuel + 1) head args)
  | 0, _, _ => .outOfFuel _
  | fuel + 1, head, args => by
    cases head with
    | ann t type => exact whnfSpine_succ fuel t args
    | app f a => exact whnfSpine_succ fuel _ _
    | lam v dom body =>
      cases args with
      | nil => exact .refl _
      | cons arg args =>
        rw [whnfSpine, whnfSpine]
        exact (Within.refl _).bind fun body => whnfSpine_succ fuel body args
    | case scrut branches =>
      rw [whnfSpine, whnfSpine]
      refine (reduceCase_succ fuel scrut branches).bind fun o => ?_
      cases o with
      | some t => exact whnfSpine_succ fuel t args
      | none => exact .refl _
    | global g =>
      rw [whnfSpine, whnfSpine]
      cases env.sig.unfoldable? env.unfold g with
      | some body => exact (whnfSpine_succ fuel body args).bind fun _ => .refl _
      | none => exact .refl _
    | _ => exact .refl _

lemma reduceCase_succ : (fuel : Nat) → (scrut : Term) → (branches : Branches) →
    Within (env.reduceCase fuel scrut branches) (env.reduceCase (fuel + 1) scrut branches)
  | 0, _, _ => .outOfFuel _
  | fuel + 1, scrut, branches => by
    rw [reduceCase, reduceCase]
    exact (whnfWith_succ fuel scrut).bind fun _ => .refl _

end

lemma whnfWith_mono (h : fuel ≤ fuel') (t : Term) :
    Within (env.whnfWith fuel t) (env.whnfWith fuel' t) :=
  .of_le (fun fuel => whnfWith_succ fuel t) h

/-- A head with its arguments is reduced as the application that they make. -/
lemma whnfSpine_within (fuel : Nat) (head : Term) (args : List Term) :
    Within (env.whnfSpine fuel head args) (env.whnfWith (fuel + 1) (head.apps args)) := by
  induction fuel generalizing head args with
  | zero => exact .outOfFuel _
  | succ fuel ih =>
    rcases args.eq_nil_or_concat with rfl | ⟨args, a, rfl⟩
    · cases head with
      | ann t type => exact ih t []
      | app f a => exact whnfSpine_succ fuel _ _
      | case scrut branches =>
        change Within (env.whnfSpine (fuel + 1) (.case scrut branches) [])
          (env.whnfWith (fuel + 2) (.case scrut branches))
        rw [whnfSpine, whnfWith]
        refine (reduceCase_succ fuel scrut branches).bind fun o => ?_
        cases o with
        | some t => exact ih t []
        | none => exact .refl _
      | _ => exact .refl _
    · -- The application is taken apart down to the head of `head`.
      rw [List.concat_eq_append, Term.apps_concat, whnfWith, Term.spine, Term.spineOnto,
        Term.spineOnto_apps]
      cases head with
      | app f b => exact whnfSpine_succ fuel _ _
      | _ => exact .refl _

end Env

end Clausal
