import Clausal.Proofs.Nameless.Equality

/-!
# Weak-head reduction

One step at the head of a term.  Weak-head reduction is deterministic, so a
term has at most one reduct with a rigid head, and its steps stay steps when
the term is filled.
-/

namespace Clausal.Nameless

inductive HeadStep (R : Rules) : Nameless → Nameless → Prop
  | beta (a b x : Nameless) : HeadStep R (app (lam a b) x) (b.instantiate [x])
  | app {f f' : Nameless} (a : Nameless) : HeadStep R f f' → HeadStep R (app f a) (app f' a)
  | erase (t a : Nameless) : HeadStep R (ann t a) t
  | unfold {g : Name} {body : Nameless} : R.unfold g = some body → HeadStep R (global g) body
  | select {c name : Name} {p k : Nat} {args : List Nameless} {as body : Nameless} :
      R.ctor c = some (name, p) → as.arm? name = some (k, body) → args.length = p + k →
      HeadStep R (case ((global c).apps args) as) (body.instantiate (args.drop p).reverse)
  | scrut {t t' : Nameless} (as : Nameless) :
      HeadStep R t t' → HeadStep R (case t as) (case t' as)

/-- Weak-head reduction in any number of steps. -/
def HeadReduces (R : Rules) : Nameless → Nameless → Prop := Relation.ReflTransGen (HeadStep R)

lemma HeadStep.contract (h : HeadStep R t u) : Contract l R t u := by
  induction h with
  | beta a b x => exact .beta a (.refl b) (.refl x)
  | app a _ ih => exact .app ih (.refl a)
  | erase t a => exact .erase a (.refl t)
  | unfold hbody => exact .unfold hbody
  | select hc harm hlen => exact .select hc rfl harm hlen (.refl _) (.refl _)
  | scrut as _ ih => exact .case ih (.refl as)

lemma HeadReduces.equal (h : HeadReduces R t u) : Equal R t u :=
  .of_reduces (h.lift id fun _ _ => HeadStep.contract)

lemma HeadReduces.app (h : HeadReduces R f f') (a : Nameless) :
    HeadReduces R (.app f a) (.app f' a) :=
  h.lift (Nameless.app · a) fun _ _ => .app a

lemma HeadReduces.apps (h : HeadReduces R f f') (args : List Nameless) :
    HeadReduces R (f.apps args) (f'.apps args) := by
  induction args generalizing f f' with
  | nil => exact h
  | cons a args ih => exact ih (h.app a)

lemma HeadReduces.case (h : HeadReduces R t t') (as : Nameless) :
    HeadReduces R (.case t as) (.case t' as) :=
  h.lift (Nameless.case · as) fun _ _ => .scrut as

lemma Rigid.not_headStep (ht : t.Rigid R) : ¬ HeadStep R t u := by
  intro h
  induction h with
  | beta | erase | select | scrut => exact ht
  | app _ _ ih => exact ih ht
  | unfold hbody =>
    have hnone : R.unfold _ = none := ht
    simp [hnone] at hbody

/-- There is one step at the head at most. -/
lemma HeadStep.deterministic (hu : HeadStep R t u) (hv : HeadStep R t v) : u = v := by
  induction hu generalizing v with
  | beta a b x =>
    cases hv with
    | beta => rfl
    | app _ hf => cases hf
  | app a hf ih =>
    cases hv with
    | beta => cases hf
    | app _ hf' => rw [ih hf']
  | erase =>
    cases hv
    rfl
  | unfold hbody =>
    cases hv with
    | unfold hbody' =>
      rw [hbody] at hbody'
      exact Option.some.inj hbody'
  | @select c name p k args as body hc harm hlen =>
    generalize ht : (global c).apps args = t at hv
    cases hv with
    | select hc' harm' hlen' =>
      obtain ⟨rfl, rfl⟩ := global_apps_inj ht
      obtain ⟨rfl, rfl⟩ : name = _ ∧ p = _ := by simpa [hc] using hc'
      obtain ⟨rfl, rfl⟩ : k = _ ∧ body = _ := by simpa [harm] using harm'
      rfl
    | scrut _ hs =>
      subst ht
      exact ((Rigid.apps (f := .global c) (R.rigid hc) args).not_headStep hs).elim
  | scrut as hs ih =>
    cases hv with
    | select hc' harm' hlen' =>
      exact ((Rigid.apps (f := .global _) (R.rigid hc') _).not_headStep hs).elim
    | scrut _ hs' => rw [ih hs']

lemma HeadReduces.unique (hu : HeadReduces R t u) (hur : u.Rigid R) (hv : HeadReduces R t v)
    (hvr : v.Rigid R) : u = v := by
  induction hu using Relation.ReflTransGen.head_induction_on with
  | refl =>
    rcases Relation.ReflTransGen.cases_head hv with rfl | ⟨w, hw, _⟩
    · rfl
    · exact (hur.not_headStep hw).elim
  | head hstep _ ih =>
    rcases Relation.ReflTransGen.cases_head hv with rfl | ⟨w, hw, hrest⟩
    · exact (hvr.not_headStep hstep).elim
    · rw [← hstep.deterministic hw] at hrest
      exact ih hrest

/-- Filling keeps a step at the head. -/
lemma HeadStep.fill (h : HeadStep R t u) (s : Filling) : HeadStep R (t.fill s) (u.fill s) := by
  induction h with
  | beta a b x =>
    rw [fill_instantiate]
    exact .beta _ _ _
  | app a _ ih => exact .app _ ih
  | erase t a => exact .erase _ _
  | unfold hbody =>
    rw [R.closed hbody s]
    exact .unfold hbody
  | @select c name p k args as body hc harm hlen =>
    have hk : (args.drop p).reverse.length = k := by
      rw [List.length_reverse, List.length_drop]
      omega
    rw [fill_instantiate, hk, List.map_reverse, List.map_drop, Nameless.fill, fill_apps]
    exact .select hc (arm?_fill name as s harm) (by simpa using hlen)
  | scrut as _ ih => exact .scrut _ ih

lemma HeadReduces.fill (h : HeadReduces R t u) (s : Filling) :
    HeadReduces R (t.fill s) (u.fill s) :=
  h.lift (Nameless.fill s) fun _ _ hstep => hstep.fill s

end Clausal.Nameless
