import Clausal.Proofs.Nameless.Development

/-!
# Evaluation of developed terms

A development of a term is evaluated to the same depth as the term.  If the value
of the term is rigid then the other value is a development of it; if it is stuck
then the other value is stuck as well.
-/

namespace Clausal.Nameless

open List Nameless Option

variable {args : List Nameless} {f t : Nameless}

/-! ### Evaluation of applications -/

lemma evalSpine_unwind (h : evalSpine R fuel f args = some r) :
    evalSpine R fuel (f.unwind args).1 (f.unwind args).2 = some r := by
  cases fuel with
  | zero => cases h
  | succ fuel =>
    cases f with
    | app f a => exact evalSpine_succ fuel h
    | _ => exact h

/-- Collecting arguments costs at most one step of depth. -/
lemma evalSpine_apps (h : evalSpine R fuel f (args ++ rest) = some r) :
    evalSpine R (fuel + 1) (f.apps args) rest = some r := by
  rcases eq_nil_or_concat args with rfl | ⟨args, a, rfl⟩
  · exact evalSpine_succ fuel h
  · have hunwind := evalSpine_unwind h
    rw [← unwind_apps, concat_eq_append, apps_concat] at hunwind
    rw [concat_eq_append, apps_concat]
    exact hunwind

lemma eval_apps (h : evalSpine R fuel f args = some r) :
    eval R (fuel + 1) (f.apps args) = some r := by
  induction fuel generalizing f args with
  | zero => cases h
  | succ fuel ih =>
    rcases eq_nil_or_concat args with rfl | ⟨args, a, rfl⟩
    · cases f with
      | ann t a => exact ih h
      | case scrut arms =>
        rw [evalSpine] at h
        obtain ⟨o, ho, h⟩ := bind_eq_some_iff.1 h
        refine bind_eq_some_iff.2 ⟨o, evalCase_succ fuel ho, ?_⟩
        cases o with
        | some t => exact ih h
        | none => exact h
      | app f a => exact evalSpine_succ fuel h
      | _ => exact h
    · have hunwind := evalSpine_unwind h
      rw [← append_nil (args.concat a), ← unwind_apps, concat_eq_append,
        apps_concat] at hunwind
      rw [concat_eq_append, apps_concat]
      exact hunwind

lemma eval_global_apps (hg : R.unfold g = none)
    (h : eval R fuel ((global g).apps args) = some w) : w = (global g).apps args := by
  have hspine : ∃ fuel, evalSpine R fuel (global g) args = some w := by
    cases fuel with
    | zero => cases h
    | succ fuel =>
      refine ⟨fuel, ?_⟩
      rcases eq_nil_or_concat args with rfl | ⟨args, a, rfl⟩
      · exact h
      · rw [concat_eq_append, apps_concat, eval, ← apps_concat, unwind_apps,
          append_nil] at h
        rw [concat_eq_append]
        exact h
  obtain ⟨fuel, hspine⟩ := hspine
  cases fuel with
  | zero => cases hspine
  | succ fuel =>
    rw [evalSpine, hg] at hspine
    exact (some.inj hspine).symm

/-! ### Values of developed terms -/

/-- What becomes of a value when the term is developed. -/
structure Tracks (R : Rules) (r r' : Nameless) : Prop where
  rigid : r.Rigid R → Devs R r r'
  loose : r'.Rigid R → r.Rigid R
  stuck : r.isStuck = true → r'.isStuck = true

lemma Rigid.isStuck (h : t.Rigid R) : t.isStuck = false := by
  induction t with
  | app f a ihf _ => exact ihf h
  | lam | case => exact h.elim
  | _ => rfl

lemma Rigid.of_apps (h : (f.apps args).Rigid R) : f.Rigid R := by
  induction args generalizing f with
  | nil => exact h
  | cons a args ih => exact ih (f := .app f a) h

namespace Tracks

lemma refl (r : Nameless) : Tracks R r r := ⟨fun _ => .refl, id, id⟩

lemma trans (h : Tracks R r s) (h' : Tracks R s t) : Tracks R r t where
  rigid hr := (h.rigid hr).trans (h'.rigid ((h.rigid hr).rigid hr))
  loose ht := h.loose (h'.loose ht)
  stuck hr := h'.stuck (h.stuck hr)

lemma of_stuck (hr : r.isStuck = true) (hr' : r'.isStuck = true) : Tracks R r r' where
  rigid h := by
    rw [h.isStuck] at hr
    cases hr
  loose h := by
    rw [h.isStuck] at hr'
    cases hr'
  stuck _ := hr'

lemma apps (hf : Dev R f f') (hargs : Forall₂ (Dev R) args args')
    (hrigid : f'.Rigid R → f.Rigid R) (hstuck : f.isStuck = f'.isStuck) :
    Tracks R (f.apps args) (f'.apps args') where
  rigid _ := .single (hf.apps hargs)
  loose h := Rigid.apps (hrigid h.of_apps) args
  stuck h := by rwa [isStuck_apps, ← hstuck, ← isStuck_apps f args]

lemma inert (hf : Dev R f f') (hargs : Forall₂ (Dev R) args args')
    (hrigid : f'.Rigid R → f.Rigid R) (hstuck : f.isStuck = f'.isStuck)
    (hr : some (f.apps args) = some r) : ∃ r', some (f'.apps args') = some r' ∧ Tracks R r r' := by
  cases hr
  exact ⟨_, rfl, .apps hf hargs hrigid hstuck⟩

end Tracks

/-- What is developed to a constructor form without a step at the head is of that form. -/
lemma Dev.spine_back (hw : w.Rigid R) (h : Dev R w ((global c).apps args')) :
    ∃ args, w = (global c).apps args := by
  induction args' using reverseRecOn generalizing w with
  | nil =>
    generalize hu : (global c).apps [] = u at h
    cases h with
    | global g => exact ⟨[], hu.symm⟩
    | unfold hbody =>
      rw [show R.unfold _ = none from hw] at hbody
      cases hbody
    | beta | erase | select | eta => exact hw.elim
    | _ => cases hu
  | append_singleton args' a ih =>
    rw [apps_concat] at h
    generalize hu : app ((global c).apps args') a = u at h
    cases h with
    | @app f f' b b' hf hb =>
      obtain ⟨rfl, rfl⟩ := app.inj hu
      obtain ⟨args, rfl⟩ := ih (w := f) hw hf
      exact ⟨args ++ [b], (apps_concat _ _ _).symm⟩
    | unfold hbody =>
      rw [show R.unfold _ = none from hw] at hbody
      cases hbody
    | beta | erase | select | eta => exact hw.elim
    | _ => cases hu

lemma Devs.spine_back (hw : w.Rigid R) (h : Devs R w ((global c).apps args')) :
    ∃ args, w = (global c).apps args := by
  generalize hu : (global c).apps args' = u at h
  induction h generalizing args' with
  | refl => exact ⟨args', hu.symm⟩
  | tail hsteps hstep ih =>
    subst hu
    obtain ⟨args, rfl⟩ := hstep.spine_back (Devs.rigid hsteps hw)
    exact ih rfl

/-- A case split selects the same arm. -/
lemma Tracks.select? (h : Tracks R w w') (has : Dev R as as') (harms : as.isArms = true) :
    (select? R w as = none → select? R w' as' = none) ∧
      ∀ t, select? R w as = some t →
        ∃ t', select? R w' as' = some t' ∧ Devs R t t' := by
  obtain ⟨-, harm⟩ := has.arms harms
  constructor
  · intro hnone
    by_contra hsome
    obtain ⟨t', ht'⟩ := ne_none_iff_exists'.1 hsome
    obtain ⟨c, name, p, k, args', body', rfl, hc, harm', hlen, rfl⟩ := select?_eq_some.1 ht'
    -- The other value has the same constructor and as many arguments.
    have hrigid := h.loose (Rigid.apps (f := .global c) (R.rigid hc) args')
    obtain ⟨args, rfl⟩ := (h.rigid hrigid).spine_back hrigid
    obtain ⟨args'', heq, hargs⟩ := (h.rigid hrigid).spine (R.rigid hc)
    obtain ⟨-, rfl⟩ := global_apps_inj heq
    cases hfound : as.arm? name with
    | none =>
      rw [(harm name).1 hfound] at harm'
      cases harm'
    | some found =>
      obtain ⟨body'', hbody'', -⟩ := (harm name).2 found.1 found.2 hfound
      obtain ⟨hk, -⟩ := Prod.mk.inj (some.inj (hbody''.symm.trans harm'))
      have hselect := select?_eq_some.2 ⟨c, name, p, found.1, args, found.2, rfl, hc, hfound,
        by rw [hargs.length_eq, hlen, hk], rfl⟩
      rw [hnone] at hselect
      cases hselect
  · intro t ht
    obtain ⟨c, name, p, k, args, body, rfl, hc, harm', hlen, rfl⟩ := select?_eq_some.1 ht
    obtain ⟨args', rfl, hargs⟩ :=
      (h.rigid (Rigid.apps (f := .global c) (R.rigid hc) args)).spine (R.rigid hc)
    obtain ⟨body', hbody', hdev⟩ := (harm name).2 k body harm'
    exact ⟨_, select?_eq_some.2 ⟨c, name, p, k, args', body', rfl, hc, hbody',
      by rw [← hargs.length_eq, hlen], rfl⟩, (Devs.instantiate (.single hdev) (hargs.fields p))⟩

/-! ### One step of depth -/

/-- What is shown by induction on the depth. -/
structure TracksAt (R : Rules) (fuel : Nat) : Prop where
  term : ∀ {t t' r : Nameless}, Dev R t t' → eval R fuel t = some r →
    ∃ r', eval R fuel t' = some r' ∧ Tracks R r r'
  spine : ∀ {f f' r : Nameless} {args args' : List Nameless}, Dev R f f' →
    Forall₂ (Dev R) args args' → evalSpine R fuel f args = some r →
    ∃ r', evalSpine R fuel f' args' = some r' ∧ Tracks R r r'
  split : ∀ {t t' as as' : Nameless} {o : Option Nameless}, Dev R t t' → Dev R as as' →
    evalCase R fuel t as = some o → ∃ o', evalCase R fuel t' as' = some o' ∧
      (o = none → o' = none) ∧ ∀ u, o = some u → ∃ u', o' = some u' ∧ Devs R u u'

/-- What a case split on a constructor form selects is developed to what a development of the case
split selects. -/
lemma evalCase_ctor (hc : R.ctor c = some (name, p)) (harm : as.arm? name = some (k, body))
    (hlen : args.length = p + k) (hspine : Dev R ((global c).apps args) ((global c).apps args'))
    (hbody : Dev R body body') (ho : evalCase R fuel ((global c).apps args) as = some o) :
    ∃ u, o = some u ∧ Dev R u (body'.instantiate (args'.drop p).reverse) := by
  cases fuel with
  | zero => cases ho
  | succ fuel =>
    obtain ⟨-, w, hw, rfl⟩ := evalCase_eq_some.1 ho
    obtain rfl := eval_global_apps (R.rigid hc) hw
    refine ⟨_, select?_eq_some.2 ⟨c, name, p, k, args, body, rfl, hc, harm, hlen, rfl⟩, ?_⟩
    obtain ⟨args'', heq, hargs⟩ := hspine.spine (R.rigid hc)
    obtain ⟨-, rfl⟩ := global_apps_inj heq
    exact hbody.instantiate (forall₂_reverse_iff.2 (forall₂_drop p hargs))

namespace TracksAt

variable {fuel : Nat} (h : TracksAt R fuel)

include h

lemma terms (ht : Devs R t t') (hr : eval R fuel t = some r) :
    ∃ r', eval R fuel t' = some r' ∧ Tracks R r r' := by
  induction ht with
  | refl => exact ⟨r, hr, .refl r⟩
  | tail _ hstep ih =>
    obtain ⟨s, hs, hrs⟩ := ih
    obtain ⟨r', hr', hsr⟩ := h.term hstep hs
    exact ⟨r', hr', hrs.trans hsr⟩

/-- Several developments, of the head and of the arguments. -/
lemma spines (hf : Devs R f f') (hargs : ListDevs R args args')
    (hr : evalSpine R fuel f args = some r) :
    ∃ r', evalSpine R fuel f' args' = some r' ∧ Tracks R r r' := by
  have hhead : ∃ r', evalSpine R fuel f' args = some r' ∧ Tracks R r r' := by
    induction hf with
    | refl => exact ⟨r, hr, .refl r⟩
    | tail _ hstep ih =>
      obtain ⟨s, hs, hrs⟩ := ih
      obtain ⟨r', hr', hsr⟩ := h.spine hstep (Dev.refl_list args) hs
      exact ⟨r', hr', hrs.trans hsr⟩
  induction hargs with
  | refl => exact hhead
  | tail _ hstep ih =>
    obtain ⟨s, hs, hrs⟩ := ih
    obtain ⟨r', hr', hsr⟩ := h.spine (.refl f') hstep hs
    exact ⟨r', hr', hrs.trans hsr⟩

lemma split_none (ht : Devs R t t') (has : Devs R as as')
    (hnone : evalCase R fuel t as = some none) : evalCase R fuel t' as' = some none := by
  have hscrut : evalCase R fuel t' as = some none := by
    induction ht with
    | refl => exact hnone
    | tail _ hstep ih =>
      obtain ⟨o', ho', hno, -⟩ := h.split hstep (.refl as) ih
      rw [ho', hno rfl]
  induction has with
  | refl => exact hscrut
  | tail _ hstep ih =>
    obtain ⟨o', ho', hno, -⟩ := h.split (.refl t') hstep ih
    rw [ho', hno rfl]

lemma succ_split (ht : Dev R t t') (has : Dev R as as')
    (ho : evalCase R (fuel + 1) t as = some o) :
    ∃ o', evalCase R (fuel + 1) t' as' = some o' ∧
      (o = none → o' = none) ∧ ∀ u, o = some u → ∃ u', o' = some u' ∧ Devs R u u' := by
  obtain ⟨harms, w, hw, rfl⟩ := evalCase_eq_some.1 ho
  obtain ⟨w', hw', htracks⟩ := h.term ht hw
  obtain ⟨hnone, hsome⟩ := htracks.select? has harms
  exact ⟨_, evalCase_eq_some.2 ⟨(has.arms harms).1, w', hw', rfl⟩, hnone, hsome⟩

lemma succ_case (ht : Dev R t t') (has : Dev R as as')
    (hargs : Forall₂ (Dev R) args args')
    (hr : evalSpine R (fuel + 1) (case t as) args = some r) :
    ∃ r', evalSpine R (fuel + 1) (case t' as') args' = some r' ∧ Tracks R r r' := by
  rw [evalSpine] at hr ⊢
  obtain ⟨o, ho, hr⟩ := bind_eq_some_iff.1 hr
  obtain ⟨o', ho', hnone, hsome⟩ := h.split ht has ho
  cases o with
  | some u =>
    obtain ⟨u', rfl, hu⟩ := hsome u rfl
    obtain ⟨r', hr', htracks⟩ := h.spines hu (.single hargs) hr
    exact ⟨r', bind_eq_some_iff.2 ⟨some u', ho', hr'⟩, htracks⟩
  | none =>
    obtain rfl := hnone rfl
    cases hr
    exact ⟨_, bind_eq_some_iff.2 ⟨none, ho', rfl⟩,
      .of_stuck (isStuck_apps _ args) (isStuck_apps _ args')⟩

lemma succ_global (g : Name) (hargs : Forall₂ (Dev R) args args')
    (hr : evalSpine R (fuel + 1) (global g) args = some r) :
    ∃ r', evalSpine R (fuel + 1) (global g) args' = some r' ∧ Tracks R r r' := by
  rw [evalSpine] at hr ⊢
  cases hbody : R.unfold g with
  | none =>
    rw [hbody] at hr
    exact Tracks.inert (.global g) hargs id rfl hr
  | some body =>
    rw [hbody] at hr
    have hfolded : ∀ xs, ¬ ((global g).apps xs).Rigid R := fun xs hrigid => by
      rw [show R.unfold g = none from hrigid.of_apps] at hbody
      cases hbody
    obtain ⟨u, hu, hr⟩ := bind_eq_some_iff.1 hr
    obtain ⟨u', hu', htracks⟩ := h.spine (.refl body) hargs hu
    refine ⟨if u'.isStuck then (global g).apps args' else u',
      bind_eq_some_iff.2 ⟨u', hu', by split <;> rfl⟩, ?_⟩
    cases hstuck : u.isStuck with
    | true =>
      rw [hstuck] at hr
      cases hr
      rw [if_pos (htracks.stuck hstuck)]
      exact .apps (.global g) hargs id rfl
    | false =>
      rw [hstuck] at hr
      obtain rfl := some.inj hr
      split
      · -- The value is a folded application: of another function before, of this one now.
        next hstuck' =>
        have hloose : ¬ u.Rigid R := fun hrigid => by
          rw [((htracks.rigid hrigid).rigid hrigid).isStuck] at hstuck'
          cases hstuck'
        exact ⟨fun hrigid => (hloose hrigid).elim, fun hrigid => (hfolded _ hrigid).elim,
          fun htrue => by rw [hstuck] at htrue; cases htrue⟩
      · exact htracks

lemma succ_unfold (hbody : R.unfold g = some body)
    (hargs : Forall₂ (Dev R) args args')
    (hr : evalSpine R (fuel + 1) (global g) args = some r) :
    ∃ r', evalSpine R (fuel + 1) body args' = some r' ∧ Tracks R r r' := by
  rw [evalSpine, hbody] at hr
  obtain ⟨u, hu, hr⟩ := bind_eq_some_iff.1 hr
  obtain ⟨u', hu', htracks⟩ := h.spine (.refl body) hargs hu
  refine ⟨u', evalSpine_succ fuel hu', ?_⟩
  split at hr
  next hstuck =>
    -- The application stays folded, and the unfolded one is stuck: neither is rigid.
    cases hr
    have hstuck' := htracks.stuck hstuck
    refine ⟨fun hrigid => ?_, fun hrigid => ?_, fun _ => hstuck'⟩
    · rw [show R.unfold g = none from hrigid.of_apps] at hbody
      cases hbody
    · rw [hrigid.isStuck] at hstuck'
      cases hstuck'
  next =>
    cases hr
    exact htracks

lemma apps (hw : Dev R (f.apps args) w) (hrest : Forall₂ (Dev R) rest rest')
    (hr : evalSpine R fuel f (args ++ rest) = some r) :
    ∃ g xs r', w = g.apps xs ∧ evalSpine R fuel g (xs ++ rest') = some r' ∧ Tracks R r r' := by
  rcases hw.apps_cases with ⟨f', args', rfl, hf, hargs⟩ |
    ⟨a, b, b', x, x', xs, xs', rfl, rfl, rfl, hb, hx, hxs⟩
  · obtain ⟨r', hr', htracks⟩ := h.spine hf (rel_append hargs hrest) hr
    exact ⟨f', args', r', rfl, hr', htracks⟩
  · cases fuel with
    | zero => cases hr
    | succ fuel =>
      -- The literal takes its argument on the left as well, which costs a step of depth there.
      have hbeta : evalSpine R fuel (b.instantiate [x]) (xs ++ rest) = some r := hr
      obtain ⟨r', hr', htracks⟩ := h.spine (hb.instantiate (.cons hx .nil))
        (rel_append hxs hrest) (evalSpine_succ fuel hbeta)
      exact ⟨_, xs', r', rfl, hr', htracks⟩

lemma succ_app (hw : Dev R (app f a) w)
    (hargs : Forall₂ (Dev R) args args')
    (hr : evalSpine R (fuel + 1) (app f a) args = some r) :
    ∃ r', evalSpine R (fuel + 1) w args' = some r' ∧ Tracks R r r' := by
  rw [evalSpine, ← nil_append args, unwind_append] at hr
  rw [← show _ = app f a from apps_unwind (app f a) []] at hw
  obtain ⟨g, xs, r', rfl, hr', htracks⟩ := h.apps hw hargs hr
  exact ⟨r', evalSpine_apps hr', htracks⟩

lemma succ_term_app (hw : Dev R (app f a) w)
    (hr : eval R (fuel + 1) (app f a) = some r) :
    ∃ r', eval R (fuel + 1) w = some r' ∧ Tracks R r r' := by
  rw [eval, ← append_nil ((app f a).unwind []).2] at hr
  rw [← show _ = app f a from apps_unwind (app f a) []] at hw
  obtain ⟨g, xs, r', rfl, hr', htracks⟩ := h.apps hw .nil hr
  rw [append_nil] at hr'
  exact ⟨r', eval_apps hr', htracks⟩

lemma succ_spine (hf : Dev R f f') (hargs : Forall₂ (Dev R) args args')
    (hr : evalSpine R (fuel + 1) f args = some r) :
    ∃ r', evalSpine R (fuel + 1) f' args' = some r' ∧ Tracks R r r' := by
  cases hf with
  | global g => exact h.succ_global g hargs hr
  | unfold hbody => exact h.succ_unfold hbody hargs hr
  | app hf ha => exact h.succ_app (.app hf ha) hargs hr
  | beta a hb hx => exact h.succ_app (.beta a hb hx) hargs hr
  | ann ht _ => exact h.spine ht hargs hr
  | erase a ht =>
    obtain ⟨r', hr', htracks⟩ := h.spine ht hargs hr
    exact ⟨r', evalSpine_succ fuel hr', htracks⟩
  | case ht has => exact h.succ_case ht has hargs hr
  | select hc ht harm hlen hspine hbody =>
    subst ht
    rw [evalSpine] at hr
    obtain ⟨o, ho, hr⟩ := bind_eq_some_iff.1 hr
    obtain ⟨u, rfl, hu⟩ := evalCase_ctor hc harm hlen hspine hbody ho
    obtain ⟨r', hr', htracks⟩ := h.spine hu hargs hr
    exact ⟨r', evalSpine_succ fuel hr', htracks⟩
  | @lam a a' b b' ha hb =>
    cases hargs with
    | nil =>
      cases hr
      exact ⟨_, rfl, .of_stuck rfl rfl⟩
    | cons hx hargs => exact h.spine (hb.instantiate (.cons hx .nil)) hargs hr
  | univ => exact Tracks.inert .univ hargs id rfl hr
  | bound i => exact Tracks.inert (.bound i) hargs id rfl hr
  | free v => exact Tracks.inert (.free v) hargs id rfl hr
  | pi ha hb => exact Tracks.inert (.pi ha hb) hargs id rfl hr
  | absurd ht => exact Tracks.inert (.absurd ht) hargs id rfl hr
  | stop => exact Tracks.inert .stop hargs id rfl hr
  | arm c k hb hrest => exact Tracks.inert (.arm c k hb hrest) hargs id rfl hr
  | forget _ _ hl | eta _ _ _ hl => cases hl

lemma succ_term (ht : Dev R t t') (hr : eval R (fuel + 1) t = some r) :
    ∃ r', eval R (fuel + 1) t' = some r' ∧ Tracks R r r' := by
  cases ht with
  | global g => exact h.spine (.global g) .nil hr
  | unfold hbody =>
    obtain ⟨r', hr', htracks⟩ := h.spine (.unfold hbody) .nil hr
    exact ⟨r', eval_apps hr', htracks⟩
  | app hf ha => exact h.succ_term_app (.app hf ha) hr
  | beta a hb hx => exact h.succ_term_app (.beta a hb hx) hr
  | ann ht _ => exact h.term ht hr
  | erase a ht =>
    obtain ⟨r', hr', htracks⟩ := h.term ht hr
    exact ⟨r', eval_succ fuel hr', htracks⟩
  | @case s s' as as' ht has =>
    rw [eval] at hr ⊢
    obtain ⟨o, ho, hr⟩ := bind_eq_some_iff.1 hr
    obtain ⟨o', ho', hnone, hsome⟩ := h.split ht has ho
    cases o with
    | some u =>
      obtain ⟨u', rfl, hu⟩ := hsome u rfl
      obtain ⟨r', hr', htracks⟩ := h.terms hu hr
      exact ⟨r', bind_eq_some_iff.2 ⟨some u', ho', hr'⟩, htracks⟩
    | none =>
      obtain rfl := hnone rfl
      cases hr
      exact ⟨_, bind_eq_some_iff.2 ⟨none, ho', rfl⟩, .of_stuck rfl rfl⟩
  | select hc ht harm hlen hspine hbody =>
    subst ht
    rw [eval] at hr
    obtain ⟨o, ho, hr⟩ := bind_eq_some_iff.1 hr
    obtain ⟨u, rfl, hu⟩ := evalCase_ctor hc harm hlen hspine hbody ho
    obtain ⟨r', hr', htracks⟩ := h.term hu hr
    exact ⟨r', eval_succ fuel hr', htracks⟩
  | lam ha hb =>
    cases hr
    exact ⟨_, rfl, .of_stuck rfl rfl⟩
  | univ | bound | free | stop =>
    cases hr
    exact ⟨_, rfl, .refl _⟩
  | pi ha hb => exact Tracks.inert (.pi ha hb) .nil id rfl hr
  | absurd ht => exact Tracks.inert (.absurd ht) .nil id rfl hr
  | arm c k hb hrest => exact Tracks.inert (.arm c k hb hrest) .nil id rfl hr
  | forget _ _ hl | eta _ _ _ hl => cases hl

end TracksAt

/-- A development is evaluated to the same depth. -/
lemma tracksAt (R : Rules) (fuel : Nat) : TracksAt R fuel := by
  induction fuel with
  | zero => exact ⟨nofun, nofun, nofun⟩
  | succ fuel ih => exact ⟨ih.succ_term, ih.succ_spine, ih.succ_split⟩

/-! ### Terms at rest -/

/-- The parts of a term are developed, and its head is kept. -/
inductive Inside (R : Rules) : Nameless → Nameless → Prop
  | univ : Inside R univ univ
  | free (v : Var) : Inside R (free v) (free v)
  | global (g : Name) : Inside R (global g) (global g)
  | pi {a a' b b' : Nameless} : Devs R a a' → Devs R b b' → Inside R (pi a b) (pi a' b')
  | lam {a a' b b' : Nameless} : Devs R a a' → Devs R b b' → Inside R (lam a b) (lam a' b')
  | app {f f' a a' : Nameless} : Inside R f f' → Devs R a a' → Inside R (app f a) (app f' a')
  | case {t t' as as' : Nameless} : Devs R t t' → Devs R as as' →
      Inside R (case t as) (case t' as')
  | absurd {t t' : Nameless} : Devs R t t' → Inside R (absurd t) (absurd t')

namespace Inside

lemma devs (h : Inside R t t') : Devs R t t' := by
  induction h with
  | univ | free | global => exact .refl
  | pi ha hb => exact .pi ha hb
  | lam ha hb => exact .lam ha hb
  | app _ ha ihf => exact .app ihf ha
  | case ht has => exact .case ht has
  | absurd ht => exact .absurd ht

lemma unwind (h : Inside R t t') (hargs : ListDevs R args args') :
    Inside R (t.unwind args).1 (t'.unwind args').1 ∧
      ListDevs R (t.unwind args).2 (t'.unwind args').2 := by
  induction h generalizing args args' with
  | univ => exact ⟨.univ, hargs⟩
  | free v => exact ⟨.free v, hargs⟩
  | global g => exact ⟨.global g, hargs⟩
  | pi ha hb => exact ⟨.pi ha hb, hargs⟩
  | lam ha hb => exact ⟨.lam ha hb, hargs⟩
  | app _ ha ihf => exact ihf (.cons ha hargs)
  | case ht has => exact ⟨.case ht has, hargs⟩
  | absurd ht => exact ⟨.absurd ht, hargs⟩

variable {fuel : Nat}

lemma restsSpine (h : RestsSpine R fuel f args) (hf : Inside R f f')
    (hargs : ListDevs R args args') : RestsSpine R fuel f' args' := by
  cases fuel with
  | zero => exact h.elim
  | succ fuel =>
    cases hf with
    | univ | free | pi | absurd => trivial
    | app => exact h
    | lam =>
      obtain rfl : args = [] := h
      exact length_eq_zero_iff.1 hargs.length_eq.symm
    | case ht has => exact (tracksAt R fuel).split_none ht has h
    | global g =>
      intro body hbody
      obtain ⟨u, hu, hstuck⟩ := h body hbody
      obtain ⟨u', hu', htracks⟩ := (tracksAt R fuel).spines .refl hargs hu
      exact ⟨u', hu', htracks.stuck hstuck⟩

/-- A term at rest stays so when its parts are developed. -/
lemma rests (h : Rests R fuel t) (ht : Inside R t t') : Rests R fuel t' := by
  cases fuel with
  | zero => exact h.elim
  | succ fuel =>
    cases ht with
    | univ | free | pi | lam | absurd => trivial
    | global g => exact h
    | case hs has => exact (tracksAt R fuel).split_none hs has h
    | app hf ha =>
      have hnil : ListDevs R [] [] := .refl
      obtain ⟨hhead, hargs⟩ := (Inside.app hf ha).unwind hnil
      exact restsSpine h hhead hargs

end Inside

end Clausal.Nameless
