import Clausal.Proofs.Nameless.Parallel

/-!
# Confluence

Everything that one parallel step leads to has a common reduct: the term in
which all redexes are contracted.  The delicate case is a literal that only
passes on its argument, since the application below the binder may be a redex too.
-/

namespace Clausal.Nameless

open List

variable {l : Bool} {arms body : Nameless}

/-! ### Steps of renamed terms -/

namespace Contract

/-- A step mentions nothing new: a filling that leaves the term alone leaves its reduct alone. -/
lemma fill_eq_self (h : Contract l R t u) (hs : t.fill s = t) : u.fill s = u := by
  induction h generalizing s with
  | univ | bound | free | global | stop => exact hs
  | pi _ _ iha ihb =>
    obtain ⟨ha, hb⟩ := pi.inj hs
    rw [fill, iha ha, ihb hb]
  | lam _ _ iha ihb =>
    obtain ⟨ha, hb⟩ := lam.inj hs
    rw [fill, iha ha, ihb hb]
  | app _ _ ihf iha =>
    obtain ⟨hf, ha⟩ := app.inj hs
    rw [fill, ihf hf, iha ha]
  | ann _ _ iht iha =>
    obtain ⟨ht, ha⟩ := ann.inj hs
    rw [fill, iht ht, iha ha]
  | case _ _ iht ihas =>
    obtain ⟨ht, has⟩ := case.inj hs
    rw [fill, iht ht, ihas has]
  | absurd _ iht => rw [fill, iht (absurd.inj hs)]
  | arm c k _ _ ihb ihr =>
    obtain ⟨-, -, hb, hr⟩ := arm.inj hs
    rw [fill, ihb hb, ihr hr]
  | beta a _ _ ihb ihx =>
    obtain ⟨hf, hx⟩ := app.inj hs
    rw [fill_instantiate, map_cons, map_nil, ihx hx, length_singleton,
      ihb (lam.inj hf).2]
  | forget a _ _ ihb => exact congrArg (Nameless.lam .univ) (ihb (lam.inj hs).2)
  | erase a _ iht => exact iht (ann.inj hs).1
  | unfold hbody => exact R.closed hbody s
  | select hc ht harm hlen hspine _ ihspine ihbody =>
    subst ht
    obtain ⟨hscrut, has⟩ := case.inj hs
    have hargs := ihspine hscrut
    rw [fill_apps] at hargs
    have hbody := arm?_fill _ _ s harm
    rw [has, harm, Option.some.injEq, Prod.mk.injEq] at hbody
    rw [fill_instantiate, fields_length hc hlen hspine, map_reverse, map_drop,
      (global_apps_inj hargs).2, ihbody hbody.2.symm]
  | eta a hf _ _ iht =>
    subst hf
    have ht := (app.inj (lam.inj hs).2).1
    rw [shift_fill_under] at ht
    exact iht (shift_inj ht)

/-- A step of a renamed term is a renamed step, if a filling takes the renaming back. -/
lemma of_rename (hd : ∀ t : Nameless, (t.rename ρ).fill d = t) (h : Contract l R (t.rename ρ) u) :
    ∃ u₀, u = u₀.rename ρ ∧ Contract l R t u₀ := by
  have hself : (t.rename ρ).fill (d.rename ρ) = t.rename ρ := by rw [← rename_fill, hd]
  refine ⟨u.fill d, ?_, ?_⟩
  · rw [rename_fill, h.fill_eq_self hself]
  · have hstep := h.fill (s := d) ⟨fun _ => .refl _, fun _ => .refl _⟩
    rwa [hd] at hstep

lemma of_shift (h : Contract l R (t.shift 1) u) : ∃ u₀, u = u₀.shift 1 ∧ Contract l R t u₀ :=
  h.of_rename fun t => shift_instantiate t [.univ]

end Contract

/-- A common reduct of everything that one step leads to. -/
def Dominated (R : Rules) (t w : Nameless) : Prop := ∀ u, Par R t u → Par R u w

lemma Par.lam_dom (h : Par R (.lam .univ b) w) : Par R (.lam a b) w := by
  cases h with
  | lam ha hb =>
    cases ha
    exact .forget a hb rfl
  | forget _ hb => exact .forget a hb rfl
  | eta _ hf ht => exact .eta a hf ht rfl

/-- The delicate case: the function itself dominates the literal around it. -/
lemma Dominated.eta (h : Dominated R t w) (a : Nameless) :
    Dominated R (.lam a (.app (t.shift 1) (.bound 0))) w := by
  -- a literal that passes on its argument steps to a literal or to the function itself
  have hbody : ∀ {b' a' : Nameless}, Par R (.app (t.shift 1) (.bound 0)) b' →
      Par R (.lam a' b') w := by
    intro b' a' hb
    generalize hf : t.shift 1 = f at hb
    cases hb with
    | app hhead harg =>
      subst hf
      cases harg
      obtain ⟨t', rfl, ht'⟩ := hhead.of_shift
      exact .eta _ rfl (h t' ht') rfl
    | beta c hb hx =>
      cases hx
      cases t <;> simp [shift, rename] at hf
      next c₀ d₀ =>
        rw [← hf.2] at hb
        obtain ⟨d', rfl, hd'⟩ := hb.of_rename rename_instantiate_bound
        rw [rename_instantiate_bound]
        exact (h _ (.forget c₀ hd' rfl)).lam_dom
  intro u hu
  cases hu with
  | lam ha hb | forget _ hb => exact hbody hb
  | eta _ hf ht =>
    rw [app.injEq] at hf
    rw [← shift_inj hf.1] at ht
    exact h _ ht

/-- The size of a term, for inductions that pass to subterms of any kind. -/
def size : Nameless → Nat
  | univ | bound _ | free _ | global _ | stop => 1
  | pi a b | lam a b | app a b | ann a b | case a b => a.size + b.size + 1
  | absurd a => a.size + 1
  | arm _ _ b r => b.size + r.size + 1

lemma size_rename (t : Nameless) (ρ : Nat → Nat) : (t.rename ρ).size = t.size := by
  induction t generalizing ρ with
  | _ => simp_all [rename, size]

lemma size_of_arm? (h : arms.arm? name = some (k, body)) : body.size < arms.size := by
  induction arms with
  | arm c j b r _ ihr =>
    simp only [arm?] at h
    split at h
    · obtain ⟨rfl, rfl⟩ := h
      simp only [size]
      omega
    · have := ihr h
      simp only [size]
      omega
  | _ => simp [arm?] at h

lemma size_of_mem_args {head : Nameless} (h : a ∈ args) : a.size < (head.apps args).size := by
  induction args using reverseRecOn with
  | nil => simp at h
  | append_singleton args b ih =>
    rw [apps_concat]
    simp only [size]
    rcases mem_append.1 h with h | h
    · have := ih h
      omega
    · have : a = b := by simpa using h
      subst this
      omega

/-- A case split whose scrutinee is a constructor with as many fields as its arm binds. -/
def IsSelection (R : Rules) (t as : Nameless) : Prop :=
  ∃ c name p k args body, R.ctor c = some (name, p) ∧ t = (global c).apps args ∧
    as.arm? name = some (k, body) ∧ args.length = p + k

lemma Contract.arm? (h : Contract l R as as') (harm : as.arm? name = some (k, body)) :
    ∃ body', as'.arm? name = some (k, body') ∧ Contract l R body body' := by
  induction h with
  | arm c j hb _ _ ihr =>
    simp only [Nameless.arm?] at harm ⊢
    split at harm
    · next hc =>
        obtain ⟨rfl, rfl⟩ := harm
        exact ⟨_, by rw [if_pos hc], hb⟩
    · next hc =>
        rw [if_neg hc]
        exact ihr harm
  | _ => simp [Nameless.arm?] at harm

lemma Dominated.args {args : List Nameless} (h : ∀ a ∈ args, ∃ w, Dominated R a w) :
    ∃ ws, ∀ args', Forall₂ (Par R) args args' → Forall₂ (Par R) args' ws := by
  induction args with
  | nil =>
    refine ⟨[], fun args' hargs => ?_⟩
    cases hargs
    exact .nil
  | cons a args ih =>
    obtain ⟨w, hw⟩ := h a (by simp)
    obtain ⟨ws, hws⟩ := ih fun b hb => h b (by simp [hb])
    refine ⟨w :: ws, fun args' hargs => ?_⟩
    cases hargs with
    | cons ha hrest => exact .cons (hw _ ha) (hws _ hrest)

lemma Dominated.beta (hb : Dominated R b wb) (hx : Dominated R x wx) (a : Nameless) :
    Dominated R (.app (.lam a b) x) (wb.instantiate [wx]) := by
  intro u hu
  cases hu with
  | beta _ hb' hx' => exact (hb _ hb').instantiate (.cons (hx _ hx') .nil)
  | app hf hx' =>
    cases hf with
    | lam _ hb' | forget _ hb' => exact .beta _ (hb _ hb') (hx _ hx')
    | eta _ heq ht =>
      -- the literal passed on its argument, so its body steps to the function applied to it
      subst heq
      have hstep := hb _ (.app (ht.rename _) (.bound 0))
      have hinst := hstep.instantiate (.cons (hx _ hx') .nil)
      rwa [← shift, eta_instantiate] at hinst

/-- The arm that is selected dominates the split. -/
lemma Dominated.selection {R : Rules} (h : IsSelection R t as)
    (hargs : ∀ {head : Nameless} {args}, t = head.apps args → ∀ a ∈ args, ∃ w, Dominated R a w)
    (hbody : ∀ {name k body}, as.arm? name = some (k, body) → ∃ w, Dominated R body w) :
    ∃ w, Dominated R (.case t as) w := by
  obtain ⟨c, name, p, k, args, body, hc, rfl, harm, hlen⟩ := h
  obtain ⟨ws, hws⟩ := Dominated.args (hargs rfl)
  obtain ⟨wb, hwb⟩ := hbody harm
  refine ⟨wb.instantiate (ws.drop p).reverse, fun u hu => ?_⟩
  generalize ht : (global c).apps args = t at hu
  cases hu with
  | case hscrut has =>
    subst ht
    obtain ⟨args', rfl, hargs'⟩ := hscrut.spine (R.rigid hc)
    obtain ⟨body', harm', hbody'⟩ := has.arm? harm
    refine .select hc rfl harm' ?_ (.apps (.global c) (hws _ hargs')) (hwb _ hbody')
    rw [← hargs'.length_eq, hlen]
  | select hc' ht' harm' hlen' hspine hbody' =>
    subst ht
    obtain ⟨rfl, rfl⟩ := global_apps_inj ht'
    obtain ⟨rfl, rfl⟩ : name = _ ∧ p = _ := by simpa [hc] using hc'
    obtain ⟨rfl, rfl⟩ : k = _ ∧ body = _ := by simpa [harm] using harm'
    have hfields := hws _ (hspine.spine_args (R.rigid hc))
    exact (hwb _ hbody').instantiate (rel_reverse (forall₂_drop p hfields))

/-- Everything that one step leads to has a common reduct. -/
lemma exists_dominated (R : Rules) (t : Nameless) : ∃ w, Dominated R t w := by
  induction hn : t.size using Nat.strongRecOn generalizing t with
  | ind n ih =>
    subst hn
    replace ih : ∀ u : Nameless, u.size < t.size → ∃ w, Dominated R u w :=
      fun u hu => ih u.size hu u rfl
    cases t with
    | univ => exact ⟨.univ, fun u hu => by cases hu; exact .univ⟩
    | bound i => exact ⟨.bound i, fun u hu => by cases hu; exact .bound i⟩
    | free v => exact ⟨.free v, fun u hu => by cases hu; exact .free v⟩
    | stop => exact ⟨.stop, fun u hu => by cases hu; exact .stop⟩
    | global g =>
      cases hg : R.unfold g with
      | none =>
        refine ⟨.global g, fun u hu => ?_⟩
        cases hu with
        | global => exact .global g
        | unfold hbody => simp [hg] at hbody
      | some body =>
        refine ⟨body, fun u hu => ?_⟩
        cases hu with
        | global => exact .unfold hg
        | unfold hbody =>
          obtain rfl : body = _ := by simpa [hg] using hbody
          exact .refl body
    | pi a b =>
      obtain ⟨wa, ha⟩ := ih a (by simp only [size]; omega)
      obtain ⟨wb, hb⟩ := ih b (by simp only [size]; omega)
      refine ⟨.pi wa wb, fun u hu => ?_⟩
      cases hu with
      | pi ha' hb' => exact .pi (ha _ ha') (hb _ hb')
    | absurd t =>
      obtain ⟨w, hw⟩ := ih t (by simp only [size]; omega)
      refine ⟨.absurd w, fun u hu => ?_⟩
      cases hu with
      | absurd ht => exact .absurd (hw _ ht)
    | arm c k b r =>
      obtain ⟨wb, hb⟩ := ih b (by simp only [size]; omega)
      obtain ⟨wr, hr⟩ := ih r (by simp only [size]; omega)
      refine ⟨.arm c k wb wr, fun u hu => ?_⟩
      cases hu with
      | arm _ _ hb' hr' => exact .arm c k (hb _ hb') (hr _ hr')
    | ann t a =>
      obtain ⟨w, hw⟩ := ih t (by simp only [size]; omega)
      refine ⟨w, fun u hu => ?_⟩
      cases hu with
      | ann ht _ => exact .erase _ (hw _ ht)
      | erase _ ht => exact hw _ ht
    | lam a b =>
      by_cases heta : ∃ t : Nameless, b = .app (t.shift 1) (.bound 0)
      · obtain ⟨t, rfl⟩ := heta
        have hsize : (t.shift 1).size = t.size := size_rename t _
        obtain ⟨w, hw⟩ := ih t (by simp only [size, hsize]; omega)
        exact ⟨w, hw.eta a⟩
      · obtain ⟨wb, hb⟩ := ih b (by simp only [size]; omega)
        refine ⟨.lam .univ wb, fun u hu => ?_⟩
        cases hu with
        | lam _ hb' | forget _ hb' => exact .forget _ (hb _ hb') rfl
        | eta _ hf _ => exact (heta ⟨_, hf⟩).elim
    | app f x =>
      obtain ⟨wx, hx⟩ := ih x (by simp only [size]; omega)
      by_cases hlam : ∃ a b, f = .lam a b
      · obtain ⟨a, b, rfl⟩ := hlam
        obtain ⟨wb, hb⟩ := ih b (by simp only [size]; omega)
        exact ⟨_, hb.beta hx a⟩
      · obtain ⟨wf, hf⟩ := ih f (by simp only [size]; omega)
        refine ⟨.app wf wx, fun u hu => ?_⟩
        cases hu with
        | app hf' hx' => exact .app (hf _ hf') (hx _ hx')
        | beta => exact (hlam ⟨_, _, rfl⟩).elim
    | case t as =>
      by_cases hsel : IsSelection R t as
      · refine Dominated.selection hsel (fun ht a ha => ih a ?_) (fun harm => ih _ ?_)
        · have hlt : a.size < t.size := by
            rw [ht]
            exact size_of_mem_args ha
          simp only [size]
          omega
        · have := size_of_arm? harm
          simp only [size]
          omega
      · obtain ⟨wt, ht⟩ := ih t (by simp only [size]; omega)
        obtain ⟨was, has⟩ := ih as (by simp only [size]; omega)
        refine ⟨.case wt was, fun u hu => ?_⟩
        cases hu with
        | case ht' has' => exact .case (ht _ ht') (has _ has')
        | select hc heq harm hlen _ _ => exact (hsel ⟨_, _, _, _, _, _, hc, heq, harm, hlen⟩).elim

end Clausal.Nameless
