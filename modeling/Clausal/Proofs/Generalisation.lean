import Clausal.Goal.CaseSplit
import Clausal.Proofs.Principle
import Clausal.Proofs.Unifier
import Mathlib.Data.List.Zip

/-!
# Generalised goals

Hypotheses that depend on an argument are put in front of a goal, arguments that are
no variables are replaced wherever they stand, and variables are substituted in the
end.  Each of the three can be undone, unless a binder of the goal binds a variable
of an argument.
-/

namespace Clausal

open Assignment List Option Subst Telescope

variable {Γ : Telescope} {e : Var × Term} {S : Reach} {t body : Term} (abstracted : List Var)

/-! ### Replacing a term -/

mutual

/-- No binder of the term is one of these variables. -/
def Term.BindsNone (V : Var → Prop) : Term → Prop
  | .univ | .var _ | .global _ => True
  | .pi v a b | .lam v a b => ¬ V v ∧ a.BindsNone V ∧ b.BindsNone V
  | .app a b | .ann a b => a.BindsNone V ∧ b.BindsNone V
  | .case scrut branches => scrut.BindsNone V ∧ branches.BindsNone V
  | .absurd scrut => scrut.BindsNone V

def Branches.BindsNone (V : Var → Prop) : Branches → Prop
  | .nil => True
  | .cons _ fields body rest => (∀ v ∈ fields, ¬ V v) ∧ body.BindsNone V ∧ rest.BindsNone V

end

mutual

lemma Term.BindsNone.mono (h : ∀ x, W x → V x) : {t : Term} → t.BindsNone V → t.BindsNone W
  | .univ, _ | .var _, _ | .global _, _ => trivial
  | .pi v _ _, ht | .lam v _ _, ht => ⟨fun hv => ht.1 (h v hv), ht.2.1.mono h, ht.2.2.mono h⟩
  | .app _ _, ht | .ann _ _, ht | .case _ _, ht => ⟨ht.1.mono h, ht.2.mono h⟩
  | .absurd scrut, ht => Term.BindsNone.mono (t := scrut) h ht

lemma Branches.BindsNone.mono (h : ∀ x, W x → V x) :
    {bs : Branches} → bs.BindsNone V → bs.BindsNone W
  | .nil, _ => trivial
  | .cons _ _ _ _, hb => ⟨fun v hv hW => hb.1 v hv (h v hW), hb.2.1.mono h, hb.2.2.mono h⟩

end

mutual

lemma Term.BindsNone.or : {t : Term} → t.BindsNone V → t.BindsNone W →
    t.BindsNone fun x => V x ∨ W x
  | .univ, _, _ | .var _, _, _ | .global _, _, _ => trivial
  | .pi _ _ _, hV, hW | .lam _ _ _, hV, hW =>
    ⟨not_or.2 ⟨hV.1, hW.1⟩, hV.2.1.or hW.2.1, hV.2.2.or hW.2.2⟩
  | .app _ _, hV, hW | .ann _ _, hV, hW | .case _ _, hV, hW => ⟨hV.1.or hW.1, hV.2.or hW.2⟩
  | .absurd scrut, hV, hW => Term.BindsNone.or (t := scrut) hV hW

lemma Branches.BindsNone.or : {bs : Branches} → bs.BindsNone V →
    bs.BindsNone W → bs.BindsNone fun x => V x ∨ W x
  | .nil, _, _ => trivial
  | .cons _ _ _ _, hV, hW =>
    ⟨fun v hv => not_or.2 ⟨hV.1 v hv, hW.1 v hv⟩, hV.2.1.or hW.2.1, hV.2.2.or hW.2.2⟩

end

section Replace

variable {arg : Term}

mutual

lemma Term.BindsNone.abstract {t : Term} (ht : t.BindsNone V) :
    (t.abstract arg (.var p)).BindsNone V := by
  unfold Term.abstract
  split
  · trivial
  · match t, ht with
    | .univ, _ | .var _, _ | .global _, _ => trivial
    | .pi _ _ _, ht | .lam _ _ _, ht => exact ⟨ht.1, ht.2.1.abstract, ht.2.2.abstract⟩
    | .app _ _, ht | .ann _ _, ht | .case _ _, ht => exact ⟨ht.1.abstract, ht.2.abstract⟩
    | .absurd a, ht => exact Term.BindsNone.abstract (t := a) ht

lemma Branches.BindsNone.abstract :
    {bs : Branches} → bs.BindsNone V → (bs.abstract arg (.var p)).BindsNone V
  | .nil, _ => trivial
  | .cons _ _ _ _, hb => ⟨hb.1, Term.BindsNone.abstract hb.2.1, Branches.BindsNone.abstract hb.2.2⟩

end

mutual

lemma Term.Over.abstract {S : Reach} (hp : S.vars p) {t : Term} (ht : t.Over S) :
    (t.abstract arg (.var p)).Over S := by
  unfold Term.abstract
  split
  · exact hp
  · match t, ht with
    | .univ, ht | .var _, ht | .global _, ht => exact ht
    | .pi v _ _, ht | .lam v _ _, ht =>
      exact ⟨ht.1.abstract hp, Term.Over.abstract (S := S.bind [v]) (.inr hp) ht.2⟩
    | .app _ _, ht | .ann _ _, ht => exact ⟨ht.1.abstract hp, ht.2.abstract hp⟩
    | .case _ _, ht => exact ⟨ht.1, ht.2.1.abstract hp, ht.2.2.abstract hp⟩
    | .absurd a, ht => exact Term.Over.abstract (t := a) hp ht

lemma Branches.Over.abstract {S : Reach} (hp : S.vars p) :
    {bs : Branches} → bs.Over S → (bs.abstract arg (.var p)).Over S
  | .nil, _ => trivial
  | .cons _ fields _ _, hb =>
    ⟨Term.Over.abstract (S := S.bind fields) (.inr hp) hb.1, Branches.Over.abstract hp hb.2⟩

end

/-- A parameter that stands for an argument below some binders does so below more, if
these bind nothing of the argument. -/
lemma Term.fill_under_bind (h : (p.locate stack).fill s = (arg.nameless stack).fill s)
    (vs : List Var) (hvs : ∀ v ∈ vs, ¬ (arg.occurs v = true ∨ v = p)) :
    (p.locate (vs.reverse ++ stack)).fill (s.under vs.length) =
      (arg.nameless (vs.reverse ++ stack)).fill (s.under vs.length) := by
  have harg : arg.Over { vars := fun x => arg.occurs x = true } :=
    Term.over_iff_occurs.2 fun _ h => h
  induction vs generalizing stack s with
  | nil => rwa [length_nil, Filling.under_zero]
  | cons v vs ih =>
    obtain ⟨hv, hvs⟩ := forall_mem_cons.1 hvs
    have hone : (p.locate (v :: stack)).fill (s.under 1) =
        (arg.nameless (v :: stack)).fill (s.under 1) := by
      rw [Var.locate_cons_ne fun hp => hv (.inr hp),
        arg.nameless_cons harg (fun hoccurs => hv (.inl hoccurs)), Nameless.shift_fill_under,
        Nameless.shift_fill_under, h]
    have hall := ih hone hvs
    rw [Filling.under_under] at hall
    simpa [Nat.add_comm] using hall

mutual

/-- Putting an argument back for its parameter undoes the replacement, where no binder
binds a variable of the argument. -/
lemma Term.fill_abstract {t : Term} (ht : t.BindsNone fun v => arg.occurs v = true ∨ v = p)
    (hs : (p.locate stack).fill s = (arg.nameless stack).fill s) :
    ((t.abstract arg (.var p)).nameless stack).fill s = (t.nameless stack).fill s := by
  unfold Term.abstract
  split
  · next heq => exact hs.trans (by rw [Term.nameless_eq_of_alphaEq heq])
  · match t, ht with
    | .univ, _ | .var _, _ | .global _, _ => rfl
    | .pi v a b, ht | .lam v a b, ht =>
      have hbind : (p.locate (v :: stack)).fill (s.under 1) =
          (arg.nameless (v :: stack)).fill (s.under 1) :=
        Term.fill_under_bind hs [v] (by simpa using ht.1)
      simp only [Term.nameless, Nameless.fill]
      rw [Term.fill_abstract ht.2.1 hs, Term.fill_abstract ht.2.2 hbind]
    | .app a b, ht | .ann a b, ht =>
      simp only [Term.nameless, Nameless.fill]
      rw [Term.fill_abstract ht.1 hs, Term.fill_abstract ht.2 hs]
    | .case a bs, ht =>
      simp only [Term.nameless, Nameless.fill]
      rw [Term.fill_abstract ht.1 hs, Branches.fill_abstract ht.2 hs]
    | .absurd a, ht =>
      simp only [Term.nameless, Nameless.fill]
      rw [Term.fill_abstract (t := a) ht hs]

lemma Branches.fill_abstract : {bs : Branches} → {stack : List Var} → {s : Filling} →
    bs.BindsNone (fun v => arg.occurs v = true ∨ v = p) →
    (p.locate stack).fill s = (arg.nameless stack).fill s →
    ((bs.abstract arg (.var p)).nameless stack).fill s = (bs.nameless stack).fill s
  | .nil, _, _, _, _ => rfl
  | .cons _ fields body rest, stack, s, hb, hs => by
    have hbind := Term.fill_under_bind hs fields hb.1
    simp only [Branches.abstract, Branches.nameless, Nameless.fill]
    rw [Term.fill_abstract hb.2.1 hbind, Branches.fill_abstract hb.2.2 hs]

end

end Replace

/-! ### Function types that are opened -/

/-- A type with its leading function types instantiated at terms. -/
def Term.openPis : List Term → Term → Fresh (Option Term)
  | [], t => return some t
  | a :: args, .pi v _ cod => do
      let cod ← (Subst.single v a).apply cod
      openPis args cod
  | _ :: _, _ => return none

def Nameless.openPis : List Nameless → Nameless → Option Nameless
  | [], t => some t
  | a :: args, .pi _ cod => openPis args (cod.instantiate [a])
  | _ :: _, _ => none

lemma Term.openPis_nameless {args : List Term} (hargs : ∀ a ∈ args, a.Over (.below n))
    (ht : t.Over (.below n)) :
    ((Term.openPis args t).value n).map (Term.nameless []) =
      Nameless.openPis (args.map (Term.nameless [])) (t.nameless []) := by
  induction args generalizing t n with
  | nil => rfl
  | cons a args ih =>
    obtain ⟨ha, hargs⟩ := forall_mem_cons.1 hargs
    cases t with
    | pi v dom cod =>
      have hmaps := single_maps v ha
      have hnext := apply_next (.single v a) cod n
      have hcod : (((Subst.single v a).apply cod).value n).nameless [] =
          (cod.nameless [v]).instantiate [a.nameless []] := by
        rw [Term.instantiate_single ht.2]
        refine nameless_apply (fun x hx => ?_) ht.2
        exact hmaps.vars x hx
      simp only [Term.openPis, Fresh.value_bind]
      rw [ih (fun b hb => (hargs b hb).mono (Reach.below_le hnext))
        ((apply_over hmaps n ht.2).mono (Reach.below_le hnext)), hcod]
      rfl
    | _ => rfl

/-- The form of a type with something put for its variables and its leading function types
opened at variables. -/
def Term.opened (s : Filling) (vs : List Var) (t : Term) : Option Nameless :=
  Nameless.openPis (vs.map .free) ((t.nameless []).fill s)

section Opened

variable {s : Filling}

lemma Term.opened_pi (hv : s.free v = .free v) (dom cod : Term) (vs : List Var) :
    (Term.pi v dom cod).opened s (v :: vs) = cod.opened s vs := by
  have hany : cod.Over { vars := fun _ => True } :=
    Term.over_any (fun _ => trivial) (fun _ => trivial) trivial cod
  have hcod : ((cod.nameless [v]).fill (s.under 1)).instantiate [.free v] =
      (cod.nameless []).fill s := by
    rw [Nameless.instantiate, Nameless.fill_fill]
    refine cod.nameless_fill_congr (fun x _ => ?_) hany
    by_cases hx : v = x
    · rw [Var.locate_cons_eq hx, ← hx]
      exact hv.symm
    · rw [Var.locate_cons_ne hx]
      exact Nameless.shift_instantiate (s.free x) [.free v]
  exact congrArg (Nameless.openPis (vs.map .free)) hcod

lemma Term.opened_pis (hΓ : ∀ v ∈ Γ.vars, s.free v = .free v) (t : Term) :
    (Γ.pis t).opened s Γ.vars = some ((t.nameless []).fill s) := by
  induction Γ with
  | nil => rfl
  | cons e Γ ih =>
    obtain ⟨hv, hΓ⟩ := forall_mem_cons.1 hΓ
    exact (Term.opened_pi hv e.2 (pis Γ t) (vars Γ)).trans (ih hΓ)

/-- A type with function types over the given variables in front, below which no binder is
one of some variables.  Part of it may have been replaced by a variable. -/
inductive Term.Fronted (V : Var → Prop) : List Var → Term → Prop
  | rest {t : Term} : t.BindsNone V → Fronted V [] t
  | pi {v : Var} {vs : List Var} {cod : Term} (dom : Term) : Fronted V vs cod →
      Fronted V (v :: vs) (.pi v dom cod)
  | var (vs : List Var) (x : Var) : Fronted V vs (.var x)

variable {V : Var → Prop}

lemma Term.fronted_pis (ht : t.BindsNone V) (Γ : Telescope) : (Γ.pis t).Fronted V Γ.vars := by
  induction Γ with
  | nil => exact .rest ht
  | cons e Γ ih => exact .pi e.2 ih

/-- Replacing an argument makes no difference once the function types in front are opened
and the argument is put back. -/
lemma Term.Fronted.abstract {arg : Term} (hV : ∀ x, arg.occurs x = true ∨ x = p → V x)
    (hp : s.free p = (arg.nameless []).fill s) (hvs : ∀ v ∈ vs, s.free v = .free v)
    (h : t.Fronted V vs) : (t.abstract arg (.var p)).Fronted V vs ∧
      (t.abstract arg (.var p)).opened s vs = t.opened s vs := by
  have hhit {t : Term} (vs : List Var) (heq : t.alphaEq arg = true) :
      (Term.var p).opened s vs = t.opened s vs := by
    have hform : ((Term.var p).nameless []).fill s = (t.nameless []).fill s := by
      rw [(Term.alphaEq_iff t arg).1 heq]
      exact hp
    rw [Term.opened, Term.opened, hform]
  induction h with
  | rest ht =>
    refine ⟨.rest ht.abstract, ?_⟩
    exact congrArg (Nameless.openPis []) (Term.fill_abstract (ht.mono hV) hp)
  | var vs x =>
    unfold Term.abstract
    split
    · next heq => exact ⟨.var vs p, hhit vs heq⟩
    · exact ⟨.var vs x, rfl⟩
  | @pi v vs cod dom _ ih =>
    obtain ⟨hv, hvs⟩ := forall_mem_cons.1 hvs
    obtain ⟨hfronted, hopened⟩ := ih hvs
    unfold Term.abstract
    split
    · next heq => exact ⟨.var _ p, hhit _ heq⟩
    · refine ⟨.pi _ hfronted, ?_⟩
      rw [Term.opened_pi hv, Term.opened_pi hv, hopened]

end Opened

/-! ### Replacing arguments by parameters -/

namespace Subst

/-- The values are variables, with the same value under a filling. -/
def Renames (s : Filling) (P : Var → Prop) (σ : Subst) : Prop :=
  ∀ ⦃x : Var⦄ ⦃t : Term⦄, σ.get? x = some t → ∃ p, t = .var p ∧ P p ∧ s.free p = s.free x

variable {s : Filling} {P : Var → Prop} {σ : Subst}

lemma Renames.empty (s : Filling) (P : Var → Prop) : Subst.empty.Renames s P := by
  intro x t hget
  cases hget

lemma Renames.insert (h : σ.Renames s P) (hp : P p) (hfree : s.free p = s.free v) (n : Nat) :
    ((σ.insert v (.var p)).value n).Renames s P := by
  intro x t hget
  rcases get?_insert σ v (.var p) n x with ⟨rfl, hx⟩ | ⟨-, -, hx⟩ | ⟨-, a, b, ha, hx, hab⟩ <;>
    rw [hx] at hget
  · exact ⟨p, (some.inj hget).symm, hp, hfree⟩
  · cases hget
  · obtain ⟨q, rfl, hq, hqx⟩ := h ha
    cases hget
    obtain ⟨k, -, -, rfl⟩ := hab
    rw [apply_var, image_single]
    split
    · next heq => exact ⟨p, rfl, hp, hfree.trans (heq ▸ hqx)⟩
    · exact ⟨q, rfl, hq, hqx⟩

/-- Variables are replaced by others of the same value, so they might as well not be. -/
lemma Renames.andThen (h : σ.Renames s P) : σ.filling.andThen s = s := by
  refine Filling.ext (funext fun x => ?_) rfl
  change ((σ.image x).nameless []).fill s = s.free x
  cases hget : σ.get? x with
  | some t =>
    obtain ⟨p, rfl, -, hp⟩ := h hget
    rw [image, image_eq hget]
    exact hp
  | none =>
    rw [image, image_eq_var hget]
    rfl

end Subst

namespace Goal

variable {goal : Goal}

lemma abstracted?_eq_some :
    goal.abstracted? arg = some v ↔ arg = .var v ∧ v ∈ goal.context.vars := by
  cases arg <;> simp [abstracted?, Term.var?, filter_eq_some_iff, contains_iff]

/-- Arguments that are no variables of the context are replaced, one after the other. -/
def replaceTerms (goal : Goal) : List (Term × Var) → Term → Term
  | [], body => body
  | (arg, param) :: rest, body =>
    match goal.abstracted? arg with
    | some _ => replaceTerms goal rest body
    | none => replaceTerms goal rest (body.abstract arg (.var param))

lemma replaceArgs_next (pairs : List (Term × Var)) (σ : Subst) (body : Term) (n : Nat) :
    n ≤ (goal.replaceArgs pairs σ body).next n := by
  induction pairs generalizing σ body n with
  | nil => exact le_refl n
  | cons pair pairs ih =>
    obtain ⟨arg, p⟩ := pair
    unfold replaceArgs
    split
    · next v _ =>
        split
        · exact ih σ body n
        · exact le_trans (insert_next σ v (.var p) n) (ih _ _ _)
    · exact ih _ _ n

lemma replaceArgs_term (pairs : List (Term × Var)) (σ : Subst) (body : Term) (n : Nat) :
    ((goal.replaceArgs pairs σ body).value n).2 = goal.replaceTerms pairs body := by
  induction pairs generalizing σ body n with
  | nil => rfl
  | cons pair pairs ih =>
    obtain ⟨arg, p⟩ := pair
    cases harg : goal.abstracted? arg with
    | some v =>
      simp only [replaceArgs, replaceTerms, harg]
      split
      · exact ih σ body n
      · exact ih _ body _
    | none =>
      simp only [replaceArgs, replaceTerms, harg]
      exact ih _ _ n

variable {s : Filling}

/-- The substitution stays a renaming, and covers the arguments replaced so far. -/
lemma replaceArgs_subst (goal : Goal)
    (hpairs : ∀ e ∈ pairs, P e.2 ∧ s.free e.2 = (e.1.nameless []).fill s)
    (hσ : σ.Renames s P) (body : Term) (n : Nat) :
    Subst.Renames s P ((goal.replaceArgs pairs σ body).value n).1 ∧
      ∀ v, (σ.contains v = true ∨ ∃ e ∈ pairs, goal.abstracted? e.1 = some v) →
        ((goal.replaceArgs pairs σ body).value n).1.contains v = true := by
  induction pairs generalizing σ body n with
  | nil =>
    refine ⟨hσ, fun v hv => hv.resolve_right ?_⟩
    rintro ⟨e, he, -⟩
    cases he
  | cons pair pairs ih =>
    obtain ⟨arg, p⟩ := pair
    obtain ⟨⟨hp, hfree⟩, hrest⟩ := forall_mem_cons.1 hpairs
    unfold replaceArgs
    split
    · next v harg =>
        obtain ⟨rfl, -⟩ := abstracted?_eq_some.1 harg
        split
        · next hcontains =>
            -- The variable has got its parameter from an earlier argument.
            obtain ⟨hrenames, hall⟩ := ih hrest hσ body n
            refine ⟨hrenames, fun w hw => hall w ?_⟩
            rcases hw with hw | ⟨e, he, hw⟩
            · exact .inl hw
            · rcases mem_cons.1 he with rfl | he
              · rw [harg] at hw
                exact .inl (some.inj hw ▸ hcontains)
              · exact .inr ⟨e, he, hw⟩
        · obtain ⟨hrenames, hall⟩ := ih hrest (hσ.insert hp hfree n) body
            ((σ.insert v (.var p)).next n)
          refine ⟨hrenames, fun w hw => hall w ?_⟩
          rcases hw with hw | ⟨e, he, hw⟩
          · exact .inl ((σ.contains_insert v (.var p) n w).2 (.inr hw))
          · rcases mem_cons.1 he with rfl | he
            · rw [harg] at hw
              exact .inl ((σ.contains_insert v (.var p) n w).2 (.inl (some.inj hw)))
            · exact .inr ⟨e, he, hw⟩
    · next harg =>
        obtain ⟨hrenames, hall⟩ := ih hrest hσ (body.abstract arg (.var p)) n
        refine ⟨hrenames, fun w hw => hall w (hw.imp_right ?_)⟩
        rintro ⟨e, he, hw⟩
        rcases mem_cons.1 he with rfl | he
        · rw [harg] at hw
          cases hw
        · exact ⟨e, he, hw⟩

lemma replaceTerms_over (hpairs : ∀ e ∈ pairs, S.vars e.2) (h : body.Over S) :
    (goal.replaceTerms pairs body).Over S := by
  induction pairs generalizing body with
  | nil => exact h
  | cons pair pairs ih =>
    obtain ⟨hp, hpairs⟩ := forall_mem_cons.1 hpairs
    unfold replaceTerms
    split
    · exact ih hpairs h
    · exact ih hpairs (h.abstract hp)

/-- With the arguments put back and the function types in front opened, nothing was
replaced. -/
lemma replaceTerms_opened
    (hV : ∀ e ∈ pairs, goal.abstracted? e.1 = none → ∀ x, e.1.occurs x = true ∨ x = e.2 → V x)
    (hpairs : ∀ e ∈ pairs, s.free e.2 = (e.1.nameless []).fill s)
    (hvs : ∀ v ∈ vs, s.free v = .free v) (h : body.Fronted V vs) :
    (goal.replaceTerms pairs body).opened s vs = body.opened s vs := by
  induction pairs generalizing body with
  | nil => rfl
  | cons pair pairs ih =>
    obtain ⟨hV, hVs⟩ := forall_mem_cons.1 hV
    obtain ⟨hp, hpairs⟩ := forall_mem_cons.1 hpairs
    unfold replaceTerms
    split
    · exact ih hVs hpairs h
    · next hnone =>
        obtain ⟨hfronted, hopened⟩ := h.abstract (hV hnone) hp hvs
        exact (ih hVs hpairs hfronted).trans hopened

/-! ### Hypotheses that depend on variables -/

lemma revert_cons (dependencies : List Var) (e : Var × Term) (Γ : Telescope) :
    revert abstracted dependencies (e :: Γ) =
      if abstracted.contains e.1 then revert abstracted dependencies Γ
      else if dependencies.any fun d => e.2.occurs d then
        ((revert abstracted (e.1 :: dependencies) Γ).1,
          e :: (revert abstracted (e.1 :: dependencies) Γ).2)
      else
        (e :: (revert abstracted dependencies Γ).1, (revert abstracted dependencies Γ).2) := rfl

lemma revert_sublist (dependencies : List Var) (Γ : Telescope) :
    (revert abstracted dependencies Γ).1.Sublist Γ ∧
      (revert abstracted dependencies Γ).2.Sublist Γ := by
  induction Γ generalizing dependencies with
  | nil => exact ⟨.slnil, .slnil⟩
  | cons e Γ ih =>
    rw [revert_cons]
    split
    · exact ⟨(ih dependencies).1.cons e, (ih dependencies).2.cons e⟩
    · split
      · exact ⟨(ih _).1.cons e, (ih _).2.cons_cons e⟩
      · exact ⟨(ih _).1.cons_cons e, (ih _).2.cons e⟩

/-- A hypothesis stays, or is reverted, or is one of the given variables. -/
lemma revert_cases (dependencies : List Var) (he : e ∈ Γ) : e.1 ∈ abstracted ∨ e.1 ∉ abstracted ∧
      (e ∈ (revert abstracted dependencies Γ).1 ∨ e ∈ (revert abstracted dependencies Γ).2) := by
  induction Γ generalizing dependencies with
  | nil => cases he
  | cons e' Γ ih =>
    rw [revert_cons]
    by_cases habstracted : e'.1 ∈ abstracted
    · rw [if_pos (by simpa using habstracted)]
      rcases mem_cons.1 he with rfl | he
      · exact .inl habstracted
      · exact ih dependencies he
    · rw [if_neg (by simpa using habstracted)]
      rcases mem_cons.1 he with rfl | he
      · refine .inr ⟨habstracted, ?_⟩
        split
        · exact .inr mem_cons_self
        · exact .inl mem_cons_self
      · split
        · exact (ih (e'.1 :: dependencies) he).imp_right
            (.imp_right (.imp_right (mem_cons_of_mem e')))
        · exact (ih dependencies he).imp_right (.imp_right (.imp_left (mem_cons_of_mem e')))

lemma revert_notMem (dependencies : List Var) (Γ : Telescope) :
    (∀ e ∈ (revert abstracted dependencies Γ).1, e.1 ∉ abstracted) ∧
      ∀ e ∈ (revert abstracted dependencies Γ).2, e.1 ∉ abstracted := by
  induction Γ generalizing dependencies with
  | nil => exact ⟨by simp [revert], by simp [revert]⟩
  | cons e Γ ih =>
    rw [revert_cons]
    split
    · exact ih dependencies
    · next habstracted =>
        have he : e.1 ∉ abstracted := by simpa using habstracted
        split
        · exact ⟨(ih _).1, forall_mem_cons.2 ⟨he, (ih _).2⟩⟩
        · exact ⟨forall_mem_cons.2 ⟨he, (ih _).1⟩, (ih _).2⟩

/-- What is reverted has every property that hypotheses inherit from what they depend on. -/
lemma revert_inherits {D : Var → Prop} (hdeps : ∀ d ∈ dependencies, D d)
    (hΓ : ∀ e ∈ Γ, ∀ d, e.2.occurs d = true → D d → D e.1) :
    ∀ e ∈ (revert abstracted dependencies Γ).2, D e.1 := by
  induction Γ generalizing dependencies with
  | nil => simp [revert]
  | cons e Γ ih =>
    obtain ⟨he, hΓ⟩ := forall_mem_cons.1 hΓ
    rw [revert_cons]
    split
    · exact ih hdeps hΓ
    · split
      · next hany =>
          obtain ⟨d, hd, hoccurs⟩ := any_eq_true.1 hany
          have hfirst := he d hoccurs (hdeps d hd)
          exact forall_mem_cons.2 ⟨hfirst, ih (forall_mem_cons.2 ⟨hfirst, hdeps⟩) hΓ⟩
      · exact ih hdeps hΓ

/-- What stays mentions nothing that was given or is reverted. -/
lemma revert_kept (dependencies : List Var) (hΓ : Γ.Within S) (hS : ∀ v ∈ Γ.vars, ¬ S.vars v)
    (hnodup : Γ.vars.Nodup) :
    ∀ e ∈ (revert abstracted dependencies Γ).1, (∀ d ∈ dependencies, e.2.occurs d = false) ∧
      ∀ v ∈ vars (revert abstracted dependencies Γ).2,
        e.2.occurs v = false ∧ e.1 ≠ v := by
  induction Γ generalizing S dependencies with
  | nil => simp [revert]
  | cons e Γ ih =>
    obtain ⟨hfirst, hrest⟩ := hΓ
    obtain ⟨hnew, hnodup⟩ := nodup_cons.1 hnodup
    have hlater : ∀ v ∈ vars Γ, ¬ (S.bind [e.1]).vars v := by
      rintro v hv (hmem | hmem)
      · rw [mem_singleton.1 hmem] at hv
        exact hnew hv
      · exact hS v (mem_cons_of_mem _ hv) hmem
    -- Variables of later entries are not mentioned by this one.
    have hmentions : ∀ v ∈ vars Γ, e.2.occurs v = false := fun v hv => by
      by_contra hoccurs
      exact hS v (mem_cons_of_mem _ hv) (hfirst.occurs (by simpa using hoccurs))
    have hvars {dependencies : List Var} {v : Var}
        (hv : v ∈ vars (revert abstracted dependencies Γ).2) : v ∈ vars Γ :=
      ((revert_sublist abstracted dependencies Γ).2.map _).subset hv
    rw [revert_cons]
    split
    · exact ih dependencies hrest hlater hnodup
    · split
      · -- The entry is reverted, and what follows must not mention it either.
        intro e' he'
        obtain ⟨hdeps, hreverted⟩ := ih (e.1 :: dependencies) hrest hlater hnodup e' he'
        obtain ⟨hown, hdeps⟩ := forall_mem_cons.1 hdeps
        refine ⟨hdeps, forall_mem_cons.2 ⟨⟨hown, ?_⟩, hreverted⟩⟩
        rintro heq
        refine hnew (heq ▸ ?_)
        exact mem_vars ((revert_sublist abstracted _ Γ).1.subset he')
      · next hany =>
          refine forall_mem_cons.2
            ⟨⟨fun d hd => ?_, fun v hv => ⟨hmentions v (hvars hv), ?_⟩⟩,
              ih dependencies hrest hlater hnodup⟩
          · by_contra hoccurs
            exact hany (any_eq_true.2 ⟨d, hd, by simpa using hoccurs⟩)
          · rintro rfl
            exact hnew (hvars hv)

end Goal

lemma Telescope.within_of_over (h : ∀ e ∈ Γ, e.2.Over S) : Γ.Within S := by
  induction Γ generalizing S with
  | nil => trivial
  | cons e Γ ih =>
    obtain ⟨he, hΓ⟩ := forall_mem_cons.1 h
    exact ⟨he, ih fun e' he' => (hΓ e' he').mono (S.le_bind [e.1])⟩

/-- A part of a telescope is within a reach that has the variables left out. -/
lemma Telescope.Within.sublist {Δ : Telescope} (hsub : Δ.Sublist Γ) (hΓ : Γ.Within S)
    (hnodup : Γ.vars.Nodup) (hSR : S.Le R) (hleft : ∀ x ∈ Γ.vars, x ∉ Δ.vars → R.vars x) :
    Δ.Within R := by
  induction hsub generalizing S R with
  | slnil => trivial
  | @cons Δ Γ e hsub ih =>
    obtain ⟨hnew, hnodup⟩ := nodup_cons.1 hnodup
    have he : R.vars e.1 := hleft e.1 mem_cons_self fun hmem =>
      hnew ((hsub.map _).subset hmem)
    refine ih hΓ.2 hnodup ⟨fun x hx => ?_, hSR.globals, hSR.splits⟩ fun x hx =>
      hleft x (mem_cons_of_mem _ hx)
    rcases hx with hx | hx
    · rwa [mem_singleton.1 hx]
    · exact hSR.vars x hx
  | @cons_cons Δ Γ e hsub ih =>
    obtain ⟨hnew, hnodup⟩ := nodup_cons.1 hnodup
    refine ⟨hΓ.1.mono hSR, ih hΓ.2 hnodup (hSR.bind [e.1]) fun x hx hnot => .inr ?_⟩
    refine hleft x (mem_cons_of_mem _ hx) fun hmem => ?_
    rcases mem_cons.1 hmem with rfl | hmem
    · exact hnew hx
    · exact hnot hmem

lemma Subst.get?_ofPairs_of_mem {pairs : List (Var × Term)} (hnodup : (pairs.map (·.1)).Nodup)
    (h : (v, t) ∈ pairs) : (ofPairs pairs).get? v = some t := by
  induction pairs using List.reverseRecOn with
  | nil => cases h
  | append_singleton pairs e ih =>
    rw [map_append, nodup_append] at hnodup
    obtain ⟨hpairs, -, hnew⟩ := hnodup
    rw [ofPairs_concat, get?_put]
    rcases mem_append.1 h with h | h
    · have hne : e.1 ≠ v := fun heq =>
        hnew v (mem_map_of_mem h) e.1 (by simp) heq.symm
      rw [if_neg hne, ih hpairs h]
    · obtain rfl := mem_singleton.1 h
      rw [if_pos rfl]

namespace Goal

/-- A variable of the context is an argument, or its type mentions a variable that depends
on arguments. -/
inductive Depends (goal : Goal) (args : List Term) : Var → Prop
  | arg {v : Var} : v ∈ goal.context.vars → .var v ∈ args → Depends goal args v
  | through {e : Var × Term} {d : Var} : e ∈ goal.context → e.2.occurs d = true →
      Depends goal args d → Depends goal args e.1

/-- The hypotheses that stay when a goal is generalised. -/
def kept (goal : Goal) (args : List Term) : Telescope :=
  (revert (args.filterMap goal.abstracted?) (args.filterMap goal.abstracted?) goal.context).1

/-- The hypotheses that are put in front. -/
def reverted (goal : Goal) (args : List Term) : Telescope :=
  (revert (args.filterMap goal.abstracted?) (args.filterMap goal.abstracted?) goal.context).2

/-- A goal and arguments over it, up to a supply: the variables of the context are distinct,
no type mentions a later one or its own, and no binder of the goal binds a variable of an
argument that is replaced wherever it occurs. -/
structure Posed (n : Nat) (goal : Goal) (args : List Term) : Prop where
  distinct : goal.context.vars.Nodup
  ordered : goal.context.Within { vars := fun x => x ∉ goal.context.vars }
  apart : goal.type.BindsNone fun x => ∃ a ∈ args, goal.abstracted? a = none ∧ a.occurs x = true
  context_behind : ∀ e ∈ goal.context, e.1.id < n ∧ e.2.Over (.below n)
  type_behind : goal.type.Over (.below n)
  binders_behind : goal.type.BindsNone fun x => n ≤ x.id
  args_behind : ∀ a ∈ args, a.Over (.below n)

variable {goal : Goal} {args : List Term}

lemma mem_abstracted :
    v ∈ args.filterMap goal.abstracted? ↔ v ∈ goal.context.vars ∧ .var v ∈ args := by
  simp only [mem_filterMap, abstracted?_eq_some]
  constructor
  · rintro ⟨_, ha, rfl, hv⟩
    exact ⟨hv, ha⟩
  · rintro ⟨hv, ha⟩
    exact ⟨_, ha, rfl, hv⟩

lemma Depends.mem (h : goal.Depends args v) : v ∈ goal.context.vars := by
  cases h with
  | arg hv _ => exact hv
  | through he _ _ => exact mem_vars he

section Dependence

variable (hdistinct : goal.context.vars.Nodup)
  (hordered : goal.context.Within { vars := fun x => x ∉ goal.context.vars })

include hdistinct hordered

lemma kept_mentions (he : e ∈ goal.kept args) :
    (∀ d ∈ args.filterMap goal.abstracted?, e.2.occurs d = false) ∧
      ∀ v ∈ (goal.reverted args).vars, e.2.occurs v = false ∧ e.1 ≠ v :=
  revert_kept _ _ hordered (fun _ hv hnot => hnot hv) hdistinct e he

/-- The variables that depend on arguments are the arguments and the reverted hypotheses. -/
lemma depends_iff : goal.Depends args v ↔
    v ∈ args.filterMap goal.abstracted? ∨ v ∈ (goal.reverted args).vars := by
  constructor
  · intro h
    induction h with
    | arg hv ha => exact .inl (mem_abstracted.2 ⟨hv, ha⟩)
    | @through e d he hoccurs _ ih =>
      rcases revert_cases (args.filterMap goal.abstracted?) (args.filterMap goal.abstracted?) he
        with habstracted | ⟨-, hstays | hreverted⟩
      · exact .inl habstracted
      · -- A hypothesis that stays does not mention what it would depend on.
        obtain ⟨hdeps, hothers⟩ := kept_mentions hdistinct hordered hstays
        have hnone : e.2.occurs d = false := ih.elim (hdeps d) fun hd => (hothers d hd).1
        rw [hnone] at hoccurs
        cases hoccurs
      · exact .inr (mem_vars hreverted)
  · rintro (hv | hv)
    · obtain ⟨hv, ha⟩ := mem_abstracted.1 hv
      exact .arg hv ha
    · obtain ⟨e, he, rfl⟩ := mem_map.1 hv
      refine revert_inherits _ (fun d hd => ?_) (fun e he d hoccurs hd => ?_) e he
      · obtain ⟨hd, ha⟩ := mem_abstracted.1 hd
        exact .arg hd ha
      · exact .through he hoccurs hd

/-- Hypotheses that depend on an argument are reverted, unless they are one. -/
lemma mem_reverted_iff : e ∈ goal.reverted args ↔
    e ∈ goal.context ∧ goal.Depends args e.1 ∧ .var e.1 ∉ args := by
  obtain ⟨-, hsub⟩ := revert_sublist (args.filterMap goal.abstracted?)
    (args.filterMap goal.abstracted?) goal.context
  constructor
  · intro he
    have hmem := hsub.subset he
    refine ⟨hmem, (depends_iff hdistinct hordered).2 (.inr (mem_vars he)), fun ha => ?_⟩
    exact (revert_notMem _ _ _).2 e he (mem_abstracted.2 ⟨mem_vars hmem, ha⟩)
  · rintro ⟨he, hdepends, ha⟩
    have hnot : e.1 ∉ args.filterMap goal.abstracted? := fun hmem => ha (mem_abstracted.1 hmem).2
    have hvars := ((depends_iff hdistinct hordered).1 hdepends).resolve_left hnot
    obtain ⟨e', he', heq⟩ := mem_map.1 hvars
    obtain rfl := inj_on_of_nodup_map hdistinct (hsub.subset he') he heq
    exact he'

lemma mem_kept_iff : e ∈ goal.kept args ↔ e ∈ goal.context ∧ ¬ goal.Depends args e.1 := by
  constructor
  · intro he
    refine ⟨(revert_sublist _ _ _).1.subset he, fun hdepends => ?_⟩
    rcases (depends_iff hdistinct hordered).1 hdepends with hv | hv
    · exact (revert_notMem _ _ _).1 e he hv
    · exact ((kept_mentions hdistinct hordered he).2 e.1 hv).2 rfl
  · rintro ⟨he, hnot⟩
    rw [depends_iff hdistinct hordered, not_or] at hnot
    rcases revert_cases (args.filterMap goal.abstracted?) (args.filterMap goal.abstracted?) he with
      habstracted | ⟨-, hstays | hreverted⟩
    · exact (hnot.1 habstracted).elim
    · exact hstays
    · exact (hnot.2 (mem_vars hreverted)).elim

lemma kept_occurs (he : e ∈ goal.kept args) (hv : goal.Depends args v) :
    e.2.occurs v = false := by
  obtain ⟨hargs, hreverted⟩ := kept_mentions hdistinct hordered he
  exact ((depends_iff hdistinct hordered).1 hv).elim (hargs v) fun hv => (hreverted v hv).1

lemma over_reverted (args : List Term) (htype : goal.type.Over { vars := fun _ => True }) :
    (pis (goal.reverted args) goal.type).Over
      { vars := fun x => goal.Depends args x → .var x ∈ args } := by
  have hsub : (goal.reverted args).Sublist goal.context := (revert_sublist _ _ _).2
  have hleft (x : Var) (hx : x ∉ (goal.reverted args).vars) (hdepends : goal.Depends args x) :
      .var x ∈ args :=
    (mem_abstracted.1 (((depends_iff hdistinct hordered).1 hdepends).resolve_right hx)).2
  refine over_pis.2 ⟨?_, ?_⟩
  · refine hordered.sublist hsub hdistinct ⟨fun x hx hdepends => (hx hdepends.mem).elim,
      fun _ hc => hc, fun hs => hs⟩ fun x _ hnot => hleft x hnot
  · refine htype.weaken fun x _ => ?_
    by_cases hx : x ∈ (goal.reverted args).vars
    · exact .inl hx
    · exact .inr (hleft x hx)

end Dependence

/-! ### Generalised goals -/

/-- Parameters for arguments: distinct variables from a supply on. -/
structure ParamsFor (n m : Nat) (args : List Term) (params : Telescope) : Prop where
  length : params.length = args.length
  distinct : params.vars.Nodup
  new : ∀ p ∈ params.vars, n ≤ p.id ∧ p.id < m

lemma ParamsFor.vars_length (h : ParamsFor n m args params) :
    params.vars.length = args.length := by
  rw [vars, length_map, h.length]

section Generalise

variable (hgoal : goal.Posed n args) (hparams : ParamsFor n m args params)

/-- The filling that puts the arguments back for the parameters. -/
abbrev back (args : List Term) (params : Telescope) : Filling :=
  (Subst.ofPairs (params.vars.zip args)).filling

include hparams in
lemma back_old (hx : x.id < n) : (back args params).free x = .free x := by
  change ((Subst.ofPairs (params.vars.zip args)).image x).nameless [] = _
  rcases image_ofPairs hparams.vars_length x with ⟨-, hmem⟩ | ⟨himage, -⟩
  · exact absurd (hparams.new x hmem).1 (not_le.2 hx)
  · rw [himage]
    rfl

include hparams in
lemma back_fill (ht : t.Over (.below n)) :
    (t.nameless []).fill (back args params) = t.nameless [] :=
  t.nameless_fill ht fun _ hx => back_old hparams hx

include hgoal hparams in
lemma back_param {e : Term × Var} (he : e ∈ args.zip params.vars) :
    (back args params).free e.2 = (e.1.nameless []).fill (back args params) := by
  have hpair : (e.2, e.1) ∈ params.vars.zip args := by
    rw [← zip_swap]
    exact mem_map.2 ⟨e, he, rfl⟩
  have hkeys : ((params.vars.zip args).map (·.1)).Nodup := by
    rw [map_fst_zip (le_of_eq hparams.vars_length)]
    exact hparams.distinct
  rw [back_fill hparams (hgoal.args_behind e.1 (of_mem_zip he).1)]
  change ((Subst.ofPairs (params.vars.zip args)).image e.2).nameless [] = _
  rw [Subst.image, image_eq (get?_ofPairs_of_mem hkeys hpair)]

include hgoal hparams in
lemma zip_params : ∀ e ∈ args.zip params.vars, e.2 ∈ params.vars ∧
    (back args params).free e.2 = (e.1.nameless []).fill (back args params) :=
  fun _ he => ⟨(of_mem_zip he).2, back_param hgoal hparams he⟩

/-- The body of the motive: replaced arguments, and the parameters for variables. -/
lemma generalise_body (goal : Goal) (args : List Term) (params : Telescope) (k : Nat) : ∃ l ≥ k,
    ((goal.generalise args params).value k).2 =
      (Subst.apply ((goal.replaceArgs (args.zip params.vars) .empty
          (pis (goal.reverted args) goal.type)).value k).1
        (goal.replaceTerms (args.zip params.vars)
          (pis (goal.reverted args) goal.type))).value l := by
  refine ⟨_, goal.replaceArgs_next (args.zip params.vars) .empty
    (pis (goal.reverted args) goal.type) k, ?_⟩
  rw [← replaceArgs_term (args.zip params.vars) .empty _ k]
  rfl

include hgoal in
lemma Posed.reverted_behind : ∀ e ∈ goal.reverted args, e.1.id < n ∧ e.2.Over (.below n) :=
  fun e he => hgoal.context_behind e ((revert_sublist _ _ _).2.subset he)

include hgoal in
lemma Posed.whole_behind : (pis (goal.reverted args) goal.type).Over (.below n) :=
  over_pis.2 ⟨within_of_over fun e he => (hgoal.reverted_behind e he).2,
    hgoal.type_behind.mono (Reach.le_bind _ _)⟩

include hgoal hparams

/-- With the arguments put back and the reverted hypotheses for the function types in front,
a generalised goal is the goal. -/
lemma generalise_opens (hnm : n ≤ m) (hk : m ≤ k) :
    ((goal.generalise args params).value k).2.opened (back args params) (goal.reverted args).vars =
      some (goal.type.nameless []) := by
  obtain ⟨l, hl, hbody⟩ := goal.generalise_body args params k
  have hpairs := zip_params hgoal hparams
  obtain ⟨hrenames, -⟩ := replaceArgs_subst goal hpairs (.empty _ _)
    (pis (goal.reverted args) goal.type) k
  have hreplaced : (goal.replaceTerms (args.zip params.vars)
      (pis (goal.reverted args) goal.type)).Over (.below m) := by
    refine replaceTerms_over (fun e he => (hparams.new e.2 (of_mem_zip he).2).2) ?_
    exact hgoal.whole_behind.mono (Reach.below_le hnm)
  -- A variable and its parameter are filled alike, so the substitution makes no difference.
  have hform : (((goal.generalise args params).value k).2.nameless []).fill (back args params) =
      ((goal.replaceTerms (args.zip params.vars)
        (pis (goal.reverted args) goal.type)).nameless []).fill (back args params) := by
    rw [hbody, nameless_apply (fun x hx => ?_) hreplaced, Nameless.fill_fill, hrenames.andThen]
    cases hget : Subst.get? _ x with
    | some t =>
      obtain ⟨p, rfl, hp, -⟩ := hrenames hget
      rw [Subst.image, image_eq hget]
      exact lt_of_lt_of_le (hparams.new p hp).2 (by omega)
    | none =>
      rw [Subst.image, image_eq_var hget]
      exact hx.trans_le (hk.trans hl)
  have hfixed : ∀ v ∈ (goal.reverted args).vars, (back args params).free v = .free v :=
    fun v hv => by
      obtain ⟨e, he, rfl⟩ := mem_map.1 hv
      exact back_old hparams (hgoal.reverted_behind e he).1
  rw [Term.opened, hform]
  change (goal.replaceTerms _ _).opened _ _ = _
  rw [replaceTerms_opened (V := fun x =>
      (∃ a ∈ args, goal.abstracted? a = none ∧ a.occurs x = true) ∨ n ≤ x.id) ?_
    (fun e he => (hpairs e he).2) hfixed (Term.fronted_pis ?_ _), Term.opened_pis hfixed,
    back_fill hparams hgoal.type_behind]
  · rintro e he hnone x (hx | rfl)
    · exact .inl ⟨e.1, (of_mem_zip he).1, hnone, hx⟩
    · exact .inr (hparams.new _ (of_mem_zip he).2).1
  · exact hgoal.apart.or hgoal.binders_behind

/-- Nothing that depends on an argument is mentioned in a generalised goal. -/
lemma generalise_over (k : Nat) :
    ((goal.generalise args params).value k).2.Over
      { vars := fun x => x ∈ params.vars ∨ ¬ goal.Depends args x } := by
  obtain ⟨l, hl, hbody⟩ := goal.generalise_body args params k
  have hpairs := zip_params hgoal hparams
  obtain ⟨hrenames, hcontains⟩ := replaceArgs_subst goal hpairs (.empty _ _)
    (pis (goal.reverted args) goal.type) k
  have hwhole := over_reverted hgoal.distinct hgoal.ordered args
    (Term.over_any (fun _ => trivial) (fun _ => trivial) trivial goal.type)
  -- Before the substitution only arguments are left of what depends on one.
  let S : Reach := { vars := fun x => x ∈ params.vars ∨ (goal.Depends args x → .var x ∈ args) }
  let R : Reach := { vars := fun x => x ∈ params.vars ∨ ¬ goal.Depends args x }
  have hreplaced : (goal.replaceTerms (args.zip params.vars)
      (pis (goal.reverted args) goal.type)).Over S :=
    replaceTerms_over (S := S) (fun e he => .inl (of_mem_zip he).2)
      (hwhole.weaken fun x hx => .inr hx)
  rw [hbody]
  refine apply_over (S := S) (R := R) ⟨fun x hx => ?_, fun _ hc => hc, id⟩ l hreplaced
  change (Subst.image _ x).Over _
  cases hget : Subst.get? _ x with
  | some t =>
    obtain ⟨p, rfl, hp, -⟩ := hrenames hget
    rw [Subst.image, image_eq hget]
    exact .inl hp
  | none =>
    rw [Subst.image, image_eq_var hget]
    refine hx.imp_right fun harg hdepends => ?_
    -- An argument would have got its parameter.
    have hmem := harg hdepends
    rw [← map_fst_zip (le_of_eq hparams.vars_length.symm)] at hmem
    obtain ⟨e, he, hvar⟩ := mem_map.1 hmem
    have hfound := hcontains x (.inr ⟨e, he, abstracted?_eq_some.2 ⟨hvar, hdepends.mem⟩⟩)
    rw [Subst.contains, hget] at hfound
    cases hfound

end Generalise

end Goal

end Clausal
