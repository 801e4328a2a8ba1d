import Clausal.Conversion
import Clausal.Proofs.Reduction

/-!
# Reduction from a later supply

Reduction and conversion do the same from a later supply, if the bodies of functions
are not moved.
-/

namespace Clausal

open Branches Eval List Nameless

section

variable (s : Slide)

/-! ### Equality up to bound variables -/

/-- The free variables of a form are moved. -/
def Slide.filling : Filling := ⟨fun v => .free (s.var v), .bound⟩

lemma Slide.filling_under (k : Nat) : s.filling.under k = s.filling := by
  ext i
  · rfl
  · simp only [Filling.under, filling]
    split
    · rfl
    · simp only [shift, rename]
      congr 1
      omega

lemma Var.locate_slide (v : Var) (stack : List Var) :
    (s.var v).locate (stack.map s.var) = (v.locate stack).fill s.filling := by
  induction stack with
  | nil => rfl
  | cons w stack ih =>
    simp only [map_cons, locate, s.var_inj, ih]
    split
    · rfl
    · rw [← shift_fill_under, s.filling_under]

mutual

lemma Term.nameless_slide (stack : List Var) : (t : Term) →
    (t.mapVars s.var).nameless (stack.map s.var) = (t.nameless stack).fill s.filling
  | .univ | .global _ => rfl
  | .var v => v.locate_slide s stack
  | .pi v a b | .lam v a b => by
    have hb := b.nameless_slide (v :: stack)
    rw [map_cons] at hb
    simp only [Term.mapVars, Term.nameless, fill, a.nameless_slide stack, hb,
      s.filling_under]
  | .app a b | .ann a b | .case a b => by
    simp only [Term.mapVars, Term.nameless, fill, a.nameless_slide stack,
      b.nameless_slide stack]
  | .absurd scrut => by
    simp only [Term.mapVars, Term.nameless, fill, scrut.nameless_slide stack]

lemma Branches.nameless_slide (stack : List Var) : (bs : Branches) →
    (bs.mapVars s.var).nameless (stack.map s.var) = (bs.nameless stack).fill s.filling
  | .nil => rfl
  | .cons _ fields body rest => by
    have hbody := body.nameless_slide (fields.reverse ++ stack)
    rw [map_append, map_reverse] at hbody
    simp only [mapVars, nameless, fill, length_map, hbody,
      rest.nameless_slide stack, s.filling_under]

end

lemma Slide.filling_inj {t : Nameless} (h : t.fill s.filling = u.fill s.filling) : t = u := by
  have hid : s.filling.andThen ⟨fun v => .free (s.back v), .bound⟩ = Filling.id := by
    ext i
    · simp only [Filling.andThen, filling, fill, s.back_var]
      rfl
    · rfl
  have hback := congrArg (fill ⟨fun v => .free (s.back v), .bound⟩) h
  rwa [fill_fill, fill_fill, hid, fill_id, fill_id] at hback

lemma Term.alphaEq_slide (t u : Term) :
    (t.mapVars s.var).alphaEq (u.mapVars s.var) = t.alphaEq u := by
  rw [Bool.eq_iff_iff, Term.alphaEq_iff, Term.alphaEq_iff]
  have ht := t.nameless_slide s []
  have hu := u.nameless_slide s []
  rw [map_nil] at ht hu
  rw [ht, hu]
  exact ⟨s.filling_inj, fun h => by rw [h]⟩

/-! ### Reduction -/

lemma Subst.ofPairs_slide (pairs : List (Var × Term)) :
    (ofPairs pairs).mapVars s.var =
      ofPairs (pairs.map (Prod.map s.var (Term.mapVars s.var))) := by
  induction pairs using List.reverseRecOn with
  | nil => rfl
  | append_singleton pairs entry ih =>
    rw [ofPairs_concat, map_append, map_singleton, Prod.map_apply, ofPairs_concat, put_slide, ih]

lemma Term.spineOnto_slide (t : Term) (args : List Term) :
    (t.mapVars s.var).spineOnto (args.map (mapVars s.var)) =
      ((t.spineOnto args).1.mapVars s.var, (t.spineOnto args).2.map (mapVars s.var)) := by
  fun_induction spineOnto t args with
  | case1 head arg args ih => exact ih
  | case2 head args happ =>
    cases head with
    | app f a => exact (happ f a rfl).elim
    | _ => rfl

lemma Term.spine_slide (t : Term) :
    (t.mapVars s.var).spine = (t.spine.1.mapVars s.var, t.spine.2.map (mapVars s.var)) :=
  t.spineOnto_slide s []

lemma Term.apps_slide (head : Term) (args : List Term) :
    (head.apps args).mapVars s.var = (head.mapVars s.var).apps (args.map (mapVars s.var)) := by
  induction args generalizing head with
  | nil => rfl
  | cons a args ih => exact ih (.app head a)

lemma Term.globalSpine?_slide (t : Term) :
    (t.mapVars s.var).globalSpine? =
      t.globalSpine?.map fun p => (p.1, p.2.map (mapVars s.var)) := by
  rw [globalSpine?, globalSpine?, spine_slide]
  obtain ⟨head, args⟩ := t.spine
  cases head <;> rfl

lemma Branches.find?_slide (name : Name) : (bs : Branches) →
    (bs.mapVars s.var).find? name = (bs.find? name).map fun b =>
      ⟨b.ctor, b.fields.map s.var, b.body.mapVars s.var⟩
  | .nil => rfl
  | .cons ctor fields body rest => by
    rw [mapVars, find?_cons, find?_cons]
    split
    · rfl
    · exact rest.find?_slide name

lemma Branches.length_slide (bs : Branches) : (bs.mapVars s.var).length = bs.length := by
  cases bs with
  | nil => rfl
  | cons ctor fields body rest => exact congrArg (· + 1) rest.length_slide

namespace Env

variable {env : Env}

lemma ctorSpine?_slide (t : Term) : env.ctorSpine? (t.mapVars s.var) =
    (env.ctorSpine? t).map fun p => (p.1, p.2.map (Term.mapVars s.var)) := by
  rw [ctorSpine?, ctorSpine?, Term.globalSpine?_slide]
  cases t.globalSpine? with
  | none => rfl
  | some p =>
    obtain ⟨name, args⟩ := p
    cases hctor : env.ctor? name <;> simp [hctor]

lemma matchBranch?_slide (w : Term) (branches : Branches) :
    env.matchBranch? (w.mapVars s.var) (branches.mapVars s.var) =
      (env.matchBranch? w branches).map fun p => (p.1.mapVars s.var, p.2.mapVars s.var) := by
  rw [matchBranch?, matchBranch?, ctorSpine?_slide]
  cases env.ctorSpine? w with
  | none => rfl
  | some p =>
    obtain ⟨ctor, args⟩ := p
    simp only [Option.map_some, Option.bind_eq_bind, Option.bind_some, find?_slide]
    cases branches.find? ctor.name with
    | none => rfl
    | some branch =>
      simp only [Option.map_some, Option.bind_some, length_map, length_drop]
      split
      · rw [Option.map_some, Subst.ofPairs_slide, ← zip_map, map_drop]
      · rfl

lemma isStuck_slide (t : Term) : isStuck (t.mapVars s.var) = isStuck t := by
  rw [isStuck, isStuck, Term.spine_slide]
  cases t.spine.1 <;> rfl

/-- No variable of a body that may be unfolded is moved. -/
def BodiesFixed (env : Env) (s : Slide) : Prop :=
  ∀ ⦃g : Name⦄ ⦃body : Term⦄, env.sig.unfoldable? env.unfold g = some body →
    body.mapVars s.var = body

lemma bodiesFixed_still (env : Env) : env.BodiesFixed .still := fun _ body _ => body.mapVars_id

lemma fieldRenaming_slide (fields others : List Var) :
    (fieldRenaming fields others).mapVars s.var =
      fieldRenaming (fields.map s.var) (others.map s.var) := by
  rw [fieldRenaming, Subst.ofPairs_slide, fieldRenaming, ← zip_map, map_map, map_map]
  rfl

variable {s}

mutual

lemma whnfWith_slides (hbodies : env.BodiesFixed s) : (fuel : Nat) → (t : Term) →
    Slides s (Term.mapVars s.var) (env.whnfWith fuel t) (env.whnfWith fuel (t.mapVars s.var))
  | 0, _ => .outOfFuel
  | fuel + 1, t => by
    cases t with
    | ann t type => exact whnfWith_slides hbodies fuel t
    | app f a =>
      have hspine := whnfSpine_slides hbodies fuel (Term.app f a).spine.1 (Term.app f a).spine.2
      have hslide := (Term.app f a).spine_slide s
      rw [Term.mapVars] at hslide ⊢
      rw [whnfWith, whnfWith, hslide]
      exact hspine
    | global g => exact whnfSpine_slides hbodies fuel (.global g) []
    | case scrut branches =>
      refine (reduceCase_slides hbodies fuel scrut branches).bind fun o => ?_
      cases o with
      | some t => exact whnfWith_slides hbodies fuel t
      | none => exact .pure _ rfl
    | _ => exact .pure _ rfl

/-- Reduction commutes with a slide, by induction on the fuel. -/
lemma whnfSpine_slides (hbodies : env.BodiesFixed s) :
    (fuel : Nat) → (head : Term) → (args : List Term) →
    Slides s (Term.mapVars s.var) (env.whnfSpine fuel head args)
      (env.whnfSpine fuel (head.mapVars s.var) (args.map (Term.mapVars s.var)))
  | 0, _, _ => .outOfFuel
  | fuel + 1, head, args => by
    cases head with
    | ann t type => exact whnfSpine_slides hbodies fuel t args
    | app f a =>
      have hspine := whnfSpine_slides hbodies fuel ((Term.app f a).spineOnto args).1
        ((Term.app f a).spineOnto args).2
      have hslide := (Term.app f a).spineOnto_slide s args
      rw [Term.mapVars] at hslide ⊢
      rw [whnfSpine, whnfSpine, hslide]
      exact hspine
    | lam v dom body =>
      cases args with
      | nil => exact .pure _ rfl
      | cons arg args =>
        refine (Slides.lift (Subst.apply_slides s (.single v arg) body)).bind fun body => ?_
        exact whnfSpine_slides hbodies fuel body args
    | case scrut branches =>
      refine (reduceCase_slides hbodies fuel scrut branches).bind fun o => ?_
      cases o with
      | some t => exact whnfSpine_slides hbodies fuel t args
      | none => exact .pure _ (Term.apps_slide s (.case scrut branches) args)
    | global g =>
      rw [Term.mapVars, whnfSpine, whnfSpine]
      cases hbody : env.sig.unfoldable? env.unfold g with
      | none => exact .pure _ (Term.apps_slide s (.global g) args)
      | some body =>
        have hrun := whnfSpine_slides hbodies fuel body args
        rw [hbodies hbody] at hrun
        refine hrun.bind fun u => ?_
        rw [isStuck_slide]
        split
        · exact .pure _ (Term.apps_slide s (.global g) args)
        · exact .pure _ rfl
    | _ => exact .pure _ (Term.apps_slide s _ args)

lemma reduceCase_slides (hbodies : env.BodiesFixed s) :
    (fuel : Nat) → (scrut : Term) → (branches : Branches) →
    Slides s (Option.map (Term.mapVars s.var))
      (env.reduceCase fuel scrut branches)
      (env.reduceCase fuel (scrut.mapVars s.var) (branches.mapVars s.var))
  | 0, _, _ => .outOfFuel
  | fuel + 1, scrut, branches => by
    refine (whnfWith_slides hbodies fuel scrut).bind fun w => ?_
    rw [matchBranch?_slide]
    cases env.matchBranch? w branches with
    | none => exact .pure _ rfl
    | some p =>
      exact (Slides.lift (Subst.apply_slides s p.1 p.2)).bind fun _ => .pure _ rfl

end

lemma whnf_slides (hbodies : env.BodiesFixed s) (t : Term) :
    Slides s (Term.mapVars s.var) (env.whnf t) (env.whnf (t.mapVars s.var)) :=
  whnfWith_slides hbodies env.fuel t

/-! ### Conversion -/

mutual

/-- Conversion commutes with a slide, by induction on the fuel. -/
lemma convertibleWith_slides (hbodies : env.BodiesFixed s) : (fuel : Nat) → (t u : Term) →
    Slides s id (env.convertibleWith fuel t u)
      (env.convertibleWith fuel (t.mapVars s.var) (u.mapVars s.var))
  | 0, _, _ => .outOfFuel
  | fuel + 1, t, u => by
    have ih := convertibleWith_slides hbodies fuel
    rw [convertibleWith, convertibleWith]
    simp only [s.term_inj]
    split
    · exact .pure _ rfl
    · refine (whnf_slides hbodies t).bind fun t => (whnf_slides hbodies u).bind fun u => ?_
      cases t with
      | var v =>
        cases u with
        | var w => exact .pure _ (s.var_beq v w).symm
        | lam => exact ih _ _
        | _ => exact .pure _ rfl
      | pi v dom cod =>
        cases u with
        | pi w dom' cod' =>
          refine (ih dom dom').bind fun same => ?_
          cases same with
          | true =>
            exact (Slides.lift (Term.rename_slides s cod' w v)).bind fun _ => ih _ _
          | false => exact .pure _ rfl
        | lam => exact ih _ _
        | _ => exact .pure _ rfl
      | lam v dom body =>
        cases u with
        | lam w dom' body' =>
          exact (Slides.lift (Term.rename_slides s body' w v)).bind fun _ => ih _ _
        | _ => exact ih _ _
      | app head arg =>
        cases u with
        | app head' arg' =>
          refine (ih head head').bind fun same => ?_
          cases same with
          | true => exact ih arg arg'
          | false => exact .pure _ rfl
        | lam => exact ih _ _
        | _ => exact .pure _ rfl
      | case scrut bs =>
        cases u with
        | case scrut' bs' =>
          refine (ih scrut scrut').bind fun same => ?_
          cases same with
          | true =>
            simp only [length_slide, id_eq, if_true]
            split
            · exact convertibleBranches_slides hbodies fuel bs bs'
            · exact .pure _ rfl
          | false => exact .pure _ rfl
        | lam => exact ih _ _
        | _ => exact .pure _ rfl
      | absurd t =>
        cases u with
        | absurd u => exact ih t u
        | lam => exact ih _ _
        | _ => exact .pure _ rfl
      | univ | global | ann =>
        cases u with
        | lam => exact ih _ _
        | _ => exact .pure _ rfl

lemma convertibleBranches_slides (hbodies : env.BodiesFixed s) : (fuel : Nat) → (bs ds : Branches) →
    Slides s id (env.convertibleBranches fuel bs ds)
      (env.convertibleBranches fuel (bs.mapVars s.var) (ds.mapVars s.var))
  | 0, _, _ => .outOfFuel
  | fuel + 1, .cons c fields body rest, .cons d fields' body' rest' => by
    rw [mapVars, mapVars, convertibleBranches, convertibleBranches,
      length_map, length_map]
    split
    · refine Slides.bind (φ := Term.mapVars s.var) ?_ fun body' => ?_
      · rw [← fieldRenaming_slide]
        exact .lift (Subst.apply_slides s _ body')
      · refine (convertibleWith_slides hbodies fuel body body').bind fun same => ?_
        cases same with
        | true => exact convertibleBranches_slides hbodies fuel rest rest'
        | false => exact .pure _ rfl
    · exact .pure _ rfl
  | _ + 1, .nil, .nil | _ + 1, .nil, .cons _ _ _ _ | _ + 1, .cons _ _ _ _, .nil => .pure _ rfl

end

lemma convertible_slides (hbodies : env.BodiesFixed s) (t u : Term) :
    Slides s id (env.convertible t u)
      (env.convertible (t.mapVars s.var) (u.mapVars s.var)) :=
  convertibleWith_slides hbodies env.fuel t u

/-! ### The supply -/

lemma whnf_forward (env : Env) (t : Term) : Forward (env.whnf t) :=
  (whnf_slides env.bodiesFixed_still t).toForward

lemma convertible_forward (env : Env) (t u : Term) : Forward (env.convertible t u) :=
  (convertible_slides env.bodiesFixed_still t u).toForward

end Env

lemma Term.rename_next (t : Term) (v w : Var) (n : Nat) : n ≤ (t.rename v w).next n :=
  (t.rename_slides .still v w n (Nat.zero_le n)).1

end

end Clausal
