import Clausal.Proofs.Refinement

/-!
# The types of applications

What type an application of a function of a given type has, up to equality by
computation, and that the types computed for constructors are these.
-/

namespace Clausal

open Eval List Reach Subst

variable {type : Term} {vs : List Var}

namespace Nameless

/-- Something of type `T`, applied to arguments, has type `U`. -/
inductive Takes (R : Rules) : Nameless → List Nameless → Nameless → Prop
  | nil {T U : Nameless} : Equal R T U → Takes R T [] U
  | cons {T a b x U : Nameless} {xs : List Nameless} : Equal R T (pi a b) →
      Takes R (b.instantiate [x]) xs U → Takes R T (x :: xs) U

namespace Takes

lemma of_equal (h : Takes R T xs U) (hT : Equal R T' T) : Takes R T' xs U := by
  cases h with
  | nil hU => exact .nil (hT.trans hU)
  | cons hpi hrest => exact .cons (hT.trans hpi) hrest

lemma append (h : Takes R T xs U) (h' : Takes R U ys V) : Takes R T (xs ++ ys) V := by
  induction h with
  | nil hU => exact h'.of_equal hU
  | cons hpi _ ih => exact .cons hpi (ih h')

lemma instantiate_congr (hb : Equal R b b') (hx : Equal R x x') :
    Equal R (b.instantiate [x]) (b'.instantiate [x']) := by
  refine (hb.instantiate [x]).trans (Equal.fill_congr b' (fun _ => .refl _) fun i => ?_)
  cases i with
  | zero => exact hx
  | succ i => exact .refl _

lemma unique (h : Takes R T xs U) (h' : Takes R T' ys U') (hT : Equal R T T')
    (hargs : List.Forall₂ (Equal R) xs ys) : Equal R U U' := by
  induction h generalizing T' ys with
  | nil hU =>
    cases hargs with
    | nil =>
      cases h' with
      | nil hU' => exact (hU.symm.trans hT).trans hU'
  | cons hpi _ ih =>
    cases hargs with
    | cons hx hargs =>
      cases h' with
      | cons hpi' hrest' =>
        obtain ⟨-, hb⟩ := ((hpi.symm.trans hT).trans hpi').pi_inj
        exact ih hrest' (instantiate_congr hb hx) hargs

end Takes

end Nameless

/-! ### Values for more variables -/

namespace Filling

/-- Give values to some variables and leave the others as they are. -/
def extend (s : Filling) (vs : List Var) (xs : List Nameless) : Filling where
  free x := (((vs.zip xs).find? fun p => p.1 == x).map (·.2)).getD (s.free x)
  bound := s.bound

lemma extend_free_of_notMem (s : Filling) (xs : List Nameless) (h : x ∉ vs) :
    (s.extend vs xs).free x = s.free x := by
  have hnone : (vs.zip xs).find? (fun p => p.1 == x) = none := by
    refine find?_eq_none.2 fun p hp => ?_
    have hmem := (of_mem_zip hp).1
    simp only [beq_iff_eq]
    rintro rfl
    exact h hmem
  simp [extend, hnone]

lemma map_extend_free (s : Filling) {xs : List Nameless} (hvs : vs.Nodup)
    (hlen : vs.length = xs.length) : vs.map (s.extend vs xs).free = xs := by
  induction vs generalizing xs with
  | nil => rw [map_nil, length_eq_zero_iff.1 hlen.symm]
  | cons v vs ih =>
    cases xs with
    | nil => simp at hlen
    | cons x xs =>
      obtain ⟨hv, hvs⟩ := nodup_cons.1 hvs
      have hrest := ih hvs (by simpa using hlen)
      have htail : vs.map (s.extend (v :: vs) (x :: xs)).free = vs.map (s.extend vs xs).free := by
        refine map_congr_left fun w hw => ?_
        have hne : v ≠ w := fun he => hv (he ▸ hw)
        simp [extend, hne]
      rw [map_cons, htail, hrest]
      simp [extend]

end Filling

namespace Env

open Nameless (Equal Takes)

variable {env : Env} {S : Reach}

section

variable (hR : env.Agrees R S) (htype : S.Bounds n type)

include hR htype

lemma takes_of_whnf (hwhnf : Returns (env.whnf type) n (.pi v dom cod) k) (hkj : k ≤ j)
    (ha : S.Bounds j a)
    (F : Filling) (h : Takes R (((((single v a).apply cod).value j).nameless []).fill F) xs U)
      : Takes R ((type.nameless []).fill F) ((a.nameless []).fill F :: xs) U := by
  have hred := whnf_reduct (hR.upTo n) (S.upTo_behind n) htype hwhnf
  have hcod : cod.Over ((S.upTo j).bind [v]) :=
    hred.reach.2.mono ((upTo_le (hred.next.trans hkj)).bind [v])
  have hmaps := single_maps v ha
  rw [nameless_apply (fun x hx => (hmaps.vars x hx).mono (S.upTo_le_below j)) hcod,
    ← Term.instantiate_single hcod, Nameless.fill_instantiate] at h
  exact .cons (hred.steps.fill F).equal h

/-- A product that is instantiated takes the arguments one by one, up to reduction. -/
lemma instantiate_takes (hargs : ∀ a ∈ args, S.Bounds n a)
    (h : Returns (env.instantiate type args) n (some u) m)
    (F : Filling) :
    Takes R ((type.nameless []).fill F) (args.map fun a => (a.nameless []).fill F)
      ((u.nameless []).fill F) := by
  induction args generalizing type n with
  | nil =>
    obtain ⟨heq, -⟩ := returns_pure.1 h
    exact .nil (.of_eq (by rw [Option.some.inj heq]))
  | cons a args ih =>
    simp only [instantiate, returns_bind] at h
    obtain ⟨type', k, hwhnf, h⟩ := h
    split at h
    · next v dom cod =>
        simp only [returns_bind, returns_lift] at h
        obtain ⟨_, _, ⟨rfl, rfl⟩, h⟩ := h
        have hk := env.whnf_forward _ hwhnf
        have hn := hk.trans (apply_next (.single v a) cod k)
        have ha : S.Bounds k a := (hargs a mem_cons_self).mono (upTo_le hk)
        have hcod := S.hereditary.cod (hR.keeps.whnf (Nat.zero_le n) htype hwhnf) ha
        refine takes_of_whnf hR htype hwhnf (by omega) ha F (ih hcod (fun b hb => ?_) h)
        exact (hargs b (mem_cons_of_mem a hb)).mono (upTo_le hn)
    · cases (returns_pure.1 h).1

lemma Binds.takes (h : env.Binds type n fields target m) (F : Filling) :
    Takes R ((type.nameless []).fill F) (fields.vars.map F.free) ((target.nameless []).fill F) := by
  induction h with
  | nil => exact .nil (.refl _)
  | @cons type dom cod target binder x fields n k j m hwhnf hkj hx _ ih =>
    have hcod := (field_all (hR.keeps.mono (Nat.zero_le n)) htype hwhnf hkj hx).2
    exact takes_of_whnf hR htype hwhnf hkj (a := .var x) hx F (ih hcod)

end

namespace Splitting

variable {n m : Nat}

variable (hR : env.Agrees R S)

include hR

lemma type_equal (s : Splitting env Γ v c given n m) (hΓ : Γ.All S.Bounds n)
    (htype : Γ.type? v = some type) (F : Filling) :
    ∃ name, env.sig.family? name = some s.family ∧ Equal R ((type.nameless []).fill F)
      ((Nameless.global name).apps (s.args.map fun a => (a.nameless []).fill F)) := by
  obtain ⟨type', name, htype', hfamily, hwhnf⟩ := splitType_yields s.splitType
  obtain rfl : type = type' := Option.some.inj (htype.symm.trans htype')
  have hover := (hΓ _ (Telescope.mem_of_type? htype)).2
  have hequal := ((whnf_reduct (hR.upTo n) (S.upTo_behind n) hover hwhnf).steps.fill F).equal
  rw [Term.nameless_apps, Nameless.fill_apps, map_map] at hequal
  exact ⟨name, hfamily, hequal⟩

lemma args_bounds (s : Splitting env Γ v c given n m)
    (hΓ : Γ.All S.Bounds n) : ∀ a ∈ s.args, S.Bounds n a := by
  obtain ⟨type, name, htype, -, hwhnf⟩ := splitType_yields s.splitType
  have hover := (hΓ _ (Telescope.mem_of_type? htype)).2
  exact (Term.over_apps.1 (whnf_reduct (hR.upTo n) (S.upTo_behind n) hover hwhnf).reach).2

/-- The constructor applied to the parameters and the fields has the target as its type. -/
lemma takes (s : Splitting env Γ v c given n m) (henv : env.Admits S.Bounds n)
    (hc : S.globals c) (hΓ : Γ.All S.Bounds n)
    (hgiven : ∀ vs, given = some vs → ∀ x ∈ vs, x.id < n) (F : Filling) :
    Takes R ((s.ctor.type.nameless []).fill F)
      ((s.args.take s.ctor.numParams).map (fun a => (a.nameless []).fill F) ++
        s.fields.vars.map F.free) ((s.target.nameless []).fill F) := by
  obtain ⟨h₁, -⟩ := s.supply
  refine (instantiate_takes hR ?_ (fun a ha => ?_) s.instantiate F).append
    ((s.binds hgiven).1.takes hR (s.type_all henv hc hΓ) F)
  · exact (henv.ctor (by omega) hc s.ctor?_eq).mono (upTo_le h₁)
  · exact s.args_all henv.keeps hΓ a (mem_of_mem_take ha)

end Splitting

end Env

lemma Term.fill_congr {t : Term} (ht : t.Over S) {F G : Filling}
    (h : ∀ x, S.vars x → F.free x = G.free x) : (t.nameless []).fill F = (t.nameless []).fill G :=
  t.nameless_fill_congr h ht

end Clausal
