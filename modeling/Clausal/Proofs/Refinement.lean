import Clausal.Proofs.Unification

/-!
# Refinement of contexts

What splitting a variable on a constructor computes before and after
unification, and what it keeps: the fields are new variables, variables that
stay in the context stand for themselves, and the variable that was split has
the constructor form as its value.
-/

namespace Clausal.Env

open Eval List Subst

variable {env : Env} {type : Term} {fields : Telescope} {count : Nat}

/-! ### Runs -/

variable {Γ : Telescope} {given : Option (List Var)}

lemma splitType_yields (h : Yields (env.splitType Γ v) n (family, args) m) :
    ∃ type name, Γ.type? v = some type ∧ env.sig.family? name = some family ∧
      Returns (env.whnf type) n ((Term.global name).apps args) m := by
  unfold splitType at h
  split at h
  · simp at h
  · next type htype =>
      simp only [yields_bind, yields_lift] at h
      obtain ⟨u, k, hu, h⟩ := h
      split at h
      · next name args' hspine =>
          split at h
          · next family' hfamily =>
              obtain ⟨heq, rfl⟩ := yields_pure.1 h
              cases heq
              exact ⟨type, name, htype, hfamily, Term.eq_of_globalSpine? hspine ▸ hu⟩
          · simp at h
      · simp at h

/-- What splitting a variable on a constructor computes before unification,
from the supply `n` to `m`. -/
structure Splitting (env : Env) (Γ : Telescope) (v : Var) (c : Name) (given : Option (List Var))
    (n m : Nat) where
  family : Family
  args : List Term
  ctor : Ctor
  /-- The type of the constructor applied to the parameters. -/
  type : Term
  fields : Telescope
  /-- The type of the constructor form, and its reduced form. -/
  target : Term
  reduced : Term
  position : Nat
  n₁ : Nat
  n₂ : Nat
  n₃ : Nat
  n₄ : Nat
  splitType : Yields (env.splitType Γ v) n (family, args) n₁
  ctor?_eq : env.ctor? c = some ctor
  family_eq : ctor.family = family.name
  given_length : ∀ vs, given = some vs → vs.length = ctor.numFields
  instantiate : Returns (env.instantiate ctor.type (args.take ctor.numParams)) n₁ (some type) n₂
  bindFields : Yields (env.bindFields c given 0 ctor.numFields type) n₂ (fields, target) n₃
  whnf : Returns (env.whnf target) n₃ reduced n₄
  position?_eq : Γ.position? v = some position
  next : (replaceVar Γ position fields (single v
    ((Term.global c).apps (args.take ctor.numParams ++ Telescope.args fields)))).next n₄ = m

namespace Splitting

variable {Γ : Telescope} {given : Option (List Var)} {n m : Nat}

/-- The constructor form that the variable stands for. -/
def value (s : Splitting env Γ v c given n m) : Term :=
  (Term.global c).apps (s.args.take s.ctor.numParams ++ Telescope.args s.fields)

/-- The context with the fields in place of the variable. -/
def refined (s : Splitting env Γ v c given n m) : Telescope :=
  (replaceVar Γ s.position s.fields (single v s.value)).value s.n₄

/-- The indices of the constructor must be those of the variable. -/
def equations (s : Splitting env Γ v c given n m) : List Constraint :=
  (indices s.ctor s.reduced).zip (s.args.drop s.ctor.numParams)

end Splitting

/-- Splitting a variable on a constructor ends with unification. -/
lemma refine_yields (h : Yields (env.refine Γ v c given) n candidate m) :
    ∃ k, ∃ s : Splitting env Γ v c given n k,
      (∃ u l, Returns (unify env s.refined s.equations) k (.ok (.success u)) l ∧
        candidate = .possible ⟨c, s.fields.vars, u.context,
          ((single v s.value).compose u.subst).value l⟩ ∧
        ((single v s.value).compose u.subst).next l = m) ∨
      Returns (unify env s.refined s.equations) k (.ok .conflict) m ∧
        candidate = .impossible c := by
  simp only [refine, yields_bind] at h
  obtain ⟨⟨family, args⟩, n₁, hsplit, h⟩ := h
  split at h
  · simp at h
  · next ctor hctor =>
      split at h
      · next hfamily =>
          simp only [yields_bind] at h
          obtain ⟨_, k, hcount, h⟩ := h
          have hgiven : (∀ vs, given = some vs → vs.length = ctor.numFields) ∧ k = n₁ := by
            unfold checkFieldCount at hcount
            split at hcount
            · obtain ⟨-, rfl⟩ := yields_pure.1 hcount
              exact ⟨by simp, rfl⟩
            · next vs =>
                split at hcount
                · next hlen =>
                    obtain ⟨-, rfl⟩ := yields_pure.1 hcount
                    exact ⟨by simpa using hlen, rfl⟩
                · simp at hcount
          obtain ⟨hgiven, rfl⟩ := hgiven
          simp only [refineAt, yields_bind, yields_lift] at h
          obtain ⟨type, n₂, hinst, h⟩ := h
          split at h
          · simp at h
          · next type =>
              simp only [yields_bind, yields_lift] at h
              obtain ⟨⟨fields, target⟩, n₃, hfields, reduced, n₄, hwhnf, h⟩ := h
              split at h
              · simp at h
              · next position hposition =>
                  simp only [yields_bind, yields_lift, yields_liftFresh] at h
                  obtain ⟨_, _, ⟨rfl, hk⟩, r, l, hunify, h⟩ := h
                  let s : Splitting env Γ v c given n _ :=
                    ⟨family, args, ctor, type, fields, target, reduced, position, _, n₂, n₃, n₄,
                      hsplit, hctor, hfamily, hgiven, hinst, hfields, hwhnf, hposition, hk⟩
                  refine ⟨_, s, ?_⟩
                  split at h
                  · next u =>
                      simp only [yields_bind, yields_liftFresh, yields_pure] at h
                      obtain ⟨_, _, ⟨rfl, rfl⟩, rfl, rfl⟩ := h
                      exact .inl ⟨u, l, hunify, rfl, rfl⟩
                  · obtain ⟨rfl, rfl⟩ := yields_pure.1 h
                    exact .inr ⟨hunify, rfl⟩
                  · simp at h
      · simp at h

/-! ### What splitting keeps -/

variable {P : Nat → Term → Prop}

lemma instantiate_all (hkeeps : env.Keeps P n) (htype : P n type) (hargs : ∀ a ∈ args, P n a)
    (h : Returns (env.instantiate type args) n (some u) m) : P m u := by
  have hP := hkeeps.hereditary
  induction args generalizing type n with
  | nil =>
    obtain ⟨heq, rfl⟩ := returns_pure.1 h
    exact Option.some.inj heq ▸ htype
  | cons a args ih =>
    simp only [instantiate, returns_bind] at h
    obtain ⟨type', k, hwhnf, h⟩ := h
    have hk := env.whnf_forward _ hwhnf
    have htype' : P k type' := hkeeps.whnf (le_refl n) htype hwhnf
    split at h
    · next v dom cod =>
        simp only [returns_bind, returns_lift] at h
        obtain ⟨_, _, ⟨rfl, rfl⟩, h⟩ := h
        have hn := hk.trans (apply_next (.single v a) cod k)
        have hcod := hP.cod htype' (hP.mono hk (hargs a mem_cons_self))
        exact ih (hkeeps.mono hn) hcod
          (fun b hb => hP.mono hn (hargs b (mem_cons_of_mem a hb))) h
    · cases (returns_pure.1 h).1

/-- Fields are new variables unless they are given. -/
structure FieldVars (given : Option (List Var)) (index count n m : Nat) (vars : List Var) :
    Prop where
  length : vars.length = count
  fresh : given = none → vars.Nodup ∧ ∀ x ∈ vars, n ≤ x.id ∧ x.id < m
  given : ∀ vs, given = some vs → vars = (vs.drop index).take count

lemma fieldVar_over (binder : Var)
    (hgiven : ∀ vs, given = some vs → index < vs.length ∧ ∀ x ∈ vs, x.id < n) :
    ((fieldVar given index binder).value n).id < (fieldVar given index binder).next n := by
  unfold fieldVar
  split
  · next vs =>
      obtain ⟨hlt, hvs⟩ := hgiven vs rfl
      rw [Fresh.value_pure, Fresh.next_pure, getD_eq_getElem?_getD, getElem?_eq_getElem hlt]
      exact hvs _ (getElem_mem hlt)
  · split <;> exact Nat.lt_succ_self n

lemma FieldVars.cons (hnk : n ≤ k) (hkl : (fieldVar given index binder).next k ≤ l) (hlm : l ≤ m)
    (hgiven : ∀ vs, given = some vs → index < vs.length)
    (h : FieldVars given (index + 1) count l m vars) :
    FieldVars given index (count + 1) n m ((fieldVar given index binder).value k :: vars) where
  length := by rw [length_cons, h.length]
  fresh hnone := by
    subst hnone
    obtain ⟨hnodup, hvars⟩ := h.fresh rfl
    have hid : ((fieldVar none index binder).value k).id = k ∧
        (fieldVar none index binder).next k = k + 1 := by
      simp only [fieldVar]
      split <;> exact ⟨rfl, rfl⟩
    rw [hid.2] at hkl
    refine ⟨nodup_cons.2 ⟨fun hmem => ?_, hnodup⟩, fun x hx => ?_⟩
    · have := (hvars _ hmem).1
      omega
    · rcases mem_cons.1 hx with rfl | hx
      · omega
      · have := hvars x hx
        omega
  given vs hvs := by
    have hlt := hgiven vs hvs
    subst hvs
    rw [h.given vs rfl, drop_eq_getElem_cons hlt, take_succ_cons]
    congr 1
    simp only [fieldVar, Fresh.value_pure, getD_eq_getElem?_getD,
      getElem?_eq_getElem hlt, Option.getD_some]

/-- The fields of a constructor whose remaining type is given, and what type is
left after them. -/
inductive Binds (env : Env) : Term → Nat → Telescope → Term → Nat → Prop
  | nil (type : Term) (n : Nat) : Binds env type n [] type n
  | cons {type dom cod target : Term} {binder x : Var} {fields : Telescope} {n k j m : Nat} :
      Returns (env.whnf type) n (.pi binder dom cod) k → k ≤ j → x.id < j →
      Binds env (((single binder (.var x)).apply cod).value j)
        (((single binder (.var x)).apply cod).next j) fields target m →
      Binds env type n ((x, dom) :: fields) target m

/-- Fields are bound one by one, each in the type that is left. -/
lemma bindFields_binds
    (hgiven : ∀ vs, given = some vs → index + count ≤ vs.length ∧ ∀ x ∈ vs, x.id < n)
    (h : Yields (env.bindFields c given index count type) n (fields, target) m) :
    env.Binds type n fields target m ∧ FieldVars given index count n m fields.vars := by
  induction count generalizing index n type fields target with
  | zero =>
    obtain ⟨heq, rfl⟩ := yields_pure.1 h
    cases heq
    refine ⟨.nil _ _, rfl, fun _ => ?_, fun vs _ => ?_⟩ <;> simp [Telescope.vars]
  | succ count ih =>
    simp only [bindFields, yields_bind, yields_lift] at h
    obtain ⟨type', k, hwhnf, h⟩ := h
    have hk := env.whnf_forward _ hwhnf
    split at h
    · next binder dom cod =>
        simp only [yields_bind, yields_liftFresh] at h
        obtain ⟨field, j, ⟨hfield, hj⟩, _, _, ⟨rfl, rfl⟩, ⟨rest, target'⟩, l, hrest, h⟩ := h
        obtain ⟨heq, rfl⟩ := yields_pure.1 h
        cases heq
        have hkj : k ≤ j := hj ▸ fieldVar_next given index binder k
        have hnext := apply_next (.single binder (.var field)) cod j
        have hn := le_trans (hk.trans hkj) hnext
        have hindex : ∀ vs, given = some vs → index < vs.length := fun vs hvs => by
          have := (hgiven vs hvs).1
          omega
        have hvar : field.id < j := by
          rw [← hfield, ← hj]
          refine fieldVar_over binder fun vs hvs => ⟨hindex vs hvs, fun x hx => ?_⟩
          exact lt_of_lt_of_le ((hgiven vs hvs).2 x hx) hk
        obtain ⟨hbinds, hvars⟩ := ih (fun vs hvs =>
          ⟨by have := (hgiven vs hvs).1; omega,
            fun x hx => lt_of_lt_of_le ((hgiven vs hvs).2 x hx) hn⟩) hrest
        refine ⟨.cons hwhnf hkj hvar hbinds, ?_⟩
        have hcons := FieldVars.cons hk (le_trans (le_of_eq hj) hnext)
          (bindFields_forward _ _ _ _ _ hrest) hindex hvars
        rwa [hfield] at hcons
    · simp at h

lemma Binds.next (h : env.Binds type n fields target m) : n ≤ m := by
  induction h with
  | nil => exact le_rfl
  | cons hwhnf hkj _ _ ih =>
    exact le_trans (le_trans (env.whnf_forward _ hwhnf) hkj)
      (le_trans (apply_next _ _ _) ih)

lemma field_all {x : Var} (hkeeps : env.Keeps P n) (htype : P n type)
    (hwhnf : Returns (env.whnf type) n (.pi binder dom cod) k) (hkj : k ≤ j) (hx : x.id < j) :
    P k dom ∧
      P (((single binder (.var x)).apply cod).next j)
        (((single binder (.var x)).apply cod).value j) := by
  have hP := hkeeps.hereditary
  have hpi := hkeeps.whnf (le_refl n) htype hwhnf
  exact ⟨hP.dom hpi, hP.cod (hP.mono hkj hpi) (hP.var.2 hx)⟩

lemma Binds.all (hkeeps : env.Keeps P n) (htype : P n type)
    (h : env.Binds type n fields target m) : fields.All P m ∧ P m target := by
  have hP := hkeeps.hereditary
  induction h with
  | nil => exact ⟨by simp [Telescope.All], htype⟩
  | @cons type dom cod target binder x fields n k j m hwhnf hkj hx hrest ih =>
    have hnj := le_trans (env.whnf_forward _ hwhnf) hkj
    have hnext := apply_next (.single binder (.var x)) cod j
    obtain ⟨hdom, hcod⟩ := field_all hkeeps htype hwhnf hkj hx
    obtain ⟨hfields, htarget⟩ := ih (hkeeps.mono (hnj.trans hnext)) hcod
    have hm := hrest.next
    refine ⟨fun e he => ?_, htarget⟩
    rcases mem_cons.1 he with rfl | he
    · exact ⟨show x.id < m by omega, hP.mono (show k ≤ m by omega) hdom⟩
    · exact hfields e he

/-- Reduction keeps a property, and the types of constructors have it. -/
structure Admits (env : Env) (P : Nat → Term → Prop) (n : Nat) : Prop where
  keeps : env.Keeps P n
  ctor : ∀ ⦃c : Name⦄ ⦃k : Ctor⦄ ⦃m : Nat⦄, n ≤ m → P m (.global c) → env.ctor? c = some k →
    P m k.type

lemma Admits.mono (h : env.Admits P n) (hnm : n ≤ m) : env.Admits P m :=
  ⟨h.keeps.mono hnm, fun _ _ _ hm => h.ctor (hnm.trans hm)⟩

namespace Splitting

variable {Γ : Telescope} {given : Option (List Var)} {n m : Nat} (s : Splitting env Γ v c given n m)

include s

lemma supply : n ≤ s.n₁ ∧ s.n₁ ≤ s.n₂ ∧ s.n₂ ≤ s.n₃ ∧ s.n₃ ≤ s.n₄ ∧ s.n₄ ≤ m :=
  ⟨splitType_forward Γ v s.splitType, instantiate_forward _ _ s.instantiate,
    bindFields_forward _ _ _ _ _ s.bindFields, env.whnf_forward _ s.whnf,
    le_trans (replaceVar_next _ _ _ _ _) (le_of_eq s.next)⟩

lemma args_all (hkeeps : env.Keeps P n)
    (hΓ : Γ.All P n) : ∀ a ∈ s.args, P s.n₁ a := by
  obtain ⟨type, name, htype, -, hwhnf⟩ := splitType_yields s.splitType
  have hall := hkeeps.whnf (le_refl n) (hΓ _ (Telescope.mem_of_type? htype)).2 hwhnf
  exact (hkeeps.hereditary.apps.1 hall).2

lemma type_all (henv : env.Admits P n)
    (hc : P n (.global c)) (hΓ : Γ.All P n) : P s.n₂ s.type := by
  have hP := henv.keeps.hereditary
  obtain ⟨h₁, -⟩ := s.supply
  exact instantiate_all (henv.keeps.mono h₁) (hP.mono h₁ (henv.ctor (le_refl n) hc s.ctor?_eq))
    (fun a ha => s.args_all henv.keeps hΓ a (mem_of_mem_take ha)) s.instantiate

lemma binds
    (hgiven : ∀ vs, given = some vs → ∀ x ∈ vs, x.id < n) :
    env.Binds s.type s.n₂ s.fields s.target s.n₃ ∧
      FieldVars given 0 s.ctor.numFields s.n₂ s.n₃ s.fields.vars := by
  obtain ⟨h₁, h₂, -⟩ := s.supply
  refine bindFields_binds (fun vs hvs => ⟨?_, fun x hx => ?_⟩) s.bindFields
  · exact le_of_eq (by rw [s.given_length vs hvs, Nat.zero_add])
  · exact lt_of_lt_of_le (hgiven vs hvs x hx) (h₁.trans h₂)

lemma refined_eq : ∃ later,
    s.refined = Γ.take s.position ++ s.fields ++ later ∧
      Forall₂ (fun e e' => e'.1 = e.1 ∧ (single v s.value).Applied s.n₄ m e.2 e'.2)
        (Γ.drop (s.position + 1)) later := by
  obtain ⟨-, hentries⟩ :=
    applyEntries_spec (.single v s.value) (Γ.drop (s.position + 1)) s.n₄
  refine ⟨_, rfl, hentries.imp fun e e' h => ⟨h.1, h.2.mono le_rfl ?_⟩⟩
  exact le_of_eq s.next

lemma vars_eq : Γ.vars =
    Telescope.vars (Γ.take s.position) ++ v :: Telescope.vars (Γ.drop (s.position + 1)) := by
  obtain ⟨type, hsplit⟩ := Telescope.position?_eq_some s.position?_eq
  conv => lhs; rw [hsplit]
  simp [Telescope.vars]

lemma refined_vars : s.refined.vars =
    Telescope.vars (Γ.take s.position) ++ s.fields.vars ++
      Telescope.vars (Γ.drop (s.position + 1)) := by
  obtain ⟨later, heq, hlater⟩ := s.refined_eq
  rw [heq, ← Telescope.vars_of_forall₂ hlater]
  simp [Telescope.vars]

variable (henv : env.Admits P n) (hc : P n (.global c)) (hΓ : Γ.All P n)
  (hgiven : ∀ vs, given = some vs → ∀ x ∈ vs, x.id < n)

include henv hc hΓ hgiven

lemma fields_all : s.fields.All P s.n₃ ∧ P s.n₃ s.target := by
  obtain ⟨h₁, h₂, -⟩ := s.supply
  exact (s.binds hgiven).1.all (henv.keeps.mono (h₁.trans h₂)) (s.type_all henv hc hΓ)

lemma value_all : P s.n₃ s.value := by
  have hP := henv.keeps.hereditary
  obtain ⟨h₁, h₂, h₃, -⟩ := s.supply
  refine hP.apps.2 ⟨hP.mono (by omega) hc, fun a ha => ?_⟩
  rcases mem_append.1 ha with ha | ha
  · exact hP.mono (by omega) (s.args_all henv.keeps hΓ a (mem_of_mem_take ha))
  · exact hP.args (s.fields_all henv hc hΓ hgiven).1 a ha

lemma refined_all : s.refined.All P m := by
  have hP := henv.keeps.hereditary
  obtain ⟨h₁, h₂, h₃, h₄, h₅⟩ := s.supply
  obtain ⟨hfields, -⟩ := s.fields_all henv hc hΓ hgiven
  have hvalue : (single v s.value).All P s.n₄ :=
    .single (hP.mono h₄ (s.value_all henv hc hΓ hgiven))
  obtain ⟨later, heq, hlater⟩ := s.refined_eq
  rw [heq]
  intro e he
  rcases mem_append.1 he with he | he
  · rcases mem_append.1 he with he | he
    · exact hP.telescope_mono hΓ (by omega) e (mem_of_mem_take he)
    · exact hP.telescope_mono hfields (by omega) e he
  · obtain ⟨old, hold, hkey, happ⟩ := mem_of_forall₂ hlater he
    obtain ⟨hvar, htype⟩ :=
      hP.telescope_mono hΓ (show n ≤ s.n₄ by omega) old (mem_of_mem_drop hold)
    rw [hkey]
    exact ⟨hvar.trans_le h₅, hvalue.applied hP happ htype⟩

lemma equations_all : ∀ e ∈ s.equations, P m e.1 ∧ P m e.2 := by
  have hP := henv.keeps.hereditary
  obtain ⟨h₁, h₂, h₃, h₄, h₅⟩ := s.supply
  obtain ⟨-, htarget⟩ := s.fields_all henv hc hΓ hgiven
  have hreduced : P s.n₄ s.reduced := henv.keeps.whnf (by omega) htarget s.whnf
  intro e he
  obtain ⟨hleft, hright⟩ := of_mem_zip he
  refine ⟨?_, hP.mono (by omega) (s.args_all henv.keeps hΓ _ (mem_of_mem_drop hright))⟩
  unfold indices at hleft
  split at hleft
  · next name args hspine =>
      rw [Term.eq_of_globalSpine? hspine] at hreduced
      exact hP.mono h₅ ((hP.apps.1 hreduced).2 _ (mem_of_mem_drop hleft))
  · cases hleft

end Splitting

end Clausal.Env
