import Clausal.Proofs.Application
import Clausal.Proofs.Conflict
import Clausal.Proofs.Stability

/-!
# Impossible constructors

A constructor is ruled out for a variable when its indices are refuted.  If the
constructor has an instance all the same, the instance has a cycle.
-/

namespace Clausal

open Eval List Signature Term

variable {m n k : Nat} {c : Name} {type : Term} {v : Var} {Γ : Telescope} {F : Filling}
  {fs ps : List Nameless}

/-! ### The types of constructors -/

/-- After `n` parameters the type is an application of the named global. -/
def Term.EndsIn (name : Name) : (n : Nat) → Term → Prop
  | 0, t => ∃ args, t = (global name).apps args
  | n + 1, .pi _ _ cod => cod.EndsIn name n
  | _ + 1, _ => False

namespace Term.EndsIn

variable {env : Env}

lemma assign_apps (σ : Assignment) (args : List Term) (k : Nat) :
    ∃ args', ((((global name).apps args).assign σ).value k) =
      (global name).apps args' := by
  induction args using List.reverseRecOn with
  | nil => exact ⟨[], rfl⟩
  | append_singleton args a ih =>
    obtain ⟨args', heq⟩ := ih
    rw [apps_concat]
    simp only [assign, Fresh.value_bind, Fresh.value_pure]
    rw [heq]
    exact ⟨args' ++ [_], (apps_concat _ _ _).symm⟩

variable {t u : Term}

lemma assign (σ : Assignment) (h : t.EndsIn name n) (k : Nat) :
    ((t.assign σ).value k).EndsIn name n := by
  induction n generalizing t σ k with
  | zero =>
    obtain ⟨args, rfl⟩ := h
    exact assign_apps σ args k
  | succ n ih =>
    cases t with
    | pi v dom cod => exact ih _ (t := cod) h _
    | _ => exact h.elim

lemma apply (σ : Subst) (h : t.EndsIn name n) (k : Nat) :
    ((σ.apply t).value k).EndsIn name n := by
  by_cases he : σ.isEmpty = true
  · rw [Subst.apply_of_isEmpty he]
    exact h
  · rw [Subst.apply_of_not_isEmpty he]
    exact h.assign σ.entries k

variable (hname : env.sig.unfoldable? env.unfold name = none)

include hname

lemma whnf (h : t.EndsIn name n)
    (hrun : Returns (env.whnf t) k u m) : u = t := by
  have hwhnf := Env.Whnf.of_whnf hrun
  cases n with
  | zero =>
    obtain ⟨args, rfl⟩ := h
    exact (hwhnf.eq_of_rigid hname).1
  | succ n =>
    cases t with
    | pi v dom cod =>
      cases hwhnf with
      | inert => rfl
    | _ => exact h.elim

/-- Each argument takes one product off a type that ends in a family. -/
lemma instantiate {args : List Term}
    (h : type.EndsIn name (args.length + n))
    (hrun : Returns (env.instantiate type args) k (some u) m) : u.EndsIn name n := by
  induction args generalizing type k with
  | nil =>
    obtain ⟨heq, -⟩ := returns_pure.1 hrun
    rw [← Option.some.inj heq]
    simpa using h
  | cons a args ih =>
    simp only [Env.instantiate, returns_bind] at hrun
    obtain ⟨type', j, hwhnf, hrun⟩ := hrun
    obtain rfl := h.whnf hname hwhnf
    rw [length_cons, Nat.add_right_comm] at h
    split at hrun
    · next v dom cod =>
        simp only [returns_bind, returns_lift] at hrun
        obtain ⟨_, _, ⟨rfl, rfl⟩, hrun⟩ := hrun
        exact ih (EndsIn.apply _ (t := cod) h _) hrun
    · cases (returns_pure.1 hrun).1

lemma binds
    (hrun : env.Binds type k fields target m) (h : type.EndsIn name (fields.length + n)) :
    target.EndsIn name n := by
  induction hrun with
  | nil => simpa using h
  | @cons type dom cod target binder x fields k j l m hwhnf _ _ _ ih =>
    have heq := h.whnf hname hwhnf
    rw [← heq, length_cons, Nat.add_right_comm] at h
    exact ih (EndsIn.apply _ (t := cod) h _)

end Term.EndsIn

/-- Families and constructors are entered under their names, and the type of a
constructor is closed and ends in its family. -/
structure Signature.WellFormed (sig : Signature) : Prop where
  family : ∀ ⦃d : Name⦄ ⦃f : Family⦄, sig.family? d = some f → f.name = d
  ctor : ∀ ⦃c : Name⦄ ⦃k : Ctor⦄, sig.ctor? c = some k → k.name = c ∧ k.type.Over .closed ∧
    k.type.EndsIn k.family (k.numParams + k.numFields)

lemma Signature.unfoldable?_of_family? {sig : Signature} (h : sig.family? d = some f)
    (unfold : List Name) : sig.unfoldable? unfold d = none := by
  unfold family? at h
  unfold unfoldable? function?
  split at h
  · next hget => simp [hget]
  · simp at h

namespace Env

open Nameless (Equal Takes Founded)

variable {env : Env}

/-- A constructor applied to parameters and fields has the given type. -/
structure CtorInstance (R : Nameless.Rules) (k : Ctor) (T : Nameless) (ps fs : List Nameless) :
    Prop where
  params : ps.length = k.numParams
  fields : fs.length = k.numFields
  indices : ∃ js, Equal R T ((Nameless.global k.family).apps (ps ++ js))
  typed : Takes R (k.type.nameless []) (ps ++ fs) T

lemma Splitting.target_eq (hsig : env.sig.WellFormed) (s : Splitting env Γ v c given n m)
    (hfamily : env.sig.family? d = some s.family)
    (hgiven : ∀ vs, given = some vs → ∀ x ∈ vs, x.id < n)
    (hcount : (s.args.take s.ctor.numParams).length = s.ctor.numParams) :
    ∃ targs, s.target = (global d).apps targs ∧ s.reduced = s.target := by
  have hfolded := unfoldable?_of_family? hfamily env.unfold
  have hends := (hsig.ctor s.ctor?_eq).2.2
  obtain ⟨hbinds, hvars⟩ := s.binds hgiven
  have hlen : s.fields.length = s.ctor.numFields := by
    rw [← hvars.length, Telescope.vars, length_map]
  rw [s.family_eq.trans (hsig.family hfamily), ← hcount] at hends
  have htarget : s.target.EndsIn d 0 :=
    .binds hfolded hbinds (hlen ▸ hends.instantiate hfolded s.instantiate)
  obtain ⟨targs, htargs⟩ := id htarget
  exact ⟨targs, htargs, htarget.whnf hfolded s.whnf⟩

/-- An instance of a constructor satisfies the equations between indices. -/
lemma Splitting.holds (hclosed : env.Closed) (hsig : env.sig.WellFormed)
    (s : Splitting env Γ v c none n m) (hΓ : Γ.All Reach.closed.Bounds n)
    (htype : Γ.type? v = some type)
    (hinst : CtorInstance (env.rules hclosed) s.ctor ((type.nameless []).fill F) ps fs) :
    ∃ F' : Filling, (∀ x, x.id < n → F'.free x = F.free x) ∧ s.fields.vars.map F'.free = fs ∧
      ∀ e ∈ s.equations, Equal (env.rules hclosed) ((e.1.nameless []).fill F')
        ((e.2.nameless []).fill F') := by
  have hR := agrees_rules hclosed fun _ => False
  have hctorClosed := (hsig.ctor s.ctor?_eq).2.1
  have henv : env.Admits Reach.closed.Bounds n :=
    ⟨hR.keeps.mono (Nat.zero_le n),
      fun c k m _ _ hk => (hsig.ctor hk).2.1.mono (Reach.closed_le_upTo m)⟩
  obtain ⟨h₁, h₂, h₃, -⟩ := s.supply
  -- The values of the fields extend the instance to the new variables.
  obtain ⟨-, hvars⟩ := s.binds (by simp)
  obtain ⟨hnodup, hfresh⟩ := hvars.fresh rfl
  let F' := F.extend s.fields.vars fs
  have hagree : ∀ x : Var, x.id < n → F'.free x = F.free x := fun x hx =>
    F.extend_free_of_notMem fs fun hmem => by
      have := (hfresh x hmem).1
      omega
  have hfields : s.fields.vars.map F'.free = fs :=
    F.map_extend_free hnodup (hvars.length.trans hinst.fields.symm)
  refine ⟨F', hagree, hfields, ?_⟩
  -- The arguments of the variable's type are the parameters and indices of the instance.
  obtain ⟨d, hfamily, hargs⟩ := s.type_equal hR hΓ htype F
  obtain ⟨js, hjs⟩ := hinst.indices
  have hd : s.ctor.family = d := s.family_eq.trans (hsig.family hfamily)
  have hrigid : (env.rules hclosed).unfold d = none := by
    change (env.sig.unfoldable? env.unfold d).map _ = none
    rw [unfoldable?_of_family? hfamily, Option.map_none]
  rw [hd] at hjs
  obtain ⟨-, hpairs⟩ := Equal.spine_inj hrigid hrigid (hargs.symm.trans hjs)
  have hsame : ∀ a ∈ s.args, (a.nameless []).fill F' = (a.nameless []).fill F := fun a ha =>
    fill_congr (s.args_bounds hR hΓ a ha) hagree
  have hparams : List.Forall₂ (Equal (env.rules hclosed))
      ((s.args.take s.ctor.numParams).map fun a => (a.nameless []).fill F') ps := by
    have htake := forall₂_take s.ctor.numParams hpairs
    rw [take_left' hinst.params, ← map_take] at htake
    rwa [map_congr_left fun a ha => hsame a (mem_of_mem_take ha)]
  -- So the target is the type of the instance, and it ends in the family.
  have htakes := s.takes hR henv trivial hΓ (by simp) F'
  rw [hfields, nameless_closed hctorClosed] at htakes
  have htarget := htakes.unique hinst.typed (.refl _)
    (rel_append hparams (forall₂_same.2 fun _ _ => .refl _))
  have hcount : (s.args.take s.ctor.numParams).length = s.ctor.numParams := by
    have hlen := hparams.length_eq
    rw [length_map] at hlen
    exact hlen.trans hinst.params
  obtain ⟨targs, htargs, hreduced⟩ := s.target_eq hsig hfamily (by simp) hcount
  rw [htargs, nameless_apps, Nameless.fill_apps, map_map] at htarget
  obtain ⟨-, hindices⟩ := Equal.spine_inj hrigid hrigid (htarget.trans hargs)
  have hdrop := forall₂_drop s.ctor.numParams hindices
  rw [← map_drop, ← map_drop, forall₂_map_left_iff, forall₂_map_right_iff] at hdrop
  intro e he
  unfold equations indices at he
  rw [hreduced, htargs, globalSpine?_apps] at he
  rw [hsame e.2 (mem_of_mem_drop (of_mem_zip he).2)]
  exact forall₂_zip hdrop he

/-- Under an instance both sides of an equation are equal by computation.  So they are
if closed terms are put for the variables and the sides are found convertible, provided
that no binder is repeated: a repeated one may capture a variable. -/
inductive Holds (env : Env) (hclosed : env.Closed) : Filling → Constraint → Prop
  | equal {F : Filling} {e : Constraint} : Equal (env.rules hclosed) ((e.1.nameless []).fill F)
      ((e.2.nameless []).fill F) → Holds env hclosed F e
  | convertible {σ : Subst} {e : Constraint} {t u : Term} {X P Q : Var → Prop} {n k j m : Nat} :
      env.FreshBodies → σ.Closed → e.1.Over (.below n) → e.2.Over (.below n) →
      σ.Applied n k e.1 t → σ.Applied n k e.2 u →
      Apart X P Q j → t.Tidy ⟨X, P, False⟩ → u.Tidy ⟨X, Q, False⟩ →
      Returns (env.convertible t u) j true m → Holds env hclosed σ.filling e

lemma Holds.equal_sides (h : env.Holds hclosed F e) :
    Equal (env.rules hclosed) ((e.1.nameless []).fill F) ((e.2.nameless []).fill F) := by
  cases h with
  | equal h => exact h
  | @convertible σ _ t u X P Q n k j m hfresh hσ hleft hright ht hu hapart htidy hutidy hrun =>
    have himage : ∀ x, (Reach.below n).vars x → (σ.image x).Over (.below n) := by
      intro x hx
      rcases σ.image_cases x with hget | hvar
      · exact (hσ hget).mono (Reach.closed_le_upTo n)
      · rw [hvar]
        exact hx
    rw [← ht.nameless himage hleft, ← hu.nameless himage hright]
    exact equal_of_convertible hclosed hfresh hapart htidy hutidy hrun

/-- What a conflict says of equations over some variables.  They have no instance, or it
follows from them that one of the variables equals a constructor form in which it occurs.
If the variable is exposed in that form, as it is where the equations are first-order, its
value in every instance is infinite. -/
def Refuted (env : Env) (hclosed : env.Closed) (vars : List Var) (equations : List Constraint) :
    Prop :=
  (∀ F, ¬ ∀ e ∈ equations, env.Holds hclosed F e) ∨
    ∃ v ∈ vars, ∃ t, Cycle env (env.rules hclosed) equations v t ∧
      ((∀ e ∈ equations, e.1.FirstOrder env ∧ e.2.FirstOrder env) → t.Exposes env v) ∧
      ∀ F, (∀ e ∈ equations, env.Holds hclosed F e) →
        Equal (env.rules hclosed) (F.free v) ((t.nameless []).fill F) ∧
          (t.Exposes env v → ¬ Founded (env.rules hclosed) (F.free v))

lemma refuted_of_conflict (hclosed : env.Closed) (hΓ : Γ.All Reach.closed.Bounds n)
    (heqs : ∀ e ∈ equations, e.1.Over (.below n) ∧ e.2.Over (.below n))
    (hrun : Returns (unify env Γ equations) n (.ok .conflict) m) :
    env.Refuted hclosed Γ.vars equations := by
  have hsatisfies {F : Filling} (hF : ∀ e ∈ equations, env.Holds hclosed F e) :
      F.Satisfies (env.rules hclosed) equations := fun e he => (hF e he).equal_sides
  rcases cycle_of_conflict (agrees_rules hclosed fun _ => False) hΓ heqs hrun with
    hnone | ⟨v, hv, t, hcycle, hexposes⟩
  · exact .inl fun F hF => hnone F (hsatisfies hF)
  · refine .inr ⟨v, hv, t, hcycle, hexposes, fun F hF => ?_⟩
    have hequal := (hsatisfies hF).equal hcycle.follows
    exact ⟨hequal, not_founded_of_exposes hclosed hequal⟩

/-- A constructor is ruled out by equations between indices that every instance of it
satisfies. -/
lemma refuted_of_impossible (hclosed : env.Closed) (hsig : env.sig.WellFormed)
    (hΓ : Γ.All Reach.closed.Bounds n) (hrun : Yields (env.refine Γ v d none) n (.impossible c) m)
    {k : Ctor} (hk : env.ctor? c = some k) :
    ∃ fields equations, env.Refuted hclosed (Γ.vars ++ fields) equations ∧
      ∀ ⦃type : Term⦄ ⦃F : Filling⦄ ⦃ps fs : List Nameless⦄, Γ.type? v = some type →
        CtorInstance (env.rules hclosed) k ((type.nameless []).fill F) ps fs →
        ∃ F' : Filling, (∀ x, x.id < n → F'.free x = F.free x) ∧ fields.map F'.free = fs ∧
          ∀ e ∈ equations, env.Holds hclosed F' e := by
  obtain ⟨j, s, ⟨u, l, -, heq, -⟩ | ⟨hunify, heq⟩⟩ := refine_yields hrun
  · cases heq
  obtain rfl : c = d := by simpa using heq
  obtain rfl : s.ctor = k := Option.some.inj (s.ctor?_eq.symm.trans hk)
  have hR := agrees_rules hclosed fun _ => False
  have henv : env.Admits Reach.closed.Bounds n :=
    ⟨hR.keeps.mono (Nat.zero_le n),
      fun c k m _ _ hk => (hsig.ctor hk).2.1.mono (Reach.closed_le_upTo m)⟩
  have hrefuted := refuted_of_conflict hclosed (s.refined_all henv trivial hΓ (by simp))
    (s.equations_all henv trivial hΓ (by simp)) hunify
  have hvars : s.refined.vars ⊆ Γ.vars ++ s.fields.vars := by
    rw [s.refined_vars, append_assoc]
    simp only [append_subset]
    exact ⟨subset_append_of_subset_left _ (map_subset _ (take_subset _ _)),
      subset_append_right _ _, subset_append_of_subset_left _ (map_subset _ (drop_subset _ _))⟩
  refine ⟨s.fields.vars, s.equations, hrefuted.imp_right ?_, fun type F ps fs htype hinst => ?_⟩
  · rintro ⟨w, hw, hrest⟩
    exact ⟨w, hvars hw, hrest⟩
  · obtain ⟨F', hagree, hfields, hholds⟩ := s.holds hclosed hsig hΓ htype hinst
    exact ⟨F', hagree, hfields, fun e he => .equal (hholds e he)⟩

/-- A conflict leaves no substitution of closed terms under which all sides
become convertible. -/
def ExcludesInstances (env : Env) : Prop :=
  ∀ (Γ : Telescope) (equations : List Constraint) (σ : Subst) (n m : Nat),
    Returns (unify env Γ equations) n (.ok .conflict) m → σ.Closed →
    ¬ ∀ e ∈ equations, ∃ k l, Returns (env.convertibleUnder σ e.1 e.2) k true l

end Env

/-! ### Instances -/

namespace Impossible

open Nameless (Equal Takes Founded)

def x : Var := ⟨0, "x"⟩

def e : Var := ⟨1, "e"⟩

def a : Var := ⟨2, "A"⟩

def b : Var := ⟨3, "b"⟩

def nat : Term := .global "Nat"

/-- The successor of a term. -/
def succ (t : Term) : Term := .app (.global "succ") t

/-- The type of functions from two parameters. -/
def overParams (body : Term) : Term := .pi a .univ (.pi b (.var a) body)

/-- Natural numbers, equality, and a number that is its own successor. -/
def entries : List (Name × Entry) :=
  [("Nat", .family ⟨"Nat", [], .univ, ["succ"]⟩),
    ("succ", .ctor ⟨"succ", "Nat", 0, 1, .pi b nat nat⟩),
    ("Eq", .family ⟨"Eq", [(a, .univ), (b, .var a)], overParams (.pi x (.var a) .univ), ["refl"]⟩),
    ("refl", .ctor ⟨"refl", "Eq", 2, 0, overParams (.eq (.var a) (.var b) (.var b))⟩),
    ("inf", .function ⟨"inf", nat, some (succ (.global "inf")), true, none⟩)]

def env : Env where
  sig := { entries }
  fuel := 16

/-- The variable stands for the infinite number. -/
def value : Subst := .single x (.global "inf")

def numbers : Telescope := [(x, nat)]

def proofs : Telescope := [(x, nat), (e, .eq nat (.var x) (succ (.var x)))]

lemma mem_entries (h : env.sig.get? name = some entry) : (name, entry) ∈ entries := by
  obtain ⟨⟨name', entry'⟩, hfind, rfl⟩ := Option.map_eq_some_iff.1 h
  have hkey : name' = name := by simpa using find?_some hfind
  exact hkey ▸ mem_of_find?_eq_some hfind

lemma unfoldable_env (h : env.sig.unfoldable? env.unfold name = some body) :
    body = succ (.global "inf") := by
  unfold unfoldable? function? at h
  split at h
  · next f hf =>
      split at hf
      · next g hget =>
          cases hf
          have hmem := mem_entries hget
          simp only [entries, mem_cons, Prod.mk.injEq, Entry.function.injEq, not_mem_nil,
            reduceCtorEq, and_false, false_or, or_false] at hmem
          obtain ⟨-, rfl⟩ := hmem
          exact (Option.some.inj h).symm
      · cases hf
  · cases h

lemma env_closed : env.Closed := by
  intro name body h
  rw [unfoldable_env h]
  simp [succ, Over, Reach.closed]

lemma env_freshBodies : env.FreshBodies := by
  intro name body h
  rw [unfoldable_env h]
  exact .inr (by simp [succ, Tidy])

lemma env_wellFormed : env.sig.WellFormed where
  family d f h := by
    unfold family? at h
    split at h
    · next g hget =>
        cases h
        have hmem := mem_entries hget
        simp only [entries, mem_cons, Prod.mk.injEq, Entry.family.injEq, not_mem_nil,
          reduceCtorEq, and_false, false_or, or_false] at hmem
        rcases hmem with ⟨rfl, rfl⟩ | ⟨rfl, rfl⟩ <;> rfl
    · cases h
  ctor c k h := by
    unfold ctor? at h
    split at h
    · next g hget =>
        cases h
        have hmem := mem_entries hget
        simp only [entries, mem_cons, Prod.mk.injEq, Entry.ctor.injEq, not_mem_nil,
          reduceCtorEq, and_false, false_or, or_false] at hmem
        rcases hmem with ⟨rfl, rfl⟩ | ⟨rfl, rfl⟩
        · exact ⟨rfl, by simp [nat, Over, Reach.bind, Reach.closed], [], rfl⟩
        · refine ⟨rfl, ?_, [.var a, .var b, .var b], rfl⟩
          simp [overParams, eq, apps, Over, Reach.bind, Reach.closed]
    · cases h

lemma value_closed : value.Closed := by
  intro v t h
  rw [Subst.eq_of_get?_single h]
  trivial

/-- Natural numbers and a function that ignores its argument. -/
def constEnv : Env where
  sig :=
    { entries :=
        [("Nat", .family ⟨"Nat", [], .univ, ["zero", "succ"]⟩),
          ("zero", .ctor ⟨"zero", "Nat", 0, 0, nat⟩),
          ("succ", .ctor ⟨"succ", "Nat", 0, 1, .pi b nat nat⟩),
          ("const", .function ⟨"const", .pi b nat nat, some (.lam b nat (.global "zero")), true,
            none⟩)] }
  fuel := 16

lemma inf_equal : Equal (env.rules env_closed) (.global "inf")
    (.app (.global "succ") (.global "inf")) := .unfold rfl

/-- Reflexivity proves that the infinite number is its own successor. -/
lemma refl_instance : Env.CtorInstance (env.rules env_closed)
    ⟨"refl", "Eq", 2, 0, overParams (.eq (.var a) (.var b) (.var b))⟩
    (((eq nat (.var x) (succ (.var x))).nameless []).fill value.filling)
    [.global "Nat", .global "inf"] [] where
  params := rfl
  fields := rfl
  indices := ⟨[.app (.global "succ") (.global "inf")], .refl _⟩
  typed := .cons (.refl _) (.cons (.refl _) (.nil (.app (.refl _) inf_equal)))

/-- The infinite number is found convertible with its successor. -/
lemma inf_holds : env.Holds env_closed value.filling (.var x, succ (.var x)) := by
  have hapart : Apart (fun _ => False) (fun _ => False) (fun _ => False) 1 := by
    constructor <;> simp
  refine .convertible (n := 1) (k := 1) (j := 1) (m := 1) env_freshBodies value_closed ?_ ?_
    ⟨1, le_refl 1, le_refl 1, rfl⟩ ⟨1, le_refl 1, le_refl 1, rfl⟩ hapart ?_ ?_ rfl
  · simp [Over, Reach.below, x]
  · simp [succ, Over, Reach.below, x]
  · exact trivial
  · exact ⟨trivial, trivial⟩

end Impossible
end Clausal
