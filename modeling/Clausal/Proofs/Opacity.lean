import Clausal.Proofs.Workspace

/-!
# Bodies that are not looked at

A function is opaque unless it is transparent or listed as one to unfold.  In
signatures that differ in the bodies of opaque functions only, computations take the
same variables, return the same results and fail with the same errors.
-/

namespace Clausal

open Unify

variable {unfold : List Name}

/-- Two entries under a name that differ at most in the body of a function that
may not be unfolded. -/
inductive Entry.AgreeUnfolding (unfold : List Name) (name : Name) : Entry → Entry → Prop
  | same (entry : Entry) : AgreeUnfolding unfold name entry entry
  | sealed (f : Function) (body : Option Term) (hclosed : f.transparent = false)
      (hunlisted : name ∉ unfold) :
      AgreeUnfolding unfold name (.function f) (.function { f with body })

/-- Two signatures that agree on everything except the bodies of functions that
are neither transparent nor listed. -/
structure Signature.AgreeUnfolding (unfold : List Name) (sig sig' : Signature) : Prop where
  entries : ∀ name, Option.Rel (Entry.AgreeUnfolding unfold name) (sig.get? name) (sig'.get? name)
  listNotation : sig.listNotation = sig'.listNotation

lemma Signature.AgreeUnfolding.get? {sig : Signature} (h : sig.AgreeUnfolding unfold sig')
    (name : Name) :
    sig.get? name = sig'.get? name ∨
      ∃ f body, sig.get? name = some (.function f) ∧
        sig'.get? name = some (.function { f with body }) ∧
        (f.transparent || unfold.contains name) = false := by
  have hrel := h.entries name
  revert hrel
  generalize sig.get? name = entry, sig'.get? name = entry'
  rintro (⟨⟨⟩ | ⟨f, body, hclosed, hunlisted⟩⟩ | ⟨⟩)
  · exact .inl rfl
  · exact .inr ⟨f, body, rfl, rfl, by simp [hclosed, hunlisted]⟩
  · exact .inl rfl

lemma Entry.AgreeUnfolding.rel_refl (entry : Option Entry) :
    Option.Rel (Entry.AgreeUnfolding unfold name) entry entry := by
  cases entry with
  | none => exact .none
  | some entry => exact .some (.same entry)

lemma Signature.AgreeUnfolding.addFunction (sig : Signature) (f : Function) (body : Option Term)
    (hclosed : f.transparent = false) (hunlisted : f.name ∉ unfold) :
    (sig.addFunction f).AgreeUnfolding unfold (sig.addFunction { f with body }) where
  entries := by
    intro name
    simp only [Signature.addFunction, Signature.get?_insert]
    by_cases hname : name = f.name
    · simp only [hname, if_true]
      exact .some (.sealed f body hclosed hunlisted)
    · simp only [hname, if_false]
      exact Entry.AgreeUnfolding.rel_refl _
  listNotation := by
    simp only [Signature.addFunction, Signature.insert]
    split <;> rfl

namespace Env

/-- Two environments that show the same: all that a computation can see of a
signature are constructors, families, types and bodies that may be unfolded. -/
structure SameView (env env' : Env) : Prop where
  fuel : env.fuel = env'.fuel
  ctor : env.ctor? = env'.ctor?
  family : env.sig.family? = env'.sig.family?
  type : env.sig.type? = env'.sig.type?
  body : env.sig.unfoldable? env.unfold = env'.sig.unfoldable? env'.unfold

/-- Signatures that agree but for opaque bodies look the same. -/
lemma SameView.of_agree {sig : Signature} (fuel : Nat) (h : sig.AgreeUnfolding unfold sig') :
    SameView ⟨sig, unfold, fuel⟩ ⟨sig', unfold, fuel⟩ := by
  constructor
  case fuel => rfl
  -- Of a function only the body may differ, and `unfoldable?` does not give it out.
  all_goals
    funext name
    rcases h.get? name with heq | ⟨f, body, hf, hf', hsealed⟩
  case ctor.inl => simp only [Env.ctor?, Signature.ctor?, heq]
  case ctor.inr => simp only [Env.ctor?, Signature.ctor?, hf, hf']
  case family.inl => simp only [Signature.family?, heq]
  case family.inr => simp only [Signature.family?, hf, hf']
  case type.inl => simp only [Signature.type?, heq]
  case type.inr => simp only [Signature.type?, hf, hf', Option.map_some, Entry.type]
  case body.inl => simp only [Signature.unfoldable?, Signature.function?, heq]
  case body.inr =>
    simp only [Signature.unfoldable?, Signature.function?, hf, hf', hsealed, Bool.false_eq_true,
      if_false]

namespace SameView

variable (h : SameView env env')

include h

lemma ctorSpine : env.ctorSpine? = env'.ctorSpine? := by
  funext t
  simp only [ctorSpine?, h.ctor]

lemma matchBranch : env.matchBranch? = env'.matchBranch? := by
  funext scrut branches
  simp only [matchBranch?, h.ctorSpine]

/-- Reduction only looks at what both signatures share. -/
lemma whnfWith (fuel : Nat) :
    env.whnfWith fuel = env'.whnfWith fuel ∧ env.whnfSpine fuel = env'.whnfSpine fuel ∧
      env.reduceCase fuel = env'.reduceCase fuel := by
  induction fuel with
  | zero => exact ⟨rfl, rfl, rfl⟩
  | succ fuel ih =>
    obtain ⟨hwhnf, hspine, hcase⟩ := ih
    refine ⟨?_, ?_, ?_⟩
    · funext t
      cases t <;> simp only [Env.whnfWith, hwhnf, hspine, hcase]
    · funext head args
      unfold Env.whnfSpine
      simp only [hspine, hcase, h.body]
    · funext scrut branches
      simp only [Env.reduceCase, hwhnf, h.matchBranch]

lemma whnf : env.whnf = env'.whnf := by
  funext t
  simp only [Env.whnf, (h.whnfWith _).1, h.fuel]

lemma normaliseWith (fuel : Nat) :
    env.normaliseWith fuel = env'.normaliseWith fuel ∧
      env.normaliseBranches fuel = env'.normaliseBranches fuel := by
  induction fuel with
  | zero => exact ⟨rfl, rfl⟩
  | succ fuel ih =>
    obtain ⟨hterm, hbranches⟩ := ih
    constructor
    · funext t
      simp only [Env.normaliseWith, h.whnf, hterm, hbranches]
    · funext bs
      cases bs <;> simp only [Env.normaliseBranches, hterm, hbranches]

lemma normalise : env.normalise = env'.normalise := by
  funext t
  simp only [Env.normalise, (h.normaliseWith _).1, h.fuel]

lemma convertibleWith (fuel : Nat) :
    env.convertibleWith fuel = env'.convertibleWith fuel ∧
      env.convertibleBranches fuel = env'.convertibleBranches fuel := by
  induction fuel with
  | zero => exact ⟨rfl, rfl⟩
  | succ fuel ih =>
    obtain ⟨hterm, hbranches⟩ := ih
    constructor
    · funext t u
      simp only [Env.convertibleWith, h.whnf, hterm, hbranches]
    · funext bs bs'
      cases bs <;> cases bs' <;> simp only [Env.convertibleBranches, hterm, hbranches]

lemma convertible : env.convertible = env'.convertible := by
  funext t u
  simp only [Env.convertible, (h.convertibleWith _).1, h.fuel]

lemma unifyRun (fuel : Nat) :
    run env fuel = run env' fuel := by
  have hdemand : demand env = demand env' := by
    funext Γ lhs rhs
    simp only [demand, compareRigid, h.convertible, h.ctorSpine]
  induction fuel with
  | zero => rfl
  | succ fuel ih =>
    funext state queue
    cases queue with
    | nil => rfl
    | cons equation queue =>
      simp only [run, h.whnf, hdemand, h.ctorSpine, ih]

lemma unify : Clausal.unify env = Clausal.unify env' := by
  funext Γ equations
  simp only [Clausal.unify, h.unifyRun, h.fuel]

lemma instantiate : env.instantiate = env'.instantiate := by
  funext type args
  induction args generalizing type with
  | nil => rfl
  | cons arg args ih => simp only [Env.instantiate, h.whnf, ih]

lemma bindFields : env.bindFields = env'.bindFields := by
  funext ctor given index count type
  induction count generalizing index type with
  | zero => rfl
  | succ count ih => simp only [Env.bindFields, h.whnf, ih]

lemma splitType : env.splitType = env'.splitType := by
  funext Γ v
  simp only [Env.splitType, h.whnf, h.family]

lemma refine : env.refine = env'.refine := by
  funext Γ v ctorName given
  simp only [Env.refine, Env.refineAt, h.splitType, h.ctor, h.instantiate, h.bindFields, h.whnf,
    h.unify]

lemma constructors : env.constructors = env'.constructors := by
  funext Γ v
  simp only [Env.constructors, h.splitType, h.refine]

lemma checkAbsurd : env.checkAbsurd = env'.checkAbsurd := by
  funext Γ scrut
  simp only [Env.checkAbsurd, h.constructors]

/-- So does checking, by induction on the fuel. -/
lemma checkWith (fuel : Nat) :
    env.synthWith fuel = env'.synthWith fuel ∧ env.checkWith fuel = env'.checkWith fuel ∧
      env.checkSynth fuel = env'.checkSynth fuel ∧
      env.checkBranches fuel = env'.checkBranches fuel := by
  induction fuel with
  | zero => exact ⟨rfl, rfl, rfl, rfl⟩
  | succ fuel ih =>
    obtain ⟨hsynth, hcheck, hboth, hbranches⟩ := ih
    refine ⟨?_, ?_, ?_, ?_⟩
    · funext Γ t
      cases t <;> simp only [Env.synthWith, h.type, h.whnf, hsynth, hcheck]
    · funext Γ t expected
      cases t <;> simp only [Env.checkWith, h.whnf, h.convertible, h.splitType, h.checkAbsurd,
        hcheck, hboth, hbranches]
    · funext Γ t expected
      simp only [Env.checkSynth, hsynth, h.convertible]
    · funext Γ v branches expected ctors
      cases ctors <;> simp only [Env.checkBranches, h.refine, hcheck, hbranches]

end SameView

/-- Let two signatures agree on everything except the bodies of functions that
are neither transparent nor listed.  Then every computation gives the same in
both, from every supply of variables. -/
theorem sealed_bodies_irrelevant {sig sig' : Signature} {unfold : List Name}
    (h : sig.AgreeUnfolding unfold sig') (fuel : Nat) :
    let env : Env := ⟨sig, unfold, fuel⟩
    let env' : Env := ⟨sig', unfold, fuel⟩
    (∀ t n, env.whnf t n = env'.whnf t n) ∧
    (∀ t u n, env.convertible t u n = env'.convertible t u n) ∧
    (∀ t n, env.normalise t n = env'.normalise t n) ∧
    (∀ Γ equations n, unify env Γ equations n = unify env' Γ equations n) ∧
    (∀ Γ v n, (env.constructors Γ v).run n = (env'.constructors Γ v).run n) ∧
    (∀ Γ t n, (env.synth Γ t).run n = (env'.synth Γ t).run n) ∧
    ∀ Γ t type n, (env.check Γ t type).run n = (env'.check Γ t type).run n := by
  have hview := SameView.of_agree fuel h
  have hsynth := (hview.checkWith fuel).1
  have hcheck := (hview.checkWith fuel).2.1
  refine ⟨?_, ?_, ?_, ?_, ?_, ?_, ?_⟩
  · intro t n
    rw [hview.whnf]
  · intro t u n
    rw [hview.convertible]
  · intro t n
    rw [hview.normalise]
  · intro Γ equations n
    rw [hview.unify]
  · intro Γ v n
    rw [hview.constructors]
  · intro Γ t n
    simp only [Env.synth, hsynth]
  · intro Γ t type n
    simp only [Env.check, hcheck]

namespace Opacity

/-- A number, declared as an opaque function. -/
def two : Function where
  name := "two"
  type := .global "Nat"

/-- Numbers, and `two` with the given body. -/
def numbers (body : Option Term) : Signature :=
  Signature.addFunction
    { entries :=
        [("Nat", .family ⟨"Nat", [], .univ, ["zero", "succ"]⟩),
          ("zero", .ctor ⟨"zero", "Nat", 0, 0, .global "Nat"⟩),
          ("succ", .ctor ⟨"succ", "Nat", 0, 1,
            .pi ⟨0, "n"⟩ (.global "Nat") (.global "Nat")⟩)] }
    { two with body }

/-- `succ (succ zero)` -/
def value : Term := .app (.global "succ") (.app (.global "succ") (.global "zero"))

/-- Nothing that is computed depends on whether `two` has its body yet. -/
theorem sealed_two :
    (numbers none).AgreeUnfolding ["four"] (numbers (some value)) ∧
      (∀ t u n, Env.convertible ⟨numbers none, ["four"], 100⟩ t u n =
        Env.convertible ⟨numbers (some value), ["four"], 100⟩ t u n) ∧
      ∀ Γ t n, (Env.synth ⟨numbers none, ["four"], 100⟩ Γ t).run n =
        (Env.synth ⟨numbers (some value), ["four"], 100⟩ Γ t).run n := by
  have h : (numbers none).AgreeUnfolding ["four"] (numbers (some value)) :=
    Signature.AgreeUnfolding.addFunction _ { two with body := none } (some value) rfl (by decide)
  have hall := sealed_bodies_irrelevant h 100
  exact ⟨h, hall.2.1, hall.2.2.2.2.2.1⟩

-- Once `two` is listed its body counts.
example :
    (Env.whnf ⟨numbers none, ["two"], 100⟩ (.global "two") 0).map (·.1) = some (.global "two") ∧
    (Env.whnf ⟨numbers (some value), ["two"], 100⟩ (.global "two") 0).map (·.1) = some value := by
  decide

end Opacity
end Env
end Clausal
