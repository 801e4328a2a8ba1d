import Clausal.Proofs.Formation
import Clausal.Proofs.Generalisation
import Clausal.Proofs.Rewriting

/-!
# Abstracting a term

A term is replaced by a variable wherever it stands, also below binders.  If no
binder is in the way, nothing is lost and nothing is left over.
-/

namespace Clausal

open Eval List Subst

variable {t e : Term} {w : Var} {n : Nat}

/-! ### The term put back -/

lemma Term.fill_single (ht : t.occurs w = false) :
    (t.nameless []).fill (single w e).filling = t.nameless [] := by
  have hover : t.Over { vars := fun x => x ≠ w } :=
    Term.over_iff_occurs.2 fun x hx hw => by simp [← hw, hx] at ht
  refine t.nameless_fill hover fun x hx => ?_
  change ((single w e).image x).nameless [] = .free x
  rw [image_single, if_neg (Ne.symm hx)]
  rfl

lemma Term.fill_single_abstract (he : e.occurs w = false)
    (hbinds : t.BindsNone fun v => e.occurs v = true ∨ v = w) :
    ((t.abstract e (.var w)).nameless []).fill (single w e).filling =
      (t.nameless []).fill (single w e).filling := by
  refine Term.fill_abstract hbinds ?_
  rw [Term.fill_single he]
  change ((single w e).image w).nameless [] = _
  rw [image_single, if_pos rfl]

/-! ### What is left -/

lemma Branches.bodies_abstract (e u : Term) (bs : Branches) :
    (bs.abstract e u).bodies = bs.bodies.map (·.abstract e u) := by
  cases bs with
  | nil => rfl
  | cons _ _ body rest => exact congrArg (body.abstract e u :: ·) (rest.bodies_abstract e u)

lemma Term.parts_abstract (u : Term) (h : t.alphaEq e = false) :
    (t.abstract e u).parts = t.parts.map (·.abstract e u) := by
  cases t with
  | case scrut branches => simp [Term.abstract, h, Term.parts, branches.bodies_abstract]
  | _ => simp [Term.abstract, h, Term.parts]

lemma Branches.BindsNone.bodies {bs : Branches} (h : bs.BindsNone V) :
    ∀ s ∈ bs.bodies, s.BindsNone V := by
  cases bs with
  | nil => exact forall_mem_nil _
  | cons ctor fields body rest => exact forall_mem_cons.2 ⟨h.2.1, h.2.2.bodies⟩

lemma Term.BindsNone.parts (h : t.BindsNone V) : ∀ s ∈ t.parts, s.BindsNone V := by
  cases t with
  | univ | var | global => simp [Term.parts]
  | pi v a b | lam v a b => simpa [Term.parts] using h.2
  | app a b | ann a b | absurd scrut => simpa [Term.parts, Term.BindsNone] using h
  | case scrut branches => exact forall_mem_cons.2 ⟨h.1, h.2.bodies⟩

lemma Term.var_alphaEq_eq_false (he : e.occurs w = false) :
    (Term.var w).alphaEq e = false := by
  refine Bool.eq_false_iff.2 fun heq => ?_
  have hform : Nameless.free w = e.nameless [] := (Term.alphaEq_iff _ _).1 heq
  cases e with
  | var x =>
    obtain rfl : w = x := Nameless.free.inj hform
    simp [Term.occurs] at he
  | _ => cases hform

/-- Replacing parts of a term does not make it the term that is replaced: putting that
term back would show that it was it before. -/
lemma Term.abstract_alphaEq_eq_false (hw : t.occurs w = false) (he : e.occurs w = false)
    (hbinds : t.BindsNone fun v => e.occurs v = true ∨ v = w) :
    (t.abstract e (.var w)).alphaEq e = false := by
  cases ht : t.alphaEq e with
  | true =>
    unfold Term.abstract
    rw [if_pos ht]
    exact Term.var_alphaEq_eq_false he
  | false =>
    refine Bool.eq_false_iff.2 fun heq => ?_
    have hfill := Term.fill_single_abstract he hbinds
    rw [(Term.alphaEq_iff _ _).1 heq, Term.fill_single he, Term.fill_single hw] at hfill
    rw [(Term.alphaEq_iff _ _).2 hfill.symm] at ht
    cases ht

mutual

lemma Term.AllVars.bindsNone : {t : Term} → t.AllVars P → t.BindsNone fun v => ¬ P v
  | .univ, _ | .var _, _ | .global _, _ => trivial
  | .pi _ _ _, ht | .lam _ _ _, ht => ⟨not_not_intro ht.1, ht.2.1.bindsNone, ht.2.2.bindsNone⟩
  | .app _ _, ht | .ann _ _, ht | .case _ _, ht => ⟨ht.1.bindsNone, ht.2.bindsNone⟩
  | .absurd scrut, ht => Term.AllVars.bindsNone (t := scrut) ht

lemma Branches.AllVars.bindsNone : {bs : Branches} → bs.AllVars P → bs.BindsNone fun v => ¬ P v
  | .nil, _ => trivial
  | .cons _ _ _ _, hb =>
    ⟨fun v hv => not_not_intro (hb.1 v hv), hb.2.1.bindsNone, hb.2.2.bindsNone⟩

end

lemma Term.AllVars.occurs_eq_false (h : t.AllVars (· ≠ w)) : t.occurs w = false :=
  Bool.eq_false_iff.2 fun hoccurs => h.over.occurs hoccurs rfl

lemma Term.SplitFree.allBelow : {t : Term} → t.SplitFree n → t.AllBelow n
  | .univ, _ | .global _, _ => trivial
  | .var _, ht => ht
  | .pi _ _ _, ht | .lam _ _ _, ht => ⟨ht.1, ht.2.1.allBelow, ht.2.2.allBelow⟩
  | .app _ _, ht | .ann _ _, ht => ⟨ht.1.allBelow, ht.2.allBelow⟩
  | .absurd scrut, ht => Term.SplitFree.allBelow (t := scrut) ht

/-- At no place of the new term does the replaced one stand. -/
lemma Term.abstract_at? (hw : t.AllVars (· ≠ w)) (he : e.occurs w = false)
    (hbinds : t.BindsNone fun v => e.occurs v = true ∨ v = w)
    (hs : (t.abstract e (.var w)).at? place = some s) : s.alphaEq e = false := by
  induction place generalizing t with
  | nil =>
    cases hs
    exact Term.abstract_alphaEq_eq_false hw.occurs_eq_false he hbinds
  | cons i place ih =>
    cases ht : t.alphaEq e with
    | true =>
      -- The variable has no parts.
      unfold Term.abstract at hs
      rw [if_pos ht] at hs
      cases hs
    | false =>
      rw [Term.at?, Term.parts_abstract _ ht, getElem?_map, Option.bind_map] at hs
      obtain ⟨part, hpart, hs⟩ := Option.bind_eq_some_iff.1 hs
      have hmem := mem_of_getElem? hpart
      exact ih (hw.parts part hmem) (hbinds.parts part hmem) hs

/-! ### There and back -/

lemma Term.BindsNone.insert (hbinds : t.BindsNone fun v => e.occurs v = true)
    (htw : t.AllVars (· ≠ w)) : t.BindsNone fun v => e.occurs v = true ∨ v = w :=
  (hbinds.or htw.bindsNone).mono fun _ => Or.imp_right not_not_intro

lemma Term.abstract_apply_single (ht : t.Over (.below n)) (he : e.Over (.below n))
    (htw : t.AllVars (· ≠ w)) (hew : e.occurs w = false)
    (hbinds : t.BindsNone fun v => e.occurs v = true) :
    (((single w e).apply (t.abstract e (.var w))).value n).alphaEq t = true := by
  have hmaps := single_maps w he
  have hover : (t.abstract e (.var w)).Over ((Reach.below n).bind [w]) :=
    (ht.mono (Reach.le_bind _ [w])).abstract (Or.inl (mem_singleton.2 rfl))
  rw [Term.alphaEq_iff, nameless_apply (fun x hx => hmaps.vars x hx) hover,
    Term.fill_single_abstract hew (hbinds.insert htw), Term.fill_single htw.occurs_eq_false]

/-- Abstracting a term and putting it back gives the term that there was, and abstracting
it leaves no occurrence of it, if no binder is one of its variables.  So the auxiliary of
`with e` has the goal of the clause, at `e`. -/
theorem Term.abstract_put_back :
    (∀ (t e : Term) (w : Var) (n : Nat), t.Over (.below n) → e.Over (.below n) →
      t.AllVars (· ≠ w) → e.AllVars (· ≠ w) → t.BindsNone (fun v => e.occurs v = true) →
      (((Subst.single w e).apply (t.abstract e (.var w))).value n).alphaEq t = true ∧
        ∀ place s, (t.abstract e (.var w)).at? place = some s → s.alphaEq e = false) ∧
    ∀ {job : Job} {p : Problem} {locals : Surface.Locals} {span : Span} {scrut : Surface.Term}
      {equation : Option Surface.Ident} {rows : List Row} {ws : Workspace} {n : Nat}
      {node : Inspection} (i : Compile.Poses job p locals span scrut equation rows ws n node),
      p.SplitFree n → locals.SplitFree n →
      p.goal.BindsNone (fun v => node.scrut.occurs v = true) →
      ∃ goal, i.type = i.params.pis goal ∧
        ∀ m, i.typedSupply ≤ m →
          (((Subst.single node.scrutVar node.scrut).apply goal).value m).alphaEq p.goal = true := by
  refine ⟨fun t e w n ht he htw hew hbinds => ?_, ?_⟩
  · have hew := hew.occurs_eq_false
    exact ⟨Term.abstract_apply_single ht he htw hew hbinds,
      fun place s => Term.abstract_at? htw hew (hbinds.insert htw)⟩
  · intro job p locals span scrut equation rows ws n node i hp hlocals hbinds
    obtain ⟨hr, hscrut⟩ := Surface.Scope.term_splitFree hlocals scrut i.resolves
    have ht := Env.synth_forward _ _ i.types
    -- The variable is made after everything in the goal and in the inspected term.
    have hnew {t : Term} {k : Nat} (hk : k ≤ i.typedSupply) (h : t.SplitFree k) :
        t.AllVars (· ≠ node.scrutVar) := by
      refine AllVars.mono (fun x hx hw => ?_) h.allBelow
      rw [hw, i.scrutVar_eq] at hx
      exact not_lt.2 hk hx
    refine ⟨_, i.type_eq, fun m hm => ?_⟩
    exact Term.abstract_apply_single (hp.goal.mono (by omega)).below (hscrut.mono (by omega)).below
      (hnew (hr.trans ht) hp.goal) (hnew ht hscrut).occurs_eq_false hbinds

namespace Abstraction

def y : Var := ⟨0, "y"⟩

/-- `f y` -/
def scrut : Term := .app (.global "f") (.var y)

/-- A function on `A`, and a family over `A`. -/
def workspace : Workspace where
  sig := (((Signature.prelude.value 1).addPostulate "A" .univ).addPostulate "P"
    (.pi y (.global "A") .univ)).addPostulate "f" (.pi y (.global "A") (.global "A"))
  base := {}
  held := []

/-- `(y : A) ⊢ P (f y)` -/
def problem : Problem where
  context := [(y, .global "A")]
  goal := .app (.global "P") scrut
  args := []
  locals := [("y", .var y)]

def node : Inspection where
  function := "g.with1"
  scrut := scrut
  scrutType := .global "A"
  scrutVar := ⟨4, "w"⟩
  equationVar := ⟨5, "h"⟩
  call := .apps (.global "g.with1") [.var y, scrut, .refl (.global "A") scrut]

/-- The auxiliary of `with f y`. -/
def poses : Compile.Poses { root := "g", transparent := false, auxiliaries := [], options := {} }
    problem problem.locals default (.app default (.name default "f") (.name default "y")) none []
    workspace 4 node where
  resolvedSupply := 4
  resolves := ⟨rfl, rfl⟩
  typedSupply := 4
  types := by
    unfold Yields Returns
    rfl
  scrutVar_eq := rfl
  equationVar_eq := rfl
  params := _
  params_eq := rfl
  type := _
  type_eq := rfl
  checkedSupply := 9
  checks := by
    unfold Yields Returns
    rfl
  name_eq := by decide
  call_eq := rfl
  problem := _
  problem_eq := rfl

end Abstraction

open Abstraction

/-- `f y` is replaced below a binder and put back there, and an auxiliary that inspects it has
the goal of its clause back. -/
theorem Term.abstract_put_back_pi :
    (let fy := Term.app (.global "f") (.var ⟨0, "y"⟩)
    let t := Term.pi ⟨1, "x"⟩ fy (.app (.app (.global "P") (.var ⟨1, "x"⟩)) fy)
    let w : Var := ⟨2, "w"⟩
    t.abstract fy (.var w) =
        .pi ⟨1, "x"⟩ (.var w) (.app (.app (.global "P") (.var ⟨1, "x"⟩)) (.var w)) ∧
      (((Subst.single w fy).apply (t.abstract fy (.var w))).value 2).alphaEq t = true) ∧
    ∃ goal, poses.type = poses.params.pis goal ∧ ∀ m, 4 ≤ m →
      (((Subst.single ⟨4, "w"⟩ scrut).apply goal).value m).alphaEq problem.goal = true := by
  constructor
  · intro fy t w
    have ht : t.Over (.below 2) := SplitFree.below (by simp [t, fy, SplitFree])
    have hfy : fy.Over (.below 2) := SplitFree.below (by simp [fy, SplitFree])
    have hbinds : t.BindsNone fun v => fy.occurs v = true := by simp [t, fy, BindsNone, occurs]
    exact ⟨by decide, (abstract_put_back.1 t fy w 2 ht hfy (by decide) (by decide) hbinds).1⟩
  · have hproblem : problem.SplitFree 4 := by
      constructor <;> simp [problem, scrut, y, SplitFree, Telescope.All, Surface.Locals.SplitFree]
    exact abstract_put_back.2 poses hproblem hproblem.locals (by simp [problem, scrut, BindsNone])

end Clausal
