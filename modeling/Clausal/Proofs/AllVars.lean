import Clausal.Proofs.Contraction
import Clausal.Proofs.SplitFree

/-!
# All variables of a term

Some statements bound every variable of a term, those of binders included: a
term is looked at below its binders, where bound variables are free.

Substitution and weak-head reduction keep all variables behind the supply.
-/

namespace Clausal

open Subst

variable {σ : Subst}

mutual

/-- Every variable of the term, free or bound, has the property. -/
def Term.AllVars (P : Var → Prop) : Term → Prop
  | .univ | .global _ => True
  | .var v => P v
  | .pi v a b | .lam v a b => P v ∧ a.AllVars P ∧ b.AllVars P
  | .app a b | .ann a b => a.AllVars P ∧ b.AllVars P
  | .case scrut branches => scrut.AllVars P ∧ branches.AllVars P
  | .absurd scrut => scrut.AllVars P

def Branches.AllVars (P : Var → Prop) : Branches → Prop
  | .nil => True
  | .cons _ fields body rest => (∀ v ∈ fields, P v) ∧ body.AllVars P ∧ rest.AllVars P

end

mutual

def Term.decideAllVars (P : Var → Prop) [DecidablePred P] : (t : Term) → Decidable (t.AllVars P)
  | .univ | .global _ => inferInstanceAs (Decidable True)
  | .var v => inferInstanceAs (Decidable (P v))
  | .pi _ a b | .lam _ a b =>
    have := a.decideAllVars P
    have := b.decideAllVars P
    inferInstanceAs (Decidable (_ ∧ _ ∧ _))
  | .app a b | .ann a b =>
    have := a.decideAllVars P
    have := b.decideAllVars P
    inferInstanceAs (Decidable (_ ∧ _))
  | .case scrut branches =>
    have := scrut.decideAllVars P
    have := branches.decideAllVars P
    inferInstanceAs (Decidable (_ ∧ _))
  | .absurd scrut => scrut.decideAllVars P

def Branches.decideAllVars (P : Var → Prop) [DecidablePred P] :
    (bs : Branches) → Decidable (bs.AllVars P)
  | .nil => inferInstanceAs (Decidable True)
  | .cons _ _ body rest =>
    have := body.decideAllVars P
    have := rest.decideAllVars P
    inferInstanceAs (Decidable (_ ∧ _ ∧ _))

end

instance (P : Var → Prop) [DecidablePred P] (t : Term) : Decidable (t.AllVars P) :=
  t.decideAllVars P

mutual

lemma Term.AllVars.mono (h : ∀ x, P x → Q x) : {t : Term} → t.AllVars P → t.AllVars Q
  | .univ, _ | .global _, _ => trivial
  | .var v, ht => h v ht
  | .pi v _ _, ht | .lam v _ _, ht => ⟨h v ht.1, ht.2.1.mono h, ht.2.2.mono h⟩
  | .app _ _, ht | .ann _ _, ht | .case _ _, ht => ⟨ht.1.mono h, ht.2.mono h⟩
  | .absurd scrut, ht => Term.AllVars.mono (t := scrut) h ht

lemma Branches.AllVars.mono (h : ∀ x, P x → Q x) : {bs : Branches} → bs.AllVars P → bs.AllVars Q
  | .nil, _ => trivial
  | .cons _ _ _ _, hb => ⟨fun v hv => h v (hb.1 v hv), hb.2.1.mono h, hb.2.2.mono h⟩

end

mutual

lemma Term.AllVars.over : {t : Term} → t.AllVars P → t.Over { vars := P }
  | .univ, _ | .global _, _ => trivial
  | .var _, ht => ht
  | .pi v _ _, ht | .lam v _ _, ht =>
    ⟨ht.2.1.over, ht.2.2.over.mono (Reach.le_bind _ [v])⟩
  | .app _ _, ht | .ann _ _, ht => ⟨ht.1.over, ht.2.over⟩
  | .case _ _, ht => ⟨trivial, ht.1.over, ht.2.over⟩
  | .absurd scrut, ht => Term.AllVars.over (t := scrut) ht

lemma Branches.AllVars.over : {bs : Branches} → bs.AllVars P → bs.Over { vars := P }
  | .nil, _ => trivial
  | .cons _ fields _ _, hb => ⟨hb.2.1.over.mono (Reach.le_bind _ fields), hb.2.2.over⟩

end

/-! ### Variables behind a supply -/

/-- Every variable of the term, free or bound, is behind the supply. -/
def Term.AllBelow (n : Nat) (t : Term) : Prop := t.AllVars fun x => x.id < n

def Branches.AllBelow (n : Nat) (bs : Branches) : Prop := bs.AllVars fun x => x.id < n

instance (n : Nat) (t : Term) : Decidable (t.AllBelow n) :=
  inferInstanceAs (Decidable (t.AllVars _))

variable {n : Nat} {t : Term} {bs : Branches}

lemma Term.AllBelow.mono (hnm : n ≤ m) (h : t.AllBelow n) :
    t.AllBelow m := AllVars.mono (fun _ hx => hx.trans_le hnm) h

lemma Branches.AllBelow.mono (hnm : n ≤ m) (h : bs.AllBelow n) :
    bs.AllBelow m := AllVars.mono (fun _ hx => hx.trans_le hnm) h

mutual

lemma Term.mapVars_of_fixed : {t : Term} → t.AllVars (fun x => f x = x) → t.mapVars f = t
  | .univ, _ | .global _, _ => rfl
  | .var _, h => congrArg Term.var h
  | .pi _ _ _, h | .lam _ _ _, h => by
    rw [Term.mapVars, h.1, Term.mapVars_of_fixed h.2.1, Term.mapVars_of_fixed h.2.2]
  | .app _ _, h | .ann _ _, h => by
    rw [Term.mapVars, Term.mapVars_of_fixed h.1, Term.mapVars_of_fixed h.2]
  | .case _ _, h => by rw [Term.mapVars, Term.mapVars_of_fixed h.1, Branches.mapVars_of_fixed h.2]
  | .absurd scrut, h => by rw [Term.mapVars, Term.mapVars_of_fixed (t := scrut) h]

lemma Branches.mapVars_of_fixed : {bs : Branches} →
    bs.AllVars (fun x => f x = x) → bs.mapVars f = bs
  | .nil, _ => rfl
  | .cons _ _ _ _, h => by
    rw [Branches.mapVars, Term.mapVars_of_fixed h.2.1, Branches.mapVars_of_fixed h.2.2,
      List.map_congr_left h.1, List.map_id']

end

lemma Slide.term_old (s : Slide) (h : t.AllBelow s.start) : t.mapVars s.var = t :=
  Term.mapVars_of_fixed (Term.AllVars.mono (fun _ => s.var_old) h)

lemma Slide.branches_old (s : Slide) (h : bs.AllBelow s.start) : bs.mapVars s.var = bs :=
  Branches.mapVars_of_fixed (Branches.AllVars.mono (fun _ => s.var_old) h)

lemma Term.AllBelow.over (h : t.AllBelow n) : t.Over (.below n) :=
  AllVars.over h

/-! Tidiness bounds all variables if binders may shadow. -/

mutual

lemma Term.Tidy.allBelow (hH : H.Behind n) : {t : Term} → t.Tidy H → t.AllBelow n
  | .univ, _ | .global _, _ => trivial
  | .var v, ht => hH.scope v ht
  | .pi v _ _, ht | .lam v _ _, ht =>
    have hv := hH.binders v ht.1.1
    ⟨hv, ht.2.1.allBelow hH, ht.2.2.allBelow (hH.bind (by omega) (by simpa using hv))⟩
  | .app _ _, ht | .ann _ _, ht | .case _ _, ht => ⟨ht.1.allBelow hH, ht.2.allBelow hH⟩
  | .absurd scrut, ht => Term.Tidy.allBelow (t := scrut) hH ht

lemma Branches.Tidy.allBelow (hH : H.Behind n) : {bs : Branches} → bs.Tidy H → bs.AllBelow n
  | .nil, _ => trivial
  | .cons _ _ _ _, hb =>
    have hfields := fun v hv => hH.binders v (hb.1 v hv).1
    ⟨hfields, hb.2.2.1.allBelow (hH.bind (by omega) hfields), hb.2.2.2.allBelow hH⟩

end

/-- Everything behind the supply may be in scope and may be bound. -/
structure Hygiene.Admits (H : Hygiene) (n : Nat) : Prop where
  scope : ∀ x : Var, x.id < n → H.scope x
  binders : ∀ x : Var, x.id < n → H.binders x
  shadow : H.shadow

lemma Hygiene.Admits.bind {H : Hygiene} (h : H.Admits n) (vs : List Var) :
    (H.bind vs).Admits n := ⟨fun x hx => .inr (h.scope x hx), h.binders, h.shadow⟩

mutual

lemma Term.AllBelow.tidy (hH : H.Admits n) : {t : Term} → t.AllBelow n → t.Tidy H
  | .univ, _ | .global _, _ => trivial
  | .var v, ht => hH.scope v ht
  | .pi v _ _, ht | .lam v _ _, ht =>
    ⟨⟨hH.binders v ht.1, fun _ => hH.shadow⟩, Term.AllBelow.tidy hH ht.2.1,
      Term.AllBelow.tidy (hH.bind [v]) ht.2.2⟩
  | .app _ _, ht | .ann _ _, ht => ⟨Term.AllBelow.tidy hH ht.1, Term.AllBelow.tidy hH ht.2⟩
  | .case _ _, ht => ⟨Term.AllBelow.tidy hH ht.1, Branches.AllBelow.tidy hH ht.2⟩
  | .absurd scrut, ht => Term.AllBelow.tidy (t := scrut) hH ht

lemma Branches.AllBelow.tidy (hH : H.Admits n) : {bs : Branches} → bs.AllBelow n → bs.Tidy H
  | .nil, _ => trivial
  | .cons _ fields _ _, hb =>
    ⟨fun v hv => ⟨hH.binders v (hb.1 v hv), fun _ => hH.shadow⟩, .inr hH.shadow,
      Term.AllBelow.tidy (hH.bind fields) hb.2.1, Branches.AllBelow.tidy hH hb.2.2⟩

end

/-- Renamed binders are taken from the supply, so the result is behind it. -/
lemma Subst.apply_allBelow (hσ : σ.All Term.AllBelow n) (ht : t.AllBelow n) :
    ((σ.apply t).value n).AllBelow ((σ.apply t).next n) := by
  have hadmits : (Hygiene.plain n).Admits n := ⟨fun _ hx => hx, fun _ hx => hx, trivial⟩
  have hbehind : (Hygiene.plain n).Behind n := ⟨fun _ hx => hx, fun _ hx => hx⟩
  refine (apply_tidy (S := .below n) (fun x hx => ?_) hbehind ht.over
    fun _ => ht.tidy hadmits).allBelow (hbehind.withBinders (apply_next σ t n))
  cases hget : σ.get? x with
  | none =>
    rw [image, Assignment.image_eq_var hget]
    exact hx
  | some u =>
    rw [image, Assignment.image_eq hget]
    exact (hσ hget).tidy hadmits

lemma Term.allBelow_hereditary : Hereditary Term.AllBelow where
  mono hnm ht := ht.mono hnm
  below ht := ht.over
  var := .rfl
  app := .rfl
  dom h := h.2.1
  cod h ha := apply_allBelow (.single ha) h.2.2
  apply hσ ht := apply_allBelow hσ ht

lemma Branches.AllBelow.find? {bs : Branches} (hbs : bs.AllBelow n)
    (h : bs.find? name = some branch) : branch.body.AllBelow n := by
  match bs with
  | .nil => simp [Branches.find?, toList] at h
  | .cons ctor fields body rest =>
    rw [find?_cons] at h
    split at h
    · cases h
      exact hbs.2.1
    · exact find? hbs.2.2 h

/-- All variables of the type, and of the body of a function, are behind the supply. -/
def Entry.AllBelow (n : Nat) (entry : Entry) : Prop :=
  entry.type.AllBelow n ∧
    match entry with
    | .function f => ∀ body ∈ f.body, body.AllBelow n
    | _ => True

instance (n : Nat) : (entry : Entry) → Decidable (entry.AllBelow n)
  | .family _ | .ctor _ | .function _ | .postulate _ => inferInstanceAs (Decidable (_ ∧ _))

/-- All variables of a signature are behind the supply. -/
def Signature.AllBelow (n : Nat) (sig : Signature) : Prop := ∀ e ∈ sig.entries, e.2.AllBelow n

instance (n : Nat) (sig : Signature) : Decidable (sig.AllBelow n) :=
  inferInstanceAs (Decidable (∀ e ∈ sig.entries, _))

namespace Signature.AllBelow

variable {sig : Signature} {n m : Nat}

variable (h : sig.AllBelow n)

include h

lemma get? (hget : sig.get? name = some entry) : entry.AllBelow n := by
  obtain ⟨e, hfind, rfl⟩ := Option.map_eq_some_iff.1 hget
  exact h e (List.mem_of_find?_eq_some hfind)

lemma type? (htype : sig.type? name = some type) : type.AllBelow n := by
  obtain ⟨entry, hget, rfl⟩ := Option.map_eq_some_iff.1 htype
  exact (h.get? hget).1

lemma ctor? (hctor : sig.ctor? name = some ctor) : ctor.type.AllBelow n := by
  unfold Signature.ctor? at hctor
  split at hctor
  next hget =>
    cases hctor
    exact (h.get? hget).1
  next => cases hctor

end Signature.AllBelow

namespace Env

variable {env : Env}

/-- All variables of the bodies that may be unfolded are behind the supply. -/
def BodiesBelow (env : Env) (n₀ : Nat) : Prop :=
  ∀ ⦃g : Name⦄ ⦃body : Term⦄, env.sig.unfoldable? env.unfold g = some body → body.AllBelow n₀

lemma bodiesBelow (h : env.sig.AllBelow n₀) : env.BodiesBelow n₀ := by
  intro g body hbody
  unfold Signature.unfoldable? Signature.function? at hbody
  cases hget : env.sig.get? g with
  | none => simp [hget] at hbody
  | some entry =>
    have hentry := h.get? hget
    cases entry with
    | function f =>
      rw [hget] at hbody
      dsimp only at hbody
      split at hbody
      · exact hentry.2 body hbody
      · cases hbody
    | _ => simp [hget] at hbody

lemma BodiesBelow.fixed {s : Slide} (h : env.BodiesBelow s.start) : env.BodiesFixed s :=
  fun _ _ hbody => s.term_old (h hbody)

variable {n m : Nat}

lemma BodiesBelow.mono (h : env.BodiesBelow n) (hnm : n ≤ m) : env.BodiesBelow m :=
  fun _ _ hbody => (h hbody).mono hnm

lemma matchBranch?_allBelow (h : env.matchBranch? w branches = some (σ, body)) (hw : w.AllBelow n)
    (hbranches : branches.AllBelow n) :
    ((σ.apply body).value n).AllBelow ((σ.apply body).next n) := by
  have hP := Term.allBelow_hereditary
  obtain ⟨ctor, args, branch, hspine, hbranch, -, -, rfl, rfl⟩ := matchBranch?_eq_some h
  obtain ⟨c, rfl, -⟩ := ctorSpine?_eq_some hspine
  refine hP.apply (fun x t hx => ?_) (Branches.AllBelow.find? hbranches hbranch)
  have hmem := (List.of_mem_zip (get?_ofPairs hx)).2
  exact (hP.apps.1 hw).2 t (List.mem_of_mem_drop hmem)

/-- Weak-head reduction takes no variable from ahead of its supply. -/
lemma Whnf.allBelow (hbodies : env.BodiesBelow n₀) (h : env.Whnf head args n u m) (hn : n₀ ≤ n)
    (hhead : head.AllBelow n) (hargs : ∀ a ∈ args, a.AllBelow n) : u.AllBelow m := by
  have hP := Term.allBelow_hereditary
  induction h with
  | erase _ ih => exact ih hn hhead.1 hargs
  | app _ ih => exact ih hn hhead.1 (List.forall_mem_cons.2 ⟨hhead.2, hargs⟩)
  | @beta v dom body arg u args n m _ ih =>
    obtain ⟨harg, hargs⟩ := List.forall_mem_cons.1 hargs
    have hk := apply_next (.single v arg) body n
    exact ih (by omega) (hP.apply (All.single harg) hhead.2.2)
      fun a ha => (hargs a ha).mono hk
  | @select scrut w body u branches σ args n k m hscrut hmatch _ ihscrut ih =>
    have hw := ihscrut hn hhead.1 (List.forall_mem_nil _)
    have hj := hscrut.next.trans (apply_next σ body k)
    exact ih (by omega)
      (matchBranch?_allBelow hmatch hw (Branches.AllBelow.mono hscrut.next hhead.2))
      fun a ha => (hargs a ha).mono hj
  | stuck args hscrut _ _ =>
    exact hP.mono hscrut.next (hP.apps.2 ⟨hhead, hargs⟩)
  | unfold hget _ _ ih => exact ih hn ((hbodies hget).mono hn) hargs
  | fold hget hrun _ ih => exact hP.mono hrun.next (hP.apps.2 ⟨hhead, hargs⟩)
  | rigid args n _ | inert args n _ => exact hP.apps.2 ⟨hhead, hargs⟩
  | literal => exact hhead

end Env

/-! ### An example -/

namespace Predecessor

def x : Var := ⟨0, "x"⟩

def y : Var := ⟨1, "y"⟩

def k : Var := ⟨2, "k"⟩

/-- `fun (y : Nat) => case y of { zero => t | succ k => k }` -/
def body (t : Term) : Term :=
  .lam y (.global "Nat") (.case (.var y)
    (.cons "zero" [] t (.cons "succ" [k] (.var k) .nil)))

/-- Numbers, and their predecessor, which is listed. -/
def env (t : Term) : Env where
  sig :=
    { entries :=
        [("zero", .ctor ⟨"zero", "Nat", 0, 0, .global "Nat"⟩),
          ("succ", .ctor ⟨"succ", "Nat", 0, 1, .pi y (.global "Nat") (.global "Nat")⟩),
          ("pred", .function ⟨"pred", .univ, some (body t), false, none⟩)] }
  unfold := ["pred"]
  fuel := 20

end Predecessor

end Clausal
