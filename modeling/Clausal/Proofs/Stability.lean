import Clausal.Proofs.Conversion

/-!
# Conversion under substitution

A function stays folded while its unfolding is a literal or a stuck case split, so two
unfoldings that agree on a variable may be told apart once the variable stands for a
literal.  And bodies are compared at the variable of the left binder, which may be free
on the right or bound a second time.
-/

namespace Clausal

open Nameless Signature Term

variable {head : Term}

/-! ### Terms that neither unfold nor split -/

/-- Variables behind a supply, globals that may not be unfolded, and no case splits. -/
def Reach.plain (env : Env) (n : Nat) : Reach where
  vars x := x.id < n
  globals g := env.sig.unfoldable? env.unfold g = none
  splits := False

variable {n : Nat} {S : Reach}

lemma Reach.plain_le (hvars : ∀ x, S.vars x → x.id < n)
    (hglobals : ∀ g, S.globals g → env.sig.unfoldable? env.unfold g = none) (hsplits : ¬ S.splits) :
    S.Le (.plain env n) := ⟨hvars, hglobals, hsplits⟩

lemma Reach.plain_le_below (env : Env) (n : Nat) : (Reach.plain env n).Le (.below n) :=
  ⟨fun _ hx => hx, fun _ _ => trivial, False.elim⟩

lemma Hygiene.le_plain {H : Hygiene} (hscope : ∀ x, H.scope x → x.id < n)
    (hbinders : ∀ x, H.binders x → x.id < n) : H.Le (.plain n) :=
  ⟨hscope, fun x hx => ⟨hbinders x hx.1, fun _ => trivial⟩, fun _ => trivial⟩

/-- A term in which nothing may be unfolded or split, all of whose variables lie
behind a supply. -/
structure Term.Plain (env : Env) (n : Nat) (t : Term) : Prop where
  reach : t.Over (.plain env n)
  tidy : t.Tidy (.plain n)

namespace Term.Plain

variable {env : Env} {n : Nat} {t : Term} {v w : Var}

lemma mono (h : t.Plain env n) (hnm : n ≤ m) : t.Plain env m := by
  have hlt : ∀ x : Var, x.id < n → x.id < m := fun x hx => hx.trans_le hnm
  exact ⟨h.reach.mono (Reach.plain_le hlt (fun _ hg => hg) id),
    h.tidy.mono (Hygiene.le_plain hlt hlt)⟩

lemma app (ht : t.Plain env n) (hu : u.Plain env n) : (Term.app t u).Plain env n :=
  ⟨⟨ht.reach, hu.reach⟩, ⟨ht.tidy, hu.tidy⟩⟩

lemma var (hv : v.id < n) : (Term.var v).Plain env n := ⟨hv, hv⟩

lemma below {body : Term} (hover : body.Over (Reach.bind [v] (.plain env n)))
    (htidy : body.Tidy (Hygiene.bind [v] (.plain n))) (hv : v.id < n) : body.Plain env n := by
  have hscope : ∀ x, x ∈ [v] ∨ x.id < n → x.id < n :=
    fun x hx => hx.elim (fun hmem => List.mem_singleton.1 hmem ▸ hv) id
  exact ⟨hover.mono (Reach.plain_le hscope (fun _ hg => hg) id),
    htidy.mono (Hygiene.le_plain hscope fun _ hx => hx)⟩

lemma apply (ht : t.Plain env n) {σ : Subst}
    (hσ : ∀ x : Var, x.id < n → (σ.image x).Plain env n) :
    ((σ.apply t).value n).Plain env ((σ.apply t).next n) ∧
      ((σ.apply t).value n).nameless [] = (t.nameless []).fill σ.filling := by
  have hover := Subst.apply_over (R := .plain env n)
    ⟨fun x hx => (hσ x hx).reach, fun _ hc => hc, id⟩ n ht.reach
  have htidy := Subst.apply_tidy (fun x hx => (hσ x hx).tidy)
    ⟨fun _ hx => hx, fun _ hx => hx⟩ ht.reach fun _ => ht.tidy
  have hlt : ∀ x : Var, x.id < n → x.id < (σ.apply t).next n :=
    fun x hx => hx.trans_le (Subst.apply_next σ t n)
  refine ⟨⟨hover.mono (Reach.plain_le hlt (fun _ hg => hg) id), ?_⟩, ?_⟩
  · exact htidy.mono (Hygiene.le_plain hlt fun x hx => Or.elim hx (hlt x) And.right)
  · exact Subst.nameless_apply
      (fun x hx => (hσ x hx).reach.mono (Reach.plain_le_below env n)) ht.reach

lemma rename (ht : t.Plain env n) (hv : v.id < n) :
    ((t.rename w v).value n).Plain env ((t.rename w v).next n) ∧ n ≤ (t.rename w v).next n ∧
      ((t.rename w v).value n).nameless [] = (t.nameless [w]).instantiate [.free v] := by
  have hinst := instantiate_single ht.reach w (.var v)
  by_cases hwv : w = v
  · -- the variable has its name already
    subst hwv
    have hsame : t.rename w w = pure t := by simp [Term.rename]
    rw [hsame]
    refine ⟨ht, le_refl n, Eq.trans ?_ hinst.symm⟩
    refine (t.nameless_fill ht.reach fun x _ => ?_).symm
    by_cases hx : w = x <;> simp [Subst.filling, Subst.image_single, hx, Term.nameless,
      Var.locate, fill]
  · have hren : t.rename w v = (Subst.single w (.var v)).apply t := by simp [Term.rename, hwv]
    have hplain := ht.apply (σ := .single w (.var v)) fun x hx => by
      rw [Subst.image_single]
      split
      · exact .var hv
      · exact .var hx
    rw [hren]
    exact ⟨hplain.1, Subst.apply_next _ t n, hplain.2.trans hinst.symm⟩

end Term.Plain

lemma Term.kind_apps_ne_ann (h : head.kind ≠ .ann) (args : List Term) :
    (head.apps args).kind ≠ .ann := by
  rcases List.eq_nil_or_concat args with rfl | ⟨args, a, rfl⟩
  · exact h
  · rw [List.concat_eq_append, Term.apps_concat]
    simp [Term.kind]

namespace Env

variable {env : Env} {u t : Term}

/-- Where nothing is unfolded or split, a normal form is a literal or has a rigid head. -/
lemma Whnf.rigid_of_plain (hclosed : env.Closed) (hrun : env.Whnf head args n u m)
    (hhead : head.Over (.plain env k)) (hargs : ∀ a ∈ args, a.Over (.plain env k)) :
    u.kind = .lam ∨ u.kind ≠ .ann ∧ (u.nameless []).Rigid (env.rules hclosed) := by
  induction hrun with
  | erase _ ih => exact ih hhead.1 hargs
  | app _ ih => exact ih hhead.1 (List.forall_mem_cons.2 ⟨hhead.2, hargs⟩)
  | beta _ ih =>
    obtain ⟨harg, hargs⟩ := List.forall_mem_cons.1 hargs
    exact ih (Subst.apply_over (Subst.single_maps _ harg) _ hhead.2) hargs
  | select | stuck => exact False.elim hhead.1
  | unfold hbody | fold hbody =>
    rw [show env.sig.unfoldable? env.unfold _ = none from hhead] at hbody
    simp at hbody
  | @rigid g args n hg =>
    have hrigid : Rigid (env.rules hclosed) (.global g) := by
      change (env.sig.unfoldable? env.unfold g).map _ = none
      rw [hg, Option.map_none]
    exact .inr ⟨kind_apps_ne_ann (by simp [Term.kind]) args,
      by rw [nameless_apps]; exact Rigid.apps hrigid _⟩
  | literal => exact .inl rfl
  | @inert head args n hinert =>
    have hkind : head.kind ≠ .ann := by
      cases head <;> simp [Term.isInert] at hinert <;> simp [Term.kind]
    have hrigid : (head.nameless []).Rigid (env.rules hclosed) := by
      cases head <;> simp [Term.isInert] at hinert <;> exact trivial
    exact .inr ⟨kind_apps_ne_ann hkind args, by rw [nameless_apps]; exact Rigid.apps hrigid _⟩

lemma agrees_plain (hclosed : env.Closed) (n : Nat) :
    env.Agrees (env.rules hclosed) (.plain env n) where
  unfold hg hbody := by
    rw [show env.sig.unfoldable? env.unfold _ = none from hg] at hbody
    simp at hbody
  ctor _ hk := (agrees_rules hclosed fun _ => True).ctor trivial hk

lemma whnf_plain (hclosed : env.Closed) (hfresh : env.FreshBodies) (ht : t.Plain env n)
    (hrun : Eval.Returns (env.whnf t) n u m) :
    u.Plain env m ∧ Equal (env.rules hclosed) (t.nameless []) (u.nameless []) ∧
      (u.kind = .lam ∨ u.kind ≠ .ann ∧ (u.nameless []).Rigid (env.rules hclosed)) := by
  have hred := whnf_reduct (agrees_plain hclosed n) (fun _ hx => hx) ht.reach hrun
  have htidy := whnf_tidy hclosed hfresh ⟨fun _ hx => hx, fun _ hx => hx⟩ ht.tidy hrun
  have hlt : ∀ x : Var, x.id < n → x.id < m := fun x hx => hx.trans_le hred.next
  refine ⟨⟨hred.reach.mono (Reach.plain_le hlt (fun _ hg => hg) id), ?_⟩, hred.steps.equal, ?_⟩
  · exact htidy.mono (Hygiene.le_plain hlt fun x hx => Or.elim hx (hlt x) And.right)
  · exact (Whnf.of_whnf hrun).rigid_of_plain hclosed ht.reach (by simp)

lemma kind_of_shape (ht : (t.nameless []).Rigid R) (hu : (u.nameless []).Rigid R)
    (h : (t.nameless []).shape = (u.nameless []).shape) : t.kind = u.kind := by
  cases t <;> first
    | exact False.elim ht
    | (cases u <;> first
        | rfl
        | exact False.elim hu
        | simp [Term.nameless, Var.locate, shape] at h)

/-! ### Equal terms are not told apart -/

/-- Equal terms are not told apart with some fuel. -/
def CompleteAt (env : Env) (hclosed : env.Closed) (fuel : Nat) : Prop :=
  ∀ ⦃t u : Term⦄ ⦃n m : Nat⦄ ⦃b : Bool⦄, t.Plain env n → u.Plain env n →
    Equal (env.rules hclosed) (t.nameless []) (u.nameless []) →
    Eval.Returns (env.convertibleWith fuel t u) n b m → b = true ∧ n ≤ m

variable {fuel n : Nat}

/-- The bodies of equal binders agree at the variable of the left one. -/
lemma CompleteAt.body (hcomplete : CompleteAt env hclosed fuel) {v : Var} {body body' : Term}
    (hbody : body.Plain env n) (hbody' : body'.Plain env n) (hv : v.id < n)
    (hequal : Equal (env.rules hclosed) ((body.nameless [v]).instantiate [.free v])
      ((body'.nameless [w]).instantiate [.free v]))
    (hrun : Eval.Returns (env.convertibleWith fuel body ((body'.rename w v).value n))
      ((body'.rename w v).next n) b m) : b = true ∧ n ≤ m := by
  obtain ⟨hplain, hnext, hform⟩ := hbody'.rename (w := w) hv
  obtain ⟨-, -, hself⟩ := hbody.rename (w := v) hv
  have hsame : body.rename v v = pure body := by simp [Term.rename]
  rw [hsame, Fresh.value_pure] at hself
  rw [← hform, ← hself] at hequal
  obtain ⟨hb, hm⟩ := hcomplete (hbody.mono hnext) hplain hequal hrun
  exact ⟨hb, hnext.trans hm⟩

lemma equal_app_free (v : Var) (h : Equal R f g) :
    Equal R (.app f (.free v)) (.app g (.free v)) := h.app (.refl _)

lemma equal_lam_free (hbody : body.Plain env n) (dom : Term)
    (hv : v.id < n) :
    Equal R (.app ((Term.lam v dom body).nameless []) (.free v)) (body.nameless []) := by
  obtain ⟨-, -, hself⟩ := hbody.rename (w := v) hv
  have hsame : body.rename v v = pure body := by simp [Term.rename]
  rw [hsame, Fresh.value_pure] at hself
  rw [hself]
  exact Equal.beta _ _ _

lemma CompleteAt.compared (hcomplete : CompleteAt env hclosed fuel) {t u : Term}
    (ht : t.Plain env n) (hu : u.Plain env n)
    (htshape : t.kind = .lam ∨ t.kind ≠ .ann ∧ (t.nameless []).Rigid (env.rules hclosed))
    (hushape : u.kind = .lam ∨ u.kind ≠ .ann ∧ (u.nameless []).Rigid (env.rules hclosed))
    (hequal : Equal (env.rules hclosed) (t.nameless []) (u.nameless []))
    (hcmp : Compared env fuel t u n b m) : b = true ∧ n ≤ m := by
  cases hcmp with
  | univ => exact ⟨rfl, le_rfl⟩
  | var _ hb =>
    have hshape := hequal.shape (htshape.resolve_left nofun).2 (hushape.resolve_left nofun).2
    exact ⟨hb.trans (beq_iff_eq.2 (Shape.free.inj hshape)), le_rfl⟩
  | global _ hb =>
    have hshape := hequal.shape (htshape.resolve_left nofun).2 (hushape.resolve_left nofun).2
    exact ⟨hb.trans (beq_iff_eq.2 (Shape.global.inj hshape)), le_rfl⟩
  | piDom hdom =>
    exact hcomplete ⟨ht.reach.1, ht.tidy.2.1⟩ ⟨hu.reach.1, hu.tidy.2.1⟩ hequal.pi_inj.1 hdom
  | @pi v w dom cod dom' cod' _ k _ _ hdom hcod =>
    have hv : v.id < n := ht.tidy.1.1
    obtain ⟨-, hk⟩ := hcomplete ⟨ht.reach.1, ht.tidy.2.1⟩ ⟨hu.reach.1, hu.tidy.2.1⟩
      hequal.pi_inj.1 hdom
    have hcod₁ := Plain.below ht.reach.2 ht.tidy.2.2 hv
    have hcod₂ := Plain.below hu.reach.2 hu.tidy.2.2 hu.tidy.1.1
    obtain ⟨hb, hm⟩ := hcomplete.body (hcod₁.mono hk) (hcod₂.mono hk)
      (by omega) (hequal.pi_inj.2.instantiate _) hcod
    exact ⟨hb, hk.trans hm⟩
  | @lam v w dom body dom' body' _ _ _ hbody =>
    have hv : v.id < n := ht.tidy.1.1
    refine hcomplete.body (Plain.below ht.reach.2 ht.tidy.2.2 hv)
      (Plain.below hu.reach.2 hu.tidy.2.2 hu.tidy.1.1) hv ?_ hbody
    exact ((Equal.beta _ _ _).symm.trans (equal_app_free v hequal)).trans (Equal.beta _ _ _)
  | @etaLeft v dom body _ _ _ _ _ hbody =>
    have hv : v.id < n := ht.tidy.1.1
    have hplain := Plain.below ht.reach.2 ht.tidy.2.2 hv
    have happ := (equal_lam_free hplain dom hv).symm.trans (equal_app_free v hequal)
    exact hcomplete hplain (hu.app (.var hv)) happ hbody
  | @etaRight v dom body _ _ _ _ _ hbody =>
    have hv : v.id < n := hu.tidy.1.1
    have hplain := Plain.below hu.reach.2 hu.tidy.2.2 hv
    have happ := (equal_app_free v hequal).trans (equal_lam_free hplain dom hv)
    exact hcomplete (ht.app (.var hv)) hplain happ hbody
  | @appHead head arg head' arg' _ _ hhead =>
    have htr : (head.nameless []).Rigid _ := (htshape.resolve_left nofun).2
    have hur : (head'.nameless []).Rigid _ := (hushape.resolve_left nofun).2
    have hinj := Equal.app_inj htr hur hequal
    exact hcomplete ⟨ht.reach.1, ht.tidy.1⟩ ⟨hu.reach.1, hu.tidy.1⟩ hinj.1 hhead
  | @app head arg head' arg' _ _ _ _ hhead harg =>
    have htr : (head.nameless []).Rigid _ := (htshape.resolve_left nofun).2
    have hur : (head'.nameless []).Rigid _ := (hushape.resolve_left nofun).2
    have hinj := Equal.app_inj htr hur hequal
    obtain ⟨-, hk⟩ := hcomplete ⟨ht.reach.1, ht.tidy.1⟩ ⟨hu.reach.1, hu.tidy.1⟩ hinj.1 hhead
    obtain ⟨hb, hm⟩ := hcomplete (Plain.mono ⟨ht.reach.2, ht.tidy.2⟩ hk)
      (Plain.mono ⟨hu.reach.2, hu.tidy.2⟩ hk) hinj.2 harg
    exact ⟨hb, hk.trans hm⟩
  | caseFalse | case => exact False.elim ht.reach.1
  | @absurd scrut scrut' _ _ _ hscrut =>
    exact hcomplete (t := scrut) (u := scrut') ⟨ht.reach, ht.tidy⟩ ⟨hu.reach, hu.tidy⟩
      hequal.absurd_inj hscrut
  | mismatch _ htl hul hkind =>
    have htr := htshape.resolve_left htl
    have hur := hushape.resolve_left hul
    have hsame := kind_of_shape htr.2 hur.2 (hequal.shape htr.2 hur.2)
    exact (hkind.elim (fun hne => hne hsame) htr.1).elim

/-- Equal terms are not told apart, by induction on the fuel. -/
lemma completeAt (hclosed : env.Closed) (hfresh : env.FreshBodies) (fuel : Nat) :
    CompleteAt env hclosed fuel := by
  induction fuel with
  | zero =>
    intro t u n m b _ _ _ hrun
    simp [convertibleWith] at hrun
  | succ fuel ih =>
    intro t u n m b ht hu hequal hrun
    rcases convertibleWith_inv hrun with ⟨_, rfl, rfl⟩ | ⟨t', u', j, k, hwt, hwu, hcmp⟩
    · exact ⟨rfl, le_rfl⟩
    · have hj := (Whnf.of_whnf hwt).next
      have hk := (Whnf.of_whnf hwu).next
      obtain ⟨ht', htsteps, htshape⟩ := whnf_plain hclosed hfresh ht hwt
      obtain ⟨hu', husteps, hushape⟩ := whnf_plain hclosed hfresh (hu.mono hj) hwu
      have hequal' := (htsteps.symm.trans hequal).trans husteps
      obtain ⟨hb, hm⟩ := ih.compared (ht'.mono hk) hu' htshape hushape hequal' hcmp
      exact ⟨hb, by omega⟩

end Env

/-! ### Closing substitutions -/

/-- The values of a substitution have no free variables. -/
def Subst.Closed (σ : Subst) : Prop := ∀ ⦃v : Var⦄ ⦃t : Term⦄, σ.get? v = some t → t.Over .closed

lemma Subst.image_cases (σ : Subst) (x : Var) :
    σ.get? x = some (σ.image x) ∨ σ.image x = .var x := by
  unfold image Assignment.image get?
  cases σ.entries.get? x with
  | none => exact .inr rfl
  | some t => exact .inl rfl

lemma Subst.Closed.nameless_apply {σ : Subst} (hσ : σ.Closed) (hS : S.Behind n) {t : Term}
    (ht : t.Over S) : ((σ.apply t).value n).nameless [] = (t.nameless []).fill σ.filling := by
  refine Subst.nameless_apply (fun x hx => ?_) ht
  rcases σ.image_cases x with hget | hvar
  · exact (hσ hget).mono ⟨fun _ hy => False.elim hy, fun _ _ => trivial, fun _ => trivial⟩
  · rw [hvar]
    exact hS x hx

namespace Env

/-- Apply a substitution to two terms and compare the results. -/
def convertibleUnder (env : Env) (σ : Subst) (t u : Term) : Eval Bool := do
  let t ← σ.apply t
  let u ← σ.apply u
  env.convertible t u

/-- If the terms are found convertible, they are never told apart once closed
terms stand for some of their variables. -/
def Stable (env : Env) (t u : Term) : Prop :=
  ∀ ⦃σ : Subst⦄ ⦃n m k l : Nat⦄, σ.Closed → Eval.Returns (env.convertible t u) n true m → n ≤ k →
    ¬ Eval.Returns (env.convertibleUnder σ t u) k false l

/-- Convertible terms that share no binders stay equal by computation under
every substitution of closed terms, and the check does not tell the results
apart where nothing is unfolded or split. -/
theorem convertible_stable_under_closing {env : Env} (hclosed : env.Closed)
    (hfresh : env.FreshBodies) {X P Q : Var → Prop} {n m : Nat} (hapart : Apart X P Q n)
    {t u : Term} (ht : t.Tidy ⟨X, P, False⟩) (hu : u.Tidy ⟨X, Q, False⟩)
    (hrun : Eval.Returns (env.convertible t u) n true m) {σ : Subst} (hσ : σ.Closed)
    {k : Nat} (hk : n ≤ k) :
    Equal (env.rules hclosed) (((σ.apply t).value k).nameless [])
        (((σ.apply u).value ((σ.apply t).next k)).nameless []) ∧
      (t.Over (.plain env n) → u.Over (.plain env n) →
        (∀ v a, σ.get? v = some a → a.Plain env k) →
        ∀ b l, Eval.Returns (env.convertibleUnder σ t u) k b l → b = true) := by
  have hequal := equal_of_convertible hclosed hfresh hapart ht hu hrun
  have hnext := Subst.apply_next σ t k
  have hsubst : Equal (env.rules hclosed) (((σ.apply t).value k).nameless [])
      (((σ.apply u).value ((σ.apply t).next k)).nameless []) := by
    rw [hσ.nameless_apply (S := { vars := X }) (hapart.mono hk).scope ht.over,
      hσ.nameless_apply (S := { vars := X }) (hapart.mono (by omega)).scope hu.over]
    exact hequal.fill _
  refine ⟨hsubst, fun htp hup hplain b l hagain => ?_⟩
  have hvalues : ∀ {j}, k ≤ j → ∀ x : Var, x.id < j → (σ.image x).Plain env j := by
    intro j hj x hx
    rcases σ.image_cases x with hget | hvar
    · exact (hplain x _ hget).mono hj
    · rw [hvar]
      exact .var hx
  have htplain : t.Plain env n := ⟨htp, ht.mono (Hygiene.le_plain hapart.scope hapart.left)⟩
  have huplain : u.Plain env n := ⟨hup, hu.mono (Hygiene.le_plain hapart.scope hapart.right)⟩
  have ht' := ((htplain.mono hk).apply (hvalues (by omega))).1
  have hu' := ((huplain.mono (by omega)).apply (hvalues hnext)).1
  simp only [convertibleUnder, Eval.returns_bind, Eval.returns_lift] at hagain
  obtain ⟨_, _, ⟨rfl, rfl⟩, _, _, ⟨rfl, rfl⟩, hagain⟩ := hagain
  exact (completeAt hclosed hfresh env.fuel (ht'.mono (Subst.apply_next σ u _)) hu' hsubst hagain).1

end Env

/-! ### Instances -/

namespace Stability

/-- A variable that stands for a function. -/
def f : Var := ⟨0, "f"⟩

def a : Var := ⟨1, "a"⟩

def q : Var := ⟨2, "q"⟩

/-- An entry for the identity under some name. -/
def identity (name : Name) : Name × Entry :=
  (name, .function
    { name, type := .univ, body := some (.lam a .univ (.var a)), transparent := true })

/-- A postulated constant, and two names for the identity. -/
def env : Env where
  sig := { entries := [("c", .postulate .univ), identity "id₁", identity "id₂"] }
  fuel := 16

/-- The variable stands for a closed literal. -/
def value : Subst := .single f (.lam q .univ (.var q))

lemma unfoldable_env (h : env.sig.unfoldable? env.unfold name = some body) :
    body = .lam a .univ (.var a) := by
  by_cases hc : "c" = name
  · subst hc
    simp [env, unfoldable?, function?, get?] at h
  · by_cases h₁ : "id₁" = name
    · subst h₁
      simp [env, identity, unfoldable?, function?, get?] at h
      exact h.symm
    · by_cases h₂ : "id₂" = name
      · subst h₂
        simp [env, identity, unfoldable?, function?, get?] at h
        exact h.symm
      · simp [env, identity, unfoldable?, function?, get?, hc, h₁,
          h₂] at h

lemma env_closed : env.Closed := by
  intro name body h
  rw [unfoldable_env h]
  simp [Term.Over, Reach.bind]

lemma env_freshBodies : env.FreshBodies := fun _ _ h => .inl ⟨a, .univ, .var a, unfoldable_env h⟩

lemma value_closed : value.Closed := by
  intro v t h
  rw [Subst.eq_of_get?_single h]
  simp [Term.Over, Reach.bind]

/-- The variable, as a function that passes on its argument. -/
def expanded : Term := .lam a .univ (.app (.var f) (.var a))

/-- The first identity applied to the variable. -/
def first : Term := .app (.global "id₁") (.var f)

/-- The second identity applied to the variable. -/
def second : Term := .app (.global "id₂") (.var f)

/-- A constructor with a field. -/
def ctorEnv : Env where
  sig := { entries := [("c", .ctor
    { name := "c", family := "D", numParams := 0, numFields := 1, type := .univ })] }
  fuel := 16

/-- A case split that expects a constructor without its field. -/
def split (scrut : Term) : Term := .case scrut (.cons "c" [] .univ .nil)

/-- The postulate applied to a term. -/
def applied (t : Term) : Term := .app (.global "c") t

/-- A postulated constant, and a name for a function type. -/
def typeEnv : Env where
  sig :=
    { entries := [("c", .postulate .univ),
        ("g", .function ⟨"g", .univ, some (.pi a .univ (applied (.var a))), true, none⟩)] }
  fuel := 16

/-- Two parameters, of which the outer one is used. -/
def outer : Term := .pi f .univ (.pi q .univ (applied (.var f)))

/-- The function variable applied to the identity. -/
def toIdentity : Term := .app (.var f) (.lam a .univ (.var a))

/-- The function variable applied to the constant function of its next argument. -/
def toConstant : Term := .lam a .univ (.app (.app (.var f) (.lam q .univ (.var a))) (.var a))

/-- A closed value for a variable. -/
def constant (v : Var) : Subst := .single v (.global "c")

lemma constant_closed (v : Var) : (constant v).Closed := by
  intro w t h
  rw [Subst.eq_of_get?_single h]
  trivial

/-- Conversion is not stable.

* Two identities agree on a variable, and are told apart once it stands for a
  literal, since neither is unfolded then.
* A case split on a variable agrees with one on its η-expansion, and they are told
  apart once the variable stands for a constructor, since only the first one selects.
* A binder on the left captures a variable that is free on the right; so does a
  binder that repeats the one of an η-expansion, and an inner binder that repeats an
  outer one, in the term or in an unfolded body.  Substitution renames the binders
  of the terms, and the difference shows. -/
theorem convertible_not_stable :
    ¬ env.Stable first second ∧ ¬ ctorEnv.Stable (split (.var f)) (split expanded) ∧
    ¬ env.Stable (.pi a .univ (applied (.var a))) (.pi q .univ (applied (.var a))) ∧
    ¬ env.Stable toIdentity toConstant ∧
    ¬ env.Stable (.pi a .univ (.pi a .univ (applied (.var a)))) outer ∧
    ¬ typeEnv.Stable (.pi a .univ (.global "g")) outer := by
  refine ⟨fun h => ?_, fun h => ?_, fun h => ?_, fun h => ?_, fun h => ?_, fun h => ?_⟩
  · refine h (σ := value) (m := 3) (l := 3) value_closed ?_ (le_refl 3) ?_ <;>
      (unfold Eval.Returns; decide)
  · refine h (σ := constant f) (m := 3) (l := 4) (constant_closed f) ?_ (le_refl 3) ?_ <;>
      (unfold Eval.Returns; decide)
  · refine h (σ := constant a) (m := 3) (l := 5) (constant_closed a) ?_ (le_refl 3) ?_ <;>
      (unfold Eval.Returns; decide)
  · refine h (σ := constant ⟨3, "w"⟩) (m := 4) (l := 7) (constant_closed _) ?_ (le_refl 4) ?_ <;>
      (unfold Eval.Returns; decide)
  · refine h (σ := constant ⟨3, "w"⟩) (m := 5) (l := 9) (constant_closed _) ?_ (le_refl 4) ?_ <;>
      (unfold Eval.Returns; decide)
  · refine h (σ := constant ⟨3, "w"⟩) (m := 5) (l := 8) (constant_closed _) ?_ (le_refl 4) ?_ <;>
      (unfold Eval.Returns; decide)

theorem convertible_stable_expanded :
    Equal (env.rules env_closed) (((value.apply (applied expanded)).value 3).nameless [])
        (((value.apply (applied (.var f))).value 4).nameless []) ∧
      ∀ b l, Eval.Returns (env.convertibleUnder value (applied expanded) (applied (.var f))) 3 b l →
        b = true := by
  have hapart : Apart (· = f) (· = a) (fun _ => False) 3 := by
    constructor <;> simp [f, a]
  have hexpanded : (applied expanded).Tidy ⟨(· = f), (· = a), False⟩ := by
    simp [applied, expanded, Term.Tidy, Hygiene.bind, Hygiene.Fits, f, a]
  have hvar : (applied (.var f)).Tidy ⟨(· = f), fun _ => False, False⟩ := by
    simp [applied, Term.Tidy]
  have hrun : Eval.Returns (env.convertible (applied expanded) (applied (.var f))) 3 true 3 := by
    unfold Eval.Returns
    decide
  have hc : env.sig.unfoldable? env.unfold "c" = none := by decide
  obtain ⟨hequal, hcheck⟩ := Env.convertible_stable_under_closing env_closed env_freshBodies hapart
    hexpanded hvar hrun value_closed (le_refl 3)
  refine ⟨hequal, hcheck ?_ ?_ ?_⟩
  · simp [applied, expanded, Term.Over, Reach.plain, Reach.bind, f, a, hc]
  · simp [applied, Term.Over, Reach.plain, f, hc]
  · intro v t hget
    rw [Subst.eq_of_get?_single hget]
    constructor <;> simp [Term.Over, Term.Tidy, Reach.plain, Reach.bind, Hygiene.plain,
      Hygiene.bind, Hygiene.Fits, q]

end Stability
end Clausal
