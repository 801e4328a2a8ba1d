import Clausal.Proofs.Nameless.Confluence
import Mathlib.Logic.Relation

/-!
# Equality by computation

Two terms are equal by computation when they reduce to a common term.
Confluence makes this an equivalence, and it makes rigid heads injective:
equal applications of rigid heads have the same head and equal arguments.
-/

namespace Clausal.Nameless

open List

/-- Reduction in any number of steps. -/
def Reduces (R : Rules) : Nameless → Nameless → Prop := Relation.ReflTransGen (Par R)

/-- Equality by computation: a common reduct. -/
def Equal (R : Rules) : Nameless → Nameless → Prop := Relation.Join (Reduces R)

lemma Equal.equivalence (R : Rules) : Equivalence (Equal R) :=
  Relation.equivalence_join_reflTransGen fun t _ _ hu hv =>
    have ⟨w, hw⟩ := exists_dominated R t
    ⟨w, .single (hw _ hu), .single (hw _ hv)⟩

namespace Equal

lemma refl (t : Nameless) : Equal R t t := (equivalence R).refl t

lemma symm (h : Equal R t u) : Equal R u t := (equivalence R).symm h

lemma trans (h : Equal R t u) (h' : Equal R u v) : Equal R t v :=
  (equivalence R).trans h h'

lemma of_reduces (h : Reduces R t u) : Equal R t u := ⟨u, h, .refl⟩

lemma of_par (h : Par R t u) : Equal R t u := of_reduces (.single h)

lemma of_eq (h : t = u) : Equal R t u := h ▸ refl t

/-! ### Equal parts give equal terms -/

lemma map {C : Nameless → Nameless} (hC : ∀ {x y}, Par R x y → Par R (C x) (C y))
    (h : Equal R t u) : Equal R (C t) (C u) := by
  obtain ⟨w, ht, hu⟩ := h
  exact ⟨C w, ht.lift C fun _ _ => hC, hu.lift C fun _ _ => hC⟩

lemma map₂ {C : Nameless → Nameless → Nameless}
    (hC : ∀ {x y x' y'}, Par R x x' → Par R y y' → Par R (C x y) (C x' y'))
    (ht : Equal R t t') (hu : Equal R u u') : Equal R (C t u) (C t' u') :=
  (ht.map fun h => hC h (.refl u)).trans (hu.map (hC (.refl t')))

lemma app (hf : Equal R f f') (ha : Equal R a a') : Equal R (.app f a) (.app f' a') :=
  map₂ .app hf ha

lemma pi (ha : Equal R a a') (hb : Equal R b b') : Equal R (.pi a b) (.pi a' b') := map₂ .pi ha hb

lemma case (ht : Equal R t t') (has : Equal R as as') : Equal R (.case t as) (.case t' as') :=
  map₂ .case ht has

lemma absurd (ht : Equal R t t') : Equal R (.absurd t) (.absurd t') :=
  ht.map .absurd

lemma arm (c : Name) (k : Nat) (hb : Equal R b b') (hr : Equal R r r') :
    Equal R (.arm c k b r) (.arm c k b' r') :=
  map₂ (.arm c k) hb hr

/-- The parameter types of literals do not matter. -/
lemma lam (a a' : Nameless) (hb : Equal R b b') : Equal R (.lam a b) (.lam a' b') := by
  have hforget : ∀ (a b : Nameless), Equal R (.lam a b) (.lam .univ b) :=
    fun a b => of_par (.forget a (.refl b) rfl)
  have hbody : Equal R (.lam .univ b) (.lam .univ b') := hb.map (.lam .univ)
  exact ((hforget a b).trans hbody).trans (hforget a' b').symm

lemma ann (t a : Nameless) : Equal R (.ann t a) t := of_par (.erase a (.refl t))

lemma fill (h : Equal R t u) (s : Filling) : Equal R (t.fill s) (u.fill s) :=
  h.map fun hp => hp.fill ⟨fun _ => .refl _, fun _ => .refl _⟩

lemma instantiate (h : Equal R t u) (vs : List Nameless) :
    Equal R (t.instantiate vs) (u.instantiate vs) := h.fill _

lemma rename (h : Equal R t u) (ρ : Nat → Nat) :
    Equal R (t.rename ρ) (u.rename ρ) := h.map fun hp => hp.rename ρ

/-- Equal values make equal terms, by induction on the term. -/
lemma fill_congr (t : Nameless) (hfree : ∀ v, Equal R (s.free v) (r.free v))
    (hbound : ∀ i, Equal R (s.bound i) (r.bound i)) : Equal R (t.fill s) (t.fill r) := by
  have hunder : ∀ (k i : Nat) {s r : Filling}, (∀ i, Equal R (s.bound i) (r.bound i)) →
      Equal R ((s.under k).bound i) ((r.under k).bound i) := by
    intro k i s r hbound
    simp only [Filling.under]
    split
    · exact .refl _
    · exact (hbound _).rename _
  induction t generalizing s r with
  | univ | global | stop => exact .refl _
  | bound i => exact hbound i
  | free v => exact hfree v
  | pi a b iha ihb =>
    exact (iha hfree hbound).pi (ihb (fun v => (hfree v).rename _) fun i => hunder 1 i hbound)
  | lam a b _ ihb =>
    exact .lam _ _ (ihb (fun v => (hfree v).rename _) fun i => hunder 1 i hbound)
  | app f a ihf iha => exact (ihf hfree hbound).app (iha hfree hbound)
  | ann t a iht _ => exact ((ann _ _).trans (iht hfree hbound)).trans (ann _ _).symm
  | case t as iht ihas => exact (iht hfree hbound).case (ihas hfree hbound)
  | absurd t iht => exact (iht hfree hbound).absurd
  | arm c k b r ihb ihr =>
    exact .arm c k (ihb (fun v => (hfree v).rename _) fun i => hunder k i hbound) (ihr hfree hbound)

lemma beta (a b x : Nameless) : Equal R (.app (.lam a b) x) (b.instantiate [x]) :=
  of_par (.beta a (.refl b) (.refl x))

lemma unfold (h : R.unfold g = some body) : Equal R (.global g) body := of_par (.unfold h)

lemma eta (t a : Nameless) : Equal R t (.lam a (.app (t.shift 1) (.bound 0))) :=
  (of_par (.eta a rfl (.refl t) rfl)).symm

end Equal

/-! ### Rigid heads -/

/-- What stands outermost in a term. -/
inductive Shape where
  | univ
  | bound (i : Nat)
  | free (v : Var)
  | global (g : Name)
  | pi
  | app
  | absurd
  | other
deriving DecidableEq

def shape : Nameless → Shape
  | univ => .univ
  | bound i => .bound i
  | free v => .free v
  | global g => .global g
  | pi _ _ => .pi
  | app _ _ => .app
  | absurd _ => .absurd
  | _ => .other

lemma Par.shape (ht : t.Rigid R) (h : Par R t w) : w.shape = t.shape := by
  cases h with
  | beta | lam | ann | case | stop | arm | forget | erase | select | eta => exact False.elim ht
  | unfold hbody =>
    have hnone : R.unfold _ = none := ht
    simp [hnone] at hbody
  | _ => rfl

lemma Reduces.rigid (ht : t.Rigid R) (h : Reduces R t w) : w.Rigid R ∧ w.shape = t.shape := by
  induction h with
  | refl => exact ⟨ht, rfl⟩
  | tail _ hstep ih => exact ⟨hstep.rigid ih.1, (hstep.shape ih.1).trans ih.2⟩

lemma Equal.shape (ht : t.Rigid R) (hu : u.Rigid R) (h : Equal R t u) : t.shape = u.shape := by
  obtain ⟨w, htw, huw⟩ := h
  exact (htw.rigid ht).2.symm.trans (huw.rigid hu).2

lemma Reduces.app_of_rigid (hf : f.Rigid R) (h : Reduces R (.app f a) w) :
    ∃ f' a', w = .app f' a' ∧ Reduces R f f' ∧ Reduces R a a' := by
  induction h with
  | refl => exact ⟨f, a, rfl, .refl, .refl⟩
  | tail _ hstep ih =>
    obtain ⟨f', a', rfl, hf', ha'⟩ := ih
    obtain ⟨f'', a'', rfl, hf'', ha''⟩ := hstep.app_of_rigid (hf'.rigid hf).1
    exact ⟨f'', a'', rfl, hf'.tail hf'', ha'.tail ha''⟩

lemma Equal.app_inj {g : Nameless} (hf : f.Rigid R) (hg : g.Rigid R)
    (h : Equal R (.app f a) (.app g b)) : Equal R f g ∧ Equal R a b := by
  obtain ⟨w, hfw, hgw⟩ := h
  obtain ⟨f', a', rfl, hf', ha'⟩ := hfw.app_of_rigid hf
  obtain ⟨g', b', heq, hg', hb'⟩ := hgw.app_of_rigid hg
  obtain ⟨rfl, rfl⟩ := app.inj heq
  exact ⟨⟨_, hf', hg'⟩, _, ha', hb'⟩

lemma Reduces.pi (h : Reduces R (.pi a b) w) :
    ∃ a' b', w = .pi a' b' ∧ Reduces R a a' ∧ Reduces R b b' := by
  induction h with
  | refl => exact ⟨a, b, rfl, .refl, .refl⟩
  | tail _ hstep ih =>
    obtain ⟨a', b', rfl, ha', hb'⟩ := ih
    cases hstep with
    | pi ha'' hb'' => exact ⟨_, _, rfl, ha'.tail ha'', hb'.tail hb''⟩

lemma Equal.pi_inj (h : Equal R (.pi a b) (.pi a' b')) : Equal R a a' ∧ Equal R b b' := by
  obtain ⟨w, hl, hr⟩ := h
  obtain ⟨a₁, b₁, rfl, ha₁, hb₁⟩ := hl.pi
  obtain ⟨a₂, b₂, heq, ha₂, hb₂⟩ := hr.pi
  obtain ⟨rfl, rfl⟩ := pi.inj heq
  exact ⟨⟨_, ha₁, ha₂⟩, _, hb₁, hb₂⟩

lemma Reduces.absurd (h : Reduces R (.absurd t) w) : ∃ t', w = .absurd t' ∧ Reduces R t t' := by
  induction h with
  | refl => exact ⟨t, rfl, .refl⟩
  | tail _ hstep ih =>
    obtain ⟨t', rfl, ht'⟩ := ih
    cases hstep with
    | absurd ht'' => exact ⟨_, rfl, ht'.tail ht''⟩

lemma Equal.absurd_inj (h : Equal R (.absurd t) (.absurd u)) : Equal R t u := by
  obtain ⟨w, hl, hr⟩ := h
  obtain ⟨t', rfl, ht'⟩ := hl.absurd
  obtain ⟨u', heq, hu'⟩ := hr.absurd
  obtain rfl := absurd.inj heq
  exact ⟨_, ht', hu'⟩

/-- Equal applications of rigid globals have the same head and equal arguments. -/
lemma Equal.spine_inj (hg : R.unfold g = none) (hh : R.unfold h = none)
    (heq : Equal R ((global g).apps args) ((global h).apps args')) :
    g = h ∧ Forall₂ (Equal R) args args' := by
  have hgr : ∀ args : List Nameless, ((global g).apps args).Rigid R := .apps hg
  have hhr : ∀ args : List Nameless, ((global h).apps args).Rigid R := .apps hh
  induction args using reverseRecOn generalizing args' with
  | nil =>
    rcases eq_nil_or_concat args' with rfl | ⟨args', a', rfl⟩
    · have hshape := heq.shape (hgr []) (hhr [])
      exact ⟨Shape.global.inj hshape, .nil⟩
    · have hshape := heq.shape (hgr []) (hhr _)
      rw [concat_eq_append, apps_concat] at hshape
      exact Shape.noConfusion hshape
  | append_singleton args a ih =>
    rcases eq_nil_or_concat args' with rfl | ⟨args', a', rfl⟩
    · have hshape := heq.shape (hgr _) (hhr [])
      rw [apps_concat] at hshape
      exact Shape.noConfusion hshape
    · rw [concat_eq_append, apps_concat, apps_concat] at heq
      obtain ⟨hhead, harg⟩ := heq.app_inj (hgr args) (hhr args')
      obtain ⟨rfl, hargs⟩ := ih hhead
      rw [concat_eq_append]
      exact ⟨rfl, rel_append hargs (.cons harg .nil)⟩

end Clausal.Nameless
