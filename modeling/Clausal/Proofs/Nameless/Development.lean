import Clausal.Proofs.Nameless.Evaluation
import Clausal.Proofs.Nameless.Head

/-!
# Developments

A development contracts some redexes of a term at once.  It takes no literal that
only passes on its argument for a redex: what is a literal stays one, so a
function that is stuck on a literal stays stuck.
-/

namespace Clausal.Nameless

open List

/-- A development: some redexes of a term are contracted at once. -/
abbrev Dev : Rules → Nameless → Nameless → Prop := Contract false

/-- Any number of developments. -/
def Devs (R : Rules) : Nameless → Nameless → Prop := Relation.ReflTransGen (Dev R)

/-- Any number of developments of the members of a list. -/
def ListDevs (R : Rules) : List Nameless → List Nameless → Prop :=
  Relation.ReflTransGen (Forall₂ (Dev R))

namespace Dev

lemma refl_list (ts : List Nameless) : Forall₂ (Dev R) ts ts :=
  forall₂_same.2 fun t _ => .refl t

/-- A development of an application develops head and arguments, or contracts the head with the
first of them. -/
lemma apps_cases (h : Dev R (f.apps args) w) :
    (∃ f' args', w = f'.apps args' ∧ Dev R f f' ∧ Forall₂ (Dev R) args args') ∨
      ∃ a b b' x x' rest rest', f = .lam a b ∧ args = x :: rest ∧
        w = (b'.instantiate [x']).apps rest' ∧ Dev R b b' ∧ Dev R x x' ∧
        Forall₂ (Dev R) rest rest' := by
  induction args using reverseRecOn generalizing w with
  | nil => exact .inl ⟨w, [], rfl, h, .nil⟩
  | append_singleton args y ih =>
    rw [apps_concat] at h
    generalize hhead : f.apps args = head at h
    cases h with
    | @app _ head' _ y' hf hy =>
      subst hhead
      rcases ih hf with ⟨f', args', rfl, hf', hargs⟩ |
        ⟨a, b, b', x, x', rest, rest', rfl, rfl, rfl, hb, hx, hrest⟩
      · exact .inl ⟨f', args' ++ [y'], (apps_concat _ _ _).symm, hf',
          rel_append hargs (.cons hy .nil)⟩
      · exact .inr ⟨a, b, b', x, x', rest ++ [y], rest' ++ [y'], rfl, rfl,
          (apps_concat _ _ _).symm, hb, hx, rel_append hrest (.cons hy .nil)⟩
    | @beta b b' _ y' a hb hy =>
      rcases eq_nil_or_concat args with rfl | ⟨args, z, rfl⟩
      · exact .inr ⟨a, b, b', y, y', [], [], hhead, rfl, rfl, hb, hy, .nil⟩
      · rw [concat_eq_append, apps_concat] at hhead
        cases hhead

/-- The arms of a case split keep their constructors and their fields. -/
lemma arms (h : Dev R as as') (harms : as.isArms = true) :
    as'.isArms = true ∧ ∀ name, (as.arm? name = none → as'.arm? name = none) ∧
      ∀ k body, as.arm? name = some (k, body) →
        ∃ body', as'.arm? name = some (k, body') ∧ Dev R body body' := by
  induction h with
  | stop => exact ⟨rfl, fun name => ⟨fun _ => rfl, nofun⟩⟩
  | @arm b b' r r' c k hb _ _ ihr =>
    obtain ⟨harms', hrest⟩ := ihr harms
    refine ⟨harms', fun name => ?_⟩
    simp only [arm?]
    split
    · refine ⟨nofun, fun k' body hbody => ?_⟩
      cases hbody
      exact ⟨b', rfl, hb⟩
    · exact hrest name
  | _ => cases harms

end Dev

/-! ### Several developments -/

namespace Devs

lemma of_headReduces (h : HeadReduces R t u) : Devs R t u := h.lift id fun _ _ => HeadStep.contract

lemma rigid (h : Devs R t u) (ht : t.Rigid R) : u.Rigid R := by
  induction h with
  | refl => exact ht
  | tail _ hstep ih => exact hstep.rigid ih

lemma pi (ha : Devs R a a') (hb : Devs R b b') : Devs R (.pi a b) (.pi a' b') :=
  (ha.lift (Nameless.pi · b) fun _ _ h => .pi h (.refl b)).trans
    (hb.lift (Nameless.pi a') fun _ _ h => .pi (.refl a') h)

lemma lam (ha : Devs R a a') (hb : Devs R b b') : Devs R (.lam a b) (.lam a' b') :=
  (ha.lift (Nameless.lam · b) fun _ _ h => .lam h (.refl b)).trans
    (hb.lift (Nameless.lam a') fun _ _ h => .lam (.refl a') h)

lemma app (hf : Devs R f f') (ha : Devs R a a') : Devs R (.app f a) (.app f' a') :=
  (hf.lift (Nameless.app · a) fun _ _ h => .app h (.refl a)).trans
    (ha.lift (Nameless.app f') fun _ _ h => .app (.refl f') h)

lemma case (ht : Devs R t t') (has : Devs R as as') : Devs R (.case t as) (.case t' as') :=
  (ht.lift (Nameless.case · as) fun _ _ h => .case h (.refl as)).trans
    (has.lift (Nameless.case t') fun _ _ h => .case (.refl t') h)

lemma absurd (ht : Devs R t t') : Devs R (.absurd t) (.absurd t') :=
  ht.lift Nameless.absurd fun _ _ => .absurd

lemma arm (c : Name) (k : Nat) (hb : Devs R b b') (hr : Devs R r r') :
    Devs R (.arm c k b r) (.arm c k b' r') :=
  (hb.lift (Nameless.arm c k · r) fun _ _ h => .arm c k h (.refl r)).trans
    (hr.lift (Nameless.arm c k b') fun _ _ h => .arm c k (.refl b') h)

lemma fill (h : Devs R t u) (s : Filling) : Devs R (t.fill s) (u.fill s) :=
  h.lift (Nameless.fill s) fun _ _ hstep => hstep.fill ⟨fun _ => .refl _, fun _ => .refl _⟩

end Devs

namespace ListDevs

lemma cons (ht : Devs R t u) (h : ListDevs R ts us) : ListDevs R (t :: ts) (u :: us) :=
  (ht.lift (· :: ts) fun _ _ hstep => .cons hstep (Dev.refl_list ts)).trans
    (h.lift (u :: ·) fun _ _ hstep => .cons (.refl u) hstep)

lemma length_eq (h : ListDevs R ts us) : ts.length = us.length := by
  induction h with
  | refl => rfl
  | tail _ hstep ih => exact ih.trans hstep.length_eq

lemma fields (h : ListDevs R ts us) (p : Nat) :
    ListDevs R (ts.drop p).reverse (us.drop p).reverse := by
  induction h with
  | refl => exact .refl
  | tail _ hstep ih =>
    exact ih.tail (forall₂_reverse_iff.2 (forall₂_drop p hstep))

end ListDevs

namespace Devs

lemma instantiate (h : Devs R t u) (hvs : ListDevs R vs ws) :
    Devs R (t.instantiate vs) (u.instantiate ws) :=
  (h.fill (.values vs)).trans
    (hvs.lift (u.instantiate ·) fun _ _ hstep => Contract.instantiate (.refl u) hstep)

lemma spine (hg : R.unfold g = none) (h : Devs R ((Nameless.global g).apps args) w) :
    ∃ args', w = (Nameless.global g).apps args' ∧ ListDevs R args args' := by
  induction h with
  | refl => exact ⟨args, rfl, .refl⟩
  | tail _ hstep ih =>
    obtain ⟨args', rfl, hargs⟩ := ih
    obtain ⟨args'', rfl, hargs'⟩ := hstep.spine hg
    exact ⟨args'', rfl, hargs.tail hargs'⟩

end Devs

end Clausal.Nameless
