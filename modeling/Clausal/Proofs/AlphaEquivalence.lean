import Clausal.Proofs.Nameless.Occurrence

/-!
# Equality up to bound variables

The comparison of two terms passes their binders in pairs.  It decides whether the
terms have the same nameless form, whatever the binders shadow.
-/

namespace Clausal

/-- Two branches for one constructor, with the same fields and related bodies. -/
structure Branch.Related (r : Term → Term → Prop) (b b' : Branch) : Prop where
  ctor : b.ctor = b'.ctor
  fields : b.fields = b'.fields
  body : r b.body b'.body

namespace Term

/-- Every constructor of terms makes related terms of related parts. -/
structure IsCongruence (r : Term → Term → Prop) : Prop where
  pi : ∀ (v : Var) {a a' b b' : Term}, r a a' → r b b' → r (.pi v a b) (.pi v a' b')
  lam : ∀ (v : Var) {a a' b b' : Term}, r a a' → r b b' → r (.lam v a b) (.lam v a' b')
  app : ∀ {a a' b b' : Term}, r a a' → r b b' → r (.app a b) (.app a' b')
  ann : ∀ {a a' b b' : Term}, r a a' → r b b' → r (.ann a b) (.ann a' b')
  case : ∀ {a a' : Term} {bs bs' : Branches}, r a a' →
    List.Forall₂ (Branch.Related r) bs.toList bs'.toList → r (.case a bs) (.case a' bs')
  absurd : ∀ {a a' : Term}, r a a' → r (.absurd a) (.absurd a')

lemma alphaEq_equivalence : Equivalence fun t u : Term => t.alphaEq u = true where
  refl t := (alphaEq_iff t t).2 rfl
  symm h := (alphaEq_iff _ _).2 ((alphaEq_iff _ _).1 h).symm
  trans h h' := (alphaEq_iff _ _).2 (((alphaEq_iff _ _).1 h).trans ((alphaEq_iff _ _).1 h'))

lemma nameless_branches {bs bs' : Branches}
    (h : List.Forall₂ (Branch.Related fun t u => t.alphaEq u = true) bs.toList bs'.toList) :
    bs.nameless [] = bs'.nameless [] := by
  cases bs with
  | nil =>
    cases bs' with
    | nil => rfl
    | cons => cases h
  | cons c vs a rest =>
    cases bs' with
    | nil => cases h
    | cons c' vs' a' rest' =>
      rw [Branches.toList, Branches.toList, List.forall₂_cons] at h
      obtain ⟨⟨hctor, hfields, hbody⟩, hrest⟩ := h
      obtain rfl : c = c' := hctor
      obtain rfl : vs = vs' := hfields
      rw [Branches.nameless, Branches.nameless, nameless_eq_of_alphaEq hbody,
        nameless_branches hrest]

lemma alphaEq_congruence : IsCongruence fun t u : Term => t.alphaEq u = true where
  -- A body is compared below its binder, where its form is determined by the form above it.
  pi v _ _ _ _ ha hb := (alphaEq_iff _ _).2 <| by
    rw [nameless, nameless, nameless_eq_of_alphaEq ha, nameless_eq_of_alphaEq hb]
  lam v _ _ _ _ ha hb := (alphaEq_iff _ _).2 <| by
    rw [nameless, nameless, nameless_eq_of_alphaEq ha, nameless_eq_of_alphaEq hb]
  app ha hb := (alphaEq_iff _ _).2 <| by
    rw [nameless, nameless, nameless_eq_of_alphaEq ha, nameless_eq_of_alphaEq hb]
  ann ha hb := (alphaEq_iff _ _).2 <| by
    rw [nameless, nameless, nameless_eq_of_alphaEq ha, nameless_eq_of_alphaEq hb]
  case ha hbs := (alphaEq_iff _ _).2 <| by
    rw [nameless, nameless, nameless_eq_of_alphaEq ha, nameless_branches hbs]
  absurd ha := (alphaEq_iff _ _).2 <| by
    rw [nameless, nameless, nameless_eq_of_alphaEq ha]

/-- The comparison decides equality of nameless forms, with free variables told apart by
identity; it is an equivalence and a congruence. -/
theorem alphaEq_decides :
    (∀ t u : Term, t.alphaEq u = true ↔ t.nameless [] = u.nameless []) ∧
      (Equivalence fun t u : Term => t.alphaEq u = true) ∧
      IsCongruence fun t u : Term => t.alphaEq u = true :=
  ⟨alphaEq_iff, alphaEq_equivalence, alphaEq_congruence⟩

/-- Of repeated fields the last counts, and a free variable is none of them. -/
example : (case .univ (.cons "pair" [⟨0, "x"⟩, ⟨0, "x"⟩] (.var ⟨0, "x"⟩) .nil)).alphaEq
      (.case .univ (.cons "pair" [⟨0, "x"⟩, ⟨1, "y"⟩] (.var ⟨1, "y"⟩) .nil)) = true ∧
    (case .univ (.cons "pair" [⟨0, "x"⟩, ⟨0, "x"⟩] (.var ⟨1, "y"⟩) .nil)).alphaEq
      (.case .univ (.cons "pair" [⟨0, "x"⟩, ⟨1, "y"⟩] (.var ⟨1, "y"⟩) .nil)) = false := by
  decide

end Term

end Clausal
