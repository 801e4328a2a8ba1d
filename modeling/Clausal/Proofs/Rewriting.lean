import Clausal.Proofs.AllVars
import Clausal.Proofs.CaptureAvoidance
import Mathlib.Data.List.Lex

/-!
# Contraction at the outermost, leftmost place

A place in a term is the list of the parts that lead to it.  Places are ordered
as they are met: a term comes before its parts, and a part before the parts on its
right.  This is the lexicographic order of lists.
-/

namespace Clausal

open Fresh List Reach Rule Term

variable {σ : Subst}

/-! ### Places -/

/-- The bodies of branches. -/
def Branches.bodies : Branches → List Term
  | .nil => []
  | .cons _ _ body rest => body :: rest.bodies

/-- Put another body into a branch. -/
def Branches.setBody : Branches → Nat → Term → Branches
  | .nil, _, _ => .nil
  | .cons ctor fields _ rest, 0, u => .cons ctor fields u rest
  | .cons ctor fields body rest, i + 1, u => .cons ctor fields body (rest.setBody i u)

namespace Term

/-- The parts of a term, from left to right. -/
def parts : Term → List Term
  | .univ | .var _ | .global _ => []
  | .pi _ a b | .lam _ a b | .app a b | .ann a b => [a, b]
  | .case scrut branches => scrut :: branches.bodies
  | .absurd scrut => [scrut]

/-- Put another term in the place of a part. -/
def setPart : Term → Nat → Term → Term
  | .pi v _ b, 0, u => .pi v u b
  | .pi v a _, _, u => .pi v a u
  | .lam v _ b, 0, u => .lam v u b
  | .lam v a _, _, u => .lam v a u
  | .app _ b, 0, u => .app u b
  | .app a _, _, u => .app a u
  | .ann _ b, 0, u => .ann u b
  | .ann a _, _, u => .ann a u
  | .case _ branches, 0, u => .case u branches
  | .case scrut branches, i + 1, u => .case scrut (branches.setBody i u)
  | .absurd _, _, u => .absurd u
  | t, _, _ => t

/-- What stands at a place. -/
def at? (t : Term) : List Nat → Option Term
  | [] => some t
  | i :: p => t.parts[i]?.bind fun s => s.at? p

/-- Put another term at a place. -/
def replaceAt (t : Term) : List Nat → Term → Term
  | [], u => u
  | i :: p, u =>
    match t.parts[i]? with
    | some s => t.setPart i (s.replaceAt p u)
    | none => t

end Term

mutual

/-- What holds of a term whenever it holds of its parts holds of every term. -/
lemma Term.induction_on_parts {C : Term → Prop} (h : ∀ t : Term, (∀ s ∈ t.parts, C s) → C t) :
    (t : Term) → C t
  | .univ | .var _ | .global _ => h _ (by simp [Term.parts])
  | .pi _ a b | .lam _ a b | .app a b | .ann a b =>
    h _ (by simpa [Term.parts] using ⟨a.induction_on_parts h, b.induction_on_parts h⟩)
  | .case scrut branches =>
    h _ (forall_mem_cons.2 ⟨scrut.induction_on_parts h, branches.induction_on_bodies h⟩)
  | .absurd scrut => h _ (by simpa [Term.parts] using scrut.induction_on_parts h)

lemma Branches.induction_on_bodies {C : Term → Prop}
    (h : ∀ t : Term, (∀ s ∈ t.parts, C s) → C t) : (bs : Branches) → ∀ s ∈ bs.bodies, C s
  | .nil => by simp [Branches.bodies]
  | .cons _ _ body rest =>
    forall_mem_cons.2 ⟨body.induction_on_parts h, rest.induction_on_bodies h⟩

end

lemma Branches.AllVars.bodies {bs : Branches} (h : bs.AllVars P) :
    ∀ s ∈ bs.bodies, s.AllVars P := by
  cases bs with
  | nil => exact forall_mem_nil _
  | cons ctor fields body rest => exact forall_mem_cons.2 ⟨h.2.1, h.2.2.bodies⟩

lemma Term.AllVars.parts {t : Term} (h : t.AllVars P) : ∀ s ∈ t.parts, s.AllVars P := by
  cases t with
  | univ | var | global => simp [Term.parts]
  | pi v a b | lam v a b => simpa [Term.parts] using h.2
  | app a b | ann a b | absurd scrut => simpa [Term.parts, Term.AllVars] using h
  | case scrut branches => exact forall_mem_cons.2 ⟨h.1, h.2.bodies⟩

/-! ### Contraction, part by part -/

/-- Contract the first of several terms that can be contracted; the answer is which. -/
def Term.contractFirst? (rules : List Rule) : List Term → Fresh (Option (Nat × Term))
  | [] => return none
  | t :: ts => do
      match ← t.contract? rules with
      | some u => return some (0, u)
      | none => return (← contractFirst? rules ts).map fun found => (found.1 + 1, found.2)

lemma Branches.contract?_eq (rules : List Rule) : (bs : Branches) →
    bs.contract? rules = do
      return (← Term.contractFirst? rules bs.bodies).map fun found => bs.setBody found.1 found.2
  | .nil => rfl
  | .cons ctor fields body rest => by
    rw [Branches.contract?, Branches.contract?_eq rules rest, Branches.bodies, Term.contractFirst?]
    simp only [bind_assoc]
    refine bind_congr fun found => ?_
    cases found with
    | some u => rfl
    | none =>
      simp only [bind_assoc, pure_bind, Option.map_map]
      rfl

/-- A term is contracted at its root if a rule applies there, and else in its first part that can be
contracted. -/
lemma Term.contract?_eq (rules : List Rule) (t : Term) :
    t.contract? rules = do
      match ← fireFirst? rules t with
      | some u => return some u
      | none =>
        return (← contractFirst? rules t.parts).map fun found => t.setPart found.1 found.2 := by
  rw [contract?.eq_def]
  refine bind_congr fun fired => ?_
  cases fired with
  | some u => rfl
  | none =>
    cases t with
    | univ | var | global => rfl
    | pi v a b | lam v a b | app a b | ann a b =>
      simp only [parts, contractFirst?, bind_assoc]
      refine bind_congr fun found => ?_
      cases found with
      | some u => rfl
      | none =>
        simp only [bind_assoc, pure_bind]
        refine bind_congr fun found => ?_
        cases found <;> rfl
    | case scrut branches =>
      simp only [parts, contractFirst?, bind_assoc, Branches.contract?_eq]
      refine bind_congr fun found => ?_
      cases found with
      | some u => rfl
      | none =>
        simp only [bind_assoc, pure_bind, Option.map_map]
        rfl
    | absurd scrut =>
      simp only [parts, contractFirst?, bind_assoc]
      refine bind_congr fun found => ?_
      cases found <;> rfl

/-! ### Contraction from a later supply -/

section

variable {s : Slide}

lemma Telescope.contains_slide (hΓ : ∀ x ∈ Γ.vars, s.var x = x) (v : Var) :
    Telescope.contains Γ (s.var v) = Telescope.contains Γ v := by
  rw [Bool.eq_iff_iff, Telescope.contains_iff, Telescope.contains_iff]
  constructor
  · intro h
    have hfixed := hΓ _ h
    rw [s.var_inj] at hfixed
    rwa [hfixed] at h
  · intro h
    rwa [hΓ v h]

lemma Term.guard_slides (t u : Term) (σ : Subst) :
    Slides s (Option.map (Subst.mapVars s.var))
      (pure (if t.alphaEq u then some σ else none))
      (pure (if (t.mapVars s.var).alphaEq (u.mapVars s.var) then some (σ.mapVars s.var)
        else none)) := by
  rw [Term.alphaEq_slide]
  split <;> exact .pure _ rfl

/-- Matching commutes with a slide of the supply. -/
lemma Term.matchWith_slides (hΓ : ∀ x ∈ Γ.vars, s.var x = x) (pattern term : Term)
    (σ : Subst) :
    Slides s (Option.map (Subst.mapVars s.var)) (pattern.matchWith Γ term σ)
      ((pattern.mapVars s.var).matchWith Γ (term.mapVars s.var) (σ.mapVars s.var)) := by
  induction pattern, term, σ using Term.matchWith.induct (Γ := Γ) with
  | case1 head arg head' arg' σ ihhead iharg =>
    refine ihhead.bind fun found => ?_
    cases found with
    | some σ => exact iharg σ
    | none => exact .pure _ rfl
  | case2 v term σ hv value hget =>
    rw [Term.mapVars, matchWith, matchWith, Telescope.contains_slide hΓ, if_pos hv, if_pos hv,
      Subst.get?_slide, hget]
    exact guard_slides value term σ
  | case3 v term σ hv hget =>
    rw [Term.mapVars, matchWith, matchWith, Telescope.contains_slide hΓ, if_pos hv, if_pos hv,
      Subst.get?_slide, hget]
    exact (Subst.insert_slides s σ v term).bind fun _ => .pure _ rfl
  | case4 v term σ hv =>
    rw [Term.mapVars, matchWith, matchWith, Telescope.contains_slide hΓ, if_neg hv, if_neg hv]
    exact guard_slides (.var v) term σ
  | case5 pattern term σ happ hvar =>
    cases pattern with
    | var v => exact (hvar v rfl).elim
    | app head arg =>
      cases term with
      | app head' arg' => exact (happ head arg head' arg' rfl rfl).elim
      | _ => exact guard_slides (.app head arg) _ σ
    | _ => exact guard_slides _ term σ

namespace Rule

variable {r : Rule}

/-- No variable of the rule is moved. -/
structure Fixed (s : Slide) (r : Rule) : Prop where
  context : ∀ x ∈ r.context.vars, s.var x = x
  lhs : r.lhs.mapVars s.var = r.lhs
  rhs : r.rhs.mapVars s.var = r.rhs

lemma fixed_still (r : Rule) : r.Fixed .still :=
  ⟨fun _ _ => rfl, r.lhs.mapVars_id, r.rhs.mapVars_id⟩

lemma bindsRhs_slide (hr : r.Fixed s) (σ : Subst) :
    r.bindsRhs (σ.mapVars s.var) = r.bindsRhs σ := by
  have hsame : ∀ v ∈ r.rhs.freeVars.filter fun v => Telescope.contains r.context v,
      (σ.mapVars s.var).contains v = σ.contains v := by
    intro v hv
    have hold := hr.context v (Telescope.contains_iff.1 (mem_filter.1 hv).2)
    have hcontains := σ.contains_slide s v
    rwa [hold] at hcontains
  rw [Bool.eq_iff_iff, bindsRhs, bindsRhs, all_eq_true, all_eq_true]
  exact forall₂_congr fun v hv => by rw [hsame v hv]

lemma fire?_slides (hr : r.Fixed s) (t : Term) :
    Slides s (Option.map (Term.mapVars s.var)) (r.fire? t) (r.fire? (t.mapVars s.var)) := by
  have hmatch := Term.matchWith_slides hr.context r.lhs t .empty
  rw [hr.lhs] at hmatch
  refine hmatch.bind fun found => ?_
  cases found with
  | none => exact .pure _ rfl
  | some σ =>
    have happly := Subst.apply_slides s σ r.rhs
    rw [hr.rhs] at happly
    simp only [Option.map_some, bindsRhs_slide hr]
    split
    · exact happly.map fun _ => rfl
    · exact .pure _ rfl

lemma fireFirst?_slides (hrules : ∀ r ∈ rules, r.Fixed s) (t : Term) :
    Slides s (Option.map (Term.mapVars s.var)) (fireFirst? rules t)
      (fireFirst? rules (t.mapVars s.var)) := by
  induction rules with
  | nil => exact .pure _ rfl
  | cons r rules ih =>
    refine (fire?_slides (hrules r mem_cons_self) t).bind fun found => ?_
    cases found with
    | some u => exact .pure _ rfl
    | none => exact ih fun r' hr' => hrules r' (mem_cons_of_mem r hr')

end Rule

lemma Branches.bodies_mapVars (f : Var → Var) (bs : Branches) :
    (bs.mapVars f).bodies = bs.bodies.map (Term.mapVars f) := by
  cases bs with
  | nil => rfl
  | cons ctor fields body rest => exact congrArg _ (rest.bodies_mapVars f)

lemma Branches.setBody_mapVars (f : Var → Var) (u : Term) : (bs : Branches) → (i : Nat) →
    (bs.setBody i u).mapVars f = (bs.mapVars f).setBody i (u.mapVars f)
  | .nil, _ | .cons _ _ _ _, 0 => rfl
  | .cons ctor fields body rest, i + 1 => by
    simp only [Branches.setBody, Branches.mapVars, rest.setBody_mapVars f u i]

lemma Term.parts_mapVars (f : Var → Var) (t : Term) :
    (t.mapVars f).parts = t.parts.map (Term.mapVars f) := by
  cases t with
  | case scrut branches => exact congrArg _ (branches.bodies_mapVars f)
  | _ => rfl

lemma Term.setPart_mapVars (f : Var → Var) (t : Term) (i : Nat) (u : Term) :
    (t.setPart i u).mapVars f = (t.mapVars f).setPart i (u.mapVars f) := by
  cases t with
  | case scrut branches =>
    cases i with
    | zero => rfl
    | succ i => exact congrArg _ (branches.setBody_mapVars f u i)
  | univ | var | global | absurd => rfl
  | pi | lam | app | ann => cases i <;> rfl

namespace Term

lemma contractFirst?_slides
    (h : ∀ t ∈ ts, Slides s (Option.map (mapVars s.var)) (t.contract? rules)
      ((t.mapVars s.var).contract? rules)) :
    Slides s (Option.map fun found => (found.1, found.2.mapVars s.var))
      (contractFirst? rules ts) (contractFirst? rules (ts.map (mapVars s.var))) := by
  induction ts with
  | nil => exact .pure _ rfl
  | cons t ts ih =>
    refine (h t mem_cons_self).bind fun found => ?_
    cases found with
    | some u => exact .pure _ rfl
    | none =>
      refine (ih fun t ht => h t (mem_cons_of_mem _ ht)).bind fun found => .pure _ ?_
      cases found <;> rfl

lemma contract?_slides (hrules : ∀ r ∈ rules, r.Fixed s) (t : Term) :
    Slides s (Option.map (mapVars s.var)) (t.contract? rules)
      ((t.mapVars s.var).contract? rules) := by
  induction t using Term.induction_on_parts with
  | h t ih =>
    rw [contract?_eq, contract?_eq, parts_mapVars]
    refine (fireFirst?_slides hrules t).bind fun found => ?_
    cases found with
    | some u => exact .pure _ rfl
    | none =>
      refine (contractFirst?_slides ih).bind fun found => .pure _ ?_
      cases found with
      | none => rfl
      | some found => exact congrArg some (setPart_mapVars s.var t found.1 found.2)

end Term

end

/-! ### The supply -/

namespace Fresh

variable {α β : Type} (f : α → β) (x : Fresh α) (n : Nat)

lemma value_map : value (f <$> x) n = f (x.value n) := rfl

end Fresh

lemma Term.matchWith_next (Γ : Telescope) (pattern term : Term) (σ : Subst) (n : Nat) :
    n ≤ (pattern.matchWith Γ term σ).next n :=
  (matchWith_slides (s := .still) (fun _ _ => rfl) pattern term σ n (Nat.zero_le n)).1

namespace Rule

lemma fire?_next (r : Rule) (term : Term) (n : Nat) : n ≤ (r.fire? term).next n :=
  (fire?_slides r.fixed_still term n (Nat.zero_le n)).1

lemma fireFirst?_next (term : Term) (n : Nat) (rules : List Rule) :
    n ≤ (fireFirst? rules term).next n :=
  (fireFirst?_slides (fun r _ => r.fixed_still) term n (Nat.zero_le n)).1

end Rule

namespace Term

lemma contractFirst?_next (rules : List Rule) (ts : List Term) (n : Nat) :
    n ≤ (contractFirst? rules ts).next n :=
  (contractFirst?_slides (fun t _ => t.contract?_slides fun r _ => r.fixed_still) n
    (Nat.zero_le n)).1

lemma contract?_next (t : Term) (rules : List Rule) (n : Nat) : n ≤ (t.contract? rules).next n :=
  (t.contract?_slides (fun r _ => r.fixed_still) n (Nat.zero_le n)).1

lemma contractFirst?_eq_some (h : (contractFirst? rules ts).value n = some (i, u)) :
    (∃ s m, n ≤ m ∧ ts[i]? = some s ∧ (s.contract? rules).value m = some u) ∧
      ∀ j < i, ∀ s, ts[j]? = some s → ∃ m, n ≤ m ∧ (s.contract? rules).value m = none := by
  induction ts generalizing n i with
  | nil => cases h
  | cons t ts ih =>
    rw [contractFirst?, value_bind] at h
    split at h
    next found hfound =>
      cases h
      exact ⟨⟨t, n, le_refl n, rfl, hfound⟩, fun j hj => (Nat.not_lt_zero j hj).elim⟩
    next hnone =>
      obtain ⟨⟨k, v⟩, hrest, heq⟩ := Option.map_eq_some_iff.1 h
      cases heq
      have hnext := t.contract?_next rules n
      obtain ⟨⟨s, m, hm, hs, hu⟩, hbefore⟩ := ih hrest
      refine ⟨⟨s, m, hnext.trans hm, hs, hu⟩, fun j hj s' hs' => ?_⟩
      cases j with
      | zero =>
        cases hs'
        exact ⟨n, le_refl n, hnone⟩
      | succ j =>
        obtain ⟨m', hm', hnone'⟩ := hbefore j (Nat.lt_of_succ_lt_succ hj) s' hs'
        exact ⟨m', hnext.trans hm', hnone'⟩

lemma contractFirst?_eq_none (h : (contractFirst? rules ts).value n = none) :
    ∀ s ∈ ts, ∃ m, n ≤ m ∧ (s.contract? rules).value m = none := by
  induction ts generalizing n with
  | nil => simp
  | cons t ts ih =>
    rw [contractFirst?, value_bind] at h
    split at h
    · cases h
    next hnone =>
      refine forall_mem_cons.2 ⟨⟨n, le_refl n, hnone⟩, fun s hs => ?_⟩
      obtain ⟨m, hm, hs⟩ := ih (Option.map_eq_none_iff.1 h) s hs
      exact ⟨m, le_trans (t.contract?_next rules n) hm, hs⟩

end Term

/-! ### What a rule that fires has found -/

namespace Rule

variable {r : Rule}

/-- The rule applies to the term: its left side matches, and the match has values for all
variables of the right side. -/
def AppliesFrom (r : Rule) (n : Nat) (s : Term) : Prop :=
  ∃ σ, (r.lhs.matchWith r.context s .empty).value n = some σ ∧ r.bindsRhs σ = true

/-- Values for the variables of a rule, under which its left side is one term and its right side
another. -/
structure Fires (r : Rule) (n : Nat) (s u : Term) (σ : Subst) : Prop where
  domain : ∀ x, σ.contains x = true → x ∈ r.context.vars
  rhs_bound : ∀ x ∈ r.rhs.freeVars, x ∈ r.context.vars → σ.contains x = true
  sides : ∃ k, n ≤ k ∧ u = (σ.apply r.rhs).value k ∧
    ∀ m, k ≤ m → ((σ.apply r.lhs).value m).alphaEq s = true

lemma Fires.mono (h : r.Fires m s u σ) (hnm : n ≤ m) : r.Fires n s u σ := by
  obtain ⟨k, hk, hsides⟩ := h.sides
  exact ⟨h.domain, h.rhs_bound, k, hnm.trans hk, hsides⟩

lemma isSome_fire? (r : Rule) (s : Term) (n : Nat) :
    ((r.fire? s).value n).isSome = true ↔ r.AppliesFrom n s := by
  rw [fire?, AppliesFrom, value_bind]
  cases hvalue : (r.lhs.matchWith r.context s .empty).value n with
  | none => simp
  | some σ =>
    cases hbinds : r.bindsRhs σ with
    | true => simp [hbinds, value_map]
    | false => simp [hbinds]

/-- Whether a rule applies does not depend on the supply. -/
lemma Apart.appliesFrom_iff (h : r.Apart n s) :
    r.AppliesFrom n s ↔ (r.fireForm s).isSome = true := by
  rw [← isSome_fire?, ← (fire?_form h).2, Option.isSome_map]

/-- Values found by matching make the term of the left side. -/
lemma Apart.lhs_alphaEq (h : r.Apart n s) (hlhs : r.lhs.Over (.below n))
    (hmatch : (r.lhs.matchWith r.context s .empty).value n = some σ)
    (hm : (r.lhs.matchWith r.context s .empty).next n ≤ m) :
    ((σ.apply r.lhs).value m).alphaEq s = true := by
  obtain ⟨hle, hform, houtside⟩ := matchWith_form r.lhs Subst.Outside.empty h.term
  rw [hmatch, Option.map_some] at hform
  have hbehind : σ.Behind m := fun x u hget =>
    ((houtside σ hmatch hget).2.mono outside_le_below).mono (below_le hm)
  rw [alphaEq_iff, hbehind.nameless_apply (hlhs.mono (below_le (by omega))),
    ← valuesFilling_form]
  refine (fill_of_matchForm h.term hform.symm (fun x u hx => ?_) fun x hx => ?_).1
  · simp [valuesFilling, hx]
  · cases hget : σ.get? x with
    | some u => exact (hx (houtside σ hmatch hget).1).elim
    | none => simp [valuesFilling, Subst.form, hget]

lemma Apart.fires (h : r.Apart n s) (hlhs : r.lhs.Over (.below n))
    (hfire : (r.fire? s).value n = some u) : ∃ σ, r.Fires n s u σ := by
  obtain ⟨hle, -, houtside⟩ := matchWith_form r.lhs Subst.Outside.empty h.term
  rw [fire?, value_bind] at hfire
  cases hmatch : (r.lhs.matchWith r.context s .empty).value n with
  | none =>
    rw [hmatch] at hfire
    cases hfire
  | some σ =>
    rw [hmatch] at hfire
    dsimp only at hfire
    split at hfire
    next hbinds =>
      refine ⟨σ, fun x hx => ?_, fun x hfree hx => ?_,
        (r.lhs.matchWith r.context s .empty).next n, hle, ?_, fun m hm =>
          h.lhs_alphaEq hlhs hmatch hm⟩
      · obtain ⟨u, hu⟩ := Option.isSome_iff_exists.1 hx
        exact (houtside σ hmatch hu).1
      · exact all_eq_true.1 hbinds x (mem_filter.2 ⟨hfree, Telescope.contains_iff.2 hx⟩)
      · exact (Option.some.inj hfire).symm
    next => cases hfire

/-- No rule makes anything of the term. -/
def Inert (rules : List Rule) (s : Term) : Prop := ∀ r ∈ rules, r.fireForm s = none

lemma Inert.not_appliesFrom (h : Inert rules s) (hr : r ∈ rules) (hapart : r.Apart n s) :
    ¬ r.AppliesFrom n s := by
  rw [hapart.appliesFrom_iff, h r hr]
  simp

lemma fireFirst?_eq_some (hapart : ∀ r ∈ rules, r.Apart n s)
    (hlhs : ∀ r ∈ rules, r.lhs.Over (.below n)) (h : (fireFirst? rules s).value n = some u) :
    ∃ r ∈ rules, ∃ σ, r.Fires n s u σ := by
  induction rules generalizing n with
  | nil => cases h
  | cons r rules ih =>
    rw [fireFirst?, value_bind] at h
    split at h
    next u' hfire =>
      obtain rfl : u' = u := Option.some.inj h
      obtain ⟨σ, hσ⟩ := (hapart r mem_cons_self).fires (hlhs r mem_cons_self) hfire
      exact ⟨r, mem_cons_self, σ, hσ⟩
    next =>
      have hnext := r.fire?_next s n
      obtain ⟨r', hr', σ, hσ⟩ := ih (fun r' hr' => (hapart r' (mem_cons_of_mem r hr')).mono hnext)
        (fun r' hr' => (hlhs r' (mem_cons_of_mem r hr')).mono (below_le hnext)) h
      exact ⟨r', mem_cons_of_mem r hr', σ, hσ.mono hnext⟩

lemma fireFirst?_eq_none (hapart : ∀ r ∈ rules, r.Apart n s)
    (h : (fireFirst? rules s).value n = none) : Inert rules s := by
  have hform := fireFirst?_form hapart
  rw [h, Option.map_none] at hform
  exact findSome?_eq_none_iff.1 hform.symm

end Rule

/-! ### Contraction -/

namespace Term

/-- The variables that a term may have where rules are applied to it, bound ones included: they are
behind the supply and none of them is a variable of a rule. -/
def ApartFrom (rules : List Rule) (n : Nat) (t : Term) : Prop :=
  t.AllVars fun x => x.id < n ∧ ∀ r ∈ rules, x ∉ r.context.vars

namespace ApartFrom

variable {t : Term}

variable (h : t.ApartFrom rules n)

include h

lemma mono (hnm : n ≤ m) : t.ApartFrom rules m :=
  AllVars.mono (fun _ hx => ⟨hx.1.trans_le hnm, hx.2⟩) h

lemma apart (hr : r ∈ rules) (hrhs : r.rhs.Over (.below n)) :
    r.Apart n t where
  term := AllVars.over (P := fun x => x ∉ r.context.vars ∧ x.id < n)
    (AllVars.mono (fun _ hx => ⟨hx.2 r hr, hx.1⟩) h)
  rhs := hrhs

lemma at? (hs : t.at? p = some s) : s.ApartFrom rules n := by
  induction p generalizing t with
  | nil => exact Option.some.inj hs ▸ h
  | cons i p ih =>
    obtain ⟨part, hpart, hs⟩ := Option.bind_eq_some_iff.1 hs
    exact ih (AllVars.parts h part (mem_of_getElem? hpart)) hs

end ApartFrom

/-- Where a contraction takes place, and what it finds there. -/
structure Contracted (rules : List Rule) (n : Nat) (t u : Term) (p : List Nat) : Prop where
  fires : ∃ r ∈ rules, ∃ σ s v, t.at? p = some s ∧ r.Fires n s v σ ∧ u = t.replaceAt p v
  first : ∀ q < p, ∀ s, t.at? q = some s → Inert rules s

/-- A contraction takes place at the first place where a rule applies. -/
lemma contract?_places
    (hrules : ∀ r ∈ rules, r.lhs.Over (.below n) ∧ r.rhs.Over (.below n))
    (ht : t.ApartFrom rules n) :
    (∀ u, (t.contract? rules).value n = some u → ∃ p, Contracted rules n t u p) ∧
      ((t.contract? rules).value n = none → ∀ p s, t.at? p = some s → Inert rules s) := by
  induction t using induction_on_parts generalizing n with
  | h t ih =>
    have hapart : ∀ r ∈ rules, r.Apart n t := fun r hr => ht.apart hr (hrules r hr).2
    -- The parts are looked at later, when the supply is further on.
    have hlater : ∀ s ∈ t.parts, ∀ m, (fireFirst? rules t).next n ≤ m → n ≤ m ∧
        (∀ u, (s.contract? rules).value m = some u → ∃ p, Contracted rules m s u p) ∧
        ((s.contract? rules).value m = none →
          ∀ p s', s.at? p = some s' → Inert rules s') := by
      intro s hs m hm
      have hnm : n ≤ m := le_trans (fireFirst?_next t n rules) hm
      exact ⟨hnm, ih s hs (fun r hr => ⟨(hrules r hr).1.mono (below_le hnm),
        (hrules r hr).2.mono (below_le hnm)⟩)
        (ApartFrom.mono (AllVars.parts ht s hs) hnm)⟩
    rw [contract?_eq, value_bind]
    cases hroot : (fireFirst? rules t).value n with
    | some v =>
      refine ⟨fun u hu => ⟨[], ?_, nofun⟩, nofun⟩
      obtain rfl : v = u := Option.some.inj hu
      obtain ⟨r, hr, σ, hσ⟩ :=
        fireFirst?_eq_some hapart (fun r hr => (hrules r hr).1) hroot
      exact ⟨r, hr, σ, t, v, rfl, hσ, rfl⟩
    | none =>
      have hinert := fireFirst?_eq_none hapart hroot
      refine ⟨fun u hu => ?_, fun hnone p s hs => ?_⟩
      · obtain ⟨⟨i, v⟩, hfound, rfl⟩ := Option.map_eq_some_iff.1 hu
        obtain ⟨⟨part, m, hm, hpart, hv⟩, hbefore⟩ := contractFirst?_eq_some hfound
        obtain ⟨hnm, hsome, -⟩ := hlater part (mem_of_getElem? hpart) m hm
        obtain ⟨p, ⟨r, hr, σ, s, w, hs, hσ, rfl⟩, hfirst⟩ := hsome v hv
        refine ⟨i :: p, ⟨r, hr, σ, s, w, ?_, hσ.mono hnm, ?_⟩, fun q hq s' hs' => ?_⟩
        · rw [at?, hpart, Option.bind_some, hs]
        · rw [replaceAt, hpart]
        · cases q with
          | nil => exact Option.some.inj hs' ▸ hinert
          | cons j q =>
            obtain ⟨part', hpart', hs'⟩ := Option.bind_eq_some_iff.1 hs'
            rcases cons_lt_cons_iff.1 hq with hji | ⟨rfl, hqp⟩
            · obtain ⟨m', hm', hnone⟩ := hbefore j hji part' hpart'
              exact (hlater part' (mem_of_getElem? hpart') m' hm').2.2 hnone q s' hs'
            · obtain rfl : part = part' := Option.some.inj (hpart.symm.trans hpart')
              exact hfirst q hqp s' hs'
      · cases p with
        | nil => exact Option.some.inj hs ▸ hinert
        | cons i p =>
          obtain ⟨part, hpart, hs⟩ := Option.bind_eq_some_iff.1 hs
          have hmem := mem_of_getElem? hpart
          obtain ⟨m, hm, hpartnone⟩ :=
            contractFirst?_eq_none (Option.map_eq_none_iff.1 hnone) part hmem
          exact (hlater part hmem m hm).2.2 hpartnone p s hs

end Term

/-- A contraction replaces an instance of the left side of a rule by the instance of the right side,
and no rule applies at an earlier place; without a contraction no rule applies at any place. -/
theorem Term.contract?_outermost {rules : List Rule} {t : Term} {n : Nat}
    (hrules : ∀ r ∈ rules, r.lhs.Over (.below n) ∧ r.rhs.Over (.below n))
    (ht : t.ApartFrom rules n) :
    (∀ u, (t.contract? rules).value n = some u →
      ∃ r ∈ rules, ∃ σ p s v, t.at? p = some s ∧ r.Fires n s v σ ∧ u = t.replaceAt p v ∧
        ∀ q < p, ∀ s', t.at? q = some s' → ∀ r' ∈ rules, ∀ m ≥ n, ¬ r'.AppliesFrom m s') ∧
    ((t.contract? rules).value n = none →
      ∀ p s, t.at? p = some s → ∀ r ∈ rules, ∀ m ≥ n, ¬ r.AppliesFrom m s) := by
  have hinert : ∀ p s, t.at? p = some s → Rule.Inert rules s →
      ∀ r ∈ rules, ∀ m ≥ n, ¬ r.AppliesFrom m s := fun p s hs hrest r hr m hm =>
    hrest.not_appliesFrom hr (((ht.at? hs).apart hr (hrules r hr).2).mono hm)
  obtain ⟨hsome, hnone⟩ := contract?_places hrules ht
  refine ⟨fun u hu => ?_, fun h p s hs => hinert p s hs (hnone h p s hs)⟩
  obtain ⟨p, ⟨r, hr, σ, s, v, hs, hσ, hv⟩, hfirst⟩ := hsome u hu
  exact ⟨r, hr, σ, p, s, v, hs, hσ, hv, fun q hq s' hs' => hinert q s' hs' (hfirst q hq s' hs')⟩

namespace Rewriting

def x : Var := ⟨0, "x"⟩

def y : Var := ⟨1, "y"⟩

def k : Var := ⟨2, "k"⟩

def same (a b : Term) : Term := .app (.app (.global "same") a) b

/-- `same x x = x`, where `x` stands for any term. -/
def sameSelf : Rule where
  name := "same_self"
  context := [(x, .univ)]
  type := .univ
  lhs := same (.var x) (.var x)
  rhs := .var x

/-- `fun (y : Type) => case y of { zero => same y Type | succ k => same k k }` -/
def choice : Term :=
  .lam y .univ (.case (.var y) (.cons "zero" [] (same (.var y) .univ)
    (.cons "succ" [k] (same (.var k) (.var k)) .nil)))

/-- The rule asks for one term twice, so the first branch stays and the second is contracted. -/
theorem choice_contracts :
    (choice.contract? [sameSelf]).value 3 = some (choice.replaceAt [1, 2] (.var k)) ∧
    (∀ r ∈ [sameSelf], r.lhs.Over (.below 3) ∧ r.rhs.Over (.below 3)) ∧
    choice.ApartFrom [sameSelf] 3 ∧
    ∃ r ∈ [sameSelf], ∃ σ p s v, choice.at? p = some s ∧ r.Fires 3 s v σ ∧
      choice.replaceAt [1, 2] (.var k) = choice.replaceAt p v ∧
      ∀ q < p, ∀ s', choice.at? q = some s' → ∀ r' ∈ [sameSelf], ∀ m ≥ 3,
        ¬ r'.AppliesFrom m s' := by
  have hvalue : (choice.contract? [sameSelf]).value 3 =
      some (choice.replaceAt [1, 2] (.var k)) := by
    decide +kernel
  have hrules : ∀ r ∈ [sameSelf], r.lhs.Over (.below 3) ∧ r.rhs.Over (.below 3) := by
    simp [sameSelf, same, x, Term.Over, Reach.below]
  have hapart : choice.ApartFrom [sameSelf] 3 := by
    simp [Term.ApartFrom, choice, same, sameSelf, x, y, k, Term.AllVars, Branches.AllVars,
      Telescope.vars]
  exact ⟨hvalue, hrules, hapart, (contract?_outermost hrules hapart).1 _ hvalue⟩

end Rewriting

end Clausal
