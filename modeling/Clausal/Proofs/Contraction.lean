import Clausal.Goal.Contraction
import Clausal.Proofs.Telescope

/-!
# Rules fire up to the names of bound variables

What matching answers depends on the supply, but not up to the names of bound
variables: there it is a function of the forms of pattern and term.
-/

namespace Clausal

open Assignment Fresh List Option Reach Term

variable {pattern : Term} {s : Filling}

/-! ### Instances -/

/-- The term is the other one with its free variables replaced. -/
def Term.IsInstance (t pattern : Term) : Prop :=
  ∃ s : Filling, t.nameless [] = (pattern.nameless []).fill s

/-- Variables behind a supply that are not in a telescope. -/
def Reach.outside (Γ : Telescope) (n : Nat) : Reach :=
  { vars := fun x => x ∉ Γ.vars ∧ x.id < n }

namespace Reach

lemma outside_mono (h : n ≤ m) : (outside Γ n).Le (outside Γ m) :=
  ⟨fun _ hx => ⟨hx.1, hx.2.trans_le h⟩, fun _ hc => hc, fun hs => hs⟩

lemma outside_le_below : (outside Γ n).Le (.below n) :=
  ⟨fun _ hx => hx.2, fun _ hc => hc, fun hs => hs⟩

end Reach

lemma Term.Over.fill_outside {t : Term} (ht : t.Over (.outside Γ n))
    (hs : ∀ x, x ∉ Γ.vars → s.free x = .free x) : (t.nameless []).fill s = t.nameless [] :=
  t.nameless_fill ht fun x hx => hs x hx.1

namespace Subst

/-- The forms of the values. -/
def form (σ : Subst) (x : Var) : Option Nameless := (σ.get? x).map (nameless [])

/-- The values are for variables of a telescope and mention none of them. -/
def Outside (Γ : Telescope) (n : Nat) (σ : Subst) : Prop :=
  ∀ ⦃x : Var⦄ ⦃t : Term⦄, σ.get? x = some t → x ∈ Γ.vars ∧ t.Over (.outside Γ n)

variable {Γ : Telescope} {σ : Subst}

lemma Outside.empty : Subst.empty.Outside Γ n := by
  intro x t hget
  cases hget

lemma Outside.guard (h : σ.Outside Γ n) (test : Prop) [Decidable test] :
    (if test then some σ else none).map form = (if test then some σ.form else none) ∧
      ∀ τ, (if test then some σ else none) = some τ → τ.Outside Γ n := by
  split
  · exact ⟨rfl, fun τ hτ => Option.some.inj hτ ▸ h⟩
  · exact ⟨rfl, nofun⟩

section

variable (h : σ.Outside Γ n) {v : Var} (hv : v ∈ Γ.vars) {t : Term}

include h hv

lemma Outside.applied (ha : σ.get? x = some a) (hab : (single v t).Applied n m a b) :
    b.nameless [] = a.nameless [] ∧ b.Over (.outside Γ m) := by
  have hover := (h ha).2
  have himage : ∀ y, (outside Γ n).vars y → (single v t).image y = .var y := fun y hy => by
    have hne : v ≠ y := by
      rintro rfl
      exact hy.1 hv
    rw [image_single, if_neg hne]
  have hmaps : (single v t).entries.Maps (.outside Γ n) (.outside Γ m) := by
    obtain ⟨k, hk, hm, -⟩ := hab
    refine ⟨fun y hy => ?_, fun _ hc => hc, fun hs => hs⟩
    rw [← image, himage y hy]
    exact ⟨hy.1, hy.2.trans_le (hk.trans (le_trans (apply_next _ _ _) hm))⟩
  refine ⟨?_, hab.over hmaps hover⟩
  rw [hab.nameless (S := .outside Γ n) (fun y hy => ?_) hover]
  · refine a.nameless_fill hover fun y hy => ?_
    change ((single v t).image y).nameless [] = _
    rw [himage y hy]
    rfl
  · rw [himage y hy]
    exact hy.2

lemma Outside.insert (ht : t.Over (.outside Γ n)) :
    ((σ.insert v t).value n).Outside Γ ((σ.insert v t).next n) := by
  intro x u hget
  rcases get?_insert σ v t n x with ⟨rfl, hx⟩ | ⟨-, -, hx⟩ | ⟨-, a, b, ha, hx, hab⟩ <;>
    rw [hx] at hget
  · cases hget
    exact ⟨hv, ht.mono (outside_mono (insert_next σ _ _ n))⟩
  · cases hget
  · cases hget
    exact ⟨(h ha).1, (h.applied hv ha hab).2⟩

lemma Outside.form_insert :
    ((σ.insert v t).value n).form = Function.update σ.form v (some (t.nameless [])) := by
  funext x
  rcases get?_insert σ v t n x with ⟨rfl, hx⟩ | ⟨hne, hnone, hx⟩ | ⟨hne, a, b, ha, hx, hab⟩
  · rw [form, hx, Function.update_self, map_some]
  · rw [form, hx, Function.update_of_ne (Ne.symm hne), form, hnone]
  · rw [form, hx, Function.update_of_ne (Ne.symm hne), form, ha, map_some, map_some,
      (h.applied hv ha hab).1]

end

end Subst

/-! ### Matching -/

namespace Term

variable {Γ : Telescope}

/-- Matching as a function of forms. -/
def matchForm (Γ : Telescope) : (pattern term : Term) → (Var → Option Nameless) →
    Option (Var → Option Nameless)
  | .app head arg, .app head' arg', φ =>
    (head.matchForm Γ head' φ).bind fun φ => arg.matchForm Γ arg' φ
  | .var v, term, φ =>
    if Telescope.contains Γ v then
      match φ v with
      | some value => if value = term.nameless [] then some φ else none
      | none => some (Function.update φ v (some (term.nameless [])))
    else if (var v).nameless [] = term.nameless [] then some φ else none
  | pattern, term, φ => if pattern.nameless [] = term.nameless [] then some φ else none

variable {term : Term}

/-- Up to bound variables, matching does not depend on the supply. -/
lemma matchWith_form (pattern : Term) (hσ : σ.Outside Γ n)
    (hterm : term.Over (.outside Γ n)) :
    n ≤ (pattern.matchWith Γ term σ).next n ∧
      ((pattern.matchWith Γ term σ).value n).map Subst.form = pattern.matchForm Γ term σ.form ∧
      ∀ τ, (pattern.matchWith Γ term σ).value n = some τ →
        τ.Outside Γ ((pattern.matchWith Γ term σ).next n) := by
  induction pattern, term, σ using matchWith.induct (Γ := Γ) generalizing n with
  | case1 head arg head' arg' σ ihhead iharg =>
    obtain ⟨hle, hform, houtside⟩ := ihhead hσ hterm.1
    rw [matchWith, matchForm, ← hform]
    simp only [value_bind, next_bind]
    cases hvalue : (head.matchWith Γ head' σ).value n with
    | none => exact ⟨hle, rfl, nofun⟩
    | some τ =>
      obtain ⟨hle', hform', houtside'⟩ := iharg τ (houtside τ hvalue)
        (hterm.2.mono (outside_mono hle))
      exact ⟨hle.trans hle', hform', houtside'⟩
  | case2 v term σ hv value hget =>
    have hform : σ.form v = some (value.nameless []) := by rw [Subst.form, hget, map_some]
    rw [matchWith, matchForm, if_pos hv, if_pos hv, hform]
    simp only [hget, alphaEq_iff, value_pure, next_pure]
    exact ⟨le_refl n, hσ.guard _⟩
  | case3 v term σ hv hget =>
    have hform : σ.form v = none := by rw [Subst.form, hget, map_none]
    have hmem := Telescope.contains_iff.1 hv
    rw [matchWith, matchForm, if_pos hv, if_pos hv, hform]
    simp only [hget, value_bind, next_bind, value_pure, next_pure, map_some]
    refine ⟨Subst.insert_next σ v term n, ?_, fun τ hτ => ?_⟩
    · rw [hσ.form_insert hmem]
    · exact Option.some.inj hτ ▸ hσ.insert hmem hterm
  | case4 v term σ hv =>
    rw [matchWith, matchForm, if_neg hv, if_neg hv]
    simp only [alphaEq_iff, value_pure, next_pure]
    exact ⟨le_refl n, hσ.guard _⟩
  | case5 pattern term σ happ hvar =>
    rw [matchWith, matchForm]
    · simp only [alphaEq_iff, value_pure, next_pure]
      exact ⟨le_refl n, hσ.guard _⟩
    all_goals assumption

/-- A filling that extends the values found makes the term of the pattern. -/
lemma fill_of_matchForm (hterm : term.Over (.outside Γ n))
    (h : pattern.matchForm Γ term φ = some ψ) (hs : ∀ x u, ψ x = some u → s.free x = u)
    (hout : ∀ x, x ∉ Γ.vars → s.free x = .free x) :
    (pattern.nameless []).fill s = term.nameless [] ∧ ∀ x u, φ x = some u → s.free x = u := by
  fun_induction matchForm Γ pattern term φ generalizing ψ with
  | case1 head arg head' arg' φ ihhead iharg =>
    -- The values found in the head are still there after the argument.
    obtain ⟨χ, hhead, harg⟩ := bind_eq_some_iff.1 h
    obtain ⟨hfill, hχ⟩ := iharg χ hterm.2 harg hs
    obtain ⟨hfill', hφ⟩ := ihhead hterm.1 hhead hχ
    exact ⟨congrArg₂ Nameless.app hfill' hfill, hφ⟩
  | case2 v term φ hv hφ =>
    cases h
    exact ⟨hs v _ hφ, hs⟩
  | case3 => cases h
  | case4 v term φ hv hφ =>
    cases h
    refine ⟨hs v _ (Function.update_self ..), fun x u hx => hs x u ?_⟩
    rwa [Function.update_of_ne]
    rintro rfl
    rw [hφ] at hx
    cases hx
  | case5 v term φ hv heq =>
    cases h
    exact ⟨by rw [heq, hterm.fill_outside hout], hs⟩
  | case6 => cases h
  | case7 pattern term φ _ _ heq =>
    cases h
    exact ⟨by rw [heq, hterm.fill_outside hout], hs⟩
  | case8 => cases h

/-- A term that a pattern matches is an instance of it. -/
lemma matchWith_instance (hterm : term.Over (.outside Γ n))
    (h : ((pattern.matchWith Γ term .empty).value n).isSome = true) : term.IsInstance pattern := by
  obtain ⟨-, hform, houtside⟩ := matchWith_form pattern Subst.Outside.empty hterm
  obtain ⟨τ, hτ⟩ := isSome_iff_exists.1 h
  rw [hτ, map_some] at hform
  refine ⟨τ.filling, (fill_of_matchForm hterm hform.symm (fun x u hx => ?_) fun x hx => ?_).1.symm⟩
  · obtain ⟨t, ht, rfl⟩ := map_eq_some_iff.1 hx
    change (τ.image x).nameless [] = _
    rw [Subst.image, image_eq ht]
  · change (τ.image x).nameless [] = _
    cases hget : τ.get? x with
    | some t => exact (hx (houtside τ hτ hget).1).elim
    | none =>
      rw [Subst.image, image_eq_var hget]
      rfl

end Term

/-! ### Firing -/

namespace Rule

variable {r : Rule} {term : Term}

/-- The filling that values found by matching make. -/
def valuesFilling (φ : Var → Option Nameless) : Filling :=
  ⟨fun x => (φ x).getD (.free x), .bound⟩

lemma valuesFilling_form (σ : Subst) : valuesFilling σ.form = σ.filling := by
  refine Filling.ext (funext fun x => ?_) rfl
  change (σ.form x).getD (.free x) = (σ.image x).nameless []
  cases hget : σ.get? x with
  | some t => rw [Subst.form, hget, Subst.image, image_eq hget]; rfl
  | none => rw [Subst.form, hget, Subst.image, image_eq_var hget]; rfl

/-- Firing as a function of forms. -/
def fireForm (r : Rule) (term : Term) : Option Nameless :=
  (r.lhs.matchForm r.context term fun _ => none).bind fun φ =>
    if (r.rhs.freeVars.filter fun v => Telescope.contains r.context v).all
        fun v => (φ v).isSome then
      some ((r.rhs.nameless []).fill (valuesFilling φ))
    else none

/-- A rule can fire at a term: it shares no variable with the term, and both are behind the
supply. -/
structure Apart (n : Nat) (term : Term) (r : Rule) : Prop where
  term : term.Over (.outside r.context n)
  rhs : r.rhs.Over (.below n)

lemma Apart.mono (h : r.Apart n term) (hnm : n ≤ m) : r.Apart m term :=
  ⟨h.term.mono (outside_mono hnm), h.rhs.mono (below_le hnm)⟩

/-- Up to bound variables, what a rule makes of a term does not depend on the supply. -/
lemma fire?_form (h : r.Apart n term) :
    n ≤ (r.fire? term).next n ∧
      ((r.fire? term).value n).map (nameless []) = r.fireForm term := by
  obtain ⟨hle, hform, houtside⟩ :=
    matchWith_form r.lhs Subst.Outside.empty h.term
  change _ = matchForm r.context r.lhs term (fun _ => none) at hform
  rw [fire?, fireForm, ← hform]
  simp only [value_bind, next_bind]
  cases hvalue : (r.lhs.matchWith r.context term .empty).value n with
  | none => exact ⟨hle, rfl⟩
  | some σ =>
    have himage : ∀ x, (below n).vars x →
        (σ.image x).Over (.below ((r.lhs.matchWith r.context term .empty).next n)) := by
      intro x hx
      cases hget : σ.get? x with
      | some t =>
        rw [Subst.image, image_eq hget]
        exact (houtside σ hvalue hget).2.mono outside_le_below
      | none =>
        rw [Subst.image, image_eq_var hget]
        exact hx.trans_le hle
    have hbinds : r.bindsRhs σ = (r.rhs.freeVars.filter fun v =>
        Telescope.contains r.context v).all fun v => (σ.form v).isSome := by
      simp only [Subst.form, isSome_map]
      rfl
    rw [map_some, bind_some, ← hbinds, valuesFilling_form]
    dsimp only
    split
    · refine ⟨hle.trans (Subst.apply_next σ r.rhs _), ?_⟩
      exact congrArg some (Subst.nameless_apply himage h.rhs)
    · exact ⟨hle, rfl⟩

lemma fireFirst?_form (h : ∀ r ∈ rs, r.Apart n term) :
    ((fireFirst? rs term).value n).map (nameless []) = rs.findSome? (fireForm · term) := by
  induction rs generalizing n with
  | nil => rfl
  | cons r rs ih =>
    obtain ⟨hle, hform⟩ := fire?_form (h r mem_cons_self)
    rw [fireFirst?, findSome?_cons, ← hform]
    simp only [value_bind]
    cases hvalue : (r.fire? term).value n with
    | some u => rfl
    | none => exact ih fun r' hr' => (h r' (mem_cons_of_mem r hr')).mono hle

/-- The left side matches the term, with new variables from a supply on. -/
def MatchesFrom (r : Rule) (n : Nat) (term : Term) : Prop :=
  ((r.lhs.matchWith r.context term .empty).value n).isSome = true

lemma Apart.matchesFrom (h : r.Apart n term) (hfire : r.fireForm term = some u) :
    r.MatchesFrom n term := by
  obtain ⟨-, hform, -⟩ := matchWith_form r.lhs Subst.Outside.empty h.term
  obtain ⟨φ, hφ, -⟩ := bind_eq_some_iff.1 hfire
  change _ = matchForm r.context r.lhs term (fun _ => none) at hform
  rw [MatchesFrom, ← isSome_map (f := Subst.form), hform, hφ, isSome_some]

/-- Where at most one rule matches, the order of the rules does not matter. -/
lemma fireFirst?_perm (hperm : rs.Perm rs') (h : ∀ r ∈ rs, r.Apart n term)
    (hone : rs.Pairwise fun r r' => ¬ (r.MatchesFrom n term ∧ r'.MatchesFrom n term)) (hi : n ≤ i)
    (hj : n ≤ j) :
    ((fireFirst? rs term).value i).map (nameless []) =
      ((fireFirst? rs' term).value j).map (nameless []) := by
  have hleft : ∀ r ∈ rs, r.Apart i term := fun r hr => (h r hr).mono hi
  have hright : ∀ r ∈ rs', r.Apart j term := fun r hr => (h r (hperm.mem_iff.2 hr)).mono hj
  rw [fireFirst?_form hleft, fireFirst?_form hright, ← head?_filterMap, ← head?_filterMap]
  -- At most one rule makes something of the term, so its place among them is of no account.
  have hfired : (rs.filterMap (fireForm · term)).Pairwise fun _ _ => False := by
    refine pairwise_filterMap.2 (hone.imp_of_mem fun hr hr' hnot u hu v hv => ?_)
    exact hnot ⟨(h _ hr).matchesFrom hu, (h _ hr').matchesFrom hv⟩
  have hlists := hperm.filterMap (fireForm · term)
  cases hcase : rs.filterMap (fireForm · term) with
  | nil =>
    rw [hcase] at hlists
    rw [nil_perm.1 hlists]
  | cons u us =>
    rw [hcase] at hlists hfired
    obtain rfl : us = [] := eq_nil_iff_forall_not_mem.2 (pairwise_cons.1 hfired).1
    rw [singleton_perm.1 hlists]

end Rule
end Clausal
