import Clausal.Proofs.CaptureAvoidance

/-!
# The algebra of substitutions

The filling of a composed substitution is the composition of the fillings.  A
substitution is resolved when no variable with a value occurs in a value; solving
a variable keeps that.
-/

namespace Clausal

open Fresh Nameless Term

namespace Subst

variable {σ τ : Subst} {n m : Nat} {t u : Term} {v : Var}

/-! ### Fillings -/

lemma Behind.applied_nameless (h : τ.Behind n) (ht : t.Over (.below n))
    (htu : τ.Applied n m t u) : u.nameless [] = (t.nameless []).fill τ.filling :=
  h.all.nameless Reach.closed.hereditary htu ht

lemma filling_eq_of_get? (h : σ.get? x = some t) : σ.filling.free x = t.nameless [] :=
  congrArg (nameless []) (Assignment.image_eq h)

lemma filling_eq_of_get?_none (h : σ.get? x = none) : σ.filling.free x = .free x :=
  congrArg (nameless []) (Assignment.image_eq_var h)

lemma Behind.compose (hσ : σ.Behind n) (hτ : τ.Behind n) :
    ((σ.compose τ).value n).Behind ((σ.compose τ).next n) :=
  fun _ _ hget => hσ.all.compose Reach.closed.hereditary hτ.all hget

lemma Behind.single (ht : t.Over (.below n)) : (single v t).Behind n :=
  fun _ _ hget => All.single (P := Reach.closed.Bounds) ht hget

lemma Behind.insert (hσ : σ.Behind n) (ht : t.Over (.below n)) :
    ((σ.insert v t).value n).Behind ((σ.insert v t).next n) :=
  fun _ _ hget => hσ.all.insert Reach.closed.hereditary ht hget

lemma Behind.filling_compose (hσ : σ.Behind n) (hτ : τ.Behind n) :
    ((σ.compose τ).value n).filling = σ.filling.andThen τ.filling := by
  refine Filling.ext (funext fun x => ?_) rfl
  change ((σ.compose τ).value n).filling.free x = (σ.filling.free x).fill τ.filling
  rcases get?_compose σ τ n x with ⟨hnone, hget⟩ | ⟨a, b, ha, hget, hab⟩
  · rw [filling_eq_of_get?_none hnone]
    simp only [filling, image, Assignment.image, fill]
    simp only [get?] at hget
    rw [hget]
  · rw [filling_eq_of_get? hget, filling_eq_of_get? ha, hτ.applied_nameless (hσ x a ha) hab]

/-- Solving a variable without a value comes after the values that are there. -/
lemma Behind.filling_insert (hσ : σ.Behind n) (ht : t.Over (.below n)) (hv : σ.get? v = none) :
    ((σ.insert v t).value n).filling = σ.filling.andThen (Subst.single v t).filling := by
  refine Filling.ext (funext fun x => ?_) rfl
  change ((σ.insert v t).value n).filling.free x =
    (σ.filling.free x).fill (Subst.single v t).filling
  have hsingle : ∀ y, (Subst.single v t).filling.free y =
      (if v = y then t else .var y).nameless [] :=
    fun y => congrArg (nameless []) (image_single v t y)
  rcases get?_insert σ v t n x with ⟨rfl, hget⟩ | ⟨hne, hnone, hget⟩ | ⟨hne, a, b, ha, hget, hab⟩
  · rw [filling_eq_of_get? hget, filling_eq_of_get?_none hv, fill, hsingle, if_pos rfl]
  · rw [filling_eq_of_get?_none hget, filling_eq_of_get?_none hnone, fill, hsingle,
      if_neg hne]
    rfl
  · rw [filling_eq_of_get? hget, filling_eq_of_get? ha,
      (Behind.single ht).applied_nameless (hσ x a ha) hab]

/-! ### One substitution after the other -/

lemma Behind.nameless_apply_apply (hσ : σ.Behind n) (hτ : τ.Behind n) (ht : t.Over (.below n)) :
    (value (do let u ← σ.apply t; τ.apply u) n).nameless [] =
      (t.nameless []).fill (σ.filling.andThen τ.filling) := by
  have hnext := σ.apply_next t n
  have hover : ((σ.apply t).value n).Over (.below ((σ.apply t).next n)) :=
    Reach.closed.hereditary.apply (fun x u hu => hσ x u hu) ht
  rw [value_bind, (hτ.mono hnext).nameless_apply hover, hσ.nameless_apply ht,
    fill_fill]

lemma Behind.compose_apply (hσ : σ.Behind n) (hτ : τ.Behind n) (ht : t.Over (.below n)) :
    (value (do let ρ ← σ.compose τ; ρ.apply t) n).nameless [] =
      (t.nameless []).fill (σ.filling.andThen τ.filling) := by
  have hnext := compose_next σ τ n
  rw [value_bind, (hσ.compose hτ).nameless_apply (ht.mono (Reach.below_le hnext)),
    hσ.filling_compose hτ]

lemma Behind.insert_apply (hσ : σ.Behind n) (hu : u.Over (.below n)) (hv : σ.get? v = none)
    (ht : t.Over (.below n)) :
    (value (do let ρ ← σ.insert v u; ρ.apply t) n).nameless [] =
      (t.nameless []).fill (σ.filling.andThen (Subst.single v u).filling) := by
  have hnext := insert_next σ v u n
  rw [value_bind, (hσ.insert hu).nameless_apply (ht.mono (Reach.below_le hnext)),
    hσ.filling_insert hu hv]

/-! ### Resolved substitutions -/

/-- No variable with a value occurs in a value. -/
def Resolved (σ : Subst) : Prop :=
  ∀ x u, σ.get? x = some u → ∀ y, σ.contains y = true → u.occurs y = false

/-- A resolved substitution has nothing left to do in its own results. -/
lemma Resolved.filling_andThen (h : σ.Resolved) : σ.filling.andThen σ.filling = σ.filling := by
  refine Filling.ext (funext fun x => ?_) rfl
  change (σ.filling.free x).fill σ.filling = σ.filling.free x
  cases hget : σ.get? x with
  | none =>
    rw [filling_eq_of_get?_none hget]
    exact filling_eq_of_get?_none hget
  | some u =>
    rw [filling_eq_of_get? hget]
    have hover : u.Over { vars := fun y => σ.get? y = none } :=
      over_iff_occurs.2 fun y hy => by
        have hnot := h x u hget y
        cases hgety : σ.get? y with
        | none => rfl
        | some w => simp [contains, hgety, hy] at hnot
    exact u.nameless_fill hover fun y hy => filling_eq_of_get?_none hy

/-- Solving a variable keeps a substitution resolved, if the value mentions neither the variable nor
a variable that has a value. -/
lemma Resolved.insert (h : σ.Resolved) (hσ : σ.Behind n) (hu : u.Over (.below n))
    (hv : u.occurs v = false) (hvalues : ∀ y, σ.contains y = true → u.occurs y = false) :
    ((σ.insert v u).value n).Resolved := by
  have hvalue : ∀ y, v = y ∨ σ.contains y = true → u.occurs y = false := by
    rintro y (rfl | hy)
    · exact hv
    · exact hvalues y hy
  intro x w hw y hy
  rw [contains_insert] at hy
  rcases get?_insert σ v u n x with
    ⟨rfl, hget⟩ | ⟨-, -, hget⟩ | ⟨-, a, b, ha, hget, k, hk, -, rfl⟩ <;>
    rw [hget] at hw
  · cases hw
    exact hvalue y hy
  · cases hw
  · cases hw
    have hoccurs := (Behind.single (v := v) (hu.mono (Reach.below_le hk))).occurs_apply
      ((hσ x a ha).mono (Reach.below_le hk)) y
    -- What is new in the value comes from `u`; what is old has no value.
    refine Bool.eq_false_iff.2 fun hb => ?_
    obtain ⟨z, hz, hzy⟩ := hoccurs.1 hb
    rw [image_single] at hzy
    split at hzy
    · exact Bool.eq_false_iff.1 (hvalue y hy) hzy
    · next hne =>
        obtain rfl : z = y := by simpa [occurs] using hzy
        exact Bool.eq_false_iff.1 (h x a ha z (hy.resolve_left hne)) hz

/-! ### The main statement -/

/-- The laws of composition and of solving a variable, up to bound variables and from any supplies
that are ahead of the terms. -/
theorem insert_compose_laws (hσ : σ.Behind n) (ht : t.Over (.below n)) :
    (∀ τ : Subst, τ.Behind n → ∀ k ≥ n, ∀ m ≥ n,
      (Fresh.value (do let ρ ← σ.compose τ; ρ.apply t) k).alphaEq
        (Fresh.value (do let u ← σ.apply t; τ.apply u) m) = true) ∧
    ∀ (v : Var) (u : Term), u.Over (.below n) → σ.contains v = false →
      (∀ k ≥ n, ∀ m ≥ n,
        (Fresh.value (do let ρ ← σ.insert v u; ρ.apply t) k).alphaEq
          (Fresh.value (do let w ← σ.apply t; (Subst.single v u).apply w) m) = true) ∧
      (σ.Resolved → u.occurs v = false → (∀ y, σ.contains y = true → u.occurs y = false) →
        ∀ k ≥ n, ((σ.insert v u).value k).Resolved ∧
          ∀ m ≥ (σ.insert v u).next k,
            (Fresh.value (do
                let w ← ((σ.insert v u).value k).apply t
                ((σ.insert v u).value k).apply w) m).alphaEq
              ((((σ.insert v u).value k).apply t).value m) = true) := by
  have hbelow : ∀ {u : Term} {k : Nat}, u.Over (.below n) → k ≥ n → u.Over (.below k) :=
    fun hu hk => hu.mono (Reach.below_le hk)
  refine ⟨fun τ hτ k hk m hm => ?_, fun v u hu hv => ⟨fun k hk m hm => ?_, ?_⟩⟩
  · rw [Term.alphaEq_iff, (hσ.mono hk).compose_apply (hτ.mono hk) (hbelow ht hk),
      (hσ.mono hm).nameless_apply_apply (hτ.mono hm) (hbelow ht hm)]
  · have hnone : σ.get? v = none := by simpa [contains] using hv
    rw [Term.alphaEq_iff, (hσ.mono hk).insert_apply (hbelow hu hk) hnone (hbelow ht hk),
      (hσ.mono hm).nameless_apply_apply (.single (hbelow hu hm)) (hbelow ht hm)]
  · intro hresolved hvu hvalues k hk
    have hinsert := hresolved.insert (hσ.mono hk) (hbelow hu hk) hvu hvalues
    refine ⟨hinsert, fun m hm => ?_⟩
    have hbehind := ((hσ.mono hk).insert (v := v) (hbelow hu hk)).mono hm
    have htm := hbelow ht (hk.trans (le_trans (insert_next σ v u k) hm))
    rw [Term.alphaEq_iff, hbehind.nameless_apply_apply hbehind htm, hinsert.filling_andThen,
      hbehind.nameless_apply htm]

end Subst

namespace Composition

open CaptureAvoidance (x y)

def z : Var := ⟨2, "z"⟩

/-- The variable `x` stands for `fun (z : Type) => y`. -/
def const : Subst := ⟨[(x, .lam z .univ (.var y))]⟩

/-- `x y` -/
def call : Term := .app (.var x) (.var y)

lemma const_behind : const.Behind 3 := by
  intro v u hu
  obtain rfl := Subst.eq_of_get?_single hu
  simp [y, Over, Reach.bind, Reach.below]

lemma eq_of_const_contains (h : const.contains v = true) : v = x := by
  by_contra hne
  simp [const, Subst.contains, Subst.get?, Assignment.get?, Ne.symm hne] at h

lemma const_resolved : const.Resolved := by
  intro v u hu w hw
  obtain rfl := Subst.eq_of_get?_single hu
  rw [eq_of_const_contains hw]
  decide

/-- The value of `x` mentions `y`: after `y` is swapped for `x` it is not touched again, and solving
`y` by `z` does not capture `z`. -/
theorem const_call_laws :
    const.Behind 3 ∧ call.Over (.below 3) ∧ CaptureAvoidance.swap.Behind 3 ∧ const.Resolved ∧
    (Fresh.value (do let ρ ← const.compose CaptureAvoidance.swap; ρ.apply call) 3).alphaEq
      (Fresh.value (do let u ← const.apply call; CaptureAvoidance.swap.apply u) 3) = true ∧
    (Fresh.value (do let ρ ← const.insert y (.var z); ρ.apply call) 3).alphaEq
      (Fresh.value (do let w ← const.apply call; (Subst.single y (.var z)).apply w) 3) = true ∧
    ((const.insert y (.var z)).value 3).Resolved := by
  have ht : call.Over (.below 3) := by simp [call, x, y, Term.Over, Reach.below]
  have hswap := CaptureAvoidance.swap_behind.mono (show 2 ≤ 3 by decide)
  have hz : (Term.var z).Over (.below 3) := by simp [z, Term.Over, Reach.below]
  have h := Subst.insert_compose_laws const_behind ht
  have hinsert := h.2 y (.var z) hz (by decide)
  refine ⟨const_behind, ht, hswap, const_resolved, h.1 _ hswap 3 (le_refl 3) 3 (le_refl 3),
    hinsert.1 3 (le_refl 3) 3 (le_refl 3), ?_⟩
  refine (hinsert.2 const_resolved (by decide) (fun w hw => ?_) 3 (le_refl 3)).1
  rw [eq_of_const_contains hw]
  decide

end Composition

end Clausal
