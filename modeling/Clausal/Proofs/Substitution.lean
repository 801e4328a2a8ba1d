import Clausal.Proofs.Nameless.Form
import Clausal.Proofs.Sliding

/-!
# Substitution and nameless forms

Substitution renames the binders it passes to variables from a supply.  If the
supply is ahead of the values, no variable is captured: the form of the result
is the form of the term with its free variables filled.
-/

namespace Clausal

open Fresh List Subst

variable {S : Reach} {t : Term} {σ : Subst} {args : List Term} {fields : List Var}

namespace Assignment

/-- The value of a variable; a variable without one stands for itself. -/
def image (σ : Assignment) (v : Var) : Term := (σ.get? v).getD (.var v)

lemma image_nil (x : Var) : image [] x = .var x := rfl

lemma image_cons (v : Var) (t : Term) (σ : Assignment) (x : Var) :
    image ((v, t) :: σ) x = if v = x then t else σ.image x := by
  by_cases h : v = x <;> simp [image, get?, h]

lemma image_bind_one (σ : Assignment) (v w x : Var) :
    (σ.bind [v] [w]).image x = if v = x then .var w else σ.image x :=
  image_cons v (.var w) σ x

lemma bind_nil (ws : List Var) (σ : Assignment) : σ.bind [] ws = σ := rfl

lemma bind_cons (v w : Var) (vs ws : List Var) (σ : Assignment) :
    σ.bind (v :: vs) (w :: ws) = (σ.bind [v] [w]).bind vs ws := by
  simp [bind]

/-- The values of what is within `S` are within `R`. -/
structure Maps (σ : Assignment) (S R : Reach) : Prop where
  vars : ∀ x, S.vars x → (σ.image x).Over R
  globals : ∀ c, S.globals c → R.globals c
  splits : S.splits → R.splits

lemma Maps.bind {σ : Assignment} (h : σ.Maps S R) (v w : Var) :
    (σ.bind [v] [w]).Maps (S.bind [v]) (R.bind [w]) where
  vars x hx := by
    rw [image_bind_one]
    by_cases hv : v = x
    · simp [hv, Term.Over, Reach.bind]
    · have hS : S.vars x := hx.resolve_left (by simpa using Ne.symm hv)
      rw [if_neg hv]
      exact (h.vars x hS).mono (R.le_bind [w])
  globals := h.globals
  splits := h.splits

/-- Below `stack` the variables have values whose forms, below `stack'`, are
those of `s`; all values are behind the supply `n`. -/
structure Models (σ : Assignment) (n : Nat) (V : Var → Prop) (stack stack' : List Var)
    (s : Filling) : Prop where
  value : ∀ x, V x → (σ.image x).nameless stack' = (x.locate stack).fill s
  below : ∀ x, V x → (σ.image x).Over (.below n)

lemma Models.mono {σ : Assignment} (h : σ.Models n V stack stack' s) (hnm : n ≤ m) :
    σ.Models m V stack stack' s :=
  ⟨h.value, fun x hx => (h.below x hx).mono (Reach.below_le hnm)⟩

lemma Models.bind {σ : Assignment} (h : σ.Models n V stack stack' s) (v : Var) (name : Name) :
    (σ.bind [v] [⟨n, name⟩]).Models (n + 1) (fun x => x ∈ [v] ∨ V x) (v :: stack)
      (⟨n, name⟩ :: stack') (s.under 1) where
  value x hx := by
    rw [image_bind_one]
    by_cases hv : v = x
    · rw [if_pos hv, Var.locate_cons_eq hv]
      exact Var.locate_cons_eq rfl
    · have hV : V x := hx.resolve_left (by simpa using Ne.symm hv)
      rw [if_neg hv, Var.locate_cons_ne hv, Nameless.shift_fill_under, ← h.value x hV]
      exact Term.nameless_cons (h.below x hV) (lt_irrefl n)
  below x hx := by
    rw [image_bind_one]
    by_cases hv : v = x
    · rw [if_pos hv]
      exact Nat.lt_succ_self n
    · have hV : V x := hx.resolve_left (by simpa using Ne.symm hv)
      rw [if_neg hv]
      exact (h.below x hV).mono (Reach.below_le (by omega))

end Assignment

namespace Var

lemma refreshAll_next (vs : List Var) (n : Nat) :
    (refreshAll vs).next n = n + vs.length := by
  induction vs generalizing n with
  | nil => rfl
  | cons v vs ih =>
    simp only [refreshAll, next_bind, next_refresh, next_pure, ih, length_cons]
    omega

lemma refreshAll_value (v : Var) (vs : List Var) (n : Nat) :
    (refreshAll (v :: vs)).value n = ⟨n, v.name⟩ :: (refreshAll vs).value (n + 1) := rfl

lemma refreshAll_length (vs : List Var) (n : Nat) :
    ((refreshAll vs).value n).length = vs.length := by
  induction vs generalizing n with
  | nil => rfl
  | cons v vs ih => simp [refreshAll_value, ih]

end Var

namespace Assignment

lemma Maps.bindAll {σ : Assignment} (h : σ.Maps S R)
    (hlen : vs.length = ws.length) : (σ.bind vs ws).Maps (S.bind vs) (R.bind ws) := by
  induction vs generalizing ws σ S R with
  | nil =>
    obtain rfl : ws = [] := length_eq_zero_iff.1 hlen.symm
    rw [Reach.bind_nil, Reach.bind_nil]
    exact h
  | cons v vs ih =>
    cases ws with
    | nil => simp at hlen
    | cons w ws =>
      have hlen' : vs.length = ws.length := by simpa using hlen
      have hrest := ih (h.bind v w) hlen'
      rwa [← Reach.bind_append, ← Reach.bind_append, ← bind_cons] at hrest

/-- Going below binders renames them and extends both stacks. -/
lemma Models.bindAll {σ : Assignment} (h : σ.Models n V stack stack' s) (vs : List Var) :
    (σ.bind vs ((Var.refreshAll vs).value n)).Models (n + vs.length) (fun x => x ∈ vs ∨ V x)
      (vs.reverse ++ stack) (((Var.refreshAll vs).value n).reverse ++ stack')
      (s.under vs.length) := by
  induction vs generalizing σ n V stack stack' s with
  | nil =>
    rw [length_nil, Filling.under_zero]
    exact ⟨fun x hx => h.value x (by simpa using hx), fun x hx => h.below x (by simpa using hx)⟩
  | cons v vs ih =>
    have hrest := ih (h.bind v v.name)
    have hmem : ∀ x, x ∈ v :: vs ∨ V x → x ∈ vs ∨ x ∈ [v] ∨ V x := by grind
    have hsum : n + 1 + vs.length = n + (v :: vs).length := by
      rw [length_cons]
      omega
    rw [Filling.under_under, Nat.add_comm 1, hsum] at hrest
    rw [Var.refreshAll_value, bind_cons]
    refine ⟨fun x hx => ?_, fun x hx => hrest.below x (hmem x hx)⟩
    have hval := hrest.value x (hmem x hx)
    simpa using hval

end Assignment

/-! ### Replacing variables -/

lemma Term.assign_next (σ : Assignment) (n : Nat) (t : Term) : n ≤ (t.assign σ).next n :=
  (t.assign_slides .still σ n (Nat.zero_le n)).1

lemma Branches.assign_next (σ : Assignment) (n : Nat) (bs : Branches) :
    n ≤ (bs.assign σ).next n := (bs.assign_slides .still σ n (Nat.zero_le n)).1

mutual

lemma Term.assign_over {σ : Assignment} {S R : Reach} (h : σ.Maps S R) (n : Nat) :
    {t : Term} → t.Over S → ((t.assign σ).value n).Over R
  | .univ, _ => trivial
  | .var v, ht => h.vars v ht
  | .global name, ht => h.globals name ht
  | .pi v _ _, ht
  | .lam v _ _, ht => ⟨Term.assign_over h n ht.1, Term.assign_over (h.bind v _) _ ht.2⟩
  | .app _ _, ht | .ann _ _, ht => ⟨Term.assign_over h n ht.1, Term.assign_over h _ ht.2⟩
  | .case _ _, ht =>
    ⟨h.splits ht.1, Term.assign_over h n ht.2.1, Branches.assign_over h _ ht.2.2⟩
  | .absurd scrut, ht => Term.assign_over (t := scrut) h n ht

lemma Branches.assign_over {σ : Assignment} {S R : Reach} (h : σ.Maps S R) (n : Nat) :
    {bs : Branches} → bs.Over S → ((bs.assign σ).value n).Over R
  | .nil, _ => trivial
  | .cons _ fields _ _, hb =>
    ⟨Term.assign_over (h.bindAll (Var.refreshAll_length fields n).symm) _ hb.1,
      Branches.assign_over h _ hb.2⟩

end

mutual

/-- Replacing variables fills the form of a term. -/
lemma Term.nameless_assign {σ : Assignment} {n : Nat} {S : Reach}
    (h : σ.Models n S.vars stack stack' s) :
    {t : Term} → t.Over S → ((t.assign σ).value n).nameless stack' = (t.nameless stack).fill s
  | .univ, _ => rfl
  | .var v, ht => h.value v ht
  | .global _, _ => rfl
  | .pi v dom cod, ht | .lam v dom cod, ht => by
    have hcod := Term.nameless_assign
      ((h.mono (dom.assign_next σ n)).bind v v.name) ht.2
    simp only [Term.assign, value_bind, value_refresh, next_refresh,
      value_pure, Term.nameless, Nameless.fill]
    rw [Term.nameless_assign h ht.1, hcod]
  | .app head arg, ht | .ann head arg, ht => by
    have harg := Term.nameless_assign (h.mono (head.assign_next σ n)) ht.2
    simp only [Term.assign, value_bind, value_pure, Term.nameless, Nameless.fill]
    rw [Term.nameless_assign h ht.1, harg]
  | .case scrut branches, ht => by
    have hbranches := Branches.nameless_assign (h.mono (scrut.assign_next σ n)) ht.2.2
    simp only [Term.assign, value_bind, value_pure, Term.nameless, Nameless.fill]
    rw [Term.nameless_assign h ht.2.1, hbranches]
  | .absurd scrut, ht => by
    simp only [Term.assign, value_bind, value_pure, Term.nameless, Nameless.fill]
    rw [Term.nameless_assign (t := scrut) h ht]

lemma Branches.nameless_assign {σ : Assignment} {n : Nat} {S : Reach}
    (h : σ.Models n S.vars stack stack' s) :
    {bs : Branches} → bs.Over S → ((bs.assign σ).value n).nameless stack' =
      (bs.nameless stack).fill s
  | .nil, _ => rfl
  | .cons _ fields body rest, hb => by
    have hfields := h.bindAll fields
    rw [← Var.refreshAll_next] at hfields
    have hbody := Term.nameless_assign hfields hb.1
    have hnext : n ≤ (body.assign (σ.bind fields ((Var.refreshAll fields).value n))).next
        ((Var.refreshAll fields).next n) := by
      have h1 := Var.refreshAll_next fields n
      have h2 := body.assign_next (σ.bind fields ((Var.refreshAll fields).value n))
        ((Var.refreshAll fields).next n)
      omega
    have hrest := Branches.nameless_assign (h.mono hnext) hb.2
    simp only [Branches.assign, value_bind, value_pure, Branches.nameless, Nameless.fill]
    rw [hbody, hrest, Var.refreshAll_length]

end

/-! ### Substitutions -/

namespace Subst

/-- The value of a variable; a variable without one stands for itself. -/
def image (σ : Subst) (v : Var) : Term := σ.entries.image v

/-- What a substitution makes of the form of a term. -/
def filling (σ : Subst) : Filling := ⟨fun v => (σ.image v).nameless [], .bound⟩

lemma apply_of_isEmpty (h : σ.isEmpty = true) (t : Term) : σ.apply t = pure t := by
  simp [apply, h]

lemma apply_of_not_isEmpty (h : ¬ σ.isEmpty = true) (t : Term) :
    σ.apply t = t.assign σ.entries := by
  simp [apply, h]

lemma image_of_isEmpty (h : σ.isEmpty = true) (x : Var) : σ.image x = .var x := by
  have hnil : σ.entries = [] := by simpa [isEmpty] using h
  rw [image, hnil, Assignment.image_nil]

lemma apply_next (σ : Subst) (t : Term) (n : Nat) : n ≤ (σ.apply t).next n :=
  (σ.apply_slides .still t n (Nat.zero_le n)).1

lemma apply_over (h : σ.entries.Maps S R) (n : Nat) (ht : t.Over S) :
    ((σ.apply t).value n).Over R := by
  by_cases he : σ.isEmpty = true
  · rw [apply_of_isEmpty he]
    refine ht.mono ⟨fun x hx => ?_, h.globals, h.splits⟩
    have hx' := h.vars x hx
    rwa [← image, image_of_isEmpty he] at hx'
  · rw [apply_of_not_isEmpty he]
    exact t.assign_over h n ht

lemma nameless_apply (h : ∀ x, S.vars x → (σ.image x).Over (.below n)) (ht : t.Over S) :
    ((σ.apply t).value n).nameless [] = (t.nameless []).fill σ.filling := by
  by_cases he : σ.isEmpty = true
  · rw [apply_of_isEmpty he]
    refine (t.nameless_fill ht fun x _ => ?_).symm
    simp only [Var.locate, Nameless.fill, filling, image_of_isEmpty he, Term.nameless]
  · rw [apply_of_not_isEmpty he]
    exact t.nameless_assign ⟨fun x _ => rfl, h⟩ ht

lemma image_single (v : Var) (t : Term) (x : Var) :
    (single v t).image x = if v = x then t else .var x :=
  Assignment.image_cons v t [] x

lemma eq_of_get?_single (h : (single v t).get? x = some u) : u = t := by
  simp only [single, get?, Assignment.get?, find?_singleton] at h
  split at h
  · exact (Option.some.inj h).symm
  · cases h

lemma single_maps (v : Var) (ht : t.Over S) : (single v t).entries.Maps (S.bind [v]) S where
  vars x hx := by
    rw [← image, image_single]
    by_cases hv : v = x
    · rwa [if_pos hv]
    · rw [if_neg hv]
      exact hx.resolve_left (by simpa using Ne.symm hv)
  globals _ hc := hc
  splits hs := hs

lemma get?_put (σ : Subst) (v : Var) (t : Term) (x : Var) :
    (σ.put v t).get? x = if v = x then some t else σ.get? x := by
  by_cases hc : σ.contains v = true
  · -- The keys stay, so looking one up in the changed list finds the same place.
    have hkeys : ((fun entry => entry.1 == x) ∘
        fun entry => if entry.1 == v then (v, t) else entry) = fun entry => entry.1 == x := by
      funext entry
      by_cases he : entry.1 = v <;> simp [he]
    rw [put, if_pos hc]
    simp only [get?, Assignment.get?, find?_map, hkeys]
    cases hfind : σ.entries.find? fun entry => entry.1 == x with
    | none =>
      have hne : v ≠ x := by
        rintro rfl
        simp [contains, get?, Assignment.get?, hfind] at hc
      simp [hne]
    | some entry =>
      have hkey : entry.1 = x := by simpa using find?_some hfind
      by_cases hv : v = x
      · simp [hv, hkey]
      · simp [hv, hkey, Ne.symm hv]
  · rw [put, if_neg hc]
    simp only [get?, Assignment.get?, find?_append]
    by_cases hv : v = x
    · subst hv
      have hnone : σ.entries.find? (fun entry => entry.1 == v) = none :=
        Option.map_eq_none_iff.1 (Option.not_isSome_iff_eq_none.1 hc)
      simp [hnone]
    · cases hfind : σ.entries.find? fun entry => entry.1 == x with
      | none | some => simp [hv]

lemma image_put (σ : Subst) (v : Var) (t : Term) (x : Var) :
    (σ.put v t).image x = if v = x then t else σ.image x := by
  have h := get?_put σ v t x
  simp only [image, Assignment.image]
  simp only [get?] at h
  rw [h]
  split <;> rfl

lemma ofPairs_concat (pairs : List (Var × Term)) (v : Var) (t : Term) :
    ofPairs (pairs ++ [(v, t)]) = (ofPairs pairs).put v t := by
  simp [ofPairs]

lemma ofPairs_snoc (hlen : (fields ++ [v]).length = args.length) :
    ∃ args' a, args = args' ++ [a] ∧ fields.length = args'.length ∧
      ofPairs ((fields ++ [v]).zip args) = (ofPairs (fields.zip args')).put v a := by
  rcases eq_nil_or_concat args with rfl | ⟨args, a, rfl⟩
  · simp at hlen
  · have hlen' : fields.length = args.length := by simpa using hlen
    refine ⟨args, a, concat_eq_append, hlen', ?_⟩
    rw [concat_eq_append, zip_append hlen']
    exact ofPairs_concat _ v a

lemma locate_ofPairs (hlen : fields.length = args.length) (x : Var) :
    (x.locate fields.reverse).fill (.values (args.map (Term.nameless [])).reverse) =
      (x.locate []).fill (ofPairs (fields.zip args)).filling := by
  -- The last field of a name counts, so the induction takes fields from the end.
  induction fields using reverseRecOn generalizing args with
  | nil =>
    rfl
  | append_singleton fields v ih =>
    obtain ⟨args, a, rfl, hlen', hput⟩ := ofPairs_snoc hlen
    rw [hput, reverse_append, map_append]
    have himage := image_put (ofPairs (fields.zip args)) v a x
    by_cases hv : v = x
    · simp only [filling, Var.locate, Nameless.fill, himage]
      simp [hv, Var.locate, Nameless.fill, Filling.values]
    · have hrest := ih hlen'
      simp only [filling, Var.locate, Nameless.fill, himage, if_neg hv] at hrest ⊢
      rw [← hrest]
      simp only [reverse_cons, reverse_nil, nil_append, singleton_append,
        Var.locate_cons_ne hv, map_cons, map_nil]
      rw [Nameless.shift, Nameless.fill_rename]
      congr 1
      ext i
      · rfl
      · simp [Filling.values]

end Subst

/-- Giving a binder its value is substitution for its variable. -/
lemma Term.instantiate_single (ht : t.Over S) (v : Var) (a : Term) :
    (t.nameless [v]).instantiate [a.nameless []] =
      (t.nameless []).fill (single v a).filling := by
  refine t.nameless_fill_congr (fun x _ => ?_) ht
  simp only [filling, Var.locate, Nameless.fill, image_single]
  by_cases hx : v = x
  · simp [hx, Nameless.fill, Filling.values]
  · simp [hx, Nameless.fill, Filling.values, Nameless.shift, Nameless.rename, nameless, Var.locate]

/-- Giving the binders of a branch their values is substitution for the fields. -/
lemma Term.instantiate_ofPairs (ht : t.Over S) (hlen : fields.length = args.length) :
    (t.nameless (fields.reverse)).instantiate ((args.map (Term.nameless [])).reverse) =
      (t.nameless []).fill (ofPairs (fields.zip args)).filling :=
  t.nameless_fill_congr (fun x _ => locate_ofPairs hlen x) ht

end Clausal
