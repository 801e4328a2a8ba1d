import Clausal.Proofs.Substitution
import Clausal.Telescope.Order
import Mathlib.Data.List.Perm.Basic

/-!
# Substitution in telescopes

What substitution makes of the entries of a telescope and of the values of
another substitution, and that sorting a telescope only moves its entries.
-/

namespace Clausal

open Fresh List

variable {Γ Δ : Telescope} {S : Reach} {v x : Var} {body : Term} {α β : Type}

/-! ### Substitution in lists -/

/-- The second term is the first one with a substitution applied, from a supply
between the two numbers. -/
def Subst.Applied (σ : Subst) (n m : Nat) (t u : Term) : Prop :=
  ∃ k, n ≤ k ∧ (σ.apply t).next k ≤ m ∧ u = (σ.apply t).value k

namespace Subst

variable {σ : Subst} {t u : Term}

lemma Applied.mono (h : σ.Applied n m t u) (hn : n' ≤ n) (hm : m ≤ m') : σ.Applied n' m' t u := by
  obtain ⟨k, hk, hnext, hu⟩ := h
  exact ⟨k, hn.trans hk, hnext.trans hm, hu⟩

lemma Applied.nameless (h : σ.Applied n m t u) (hσ : ∀ x, S.vars x → (σ.image x).Over (.below n))
    (ht : t.Over S) : u.nameless [] = (t.nameless []).fill σ.filling := by
  obtain ⟨k, hk, _, rfl⟩ := h
  exact nameless_apply (fun x hx => (hσ x hx).mono (Reach.below_le hk)) ht

lemma Applied.over (h : σ.Applied n m t u) (hσ : σ.entries.Maps S R) (ht : t.Over S) :
    u.Over R := by
  obtain ⟨k, _, _, rfl⟩ := h
  exact apply_over hσ k ht

lemma applied (σ : Subst) (t : Term) (n : Nat) :
    σ.Applied n ((σ.apply t).next n) t ((σ.apply t).value n) :=
  ⟨n, le_refl n, le_rfl, rfl⟩

lemma applyAll_spec (σ : Subst) (ts : List Term) (n : Nat) :
    n ≤ (σ.applyAll ts).next n ∧
      Forall₂ (σ.Applied n ((σ.applyAll ts).next n)) ts ((σ.applyAll ts).value n) :=
  mapM_spec (fun t n => apply_next σ t n) ts n

lemma applyEntries_spec (σ : Subst) (entries : List (Var × Term)) (n : Nat) :
    n ≤ (σ.applyEntries entries).next n ∧
      Forall₂ (fun e e' => e'.1 = e.1 ∧ σ.Applied n ((σ.applyEntries entries).next n) e.2 e'.2)
        entries ((σ.applyEntries entries).value n) := by
  obtain ⟨hnext, hentries⟩ := mapM_spec
    (f := fun entry : Var × Term => do
      let t ← σ.apply entry.2
      return (entry.1, t))
    (fun entry n => apply_next σ entry.2 n) entries n
  refine ⟨hnext, hentries.imp fun e e' h => ?_⟩
  obtain ⟨k, hk, hm, rfl⟩ := h
  exact ⟨rfl, k, hk, hm, rfl⟩

end Subst

variable {P : α → β → Prop}

lemma mem_of_forall₂ (h : Forall₂ P as bs) (hb : b ∈ bs) : ∃ a ∈ as, P a b := by
  induction h with
  | nil => cases hb
  | @cons a b' as bs hab _ ih =>
    rcases mem_cons.1 hb with rfl | hb
    · exact ⟨a, mem_cons_self, hab⟩
    · obtain ⟨a', ha', h'⟩ := ih hb
      exact ⟨a', mem_cons_of_mem a ha', h'⟩

lemma map_eq_of_forall₂ (h : Forall₂ P as bs) (hP : ∀ a b, P a b → f a = g b) :
    as.map f = bs.map g := by
  induction h with
  | nil => rfl
  | cons hab _ ih => rw [map_cons, map_cons, hP _ _ hab, ih]

namespace Assignment

variable {σ : Assignment}

lemma get?_of_forall₂ {P : Term → Term → Prop} {τ : Assignment}
    (h : Forall₂ (fun e e' => e'.1 = e.1 ∧ P e.2 e'.2) σ τ) (x : Var) :
    (σ.get? x = none ∧ τ.get? x = none) ∨
      ∃ t u, σ.get? x = some t ∧ τ.get? x = some u ∧ P t u := by
  induction h with
  | nil => exact .inl ⟨rfl, rfl⟩
  | @cons e e' σ τ he _ ih =>
    obtain ⟨hkey, hval⟩ := he
    by_cases hx : e.1 = x
    · exact .inr ⟨e.2, e'.2, by simp [get?, hx], by simp [get?, hkey, hx], hval⟩
    · simpa [get?, hkey, hx] using ih

lemma get?_append (σ τ : Assignment) (x : Var) :
    get? (σ ++ τ) x = (σ.get? x).or (τ.get? x) := by
  simp only [get?, find?_append]
  cases σ.find? fun entry => entry.1 == x <;> rfl

lemma image_eq (h : σ.get? x = some t) : σ.image x = t := by simp [image, h]

lemma image_eq_var (h : σ.get? x = none) :
    σ.image x = .var x := by simp [image, h]

end Assignment

namespace Subst

lemma get?_insert (σ : Subst) (v : Var) (t : Term) (n : Nat) (x : Var) :
    (v = x ∧ ((σ.insert v t).value n).get? x = some t) ∨
      (v ≠ x ∧ σ.get? x = none ∧ ((σ.insert v t).value n).get? x = none) ∨
      (v ≠ x ∧ ∃ a b, σ.get? x = some a ∧ ((σ.insert v t).value n).get? x = some b ∧
        (single v t).Applied n ((σ.insert v t).next n) a b) := by
  obtain ⟨-, hentries⟩ := applyEntries_spec (single v t) σ.entries n
  have hput := get?_put ⟨((single v t).applyEntries σ.entries).value n⟩ v t x
  simp only [insert, value_bind, value_pure, next_bind, next_pure]
  rw [hput]
  by_cases hv : v = x
  · exact .inl ⟨hv, by rw [if_pos hv]⟩
  · rw [if_neg hv]
    refine .inr ?_
    rcases Assignment.get?_of_forall₂ hentries x with ⟨hσ, hτ⟩ | ⟨a, b, hσ, hτ, hab⟩
    · exact .inl ⟨hv, hσ, hτ⟩
    · exact .inr ⟨hv, a, b, hσ, hτ, hab⟩

lemma contains_insert (σ : Subst) (v : Var) (t : Term) (n : Nat) (x : Var) :
    ((σ.insert v t).value n).contains x = true ↔ v = x ∨ σ.contains x = true := by
  rcases get?_insert σ v t n x with ⟨rfl, hget⟩ | ⟨hne, hnone, hget⟩ | ⟨hne, a, b, ha, hget, -⟩
  · simp [contains, hget]
  · simp [contains, hget, hnone, hne]
  · simp [contains, hget, ha]

lemma insert_next (σ : Subst) (v : Var) (t : Term) (n : Nat) : n ≤ (σ.insert v t).next n :=
  (applyEntries_spec (single v t) σ.entries n).1

lemma get?_compose (σ τ : Subst) (n : Nat) (x : Var) :
    (σ.get? x = none ∧ ((σ.compose τ).value n).get? x = τ.get? x) ∨
      ∃ a b, σ.get? x = some a ∧ ((σ.compose τ).value n).get? x = some b ∧
        τ.Applied n ((σ.compose τ).next n) a b := by
  obtain ⟨-, hentries⟩ := applyEntries_spec τ σ.entries n
  simp only [compose, value_bind, value_pure, next_bind, next_pure, get?]
  rw [Assignment.get?_append]
  rcases Assignment.get?_of_forall₂ hentries x with ⟨hσ, hτ⟩ | ⟨a, b, hσ, hτ, hab⟩
  · refine .inl ⟨hσ, ?_⟩
    rw [hτ, Option.none_or]
    simp only [Assignment.get?, find?_filter]
    congr 2
    funext entry
    by_cases he : entry.1 = x
    · simp [he, contains, get?, hσ]
    · simp [he]
  · exact .inr ⟨a, b, hσ, by rw [hτ, Option.some_or], hab⟩

lemma compose_next (σ τ : Subst) (n : Nat) : n ≤ (σ.compose τ).next n :=
  (applyEntries_spec τ σ.entries n).1

end Subst

/-! ### Telescopes -/

/-- Terms over the variables of a telescope. -/
def Telescope.reach (Γ : Telescope) : Reach := { vars := fun x => x ∈ Γ.vars }

lemma Telescope.reach_nil_le : (Telescope.reach []).Le .closed :=
  ⟨fun _ hx => (not_mem_nil hx).elim, fun _ hc => hc, fun hs => hs⟩

lemma Telescope.reach_concat_le (Γ : Telescope) (v : Var) (type : Term) :
    (Telescope.reach (Γ ++ [(v, type)])).Le (Γ.reach.bind [v]) where
  vars x hx := by
    rcases mem_append.1 (by simpa [reach, vars] using hx : x ∈ Γ.vars ++ [v]) with hx | hx
    · exact .inr hx
    · exact .inl hx
  globals _ _ := trivial
  splits _ := trivial

namespace Telescope

/-- Every type is within a reach, below the variables before it. -/
def Within (S : Reach) : Telescope → Prop
  | [] => True
  | (v, type) :: Γ => type.Over S ∧ Within (S.bind [v]) Γ

lemma Within.mono (h : Γ.Within S) (hSR : S.Le R) : Γ.Within R := by
  induction Γ generalizing S R with
  | nil => trivial
  | cons e Γ ih => exact ⟨h.1.mono hSR, ih h.2 (hSR.bind [e.1])⟩

lemma Within.over (h : Γ.Within S) : ∀ e ∈ Γ, e.2.Over (S.bind Γ.vars) := by
  induction Γ generalizing S with
  | nil => simp
  | cons e Γ ih =>
    change ∀ e' ∈ e :: Γ, e'.2.Over (S.bind ([e.1] ++ vars Γ))
    rw [S.bind_append]
    refine forall_mem_cons.2 ⟨?_, ih h.2⟩
    exact (h.1.mono (S.le_bind [e.1])).mono (Reach.le_bind _ _)

lemma over_binds {f : Telescope → Term} (hnil : f [] = body)
    (hcons : ∀ e Γ R, (f (e :: Γ)).Over R ↔ e.2.Over R ∧ (f Γ).Over (R.bind [e.1])) :
    (f Γ).Over S ↔ Γ.Within S ∧ body.Over (S.bind Γ.vars) := by
  induction Γ generalizing S with
  | nil =>
    change (f []).Over S ↔ True ∧ body.Over (S.bind [])
    rw [hnil, S.bind_nil, true_and]
  | cons e Γ ih =>
    change _ ↔ (e.2.Over S ∧ Within (S.bind [e.1]) Γ) ∧ body.Over (S.bind ([e.1] ++ vars Γ))
    rw [hcons, ih, S.bind_append, and_assoc]

lemma over_pis : (Γ.pis body).Over S ↔ Γ.Within S ∧ body.Over (S.bind Γ.vars) :=
  over_binds (f := (·.pis body)) rfl fun _ _ _ => .rfl

lemma over_lams : (Γ.lams body).Over S ↔ Γ.Within S ∧ body.Over (S.bind Γ.vars) :=
  over_binds (f := (·.lams body)) rfl fun _ _ _ => .rfl

lemma ofTypeUpTo_pis (Γ : Telescope) (body : Term) :
    ofTypeUpTo Γ.length (Γ.pis body) = (Γ, body) := by
  induction Γ with
  | nil => simp [pis, ofTypeUpTo]
  | cons e Γ ih =>
    change (((e.1, e.2) :: (ofTypeUpTo Γ.length (pis Γ body)).1,
      (ofTypeUpTo Γ.length (pis Γ body)).2) : Telescope × Term) = _
    rw [ih]

lemma pis_ofTypeUpTo (count : Nat) (type : Term) :
    (ofTypeUpTo count type).1.pis (ofTypeUpTo count type).2 = type := by
  fun_induction ofTypeUpTo count type with
  | case1 n v dom cod Γ body heq ih =>
    rw [heq] at ih
    exact congrArg (Term.pi v dom) ih
  | case2 => rfl

lemma contains_iff : Telescope.contains Γ v = true ↔ v ∈ Γ.vars := by
  simp [contains, vars, any_eq_true]

lemma mem_of_type? (h : Γ.type? v = some type) : (v, type) ∈ Γ := by
  obtain ⟨⟨w, type'⟩, hfind, rfl⟩ := Option.map_eq_some_iff.1 h
  have hkey : w = v := by simpa using find?_some hfind
  have hmem := mem_of_find?_eq_some hfind
  rw [hkey] at hmem
  exact mem_reverse.1 hmem

lemma mem_vars (h : e ∈ Γ) : e.1 ∈ Γ.vars :=
  mem_map_of_mem h

lemma position?_eq_some (h : Γ.position? v = some i) :
    ∃ type, Γ = Γ.take i ++ (v, type) :: Γ.drop (i + 1) := by
  obtain ⟨hlt, hkey, -⟩ := findIdx?_eq_some_iff_getElem.1 h
  refine ⟨(Γ[i]).2, ?_⟩
  have hentry : Γ[i] = (v, (Γ[i]).2) := Prod.ext (by simpa using hkey) rfl
  rw [← hentry, ← drop_eq_getElem_cons hlt, take_append_drop]

/-- The first entry that is ready is taken out. -/
lemma takeReady?_eq_some (h : takeReady? pending Γ = some (e, others)) :
    ∃ before after, Γ = before ++ e :: after ∧ others = before ++ after ∧
      isReady pending e = true ∧ ∀ e' ∈ before, isReady pending e' = false := by
  induction Γ generalizing others with
  | nil => cases h
  | cons first Γ ih =>
    rw [takeReady?] at h
    split at h
    · next hready =>
      cases h
      exact ⟨[], Γ, rfl, rfl, hready, by simp⟩
    · next hwaits =>
      obtain ⟨⟨found, rest⟩, hfound, heq⟩ := Option.map_eq_some_iff.1 h
      cases heq
      obtain ⟨before, after, rfl, rfl, hready, hbefore⟩ := ih hfound
      exact ⟨first :: before, after, rfl, rfl, hready,
        forall_mem_cons.2 ⟨by simpa using hwaits, hbefore⟩⟩

lemma sortUpTo?_perm (h : sortUpTo? n Γ = some Δ) : Δ.Perm Γ := by
  fun_induction sortUpTo? n Γ generalizing Δ with
  | case1 =>
    cases h
    exact .refl _
  | case2 | case4 => cases h
  | case3 n Γ _ entry others hready ih =>
    obtain ⟨rest, hrest, rfl⟩ := Option.map_eq_some_iff.1 h
    obtain ⟨before, after, rfl, rfl, -⟩ := takeReady?_eq_some hready
    exact ((ih hrest).cons entry).trans perm_middle.symm

lemma vars_of_forall₂ {P : Term → Term → Prop}
    (h : Forall₂ (fun e e' => e'.1 = e.1 ∧ P e.2 e'.2) Γ Δ) : Δ.vars = Γ.vars :=
  (map_eq_of_forall₂ h fun _ _ he => he.1.symm).symm

/-- Sorting moves the entries of a telescope and changes none. -/
lemma sort?_perm (h : sort? Γ = some Δ) : Δ.Perm Γ := sortUpTo?_perm h

end Telescope

/-- What is left of a telescope once a variable is replaced. -/
lemma Subst.applyTelescope_spec (v : Var) (t : Term) (Γ : Telescope) (n : Nat) :
    n ≤ ((single v t).applyTelescope Γ).next n ∧
      Forall₂ (fun e e' => e'.1 = e.1 ∧
        (single v t).Applied n (((single v t).applyTelescope Γ).next n) e.2 e'.2)
        (Γ.filter fun entry => entry.1 ≠ v) (((single v t).applyTelescope Γ).value n) := by
  have hkeys : (fun entry : Var × Term => !(single v t).contains entry.1) =
      fun entry => decide (entry.1 ≠ v) := by
    funext entry
    by_cases h : entry.1 = v
    · simp [contains, get?, Assignment.get?, single, h]
    · simp [contains, get?, Assignment.get?, single, h, Ne.symm h]
  have hspec := applyEntries_spec (single v t) (Γ.filter fun entry => entry.1 ≠ v) n
  unfold applyTelescope
  rw [hkeys]
  exact hspec

end Clausal
