import Clausal.Proofs.Nameless.Basic
import Clausal.Proofs.Run
import Clausal.Term.Alpha
import Clausal.Subst

/-!
# The nameless form of a term

`Term.nameless stack t` reads `t` below the binders of `stack`, the innermost
first.  `Over` bounds what a term refers to: a variable taken from a supply is
fresh only if the supply is ahead of all variables in use.
-/

namespace Clausal

open List Nameless

variable {t : Term} {v w : Var} {s : Filling}

/-- A variable below some binders, the innermost first. -/
def Var.locate (v : Var) : List Var → Nameless
  | [] => .free v
  | w :: stack => if w = v then .bound 0 else (v.locate stack).shift 1

mutual

/-- The nameless form of a term below some binders. -/
def Term.nameless (stack : List Var) : Term → Nameless
  | .univ => .univ
  | .var v => v.locate stack
  | .global name => .global name
  | .pi v dom cod => .pi (dom.nameless stack) (cod.nameless (v :: stack))
  | .lam v dom body => .lam (dom.nameless stack) (body.nameless (v :: stack))
  | .app head arg => .app (head.nameless stack) (arg.nameless stack)
  | .ann term type => .ann (term.nameless stack) (type.nameless stack)
  | .case scrut branches => .case (scrut.nameless stack) (branches.nameless stack)
  | .absurd scrut => .absurd (scrut.nameless stack)

def Branches.nameless (stack : List Var) : Branches → Nameless
  | .nil => .stop
  | .cons ctor fields body rest =>
    .arm ctor fields.length (body.nameless (fields.reverse ++ stack)) (rest.nameless stack)

end

/-- What a term may refer to, and whether it may split cases. -/
structure Reach where
  vars : Var → Prop
  globals : Name → Prop := fun _ => True
  splits : Prop := True

namespace Reach

/-- Below more binders. -/
def bind (vs : List Var) (S : Reach) : Reach :=
  { S with vars := fun x => x ∈ vs ∨ S.vars x }

/-- Everything that is within `S` is within `R`. -/
structure Le (S R : Reach) : Prop where
  vars : ∀ x, S.vars x → R.vars x
  globals : ∀ c, S.globals c → R.globals c
  splits : S.splits → R.splits

lemma Le.bind {S : Reach} (h : S.Le R) (vs : List Var) : (S.bind vs).Le (R.bind vs) :=
  ⟨fun x hx => hx.imp_right (h.vars x), h.globals, h.splits⟩

lemma le_bind (S : Reach) (vs : List Var) : S.Le (S.bind vs) :=
  ⟨fun _ hx => .inr hx, fun _ hc => hc, fun hs => hs⟩

lemma bind_nil (S : Reach) : S.bind [] = S := by simp [bind]

lemma bind_append (S : Reach) (vs ws : List Var) : S.bind (vs ++ ws) = (S.bind vs).bind ws := by
  simp only [bind, mem_append]
  congr 1
  funext x
  exact propext (by rw [or_comm (a := x ∈ vs), or_assoc])

/-- Variables below a supply. -/
def below (n : Nat) : Reach := { vars := fun x => x.id < n }

/-- The same without free variables. -/
def noVars (S : Reach) : Reach := { S with vars := fun _ => False }

lemma noVars_le (S : Reach) : S.noVars.Le S :=
  ⟨fun _ hx => False.elim hx, fun _ hc => hc, fun hs => hs⟩

/-- No free variables. -/
def closed : Reach := { vars := fun _ => False }

end Reach

mutual

/-- The term refers to nothing outside `S`. -/
def Term.Over (S : Reach) : Term → Prop
  | .univ => True
  | .var v => S.vars v
  | .global name => S.globals name
  | .pi v dom cod => dom.Over S ∧ cod.Over (S.bind [v])
  | .lam v dom body => dom.Over S ∧ body.Over (S.bind [v])
  | .app head arg => head.Over S ∧ arg.Over S
  | .ann term type => term.Over S ∧ type.Over S
  | .case scrut branches => S.splits ∧ scrut.Over S ∧ branches.Over S
  | .absurd scrut => scrut.Over S

def Branches.Over (S : Reach) : Branches → Prop
  | .nil => True
  | .cons _ fields body rest => body.Over (S.bind fields) ∧ rest.Over S

end

mutual

lemma Term.Over.mono (h : S.Le R) : {t : Term} → t.Over S → t.Over R
  | .univ, _ => trivial
  | .var v, ht => h.vars v ht
  | .global name, ht => h.globals name ht
  | .pi v _ _, ht | .lam v _ _, ht => ⟨ht.1.mono h, ht.2.mono (h.bind [v])⟩
  | .app _ _, ht | .ann _ _, ht => ⟨ht.1.mono h, ht.2.mono h⟩
  | .case _ _, ht => ⟨h.splits ht.1, ht.2.1.mono h, ht.2.2.mono h⟩
  | .absurd scrut, ht => .mono (t := scrut) h ht

lemma Branches.Over.mono (h : S.Le R) : {bs : Branches} → bs.Over S → bs.Over R
  | .nil, _ => trivial
  | .cons _ fields _ _, hb => ⟨hb.1.mono (h.bind fields), hb.2.mono h⟩

end

lemma Reach.below_le (h : n ≤ m) : (Reach.below n).Le (Reach.below m) :=
  ⟨fun _ hx => hx.trans_le h, fun _ hc => hc, fun hs => hs⟩

/-! ### Forms that agree on free variables -/

variable {V : Var → Prop} {S : Reach}

lemma Var.locate_fill_bind (v : Var)
    (h : ∀ y, V y → (y.locate stack).fill s = (y.locate stack').fill s') (x : Var)
    (hx : x ∈ [v] ∨ V x) :
    (x.locate (v :: stack)).fill (s.under 1) = (x.locate (v :: stack')).fill (s'.under 1) := by
  by_cases hv : v = x
  · simp [locate, hv, fill, Filling.under]
  · have hV : V x := hx.resolve_left (by simpa using fun he => hv he.symm)
    simp only [locate, hv, if_false]
    rw [shift_fill_under, shift_fill_under, h x hV]

lemma Filling.under_under (s : Filling) (j k : Nat) : (s.under j).under k = s.under (j + k) := by
  ext i
  · exact shift_shift _ j k
  · by_cases hk : i < k
    · have hjk : i < j + k := by omega
      simp [under, hk, hjk]
    · by_cases hj : i - k < j
      · have hjk : i < j + k := by omega
        simp only [under, hk, hj, hjk, if_true, if_false, shift, Nameless.rename]
        congr 1
        omega
      · have hjk : ¬ i < j + k := by omega
        simp only [under, hk, hj, hjk, if_false]
        rw [shift_shift]
        congr 2
        omega

lemma Filling.under_zero (s : Filling) : s.under 0 = s := by
  ext i
  · exact shift_zero _
  · exact shift_zero _

lemma Var.locate_fill_bindAll (vs : List Var)
    (h : ∀ y, V y → (y.locate stack).fill s = (y.locate stack').fill s') (x : Var)
    (hx : x ∈ vs ∨ V x) :
    (x.locate (vs.reverse ++ stack)).fill (s.under vs.length) =
      (x.locate (vs.reverse ++ stack')).fill (s'.under vs.length) := by
  induction vs generalizing stack stack' s s' V with
  | nil =>
    rw [length_nil, Filling.under_zero, Filling.under_zero]
    exact h x (by simpa using hx)
  | cons v vs ih =>
    have hmem : x ∈ vs ∨ x ∈ [v] ∨ V x := by grind
    have hstep := ih (locate_fill_bind v h) hmem
    rw [Filling.under_under, Filling.under_under] at hstep
    simpa [Nat.add_comm] using hstep

mutual

/-- A filled form depends on the binders around it, and on the filling, only
through the free variables of the term. -/
lemma Term.nameless_fill_congr {S : Reach} {stack stack' : List Var} {s s' : Filling}
    (h : ∀ x, S.vars x → (x.locate stack).fill s = (x.locate stack').fill s') :
    {t : Term} → t.Over S → (t.nameless stack).fill s = (t.nameless stack').fill s'
  | .univ, _ => rfl
  | .var v, ht => h v ht
  | .global _, _ => rfl
  | .pi v dom cod, ht | .lam v dom cod, ht => by
    have hcod := Term.nameless_fill_congr (Var.locate_fill_bind v h) ht.2
    simp only [Term.nameless, fill]
    rw [Term.nameless_fill_congr h ht.1, hcod]
  | .app head arg, ht | .ann term type, ht => by
    simp only [Term.nameless, fill]
    rw [Term.nameless_fill_congr h ht.1, Term.nameless_fill_congr h ht.2]
  | .case scrut branches, ht => by
    simp only [Term.nameless, fill]
    rw [Term.nameless_fill_congr h ht.2.1, Branches.nameless_fill_congr h ht.2.2]
  | .absurd scrut, ht => by
    simp only [Term.nameless, fill]
    rw [Term.nameless_fill_congr (t := scrut) h ht]

lemma Branches.nameless_fill_congr {S : Reach} {stack stack' : List Var} {s s' : Filling}
    (h : ∀ x, S.vars x → (x.locate stack).fill s = (x.locate stack').fill s') :
    {bs : Branches} → bs.Over S → (bs.nameless stack).fill s = (bs.nameless stack').fill s'
  | .nil, _ => rfl
  | .cons _ fields body rest, hb => by
    have hbody := Term.nameless_fill_congr
      (Var.locate_fill_bindAll fields h) hb.1
    simp only [Branches.nameless, fill]
    rw [hbody, Branches.nameless_fill_congr h hb.2]

end

lemma Term.nameless_fill (ht : t.Over S)
    (h : ∀ x, S.vars x → (x.locate stack).fill s = x.locate stack') :
    (t.nameless stack).fill s = t.nameless stack' := by
  rw [← fill_id (t.nameless stack')]
  exact t.nameless_fill_congr (fun x hx => (h x hx).trans (fill_id _).symm) ht

/-- A binder that a term does not refer to only shifts its form. -/
lemma Term.nameless_cons (ht : t.Over S) (hw : ¬ S.vars w) :
    t.nameless (w :: stack) = (t.nameless stack).shift 1 := by
  rw [shift, rename_eq_fill]
  refine (t.nameless_fill ht fun x hx => ?_).symm
  have hne : w ≠ x := fun he => hw (he ▸ hx)
  simp only [Var.locate, hne, if_false]
  rw [shift, rename_eq_fill]

lemma Term.nameless_closed (ht : t.Over .closed) : (t.nameless stack).Closed :=
  fun _ => t.nameless_fill ht fun _ hx => False.elim hx

/-! ### Equality up to bound variables -/

lemma Var.locate_cons_eq (h : w = v) :
    v.locate (w :: stack) = .bound 0 := by simp [locate, h]

lemma Var.locate_cons_ne (h : w ≠ v) :
    v.locate (w :: stack) = (v.locate stack).shift 1 := by simp [locate, h]

lemma Var.locate_cases (v : Var) (stack : List Var) :
    (v.locate stack = .free v ∧ v ∉ stack) ∨ (∃ i, v.locate stack = .bound i ∧ v ∈ stack) := by
  induction stack with
  | nil => exact .inl ⟨rfl, by simp⟩
  | cons w stack ih =>
    by_cases hw : w = v
    · exact .inr ⟨0, locate_cons_eq hw, by simp [hw]⟩
    · rw [locate_cons_ne hw]
      rcases ih with ⟨hfree, hmem⟩ | ⟨i, hbound, hmem⟩
      · exact .inl ⟨by rw [hfree]; rfl, by simp [hmem, Ne.symm hw]⟩
      · exact .inr ⟨i + 1, by rw [hbound]; rfl, by simp [hmem]⟩

lemma Var.locate_ne_bound_zero (v : Var) (stack : List Var) :
    (v.locate stack).shift 1 ≠ .bound 0 := by
  rcases v.locate_cases stack with ⟨h, _⟩ | ⟨i, h, _⟩ <;> rw [h] <;>
    simp [shift, rename]

lemma Var.locate_shift_inj :
    (v.locate stack).shift 1 = (w.locate stack').shift 1 ↔ v.locate stack = w.locate stack' := by
  rcases v.locate_cases stack with ⟨hv, _⟩ | ⟨i, hv, _⟩ <;>
    rcases w.locate_cases stack' with ⟨hw, _⟩ | ⟨j, hw, _⟩ <;>
      simp [hv, hw, shift, rename]

lemma Renaming.agree_iff (r : Renaming) (v w : Var) :
    r.agree v w = true ↔ v.locate (r.map (·.1)) = w.locate (r.map (·.2)) := by
  induction r with
  | nil => simp [agree, Var.locate]
  | cons p r ih =>
    simp only [map_cons]
    by_cases hv : p.1 = v <;> by_cases hw : p.2 = w
    · rw [Var.locate_cons_eq hv, Var.locate_cons_eq hw]
      simp [agree, hv, hw]
    · rw [Var.locate_cons_eq hv, Var.locate_cons_ne hw]
      have hne := Var.locate_ne_bound_zero w (r.map (·.2))
      simp [agree, hv, hw, hne.symm]
    · rw [Var.locate_cons_ne hv, Var.locate_cons_eq hw]
      have hne := Var.locate_ne_bound_zero v (r.map (·.1))
      simp [agree, hv, hw, hne]
    · rw [Var.locate_cons_ne hv, Var.locate_cons_ne hw, Var.locate_shift_inj, ← ih]
      simp [agree, hv, hw]

lemma Renaming.map_bind (f : Var × Var → α) (r : Renaming) (vs ws : List Var) :
    (r.bind vs ws).map f = ((vs.zip ws).map f).reverse ++ r.map f := by
  simp [bind]

lemma Term.nameless_eq_locate (h : t.nameless stack = v.locate stack') : ∃ w, t = .var w := by
  rcases v.locate_cases stack' with ⟨hv, _⟩ | ⟨i, hv, _⟩ <;> rw [hv] at h <;>
    cases t <;> simp [nameless] at h <;> exact ⟨_, rfl⟩

lemma Term.alphaEqUnder_var_iff (r : Renaming) (t : Term) (w : Var) (ht : ∀ v, t ≠ .var v) :
    t.alphaEqUnder r (.var w) = true ↔
      t.nameless (r.map (·.1)) = (Term.var w).nameless (r.map (·.2)) := by
  have hne : t.nameless (r.map (·.1)) ≠ (var w).nameless (r.map (·.2)) := by
    intro h
    obtain ⟨v, hv⟩ := nameless_eq_locate h
    exact ht v hv
  cases t with
  | var v => exact (ht v rfl).elim
  | _ => simp [alphaEqUnder, hne]

mutual

/-- Terms are equal up to bound variables exactly if their forms are equal. -/
lemma Term.alphaEqUnder_iff (r : Renaming) : (t u : Term) →
    (t.alphaEqUnder r u = true ↔ t.nameless (r.map (·.1)) = u.nameless (r.map (·.2)))
  | .univ, u | .global a, u => by
    cases u with
    | var w => exact Term.alphaEqUnder_var_iff _ _ _ (by simp)
    | _ => simp [Term.alphaEqUnder, Term.nameless]
  | .var v, u => by
    cases u with
    | var w => exact r.agree_iff v w
    | _ =>
      simp only [Term.alphaEqUnder, Bool.false_eq_true, false_iff]
      intro h
      obtain ⟨w, hw⟩ := Term.nameless_eq_locate h.symm
      simp at hw
  | .pi v a b, u | .lam v a b, u => by
    cases u with
    | pi w c d | lam w c d =>
      have ha := Term.alphaEqUnder_iff r a c
      have hb := Term.alphaEqUnder_iff ((v, w) :: r) b d
      simp [Term.alphaEqUnder, Term.nameless, ha, hb]
    | var w => exact Term.alphaEqUnder_var_iff _ _ _ (by simp)
    | _ => simp [Term.alphaEqUnder, Term.nameless]
  | .app a b, u | .ann a b, u => by
    cases u with
    | app c d | ann c d =>
      simp [Term.alphaEqUnder, Term.nameless, Term.alphaEqUnder_iff r a c,
        Term.alphaEqUnder_iff r b d]
    | var w => exact Term.alphaEqUnder_var_iff _ _ _ (by simp)
    | _ => simp [Term.alphaEqUnder, Term.nameless]
  | .case a bs, u => by
    cases u with
    | case c ds =>
      simp [Term.alphaEqUnder, Term.nameless, Term.alphaEqUnder_iff r a c,
        Branches.alphaEqUnder_iff r bs ds]
    | var w => exact Term.alphaEqUnder_var_iff _ _ _ (by simp)
    | _ => simp [Term.alphaEqUnder, Term.nameless]
  | .absurd a, u => by
    cases u with
    | absurd c => simp [Term.alphaEqUnder, Term.nameless, Term.alphaEqUnder_iff r a c]
    | var w => exact Term.alphaEqUnder_var_iff _ _ _ (by simp)
    | _ => simp [Term.alphaEqUnder, Term.nameless]

/-- Branch by branch, with the fields of both on the stacks. -/
lemma Branches.alphaEqUnder_iff (r : Renaming) : (bs ds : Branches) →
    (bs.alphaEqUnder r ds = true ↔ bs.nameless (r.map (·.1)) = ds.nameless (r.map (·.2)))
  | .nil, .nil | .nil, .cons _ _ _ _
  | .cons _ _ _ _, .nil => by simp [Branches.alphaEqUnder, Branches.nameless]
  | .cons c vs a rest, .cons d ws b rest' => by
    have hrest := Branches.alphaEqUnder_iff r rest rest'
    have hbody := Term.alphaEqUnder_iff (r.bind vs ws) a b
    rw [Renaming.map_bind, Renaming.map_bind] at hbody
    simp only [Branches.alphaEqUnder, Branches.nameless, Bool.and_eq_true, beq_iff_eq,
      arm.injEq, hrest]
    constructor
    · rintro ⟨⟨⟨hc, hlen⟩, hab⟩, hr⟩
      rw [hbody, map_fst_zip (by omega), map_snd_zip (le_of_eq hlen.symm)] at hab
      exact ⟨hc, hlen, hab, hr⟩
    · rintro ⟨hc, hlen, hab, hr⟩
      refine ⟨⟨⟨hc, hlen⟩, ?_⟩, hr⟩
      rw [hbody, map_fst_zip (by omega), map_snd_zip (le_of_eq hlen.symm)]
      exact hab

end

lemma Term.alphaEq_iff (t u : Term) : t.alphaEq u = true ↔ t.nameless [] = u.nameless [] :=
  alphaEqUnder_iff [] t u

end Clausal
