import Clausal.Proofs.Reduction

/-!
# Hygiene of binders

A term is tidy when its binders come from a given stock and none of them binds
a variable that is in scope already; `shadow` lifts the second condition.
-/

namespace Clausal

open List Subst

variable {t u body head dom : Term} {v : Var} {σ : Subst}

structure Hygiene where
  /-- The variables in scope. -/
  scope : Var → Prop
  /-- The stock of binders. -/
  binders : Var → Prop
  /-- Whether a binder may bind a variable that is in scope. -/
  shadow : Prop := False

namespace Hygiene

/-- Binders behind a supply, whatever they bind. -/
def plain (n : Nat) : Hygiene := ⟨fun x => x.id < n, fun x => x.id < n, True⟩

/-- Below more binders. -/
def bind (vs : List Var) (H : Hygiene) : Hygiene :=
  { H with scope := fun x => x ∈ vs ∨ H.scope x }

/-- What may be bound next. -/
def Fits (H : Hygiene) (v : Var) : Prop := H.binders v ∧ (H.scope v → H.shadow)

/-- More binders in stock. -/
def withBinders (P : Var → Prop) (H : Hygiene) : Hygiene :=
  { H with binders := fun x => H.binders x ∨ P x }

/-- The stock and the scope lie behind a supply. -/
structure Behind (H : Hygiene) (n : Nat) : Prop where
  scope : ∀ x, H.scope x → x.id < n
  binders : ∀ x, H.binders x → x.id < n

lemma Behind.mono {H : Hygiene} (h : H.Behind n) (hnm : n ≤ m) : H.Behind m :=
  ⟨fun x hx => lt_of_lt_of_le (h.scope x hx) hnm,
    fun x hx => lt_of_lt_of_le (h.binders x hx) hnm⟩

/-- What a term with this scope may refer to. -/
def reach (H : Hygiene) : Reach := { vars := H.scope }

lemma bind_nil (H : Hygiene) : H.bind [] = H := by simp [bind]

end Hygiene

/-- The variables that a supply hands out between two numbers. -/
def Var.Taken (n m : Nat) (v : Var) : Prop := n ≤ v.id ∧ v.id < m

mutual

/-- The variables of the term are in scope, and its binders fit. -/
def Term.Tidy (H : Hygiene) : Term → Prop
  | .univ => True
  | .var v => H.scope v
  | .global _ => True
  | .pi v dom cod => H.Fits v ∧ dom.Tidy H ∧ cod.Tidy (H.bind [v])
  | .lam v dom body => H.Fits v ∧ dom.Tidy H ∧ body.Tidy (H.bind [v])
  | .app head arg => head.Tidy H ∧ arg.Tidy H
  | .ann term type => term.Tidy H ∧ type.Tidy H
  | .case scrut branches => scrut.Tidy H ∧ branches.Tidy H
  | .absurd scrut => scrut.Tidy H

def Branches.Tidy (H : Hygiene) : Branches → Prop
  | .nil => True
  | .cons _ fields body rest =>
    (∀ v ∈ fields, H.Fits v) ∧ (fields.Nodup ∨ H.shadow) ∧ body.Tidy (H.bind fields) ∧
      rest.Tidy H

end

mutual

lemma Term.Tidy.over : {t : Term} → t.Tidy H → t.Over H.reach
  | .univ, _ => trivial
  | .var _, ht => ht
  | .global _, _ => trivial
  | .pi _ _ _, ht | .lam _ _ _, ht => ⟨Term.Tidy.over ht.2.1, Term.Tidy.over ht.2.2⟩
  | .app _ _, ht | .ann _ _, ht => ⟨Term.Tidy.over ht.1, Term.Tidy.over ht.2⟩
  | .case _ _, ht => ⟨trivial, Term.Tidy.over ht.1, Branches.Tidy.over ht.2⟩
  | .absurd scrut, ht => Term.Tidy.over (t := scrut) ht

lemma Branches.Tidy.over : {bs : Branches} → bs.Tidy H → bs.Over H.reach
  | .nil, _ => trivial
  | .cons _ _ _ _, hb => ⟨Term.Tidy.over hb.2.2.1, Branches.Tidy.over hb.2.2.2⟩

end

/-- Whatever is tidy under `H` is tidy under `K`. -/
structure Hygiene.Le (H K : Hygiene) : Prop where
  scope : ∀ x, H.scope x → K.scope x
  fits : ∀ x, H.Fits x → K.Fits x
  shadow : H.shadow → K.shadow

variable {H K : Hygiene}

lemma Hygiene.Le.of_scope (hscope : ∀ x, H.scope x → K.scope x)
    (hbinders : ∀ x, H.binders x → K.binders x) (hshadow : H.shadow → K.shadow)
    (hnew : ∀ x, K.scope x → H.binders x → H.scope x ∨ K.shadow) : H.Le K :=
  ⟨hscope, fun x hx => ⟨hbinders x hx.1,
    fun hK => (hnew x hK hx.1).elim (fun h => hshadow (hx.2 h)) id⟩, hshadow⟩

lemma Hygiene.Le.bind (h : H.Le K) (vs : List Var) : (H.bind vs).Le (K.bind vs) where
  scope x hx := hx.imp_right (h.scope x)
  fits x hx := by
    have hK := h.fits x ⟨hx.1, fun hs => hx.2 (.inr hs)⟩
    refine ⟨hK.1, fun hs => hs.elim (fun hmem => h.shadow (hx.2 (.inl hmem))) hK.2⟩
  shadow := h.shadow

mutual

lemma Term.Tidy.mono {H K : Hygiene} (h : H.Le K) : {t : Term} → t.Tidy H → t.Tidy K
  | .univ, _ => trivial
  | .var v, ht => h.scope v ht
  | .global _, _ => trivial
  | .pi v _ _, ht | .lam v _ _, ht => ⟨h.fits v ht.1, ht.2.1.mono h, ht.2.2.mono (h.bind [v])⟩
  | .app _ _, ht | .ann _ _, ht | .case _ _, ht => ⟨ht.1.mono h, ht.2.mono h⟩
  | .absurd scrut, ht => Term.Tidy.mono (t := scrut) h ht

lemma Branches.Tidy.mono {H K : Hygiene} (h : H.Le K) : {bs : Branches} → bs.Tidy H → bs.Tidy K
  | .nil, _ => trivial
  | .cons _ fields _ _, hb =>
    ⟨fun v hv => h.fits v (hb.1 v hv), hb.2.1.imp_right h.shadow,
      hb.2.2.1.mono (h.bind fields), hb.2.2.2.mono h⟩

end

lemma Hygiene.withBinders_le (h : ∀ x, P x → Q x) : (H.withBinders P).Le (H.withBinders Q) :=
  ⟨fun _ hx => hx, fun x hx => ⟨hx.1.imp_right (h x), hx.2⟩, fun hs => hs⟩

lemma Hygiene.le_withBinders (H : Hygiene) (P : Var → Prop) : H.Le (H.withBinders P) :=
  ⟨fun _ hx => hx, fun _ hx => ⟨.inl hx.1, hx.2⟩, fun hs => hs⟩

lemma Var.Taken.mono (hn : n' ≤ n) (hm : m ≤ m') (h : Var.Taken n m x) :
    Var.Taken n' m' x := ⟨hn.trans h.1, h.2.trans_le hm⟩

lemma Term.Tidy.taken (ht : t.Tidy (H.withBinders (Var.Taken n m))) (hn : n' ≤ n) (hm : m ≤ m') :
    t.Tidy (H.withBinders (Var.Taken n' m')) :=
  ht.mono (Hygiene.withBinders_le fun _ => Var.Taken.mono hn hm)

lemma Term.Tidy.rejoin (ht : t.Tidy ((H.withBinders (Var.Taken n k)).withBinders (Var.Taken k m)))
    (hnk : n ≤ k) (hkm : k ≤ m) : t.Tidy (H.withBinders (Var.Taken n m)) := by
  have hle : ((H.withBinders (Var.Taken n k)).withBinders (Var.Taken k m)).Le
      (H.withBinders (Var.Taken n m)) := by
    refine ⟨fun _ hx => hx, fun _ hx => ⟨?_, hx.2⟩, fun hs => hs⟩
    rcases hx.1 with (hb | hb) | hb
    · exact .inl hb
    · exact .inr (hb.mono (by omega) hkm)
    · exact .inr (hb.mono hnk (by omega))
  exact ht.mono hle

lemma Hygiene.Behind.withBinders (h : H.Behind n) (hnm : n ≤ m) :
    (H.withBinders (Var.Taken n m)).Behind m :=
  ⟨fun x hx => lt_of_lt_of_le (h.scope x hx) hnm,
    fun x hx => hx.elim (fun hb => lt_of_lt_of_le (h.binders x hb) hnm) And.right⟩

lemma Hygiene.Behind.le_bind (h : H.Behind n) (hvs : ∀ v ∈ vs, n ≤ v.id) : H.Le (H.bind vs) := by
  refine .of_scope (fun x hx => .inr hx) (fun _ hx => hx) id fun x hx hb => ?_
  rcases hx with hmem | hx
  · have := hvs x hmem
    have := h.binders x hb
    omega
  · exact .inl hx

lemma Hygiene.Behind.bind (h : H.Behind n) (hnm : n ≤ m) (hvs : ∀ v ∈ vs, v.id < m) :
    (H.bind vs).Behind m :=
  ⟨fun x hx => hx.elim (hvs x) fun hs => lt_of_lt_of_le (h.scope x hs) hnm,
    fun x hx => lt_of_lt_of_le (h.binders x hx) hnm⟩

lemma Hygiene.Behind.fits (h : H.Behind n) (hv : Var.Taken n m v) :
    (H.withBinders (Var.Taken n m)).Fits v := by
  refine ⟨.inr hv, fun hs => ?_⟩
  have := h.scope v hs
  have := hv.1
  omega

lemma Var.refreshAll_taken (vs : List Var) (n : Nat) :
    ∀ w ∈ (Var.refreshAll vs).value n, Var.Taken n (n + vs.length) w := by
  induction vs generalizing n with
  | nil => simp [Var.refreshAll]
  | cons v vs ih =>
    intro w hw
    rw [Var.refreshAll_value, mem_cons] at hw
    rw [length_cons]
    rcases hw with rfl | hw
    · exact ⟨le_refl n, by simp⟩
    · exact (ih (n + 1) w hw).mono (by omega) (by omega)

lemma Var.refreshAll_nodup (vs : List Var) (n : Nat) :
    ((Var.refreshAll vs).value n).Nodup := by
  induction vs generalizing n with
  | nil => exact nodup_nil
  | cons v vs ih =>
    rw [Var.refreshAll_value, nodup_cons]
    refine ⟨fun hmem => ?_, ih (n + 1)⟩
    have hid : n + 1 ≤ n := (Var.refreshAll_taken vs (n + 1) _ hmem).1
    omega

/-! ### Substitution keeps terms tidy -/

lemma Assignment.image_bind_cases (σ : Assignment) (hlen : vs.length = ws.length) (x : Var) :
    (∃ w ∈ ws, (σ.bind vs ws).image x = .var w) ∨
      x ∉ vs ∧ (σ.bind vs ws).image x = σ.image x := by
  induction vs generalizing ws σ with
  | nil => exact .inr ⟨by simp, rfl⟩
  | cons v vs ih =>
    cases ws with
    | nil => simp at hlen
    | cons w ws =>
      rw [bind_cons]
      have hrest : vs.length = ws.length := by simpa using hlen
      rcases ih (σ.bind [v] [w]) hrest with ⟨u, hu, himage⟩ | ⟨hx, himage⟩
      · exact .inl ⟨u, by simp [hu], himage⟩
      · rw [image_bind_one] at himage
        by_cases hv : v = x
        · exact .inl ⟨w, by simp, by rw [himage, if_pos hv]⟩
        · exact .inr ⟨by simp [hx, Ne.symm hv], by rw [himage, if_neg hv]⟩

lemma Assignment.image_bind_tidy {σ : Assignment} {V : Var → Prop}
    (h : ∀ x, V x → (σ.image x).Tidy H) (hH : H.Behind n) (hlen : vs.length = ws.length)
    (hws : ∀ w ∈ ws, n ≤ w.id) : ∀ x, x ∈ vs ∨ V x → ((σ.bind vs ws).image x).Tidy (H.bind ws) := by
  intro x hx
  rcases σ.image_bind_cases hlen x with ⟨w, hw, himage⟩ | ⟨hnot, himage⟩
  · rw [himage]
    exact .inl hw
  · rw [himage]
    exact (h x (hx.resolve_left hnot)).mono (hH.le_bind hws)

lemma Term.Tidy.unbind (hnk : n ≤ k) (ht : t.Tidy ((H.bind vs).withBinders (Var.Taken k m))) :
    t.Tidy ((H.withBinders (Var.Taken n m)).bind vs) := by
  have hle : ((H.bind vs).withBinders (Var.Taken k m)).Le
      ((H.withBinders (Var.Taken n m)).bind vs) :=
    ⟨fun _ hx => hx,
      fun _ hx => ⟨hx.1.imp_right (Var.Taken.mono hnk (by omega)), hx.2⟩, fun hs => hs⟩
  exact ht.mono hle

lemma Hygiene.Behind.binder (hH : H.Behind n) (hnk : n ≤ k) (hkm : k + 1 ≤ m)
    (hdom : dom.Tidy (H.withBinders (Var.Taken n k)))
    (hbody : body.Tidy ((H.bind [⟨k, name⟩]).withBinders (Var.Taken (k + 1) m))) :
    (H.withBinders (Var.Taken n m)).Fits ⟨k, name⟩ ∧ dom.Tidy (H.withBinders (Var.Taken n m)) ∧
      body.Tidy ((H.withBinders (Var.Taken n m)).bind [⟨k, name⟩]) :=
  ⟨hH.fits ⟨hnk, hkm⟩,
    hdom.mono (withBinders_le fun _ => Var.Taken.mono (by omega) (by omega)),
    hbody.unbind (by omega)⟩

mutual

/-- Substitution of tidy values takes all its binders from the supply. -/
lemma Term.assign_tidy {σ : Assignment} {H : Hygiene} {n : Nat}
    (h : ∀ x, S.vars x → (σ.image x).Tidy H) (hH : H.Behind n) : {t : Term} → t.Over S →
    ((t.assign σ).value n).Tidy (H.withBinders (Var.Taken n ((t.assign σ).next n)))
  | .univ, _ => trivial
  | .var v, ht => (h v ht).mono (H.le_withBinders _)
  | .global _, _ => trivial
  | .pi v dom cod, ht | .lam v dom cod, ht => by
    have hk := dom.assign_next σ n
    have hlen : [v].length = [(⟨(dom.assign σ).next n, v.name⟩ : Var)].length := rfl
    have hbind := Assignment.image_bind_tidy h (hH.mono hk) hlen (by simp)
    have hcod := Term.assign_tidy (S := S.bind [v]) hbind
      (hH.bind (Nat.le_succ_of_le hk) (by simp)) ht.2
    exact hH.binder hk (cod.assign_next _ _) (Term.assign_tidy h hH ht.1) hcod
  | .app f a, ht | .ann f a, ht => by
    have hk := f.assign_next σ n
    have hm := a.assign_next σ ((f.assign σ).next n)
    exact ⟨(Term.assign_tidy h hH ht.1).taken (by omega) hm,
      (Term.assign_tidy h (hH.mono hk) ht.2).taken hk le_rfl⟩
  | .case scrut branches, ht => by
    have hk := scrut.assign_next σ n
    have hm := branches.assign_next σ ((scrut.assign σ).next n)
    exact ⟨(Term.assign_tidy h hH ht.2.1).taken (by omega) hm,
      (Branches.assign_tidy h (hH.mono hk) ht.2.2).mono
        (Hygiene.withBinders_le fun _ => Var.Taken.mono hk le_rfl)⟩
  | .absurd scrut, ht => Term.assign_tidy (t := scrut) h hH ht

lemma Branches.assign_tidy {σ : Assignment} {S : Reach} {H : Hygiene} {n : Nat}
    (h : ∀ x, S.vars x → (σ.image x).Tidy H) (hH : H.Behind n) : {bs : Branches} → bs.Over S →
    ((bs.assign σ).value n).Tidy (H.withBinders (Var.Taken n ((bs.assign σ).next n)))
  | .nil, _ => trivial
  | .cons _ fields body rest, hb => by
    have hk := Var.refreshAll_next fields n
    have htaken := Var.refreshAll_taken fields n
    rw [← hk] at htaken
    have hbind := Assignment.image_bind_tidy h hH (Var.refreshAll_length fields n).symm
      fun w hw => (htaken w hw).1
    have hbody := Term.assign_tidy (S := S.bind fields) hbind
      (hH.bind (by omega) fun w hw => (htaken w hw).2) hb.1
    have hj := body.assign_next (σ.bind fields ((Var.refreshAll fields).value n))
      ((Var.refreshAll fields).next n)
    have hrest := Branches.assign_tidy h (hH.mono (le_trans (by omega) hj)) hb.2
    have hm := rest.assign_next σ ((body.assign
      (σ.bind fields ((Var.refreshAll fields).value n))).next ((Var.refreshAll fields).next n))
    refine ⟨fun w hw => hH.fits ((htaken w hw).mono (le_refl n) (hj.trans hm)),
      .inl (Var.refreshAll_nodup fields n), ?_, ?_⟩
    · exact (hbody.unbind (n := n) (by omega)).mono (Hygiene.Le.bind
        (Hygiene.withBinders_le fun _ => Var.Taken.mono (by omega) hm) _)
    · exact hrest.mono (Hygiene.withBinders_le
        fun _ => Var.Taken.mono (le_trans (by omega) hj) le_rfl)

end

lemma Subst.apply_tidy {S : Reach} (h : ∀ x, S.vars x → (σ.image x).Tidy H) (hH : H.Behind n)
    (ht : t.Over S) (hempty : σ.isEmpty = true → t.Tidy H) :
    ((σ.apply t).value n).Tidy (H.withBinders (Var.Taken n ((σ.apply t).next n))) := by
  by_cases he : σ.isEmpty = true
  · rw [apply_of_isEmpty he]
    exact (hempty he).mono (H.le_withBinders _)
  · rw [apply_of_not_isEmpty he]
    exact Term.assign_tidy h hH ht

lemma Subst.put_isEmpty (σ : Subst) (v : Var) (t : Term) : (σ.put v t).isEmpty = false := by
  have hget := get?_put σ v t v
  rw [if_pos rfl] at hget
  cases hempty : (σ.put v t).isEmpty with
  | false => rfl
  | true =>
    have hnil : (σ.put v t).entries = [] := by simpa [isEmpty] using hempty
    simp [get?, hnil, Assignment.get?] at hget

lemma Subst.fields_eq_nil (hlen : fields.length = args.length)
    (h : (Subst.ofPairs (fields.zip args)).isEmpty = true) : fields = [] := by
  rcases eq_nil_or_concat fields with rfl | ⟨fields, v, rfl⟩
  · rfl
  · rw [concat_eq_append] at hlen h
    obtain ⟨_, _, rfl, -, hput⟩ := ofPairs_snoc hlen
    rw [hput, put_isEmpty] at h
    cases h

lemma Term.tidy_apps : (head.apps args).Tidy H ↔ head.Tidy H ∧ ∀ a ∈ args, a.Tidy H := by
  induction args generalizing head with
  | nil => simp [apps]
  | cons a args ih =>
    have hstep := @ih (.app head a)
    simp only [apps, foldl_cons] at hstep ⊢
    rw [hstep, Tidy, forall_mem_cons, and_assoc]

lemma Branches.tidy_find? {bs : Branches} (hbs : bs.Tidy H) (h : bs.find? name = some branch) :
    (∀ v ∈ branch.fields, H.Fits v) ∧ branch.body.Tidy (H.bind branch.fields) := by
  match bs with
  | .nil => simp [find?, toList] at h
  | .cons ctor fields body rest =>
    rw [find?_cons] at h
    split at h
    · simp only [Option.some.injEq] at h
      subst h
      exact ⟨hbs.1, hbs.2.2.1⟩
    · exact tidy_find? hbs.2.2.2 h

/-! ### Reduction keeps terms tidy -/

/-- A body that is unfolded brings no binders of its own into a term: it is a
literal, whose binders are renamed once it is applied, or it has none. -/
def Env.FreshBodies (env : Env) : Prop :=
  ∀ ⦃name : Name⦄ ⦃body : Term⦄, env.sig.unfoldable? env.unfold name = some body →
    (∃ v dom b, body = .lam v dom b) ∨ body.Tidy ⟨fun _ => False, fun _ => False, False⟩

namespace Env

variable {env : Env}

lemma Whnf.next (h : env.Whnf head args n u m) : n ≤ m := by
  induction h with
  | beta _ ih => exact le_trans (apply_next _ _ _) ih
  | select _ _ _ ihs ih => exact ihs.trans (le_trans (apply_next _ _ _) ih)
  | rigid | literal | inert => exact le_rfl
  | _ => assumption

lemma Whnf.literal_inv (h : env.Whnf (.lam v dom body) [] n u m) : u = .lam v dom body := by
  cases h with
  | literal => rfl
  | inert _ _ hinert => simp [Term.isInert] at hinert

variable {H : Hygiene}

lemma tidy_select (hH : H.Behind n) {w : Term} {branches : Branches} (hw : w.Tidy H)
    (hbranches : branches.Tidy H) (hmatch : env.matchBranch? w branches = some (σ, body)) :
    ((σ.apply body).value n).Tidy (H.withBinders (Var.Taken n ((σ.apply body).next n))) := by
  obtain ⟨ctor, args, branch, hspine, hbranch, -, hlen, rfl, rfl⟩ := matchBranch?_eq_some hmatch
  obtain ⟨name, rfl, -⟩ := ctorSpine?_eq_some hspine
  have hargs := (Term.tidy_apps.1 hw).2
  have hbody := (Branches.tidy_find? hbranches hbranch).2
  refine apply_tidy (S := H.reach.bind branch.fields) (fun x hx => ?_) hH hbody.over ?_
  · rcases image_ofPairs hlen.symm x with ⟨hmem, _⟩ | ⟨himage, hnot⟩
    · exact hargs _ (mem_of_mem_drop hmem)
    · rw [himage]
      exact hx.resolve_left hnot
  · -- a branch without fields is taken as it is
    intro hempty
    have hnil := fields_eq_nil hlen.symm hempty
    rwa [hnil, Hygiene.bind_nil] at hbody

/-- Reduction keeps terms tidy; the variables that it took are binders as well. -/
lemma Whnf.tidy (hclosed : env.Closed) (hfresh : env.FreshBodies) (h : env.Whnf head args n u m)
    (hH : H.Behind n)
    (hhead : head.Tidy H ∨ (∃ v dom b, head = .lam v dom b) ∧ head.Over H.reach ∧ args ≠ [])
    (hargs : ∀ a ∈ args, a.Tidy H) : u.Tidy (H.withBinders (Var.Taken n m)) := by
  induction h generalizing H with
  | erase _ ih =>
    have hhead := hhead.resolve_right (by simp)
    exact ih hH (.inl hhead.1) hargs
  | app _ ih =>
    have hhead := hhead.resolve_right (by simp)
    exact ih hH (.inl hhead.1) (forall_mem_cons.2 ⟨hhead.2, hargs⟩)
  | @beta v dom body arg u args n m hrun ih =>
    obtain ⟨harg, hargs⟩ := forall_mem_cons.1 hargs
    have hbody : body.Over (H.reach.bind [v]) := by
      rcases hhead with hhead | ⟨_, hover, _⟩
      · exact hhead.2.2.over
      · exact hover.2
    have himage : ∀ x, (H.reach.bind [v]).vars x → ((Subst.single v arg).image x).Tidy H := by
      intro x hx
      rw [image_single]
      by_cases hv : v = x
      · rwa [if_pos hv]
      · rw [if_neg hv]
        exact hx.resolve_left (by simpa using Ne.symm hv)
    have hstep := apply_tidy himage hH hbody (by simp [Subst.isEmpty, Subst.single])
    have hnext := apply_next (Subst.single v arg) body n
    exact (ih (hH.withBinders hnext) (.inl hstep)
      fun a ha => (hargs a ha).mono (H.le_withBinders _)).rejoin hnext hrun.next
  | @select scrut w body u branches σ args n k m hscrut hmatch hrun ihscrut ih =>
    have hhead := hhead.resolve_right (by simp)
    have hk := hscrut.next
    have hw := ihscrut hH (.inl hhead.1) (by simp)
    have hstep := tidy_select (hH.withBinders hk) hw (hhead.2.mono (H.le_withBinders _)) hmatch
    have hnext := apply_next σ body k
    have hres := ih ((hH.withBinders hk).withBinders hnext) (.inl hstep) fun a ha =>
      ((hargs a ha).mono (H.le_withBinders _)).mono (Hygiene.le_withBinders _ _)
    exact (hres.rejoin hnext hrun.next).rejoin hk (hnext.trans hrun.next)
  | stuck args hscrut _ _ =>
    have hhead := hhead.resolve_right (by simp)
    exact (Term.tidy_apps.2 ⟨hhead, hargs⟩).mono (H.le_withBinders _)
  | @unfold g body u args n m hbody hrun hstuck ih =>
    refine ih hH ?_ hargs
    rcases hfresh hbody with ⟨v, dom, b, rfl⟩ | htidy
    · refine .inr ⟨⟨v, dom, b, rfl⟩, (hclosed hbody).mono ?_, ?_⟩
      · exact ⟨fun _ hx => False.elim hx, fun _ _ => trivial, fun _ => trivial⟩
      · -- without arguments the literal would be the result, and stay folded
        rintro rfl
        rw [hrun.literal_inv] at hstuck
        simp [isStuck, Term.spine, Term.spineOnto] at hstuck
    · exact .inl (htidy.mono
        ⟨fun _ hx => False.elim hx, fun _ hx => False.elim hx.1, fun hs => False.elim hs⟩)
  | fold _ _ _ _ | rigid args n _ =>
    refine (Term.tidy_apps.2 ⟨?_, hargs⟩).mono (H.le_withBinders _)
    exact trivial
  | literal v dom body n =>
    have hhead := hhead.resolve_right (by simp)
    exact hhead.mono (H.le_withBinders _)
  | inert args n hinert =>
    have hhead := hhead.resolve_right (by
      rintro ⟨⟨v, dom, b, rfl⟩, _⟩
      simp [Term.isInert] at hinert)
    exact (Term.tidy_apps.2 ⟨hhead, hargs⟩).mono (H.le_withBinders _)

/-- Weak-head normal forms of tidy terms are tidy. -/
lemma whnf_tidy (hclosed : env.Closed) (hfresh : env.FreshBodies) (hH : H.Behind n)
    (ht : t.Tidy H) (h : Eval.Returns (env.whnf t) n u m) :
    u.Tidy (H.withBinders (Var.Taken n m)) :=
  (Whnf.of_whnf h).tidy hclosed hfresh hH (.inl ht) (by simp)

end Env
end Clausal
