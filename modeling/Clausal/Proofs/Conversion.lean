import Clausal.Proofs.Hygiene
import Clausal.Conversion
import Mathlib.Data.List.Nodup

/-!
# Conversion and equality by computation

Conversion goes under binders without fresh variables: it renames the right
binder to the left one, and it applies a term to the variable of the literal it
is compared with.  For tidy terms that share no binders nothing is captured.
-/

namespace Clausal

open Eval Hygiene List Reach Subst Term

variable {t u body' : Term} {fields others stack : List Var} {v : Var} {S : Reach}

/-- What stands outermost in a term. -/
inductive Term.Kind where
  | univ | var | global | pi | lam | app | ann | case | absurd
deriving DecidableEq

def Term.kind : Term → Kind
  | .univ => .univ
  | .var _ => .var
  | .global _ => .global
  | .pi _ _ _ => .pi
  | .lam _ _ _ => .lam
  | .app _ _ => .app
  | .ann _ _ => .ann
  | .case _ _ => .case
  | .absurd _ => .absurd

lemma Term.kind_ne_lam (h : ∀ v dom body, t = .lam v dom body → False) : t.kind ≠ .lam := by
  cases t with
  | lam v dom body => exact (h v dom body rfl).elim
  | _ => simp [kind]

namespace Env

/-- What conversion does with two weak-head normal forms. -/
inductive Compared (env : Env) (fuel : Nat) : Term → Term → Nat → Bool → Nat → Prop
  | univ (n : Nat) : Compared env fuel .univ .univ n true n
  | var {v w : Var} {b : Bool} (n : Nat) : b = (v == w) →
      Compared env fuel (.var v) (.var w) n b n
  | global {g h : Name} {b : Bool} (n : Nat) : b = (g == h) →
      Compared env fuel (.global g) (.global h) n b n
  | piDom {v w : Var} {dom cod dom' cod' : Term} {n m : Nat} :
      Returns (env.convertibleWith fuel dom dom') n false m →
      Compared env fuel (.pi v dom cod) (.pi w dom' cod') n false m
  | pi {v w : Var} {dom cod dom' cod' : Term} {n k m : Nat} {b : Bool} :
      Returns (env.convertibleWith fuel dom dom') n true k →
      Returns (env.convertibleWith fuel cod ((cod'.rename w v).value k))
        ((cod'.rename w v).next k) b m →
      Compared env fuel (.pi v dom cod) (.pi w dom' cod') n b m
  | lam {v w : Var} {dom body dom' body' : Term} {n m : Nat} {b : Bool} :
      Returns (env.convertibleWith fuel body ((body'.rename w v).value n))
        ((body'.rename w v).next n) b m →
      Compared env fuel (.lam v dom body) (.lam w dom' body') n b m
  | etaLeft {v : Var} {dom body u : Term} {n m : Nat} {b : Bool} :
      u.kind ≠ .lam → Returns (env.convertibleWith fuel body (.app u (.var v))) n b m →
      Compared env fuel (.lam v dom body) u n b m
  | etaRight {v : Var} {dom body t : Term} {n m : Nat} {b : Bool} :
      t.kind ≠ .lam → Returns (env.convertibleWith fuel (.app t (.var v)) body) n b m →
      Compared env fuel t (.lam v dom body) n b m
  | appHead {head arg head' arg' : Term} {n m : Nat} :
      Returns (env.convertibleWith fuel head head') n false m →
      Compared env fuel (.app head arg) (.app head' arg') n false m
  | app {head arg head' arg' : Term} {n k m : Nat} {b : Bool} :
      Returns (env.convertibleWith fuel head head') n true k →
      Returns (env.convertibleWith fuel arg arg') k b m →
      Compared env fuel (.app head arg) (.app head' arg') n b m
  | caseFalse (scrut scrut' : Term) (bs bs' : Branches) (n m : Nat) :
      Compared env fuel (.case scrut bs) (.case scrut' bs') n false m
  | case {scrut scrut' : Term} {bs bs' : Branches} {n k m : Nat} :
      Returns (env.convertibleWith fuel scrut scrut') n true k → bs.length = bs'.length →
      Returns (env.convertibleBranches fuel bs bs') k true m →
      Compared env fuel (.case scrut bs) (.case scrut' bs') n true m
  | absurd {t u : Term} {n m : Nat} {b : Bool} :
      Returns (env.convertibleWith fuel t u) n b m →
      Compared env fuel (.absurd t) (.absurd u) n b m
  | mismatch {t u : Term} (n : Nat) : t.kind ≠ .lam → u.kind ≠ .lam →
      (t.kind ≠ u.kind ∨ t.kind = .ann) → Compared env fuel t u n false n

/-- All that conversion can do with two terms that it accepts, case by case. -/
lemma convertibleWith_inv {fuel : Nat}
    (h : Returns (env.convertibleWith (fuel + 1) t u) n b m) :
    t = u ∧ b = true ∧ m = n ∨
      ∃ t' u' j k, Returns (env.whnf t) n t' j ∧ Returns (env.whnf u) j u' k ∧
        Compared env fuel t' u' k b m := by
  rw [convertibleWith] at h
  split at h
  · next heq =>
      simp only [returns_pure] at h
      exact .inl ⟨heq, h.1.symm, h.2.symm⟩
  · simp only [returns_bind] at h
    obtain ⟨t', j, ht, u', k, hu, h⟩ := h
    refine .inr ⟨t', u', j, k, ht, hu, ?_⟩
    split at h
    · simp only [returns_pure] at h
      obtain ⟨rfl, rfl⟩ := h
      exact .univ k
    · simp only [returns_pure] at h
      obtain ⟨rfl, rfl⟩ := h
      exact .var k rfl
    · simp only [returns_pure] at h
      obtain ⟨rfl, rfl⟩ := h
      exact .global k rfl
    · simp only [returns_bind] at h
      obtain ⟨d, i, hd, h⟩ := h
      cases d with
      | true =>
        simp only [if_true, returns_bind, returns_lift] at h
        obtain ⟨c, i', ⟨rfl, rfl⟩, h⟩ := h
        exact .pi hd h
      | false =>
        simp only [Bool.false_eq_true, if_false, returns_pure] at h
        obtain ⟨rfl, rfl⟩ := h
        exact .piDom hd
    · simp only [returns_bind, returns_lift] at h
      obtain ⟨c, i', ⟨rfl, rfl⟩, h⟩ := h
      exact .lam h
    · next hlam => exact .etaLeft (kind_ne_lam hlam) h
    · next hlam => exact .etaRight (kind_ne_lam hlam) h
    · simp only [returns_bind] at h
      obtain ⟨d, i, hd, h⟩ := h
      cases d with
      | true =>
        simp only [if_true] at h
        exact .app hd h
      | false =>
        simp only [Bool.false_eq_true, if_false, returns_pure] at h
        obtain ⟨rfl, rfl⟩ := h
        exact .appHead hd
    · cases b with
      | false => exact .caseFalse _ _ _ _ _ _
      | true =>
        simp only [returns_bind] at h
        obtain ⟨d, i, hd, h⟩ := h
        cases d with
        | true =>
          simp only [if_true] at h
          split at h
          · next hlen => exact .case hd hlen h
          · simp at h
        | false => simp at h
    · exact .absurd h
    · simp only [returns_pure] at h
      obtain ⟨rfl, rfl⟩ := h
      rename_i hleft hright huniv hvar hglobal hpi _ happ hcase habsurd
      refine .mismatch k (kind_ne_lam hleft) (kind_ne_lam hright) ?_
      cases t' <;> cases u' <;> first
        | exact .inr rfl
        | exact (huniv rfl rfl).elim
        | exact (hvar _ _ rfl rfl).elim
        | exact (hglobal _ _ rfl rfl).elim
        | exact (hpi _ _ _ _ _ _ rfl rfl).elim
        | exact (hleft _ _ _ rfl).elim
        | exact (happ _ _ _ _ rfl rfl).elim
        | exact (hcase _ _ _ _ rfl rfl).elim
        | exact (habsurd _ _ rfl rfl).elim
        | exact .inl (by intro h; cases h)

end Env
/-! ### Going under binders -/

/-- Put variables back under binders, the innermost first. -/
def Filling.close (stack : List Var) : Filling where
  free x := x.locate stack
  bound i := .bound (i + stack.length)

lemma Term.nameless_close (ht : t.Over S) (stack : List Var) :
    (t.nameless []).fill (.close stack) = t.nameless stack :=
  t.nameless_fill ht fun _ _ => rfl

lemma Var.getElem?_of_locate (h : v.locate stack = .bound i) : stack[i]? = some v := by
  induction stack generalizing i with
  | nil => simp [locate] at h
  | cons w stack ih =>
    by_cases hw : w = v
    · rw [locate_cons_eq hw, Nameless.bound.injEq] at h
      subst h hw
      rfl
    · rw [locate_cons_ne hw] at h
      rcases v.locate_cases stack with ⟨hfree, _⟩ | ⟨j, hbound, _⟩
      · simp [hfree, Nameless.shift, Nameless.rename] at h
      · rw [hbound, Nameless.shift, Nameless.rename, Nameless.bound.injEq] at h
        subst h
        rw [getElem?_cons_succ]
        exact ih hbound

lemma Var.locate_of_nodup (hnodup : stack.Nodup) (h : stack[i]? = some v) :
    v.locate stack = .bound i := by
  rcases v.locate_cases stack with ⟨_, hnot⟩ | ⟨j, hbound, _⟩
  · exact (hnot (mem_of_getElem? h)).elim
  · have hj := getElem?_of_locate hbound
    have hij : j = i := by
      have hjlt := (List.getElem?_eq_some_iff.1 hj).1
      exact (getElem?_inj hjlt hnodup).1 (hj.trans h.symm)
    rw [hbound, hij]

/-- Renaming the fields of one branch to those of another is undone by going
under the binders again. -/
lemma Term.nameless_fieldRenaming (ht : t.Over (S.bind others))
    (hlen : fields.length = others.length) (hnodup : fields.Nodup)
    (hfresh : ∀ x, S.vars x → x ∉ fields) :
    ((t.nameless []).fill (Env.fieldRenaming fields others).filling).fill
      (.close fields.reverse) = t.nameless others.reverse := by
  rw [Nameless.fill_fill]
  refine t.nameless_fill ht fun x hx => ?_
  have hvars : others.length = (fields.map var).length := by simpa using hlen.symm
  have hpairs := locate_ofPairs hvars x
  rw [← Nameless.fill_fill, Env.fieldRenaming, ← hpairs]
  rcases x.locate_cases others.reverse with ⟨hfree, hnot⟩ | ⟨i, hbound, _⟩
  · rw [hfree]
    have hmem : x ∉ fields := hfresh x (hx.resolve_left (by simpa using hnot))
    rcases x.locate_cases fields.reverse with ⟨hfree', _⟩ | ⟨_, _, hmem'⟩
    · exact hfree'
    · exact (hmem (by simpa using hmem')).elim
  · have hi := Var.getElem?_of_locate hbound
    have hlt : i < fields.reverse.length := by
      have := (List.getElem?_eq_some_iff.1 hi).1
      simp only [length_reverse] at this ⊢
      omega
    have hlocate := Var.locate_of_nodup (nodup_reverse.2 hnodup) (getElem?_eq_getElem hlt)
    have hvalue : ((fields.map var).map (nameless [])).reverse[i]? =
        some (.free fields.reverse[i]) := by
      rw [map_map, ← map_reverse, getElem?_map, getElem?_eq_getElem hlt]
      rfl
    rw [hbound]
    simp only [Nameless.fill, Filling.values, getD_eq_getElem?_getD, hvalue, Option.getD_some]
    exact hlocate

namespace Env

lemma fieldRenaming_one (v w : Var) : fieldRenaming [v] [w] = single w (.var v) := rfl

lemma image_fieldRenaming (hlen : fields.length = others.length) (x : Var) :
    (∃ v ∈ fields, (fieldRenaming fields others).image x = .var v) ∨
      (fieldRenaming fields others).image x = .var x ∧ x ∉ others := by
  have hvars : others.length = (fields.map var).length := by simpa using hlen.symm
  rcases image_ofPairs hvars x with ⟨hmem, _⟩ | hnot
  · obtain ⟨v, hv, himage⟩ := mem_map.1 hmem
    exact .inl ⟨v, hv, himage.symm⟩
  · exact .inr hnot

end Env

/-- Two stocks of binders for terms with the same variables in scope. -/
structure Apart (X P Q : Var → Prop) (n : Nat) : Prop where
  scope : ∀ x, X x → x.id < n
  left : ∀ x, P x → x.id < n
  right : ∀ x, Q x → x.id < n
  disjoint : ∀ x, P x → ¬ Q x

namespace Apart

variable {X P Q : Var → Prop} {n : Nat} (h : Apart X P Q n)

include h

lemma symm : Apart X Q P n :=
  ⟨h.scope, h.right, h.left, fun x hQ hP => h.disjoint x hP hQ⟩

lemma mono (hnm : n ≤ m) : Apart X P Q m :=
  ⟨fun x hx => lt_of_lt_of_le (h.scope x hx) hnm,
    fun x hx => lt_of_lt_of_le (h.left x hx) hnm,
    fun x hx => lt_of_lt_of_le (h.right x hx) hnm, h.disjoint⟩

lemma behindLeft : Behind ⟨X, P, False⟩ n := ⟨h.scope, h.left⟩

lemma behindRight : Behind ⟨X, Q, False⟩ n := ⟨h.scope, h.right⟩

lemma takeLeft (hnm : n ≤ m) : Apart X (fun x => P x ∨ Var.Taken n m x) Q m where
  scope := (h.mono hnm).scope
  left x hx := hx.elim ((h.mono hnm).left x) And.right
  right := (h.mono hnm).right
  disjoint x hx hQ := by
    rcases hx with hP | htaken
    · exact h.disjoint x hP hQ
    · have := h.right x hQ
      have := htaken.1
      omega

lemma takeRight (hnm : n ≤ m) :
    Apart X P (fun x => Q x ∨ Var.Taken n m x) m := (h.symm.takeLeft hnm).symm

lemma bindLeft {vs : List Var} (hvs : ∀ v ∈ vs, P v) : Apart (fun x => x ∈ vs ∨ X x) P Q n :=
  ⟨fun x hx => hx.elim (fun hv => h.left x (hvs x hv)) (h.scope x), h.left, h.right, h.disjoint⟩

lemma weakenRight (hv : P v) (hu : u.Tidy ⟨X, Q, False⟩) :
    u.Tidy ⟨fun x => x ∈ [v] ∨ X x, Q, False⟩ := by
  have hle : Le ⟨X, Q, False⟩ ⟨fun x => x ∈ [v] ∨ X x, Q, False⟩ := by
    refine .of_scope (fun x hx => Or.inr hx) (fun _ hx => hx) id fun x hx hQ => ?_
    rcases hx with hmem | hx
    · obtain rfl : x = v := by simpa using hmem
      exact (h.disjoint x hv hQ).elim
    · exact .inl hx
  exact hu.mono hle

lemma fieldRenaming (hfields : ∀ v ∈ fields, P v) (hlen : fields.length = others.length)
    (ht : t.Tidy (bind others ⟨X, Q, False⟩)) :
    (((Env.fieldRenaming fields others).apply t).value n).Tidy
      ⟨fun x => x ∈ fields ∨ X x,
        fun x => Q x ∨ Var.Taken n (((Env.fieldRenaming fields others).apply t).next n) x,
        False⟩ := by
  have hbehind : Behind ⟨fun x => x ∈ fields ∨ X x, Q, False⟩ n :=
    (h.bindLeft hfields).behindRight
  refine apply_tidy (H := ⟨fun x => x ∈ fields ∨ X x, Q, False⟩) (fun x hx => ?_) hbehind
    ht.over fun hempty => ?_
  · rcases Env.image_fieldRenaming hlen x with ⟨v, hv, himage⟩ | ⟨himage, hnot⟩
    · rw [himage]
      exact .inl hv
    · rw [himage]
      exact .inr (hx.resolve_left hnot)
  · have hvars : others.length = (fields.map var).length := by simpa using hlen.symm
    have hothers := fields_eq_nil hvars hempty
    subst hothers
    obtain rfl : fields = [] := length_eq_zero_iff.1 hlen
    exact ht

end Apart

/-! ### Convertible terms are equal -/

namespace Env

open Nameless (Equal)

variable {env : Env}

lemma equal_under (h : Apart X P Q n) {body : Term} (hlen : fields.length = others.length)
    (hfields : ∀ v ∈ fields, P v ∧ ¬ X v) (hnodup : fields.Nodup)
    (hbody : body.Over (bind fields { vars := X }))
    (hbody' : body'.Over (bind others { vars := X }))
    (heq : Equal R (body.nameless [])
      ((((fieldRenaming fields others).apply body').value n).nameless [])) :
    Equal R (body.nameless fields.reverse) (body'.nameless others.reverse) := by
  have hbelow : ∀ x, (bind others { vars := X }).vars x →
      ((fieldRenaming fields others).image x).Over (.below n) := by
    intro x hx
    rcases image_fieldRenaming hlen x with ⟨v, hv, himage⟩ | ⟨himage, hnot⟩
    · rw [himage]
      exact h.left v (hfields v hv).1
    · rw [himage]
      exact h.scope x (hx.resolve_left hnot)
  rw [nameless_apply hbelow hbody'] at heq
  have hclose := heq.fill (.close fields.reverse)
  rwa [nameless_close hbody, nameless_fieldRenaming hbody' hlen hnodup
    fun x hx hmem => (hfields x hmem).2 hx] at hclose

/-- What conversion finds with some fuel is right. -/
def SoundAt (env : Env) (hclosed : env.Closed) (fuel : Nat) : Prop :=
  ∀ ⦃t u : Term⦄ ⦃n m : Nat⦄ ⦃X P Q : Var → Prop⦄, Apart X P Q n →
    t.Tidy ⟨X, P, False⟩ → u.Tidy ⟨X, Q, False⟩ →
    Returns (env.convertibleWith fuel t u) n true m →
    Equal (env.rules hclosed) (t.nameless []) (u.nameless []) ∧ n ≤ m

def BranchesSoundAt (env : Env) (hclosed : env.Closed) (fuel : Nat) : Prop :=
  ∀ ⦃bs bs' : Branches⦄ ⦃n m : Nat⦄ ⦃X P Q : Var → Prop⦄, Apart X P Q n →
    bs.Tidy ⟨X, P, False⟩ → bs'.Tidy ⟨X, Q, False⟩ → bs.length = bs'.length →
    Returns (env.convertibleBranches fuel bs bs') n true m →
    Equal (env.rules hclosed) (bs.nameless []) (bs'.nameless []) ∧ n ≤ m

variable {fuel : Nat}

lemma SoundAt.bodies (hsound : SoundAt env hclosed fuel) (h : Apart X P Q n)
    (hlen : fields.length = others.length) (hfields : ∀ v ∈ fields, P v ∧ (X v → False))
    (hnodup : fields.Nodup) (hbody : body.Tidy (bind fields ⟨X, P, False⟩))
    (hbody' : body'.Tidy (bind others ⟨X, Q, False⟩))
    (hrun : Returns (env.convertibleWith fuel body
      (((fieldRenaming fields others).apply body').value n))
      (((fieldRenaming fields others).apply body').next n) true m) :
    Equal (env.rules hclosed) (body.nameless fields.reverse) (body'.nameless others.reverse) ∧
      n ≤ m := by
  have hnext := apply_next (fieldRenaming fields others) body' n
  have hP : ∀ v ∈ fields, P v := fun v hv => (hfields v hv).1
  obtain ⟨hequal, hm⟩ := hsound ((h.bindLeft hP).takeRight hnext) hbody
    (h.fieldRenaming hP hlen hbody') hrun
  exact ⟨equal_under h hlen hfields hnodup hbody.over hbody'.over hequal, hnext.trans hm⟩

lemma SoundAt.body (hsound : SoundAt env hclosed fuel) (h : Apart X P Q n) {body : Term}
    (hv : Fits ⟨X, P, False⟩ v) (hw : Fits ⟨X, Q, False⟩ w)
    (hbody : body.Tidy (bind [v] ⟨X, P, False⟩))
    (hbody' : body'.Tidy (bind [w] ⟨X, Q, False⟩))
    (hrun : Returns (env.convertibleWith fuel body ((body'.rename w v).value n))
      ((body'.rename w v).next n) true m) :
    Equal (env.rules hclosed) (body.nameless [v]) (body'.nameless [w]) ∧ n ≤ m := by
  have hne : w ≠ v := fun he => h.disjoint v hv.1 (he ▸ hw.1)
  rw [rename, if_neg hne, ← fieldRenaming_one] at hrun
  have hlen : [v].length = [w].length := rfl
  exact hsound.bodies h hlen
    (fun x hx => mem_singleton.1 hx ▸ hv) (nodup_singleton v) hbody hbody' hrun

lemma equal_eta (hv : Fits ⟨X, P, False⟩ v)
    (hbody : body.Tidy (bind [v] ⟨X, P, False⟩)) (hu : u.Tidy ⟨X, Q, False⟩)
    (hequal : Equal (env.rules hclosed) (body.nameless []) ((app u (.var v)).nameless [])) :
    Equal (env.rules hclosed) ((lam v dom body).nameless []) (u.nameless []) := by
  have hover : (app u (.var v)).Over (bind [v] { vars := X }) :=
    ⟨hu.over.mono (le_bind _ _), .inl (by simp)⟩
  have hclose := hequal.fill (.close [v])
  rw [nameless_close hbody.over, nameless_close hover] at hclose
  have hshift : u.nameless [v] = (u.nameless []).shift 1 := nameless_cons hu.over hv.2
  simp only [nameless, hshift, Var.locate_cons_eq] at hclose
  exact (hclose.lam _ _).trans (Nameless.Equal.eta _ (dom.nameless [])).symm

lemma SoundAt.compared (hsound : SoundAt env hclosed fuel)
    (hbranches : BranchesSoundAt env hclosed fuel) (h : Apart X P Q n) (ht : t.Tidy ⟨X, P, False⟩)
    (hu : u.Tidy ⟨X, Q, False⟩) (hcmp : Compared env fuel t u n true m) :
    Equal (env.rules hclosed) (t.nameless []) (u.nameless []) ∧ n ≤ m := by
  cases hcmp with
  | univ => exact ⟨.refl _, le_rfl⟩
  | var _ hb | global _ hb =>
    have heq := beq_iff_eq.1 hb.symm
    exact ⟨.of_eq (by rw [heq]), le_rfl⟩
  | pi hdom hcod =>
    obtain ⟨hdom', hk⟩ := hsound h ht.2.1 hu.2.1 hdom
    obtain ⟨hcod', hm⟩ := hsound.body (h.mono hk) ht.1 hu.1 ht.2.2 hu.2.2 hcod
    exact ⟨hdom'.pi hcod', hk.trans hm⟩
  | lam hbody =>
    obtain ⟨hbody', hm⟩ := hsound.body h ht.1 hu.1 ht.2.2 hu.2.2 hbody
    exact ⟨hbody'.lam _ _, hm⟩
  | @etaLeft v dom body _ _ _ _ _ hbody =>
    have hv : ∀ x ∈ [v], P x := fun x hx => mem_singleton.1 hx ▸ ht.1.1
    obtain ⟨hbody', hm⟩ := hsound (u := .app u (.var v)) (h.bindLeft hv) ht.2.2
      ⟨h.weakenRight ht.1.1 hu, .inl (by simp)⟩ hbody
    exact ⟨equal_eta ht.1 ht.2.2 hu hbody', hm⟩
  | @etaRight v dom body _ _ _ _ _ hbody =>
    have hv : ∀ x ∈ [v], Q x := fun x hx => mem_singleton.1 hx ▸ hu.1.1
    obtain ⟨hbody', hm⟩ := hsound (t := .app t (.var v)) (h.symm.bindLeft hv).symm
      ⟨h.symm.weakenRight hu.1.1 ht, .inl (by simp)⟩ hu.2.2 hbody
    exact ⟨(equal_eta hu.1 hu.2.2 ht hbody'.symm).symm, hm⟩
  | app hhead harg =>
    obtain ⟨hhead', hk⟩ := hsound h ht.1 hu.1 hhead
    obtain ⟨harg', hm⟩ := hsound (h.mono hk) ht.2 hu.2 harg
    exact ⟨hhead'.app harg', hk.trans hm⟩
  | case hscrut hlen hbs =>
    obtain ⟨hscrut', hk⟩ := hsound h ht.1 hu.1 hscrut
    obtain ⟨hbs', hm⟩ := hbranches (h.mono hk) ht.2 hu.2 hlen hbs
    exact ⟨hscrut'.case hbs', hk.trans hm⟩
  | @absurd t u _ _ _ hscrut =>
    obtain ⟨hscrut', hm⟩ := hsound (t := t) (u := u) h ht hu hscrut
    exact ⟨hscrut'.absurd, hm⟩

lemma SoundAt.step (hfresh : env.FreshBodies) (hsound : SoundAt env hclosed fuel)
    (hbranches : BranchesSoundAt env hclosed fuel) : SoundAt env hclosed (fuel + 1) := by
  intro t u n m X P Q h ht hu hrun
  rcases convertibleWith_inv hrun with ⟨rfl, _, rfl⟩ | ⟨t', u', j, k, hwt, hwu, hcmp⟩
  · exact ⟨.refl _, le_rfl⟩
  · have hj := (Whnf.of_whnf hwt).next
    have hk := (Whnf.of_whnf hwu).next
    have htsteps := (whnf_reduct (agrees_rules hclosed X) h.scope ht.over hwt).steps
    have husteps := (whnf_reduct (agrees_rules hclosed X) (h.mono hj).scope hu.over hwu).steps
    obtain ⟨hequal, hm⟩ := hsound.compared hbranches ((h.takeLeft hj).takeRight hk)
      (whnf_tidy hclosed hfresh h.behindLeft ht hwt)
      (whnf_tidy hclosed hfresh (h.mono hj).behindRight hu hwu) hcmp
    exact ⟨(htsteps.equal.trans hequal).trans husteps.equal.symm, by omega⟩

lemma BranchesSoundAt.step (hsound : SoundAt env hclosed fuel)
    (hbranches : BranchesSoundAt env hclosed fuel) : BranchesSoundAt env hclosed (fuel + 1) := by
  intro bs bs' n m X P Q h hbs hbs' hlen hrun
  cases bs with
  | nil =>
    cases bs' with
    | nil =>
      simp only [convertibleBranches, returns_pure] at hrun
      exact ⟨.refl _, le_of_eq hrun.2⟩
    | cons => simp [Branches.length, Branches.toList] at hlen
  | cons c fields body rest =>
    cases bs' with
    | nil => simp [Branches.length, Branches.toList] at hlen
    | cons d others body' rest' =>
      rw [convertibleBranches] at hrun
      split at hrun
      · next hsame =>
          simp only [Bool.and_eq_true, beq_iff_eq] at hsame
          obtain ⟨rfl, hfields⟩ := hsame
          simp only [returns_bind, returns_lift] at hrun
          obtain ⟨_, _, ⟨rfl, rfl⟩, b, k, hbody, hrun⟩ := hrun
          cases b with
          | false => simp at hrun
          | true =>
            obtain ⟨hbody', hk⟩ := hsound.bodies h hfields (fun v hv => hbs.1 v hv)
              (hbs.2.1.resolve_right id) hbs.2.2.1 hbs'.2.2.1 hbody
            obtain ⟨hrest, hm⟩ := hbranches (h.mono hk) hbs.2.2.2 hbs'.2.2.2
              (by simpa [Branches.length, Branches.toList] using hlen) hrun
            refine ⟨?_, hk.trans hm⟩
            simp only [Branches.nameless, append_nil, ← hfields]
            exact .arm c fields.length hbody' hrest
      · simp at hrun

/-- Accepted terms are equal, by induction on the fuel. -/
lemma soundAt (hclosed : env.Closed) (hfresh : env.FreshBodies) (fuel : Nat) :
    SoundAt env hclosed fuel ∧ BranchesSoundAt env hclosed fuel := by
  induction fuel with
  | zero =>
    refine ⟨fun _ _ _ _ _ _ _ _ _ _ h => ?_, fun _ _ _ _ _ _ _ _ _ _ _ h => ?_⟩
    · simp [convertibleWith] at h
    · simp [convertibleBranches] at h
  | succ fuel ih => exact ⟨SoundAt.step hfresh ih.1 ih.2, BranchesSoundAt.step ih.1 ih.2⟩

/-- Convertible terms that share no binders are equal by computation. -/
lemma equal_of_convertible (hclosed : env.Closed) (hfresh : env.FreshBodies) (h : Apart X P Q n)
    (ht : t.Tidy ⟨X, P, False⟩) (hu : u.Tidy ⟨X, Q, False⟩)
    (hrun : Returns (env.convertible t u) n true m) :
    Equal (env.rules hclosed) (t.nameless []) (u.nameless []) :=
  ((soundAt hclosed hfresh env.fuel).1 h ht hu hrun).1

end Env
end Clausal
