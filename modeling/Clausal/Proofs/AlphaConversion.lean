import Clausal.Proofs.NormalForms
import Clausal.Proofs.Unifier

/-!
# Terms equal up to bound variables are convertible

Reduction is evaluation of forms, so terms of one form reduce to terms of one form,
and their parts have one form again once their binders have the same names.

Whether two terms are noticed to be one may depend on how they are stored; `Sharing`
says where it is noticed.
-/

namespace Clausal

open Branches Eval List Subst Term

variable {t u : Term} {b : Bool}

/-! ### Terms of one form -/

/-- Two terms of one form, part by part. -/
inductive Term.Alike : Term → Term → Prop
  | univ : Alike .univ .univ
  | var (v : Var) : Alike (.var v) (.var v)
  | global (g : Name) : Alike (.global g) (.global g)
  | pi {v w : Var} {dom cod dom' cod' : Term} : dom.nameless [] = dom'.nameless [] →
      cod.nameless [v] = cod'.nameless [w] → Alike (.pi v dom cod) (.pi w dom' cod')
  | lam {v w : Var} {dom body dom' body' : Term} : body.nameless [v] = body'.nameless [w] →
      Alike (.lam v dom body) (.lam w dom' body')
  | app {f a f' a' : Term} : f.nameless [] = f'.nameless [] → a.nameless [] = a'.nameless [] →
      Alike (.app f a) (.app f' a')
  | ann (t type t' type' : Term) : Alike (.ann t type) (.ann t' type')
  | case {scrut scrut' : Term} {bs bs' : Branches} : scrut.nameless [] = scrut'.nameless [] →
      bs.nameless [] = bs'.nameless [] → Alike (.case scrut bs) (.case scrut' bs')
  | absurd {t t' : Term} : t.nameless [] = t'.nameless [] → Alike (.absurd t) (.absurd t')

lemma Term.alike_of_nameless_eq (h : t.nameless [] = u.nameless []) : t.Alike u := by
  cases t <;> cases u <;>
    simp only [nameless, Var.locate, reduceCtorEq, Nameless.free.injEq,
      Nameless.global.injEq, Nameless.pi.injEq, Nameless.lam.injEq, Nameless.app.injEq,
      Nameless.ann.injEq, Nameless.case.injEq, Nameless.absurd.injEq] at h
  case univ.univ => exact .univ
  case var.var => exact h ▸ .var _
  case global.global => exact h ▸ .global _
  case pi.pi => exact .pi h.1 h.2
  case lam.lam => exact .lam h.2
  case app.app => exact .app h.1 h.2
  case ann.ann => exact .ann _ _ _ _
  case case.case => exact .case h.1 h.2
  case absurd.absurd => exact .absurd h

lemma Branches.nameless_cons_inj
    (h : (cons c fields body rest).nameless [] =
      (cons d others body' rest').nameless []) :
    c = d ∧ fields.length = others.length ∧
      body.nameless fields.reverse = body'.nameless others.reverse ∧
      rest.nameless [] = rest'.nameless [] := by
  simpa [nameless] using h

lemma Branches.length_eq_of_nameless {bs bs' : Branches} (h : bs.nameless [] = bs'.nameless []) :
    bs.length = bs'.length := by
  cases bs with
  | nil =>
    cases bs' with
    | nil => rfl
    | cons => simp [nameless] at h
  | cons c fields body rest =>
    cases bs' with
    | nil => simp [nameless] at h
    | cons d others body' rest' =>
      exact congrArg (· + 1) (length_eq_of_nameless (nameless_cons_inj h).2.2.2)

/-! ### Binders of one name -/

lemma Term.nameless_instantiate_self (t : Term) (vs : List Var) :
    (t.nameless vs.reverse).instantiate ((vs.map var).map (nameless [])).reverse =
      t.nameless [] := by
  have hany : t.Over { vars := fun _ => True } :=
    t.over_any (fun _ => trivial) (fun _ => trivial) trivial
  refine t.nameless_fill hany fun x _ => ?_
  rcases x.locate_cases vs.reverse with ⟨hfree, -⟩ | ⟨i, hbound, -⟩
  · rw [hfree]
    rfl
  · have hvalue : ((vs.map var).map (nameless [])).reverse[i]? = some (.free x) := by
      rw [map_map, ← map_reverse, getElem?_map, Var.getElem?_of_locate hbound]
      rfl
    rw [hbound]
    simp only [Nameless.fill, Filling.values, getD_eq_getElem?_getD, hvalue, Option.getD_some]
    rfl

/-- Bodies of one form have one form once the fields have the same names. -/
lemma Term.nameless_fieldRenaming_eq {body : Term} (hbody' : body'.AllBelow n)
    (hfields : ∀ v ∈ fields, v.id < n) (hlen : fields.length = others.length)
    (h : body.nameless fields.reverse = body'.nameless others.reverse) :
    body.nameless [] =
      (((Env.fieldRenaming fields others).apply body').value n).nameless [] := by
  have hvars : ∀ a ∈ fields.map var, a.Over (.below n) := by
    intro a ha
    obtain ⟨v, hv, rfl⟩ := mem_map.1 ha
    exact hfields v hv
  have hlen' : others.length = (fields.map var).length := by
    rw [length_map]
    exact hlen.symm
  have hover := hbody'.over.mono (Reach.le_bind (.below n) others)
  rw [Env.fieldRenaming, nameless_fields hover hvars hlen', ← h, nameless_instantiate_self]

lemma Term.allBelow_fieldRenaming (ht : t.AllBelow n) (hfields : ∀ v ∈ fields, v.id < n) :
    (((Env.fieldRenaming fields others).apply t).value n).AllBelow
      (((Env.fieldRenaming fields others).apply t).next n) := by
  refine apply_allBelow (fun x u hx => ?_) ht
  obtain ⟨v, hv, rfl⟩ := mem_map.1 (of_mem_zip (get?_ofPairs hx)).2
  exact hfields v hv

section

variable {v : Var} {body body' : Term}

lemma Term.nameless_single_eq (hbody' : body'.AllBelow n) (hv : v.id < n)
    (h : body.nameless [v] = body'.nameless [w]) :
    body.nameless [] = (((single w (.var v)).apply body').value n).nameless [] ∧
      (((single w (.var v)).apply body').value n).AllBelow
        (((single w (.var v)).apply body').next n) := by
  have hfields : ∀ x ∈ [v], x.id < n := fun x hx => mem_singleton.1 hx ▸ hv
  rw [← Env.fieldRenaming_one]
  exact ⟨nameless_fieldRenaming_eq hbody' hfields rfl h, allBelow_fieldRenaming hbody' hfields⟩

lemma Term.nameless_rename_eq (hbody' : body'.AllBelow n) (hv : v.id < n)
    (h : body.nameless [v] = body'.nameless [w]) :
    body.nameless [] = ((body'.rename w v).value n).nameless [] ∧
      ((body'.rename w v).value n).AllBelow ((body'.rename w v).next n) := by
  unfold rename
  split
  next hwv =>
    subst hwv
    have hself := congrArg (Nameless.instantiate · [(var w).nameless []]) h
    exact ⟨(body.nameless_instantiate_self [w]).symm.trans
      (hself.trans (body'.nameless_instantiate_self [w])), hbody'⟩
  next => exact nameless_single_eq hbody' hv h

end

/-! ### Conversion and shared terms -/

/-- Where a comparison notices that its two terms are one.  Places are the ways to comparisons. -/
abbrev Sharing := List Nat → Bool

/-- The places below the `i`th part. -/
def Sharing.below (shared : Sharing) (i : Nat) : Sharing := fun place => shared (i :: place)

namespace Env

mutual

/-- Conversion to a given depth that passes over equal terms only where they are shared. -/
def convertibleSharing (env : Env) : (fuel : Nat) → Sharing → Term → Term → Eval Bool
  | 0, _, _, _ => outOfFuel
  | fuel + 1, shared, t, u =>
    if t = u ∧ shared [] = true then return true
    else do
      let t ← env.whnf t
      let u ← env.whnf u
      match t, u with
      | .univ, .univ => return true
      | .var v, .var w => return v == w
      | .global a, .global b => return a == b
      | .pi v dom cod, .pi w dom' cod' =>
        if ← convertibleSharing env fuel (shared.below 0) dom dom' then
          let cod' ← cod'.rename w v
          convertibleSharing env fuel (shared.below 1) cod cod'
        else
          return false
      | .lam v _ body, .lam w _ body' =>
        let body' ← body'.rename w v
        convertibleSharing env fuel (shared.below 0) body body'
      | .lam v _ body, u => convertibleSharing env fuel (shared.below 0) body (.app u (.var v))
      | t, .lam v _ body => convertibleSharing env fuel (shared.below 0) (.app t (.var v)) body
      | .app head arg, .app head' arg' =>
        if ← convertibleSharing env fuel (shared.below 0) head head' then
          convertibleSharing env fuel (shared.below 1) arg arg'
        else
          return false
      | .case scrut bs, .case scrut' bs' =>
        if ← convertibleSharing env fuel (shared.below 0) scrut scrut' then
          if bs.length = bs'.length then
            convertibleBranchesSharing env fuel (shared.below 1) bs bs'
          else return false
        else
          return false
      | .absurd t, .absurd u => convertibleSharing env fuel (shared.below 0) t u
      | _, _ => return false

def convertibleBranchesSharing (env : Env) :
    (fuel : Nat) → Sharing → Branches → Branches → Eval Bool
  | 0, _, _, _ => outOfFuel
  | fuel + 1, shared, .cons c fields body rest, .cons d fields' body' rest' =>
    if c == d && fields.length == fields'.length then do
      let body' ← (fieldRenaming fields fields').apply body'
      if ← convertibleSharing env fuel (shared.below 0) body body' then
        convertibleBranchesSharing env fuel (shared.below 1) rest rest'
      else
        return false
    else
      return false
  | _ + 1, _, _, _ => return true

end

/-- Conversion passes over all equal terms. -/
lemma convertibleSharing_everywhere (env : Env) (fuel : Nat) :
    (∀ t u, env.convertibleSharing fuel (fun _ => true) t u = env.convertibleWith fuel t u) ∧
      ∀ bs ds, env.convertibleBranchesSharing fuel (fun _ => true) bs ds =
        env.convertibleBranches fuel bs ds := by
  induction fuel with
  | zero => exact ⟨fun _ _ => rfl, fun _ _ => rfl⟩
  | succ fuel ih =>
    obtain ⟨hterm, hbranches⟩ := ih
    have hbelow (i : Nat) : Sharing.below (fun _ => true) i = fun _ => true := rfl
    refine ⟨fun t u => ?_, fun bs ds => ?_⟩
    · rw [convertibleSharing, convertibleWith]
      by_cases h : t = u
      · rw [if_pos ⟨h, rfl⟩, if_pos h]
      · rw [if_neg fun hboth => h hboth.1, if_neg h]
        refine bind_congr fun t => bind_congr fun u => ?_
        cases t <;> cases u <;> first | rfl | simp only [hbelow, hterm, hbranches]
    · cases bs with
      | nil => rfl
      | cons c fields body rest =>
        cases ds with
        | nil => rfl
        | cons d fields' body' rest' =>
          rw [convertibleBranchesSharing, convertibleBranches]
          simp only [hbelow, hterm, hbranches]

/-! ### Terms of one form are never told apart -/

variable {env : Env} {hclosed : env.Closed} {n m fuel : Nat}

/-- Terms of one form reduce to terms of one form, and not to annotations. -/
lemma whnf_alike (hclosed : env.Closed) (ht : t.AllBelow n) (hu : u.AllBelow n)
    (h : t.nameless [] = u.nameless []) (hrunt : Returns (env.whnf t) n t' j)
    (hrunu : Returns (env.whnf u) j u' k) : t'.Alike u' ∧ ∀ x type, t' ≠ .ann x type := by
  have hj := env.whnf_forward t hrunt
  have hformt := whnf_form hclosed ht.over
  have hformu := whnf_form hclosed (hu.mono hj).over
  rw [form?_of_returns hrunt] at hformt
  rw [form?_of_returns hrunu, ← h] at hformu
  refine ⟨alike_of_nameless_eq (Option.some.inj (hformt.trans hformu.symm)), ?_⟩
  rintro x type rfl
  have hrests := Nameless.eval_rests hformt.symm
  cases hfuel : env.fuel <;> rw [hfuel] at hrests <;> exact hrests.elim

/-- What is shown by induction on the depth. -/
structure AcceptsAt (env : Env) (n₀ fuel : Nat) : Prop where
  term : ∀ {shared : Sharing} {t u : Term} {n m : Nat} {b : Bool}, n₀ ≤ n → t.AllBelow n →
    u.AllBelow n → t.nameless [] = u.nameless [] →
    Returns (env.convertibleSharing fuel shared t u) n b m → b = true ∧ n ≤ m
  branches : ∀ {shared : Sharing} {bs ds : Branches} {n m : Nat} {b : Bool}, n₀ ≤ n →
    bs.AllBelow n → ds.AllBelow n → bs.nameless [] = ds.nameless [] →
    Returns (env.convertibleBranchesSharing fuel shared bs ds) n b m → b = true ∧ n ≤ m

namespace AcceptsAt

variable (h : env.AcceptsAt n₀ fuel)

include h

lemma two {next : Eval Bool} (hn : n₀ ≤ n) (ht : t.AllBelow n)
    (hu : u.AllBelow n)
    (htu : t.nameless [] = u.nameless [])
    (hnext : ∀ {k}, n ≤ k → Returns next k b m → b = true ∧ k ≤ m)
    (hrun : Returns (do if ← env.convertibleSharing fuel shared t u then next else return false) n b
      m) : b = true ∧ n ≤ m := by
  obtain ⟨same, k, hsame, hrun⟩ := returns_bind.1 hrun
  obtain ⟨rfl, hk⟩ := h.term hn ht hu htu hsame
  obtain ⟨hb, hm⟩ := hnext hk hrun
  exact ⟨hb, hk.trans hm⟩

lemma body (hn : n₀ ≤ n) (hv : v.id < n) (ht : t.AllBelow n)
    (hu : u.AllBelow n) (htu : t.nameless [v] = u.nameless [w])
    (hrun : Returns (do let u ← u.rename w v; env.convertibleSharing fuel shared t u) n b m) :
    b = true ∧ n ≤ m := by
  simp only [returns_bind, returns_lift] at hrun
  obtain ⟨_, _, ⟨rfl, rfl⟩, hrun⟩ := hrun
  have hk := u.rename_next w v n
  obtain ⟨hform, hbelow⟩ := nameless_rename_eq hu hv htu
  obtain ⟨hb, hm⟩ := h.term (by omega) (ht.mono hk) hbelow hform hrun
  exact ⟨hb, hk.trans hm⟩

lemma succ_term (hclosed : env.Closed) (hbodies : env.BodiesBelow n₀)
    (hn : n₀ ≤ n) (ht : t.AllBelow n) (hu : u.AllBelow n) (htu : t.nameless [] = u.nameless [])
    (hrun : Returns (env.convertibleSharing (fuel + 1) shared t u) n b m) : b = true ∧ n ≤ m := by
  rw [convertibleSharing] at hrun
  split at hrun
  · obtain ⟨rfl, rfl⟩ := returns_pure.1 hrun
    exact ⟨rfl, le_rfl⟩
  · simp only [returns_bind] at hrun
    obtain ⟨t', j, hrunt, u', k, hrunu, hrun⟩ := hrun
    obtain ⟨halike, hann⟩ := whnf_alike hclosed ht hu htu hrunt hrunu
    have hj := env.whnf_forward t hrunt
    have hk := env.whnf_forward u hrunu
    have ht' := ((Whnf.of_whnf hrunt).allBelow hbodies hn ht (forall_mem_nil _)).mono hk
    have hu' := (Whnf.of_whnf hrunu).allBelow hbodies (by omega) (hu.mono hj) (forall_mem_nil _)
    have hnk : n₀ ≤ k := by omega
    suffices b = true ∧ k ≤ m from ⟨this.1, by omega⟩
    cases halike with
    | univ =>
      obtain ⟨rfl, rfl⟩ := returns_pure.1 hrun
      exact ⟨rfl, le_rfl⟩
    | var v | global v =>
      obtain ⟨rfl, rfl⟩ := returns_pure.1 hrun
      exact ⟨beq_self_eq_true v, le_rfl⟩
    | ann x type => exact (hann x type rfl).elim
    | pi hdom hcod =>
      refine h.two hnk ht'.2.1 hu'.2.1 hdom (fun {i} hi hcods => ?_) hrun
      exact h.body (by omega) (ht'.1.trans_le hi)
        (AllBelow.mono hi ht'.2.2) (AllBelow.mono hi hu'.2.2) hcod hcods
    | lam hbody => exact h.body hnk ht'.1 ht'.2.2 hu'.2.2 hbody hrun
    | app hhead harg =>
      refine h.two hnk ht'.1 hu'.1 hhead (fun {i} hi hargs => ?_) hrun
      exact h.term (by omega) (AllBelow.mono hi ht'.2) (AllBelow.mono hi hu'.2) harg hargs
    | case hscrut hbs =>
      refine h.two hnk ht'.1 hu'.1 hscrut (fun {i} hi hbranches => ?_) hrun
      rw [if_pos (length_eq_of_nameless hbs)] at hbranches
      exact h.branches (by omega) (AllBelow.mono hi ht'.2)
        (AllBelow.mono hi hu'.2) hbs hbranches
    | @absurd t u hscrut => exact h.term (t := t) (u := u) hnk ht' hu' hscrut hrun

lemma succ_branches (hn : n₀ ≤ n)
    (hbs : bs.AllBelow n) (hds : ds.AllBelow n) (heq : bs.nameless [] = ds.nameless [])
    (hrun : Returns (env.convertibleBranchesSharing (fuel + 1) shared bs ds) n b m) :
    b = true ∧ n ≤ m := by
  cases bs with
  | nil =>
    obtain ⟨rfl, rfl⟩ := returns_pure.1 hrun
    exact ⟨rfl, le_rfl⟩
  | cons c fields body rest =>
    cases ds with
    | nil =>
      obtain ⟨rfl, rfl⟩ := returns_pure.1 hrun
      exact ⟨rfl, le_rfl⟩
    | cons d others body' rest' =>
      obtain ⟨rfl, hlen, hbody, hrest⟩ := nameless_cons_inj heq
      rw [convertibleBranchesSharing, if_pos (by simp [hlen])] at hrun
      simp only [returns_bind, returns_lift] at hrun
      obtain ⟨_, _, ⟨rfl, rfl⟩, hrun⟩ := hrun
      have hk := apply_next (fieldRenaming fields others) body' n
      have hform := nameless_fieldRenaming_eq hds.2.1 hbs.1 hlen hbody
      obtain ⟨same, j, hsame, hrun⟩ := hrun
      obtain ⟨rfl, hj⟩ := h.term (by omega) (AllBelow.mono hk hbs.2.1)
        (allBelow_fieldRenaming hds.2.1 hbs.1) hform hsame
      obtain ⟨hb, hm⟩ := h.branches (by omega) (AllBelow.mono (by omega) hbs.2.2)
        (AllBelow.mono (by omega) hds.2.2) hrest hrun
      exact ⟨hb, by omega⟩

end AcceptsAt

/-- Conversion accepts terms of one form, by induction on the depth. -/
lemma acceptsAt (hclosed : env.Closed) (hbodies : env.BodiesBelow n₀) (fuel : Nat) :
    env.AcceptsAt n₀ fuel := by
  induction fuel with
  | zero =>
    refine ⟨fun _ _ _ _ hrun => ?_, fun _ _ _ _ hrun => ?_⟩
    · simp [convertibleSharing] at hrun
    · simp [convertibleBranchesSharing] at hrun
  | succ fuel ih => exact ⟨ih.succ_term hclosed hbodies, ih.succ_branches⟩

lemma convertible_eq_true (hclosed : env.Closed) (hbodies : env.BodiesBelow n) (ht : t.AllBelow n)
    (hu : u.AllBelow n) (h : t.nameless [] = u.nameless [])
    (hrun : Returns (env.convertible t u) n b m) : b = true := by
  rw [convertible, ← (env.convertibleSharing_everywhere env.fuel).1] at hrun
  exact ((acceptsAt hclosed hbodies env.fuel).term (by omega) ht hu h hrun).1

/-- Terms that are equal up to bound variables are convertible, also where equal terms are not
noticed to be one. -/
theorem convertible_of_alphaEq (hclosed : env.Closed) (hbodies : env.BodiesBelow n) {t u : Term}
    (ht : t.AllBelow n) (hu : u.AllBelow n) (h : t.alphaEq u = true) :
    (∀ b m, Returns (env.convertible t u) n b m → b = true) ∧
      ∀ shared b m, Returns (env.convertibleSharing env.fuel shared t u) n b m → b = true := by
  rw [Term.alphaEq_iff] at h
  exact ⟨fun b m hrun => convertible_eq_true hclosed hbodies ht hu h hrun, fun shared b m hrun =>
    ((acceptsAt hclosed hbodies env.fuel).term (by omega) ht hu h hrun).1⟩

end Env

namespace AlphaConversion

open Predecessor (x y k)

def env : Env := Predecessor.env (.var y)

/-- `fun (v : Nat) => case pred v of { zero => v | pair w k => pred k }` -/
def literal (v w : Var) : Term :=
  .lam v (.global "Nat") (.case (.app (.global "pred") (.var v))
    (.cons "zero" [] (.var v) (.cons "pair" [w, k] (.app (.global "pred") (.var k)) .nil)))

/-- Literals with other binders, one of them with a field that hides another: neither split can
be made, and both applications of the function stay folded. -/
theorem literals_convertible :
    env.Closed ∧ env.BodiesBelow 3 ∧ (literal x k).AllBelow 3 ∧ (literal y x).AllBelow 3 ∧
      literal x k ≠ literal y x ∧ (literal x k).alphaEq (literal y x) = true ∧
      (∃ m, Eval.Returns (env.convertible (literal x k) (literal y x)) 3 true m) ∧
      ∃ m, Eval.Returns (env.convertibleSharing env.fuel (fun _ => false) (literal x k)
        (literal y x)) 3 true m := by
  have hclosed : env.Closed := Env.closed_of_closedBodies rfl
  have hbodies : env.BodiesBelow 3 := Env.bodiesBelow (by decide)
  have hx : (literal x k).AllBelow 3 := by decide
  have hy : (literal y x).AllBelow 3 := by decide
  have heq : (literal x k).alphaEq (literal y x) = true := by decide
  have hall := Env.convertible_of_alphaEq hclosed hbodies hx hy heq
  have hrun : (env.convertible (literal x k) (literal y x) 3).isSome = true := by decide +kernel
  have hrun' : (env.convertibleSharing env.fuel (fun _ => false) (literal x k)
      (literal y x) 3).isSome = true := by decide +kernel
  obtain ⟨⟨b, m⟩, hb⟩ := Option.isSome_iff_exists.1 hrun
  obtain ⟨⟨b', m'⟩, hb'⟩ := Option.isSome_iff_exists.1 hrun'
  obtain rfl : b = true := hall.1 b m hb
  obtain rfl : b' = true := hall.2 _ b' m' hb'
  exact ⟨hclosed, hbodies, hx, hy, by decide, heq, ⟨m, hb⟩, m', hb'⟩

end AlphaConversion

end Clausal
