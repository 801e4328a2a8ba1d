import Clausal.Proofs.HeadForms
import Clausal.Proofs.Hygiene
import Clausal.Proofs.Nameless.Tracking

/-!
# Weak-head reduction as evaluation of forms

To every depth, weak-head reduction of a term has a result just when evaluation
of its form has one, and the result is of that form.  A term whose form is at rest
is returned as it is.

Main statements: `Env.whnf_form`, `Env.whnf_of_rests`.
-/

namespace Clausal

open Eval List Nameless Option Reach Subst Term

variable {t f u w : Term} {args : List Term} {branches : Branches}

/-! ### Heads, arguments and arms -/

lemma Term.nameless_unwind (t : Term) (args : List Term) :
    (t.nameless []).unwind (args.map (nameless [])) =
      ((t.spineOnto args).1.nameless [], (t.spineOnto args).2.map (nameless [])) := by
  fun_induction spineOnto t args with
  | case1 head arg args ih => exact ih
  | case2 head args happ =>
    cases head with
    | app f a => exact (happ f a rfl).elim
    | _ => rfl

lemma Term.spineOnto_over (ht : t.Over S) (hargs : ∀ a ∈ args, a.Over S) :
    (t.spineOnto args).1.Over S ∧ ∀ a ∈ (t.spineOnto args).2, a.Over S := by
  rw [← over_apps, apps_spineOnto]
  exact over_apps.2 ⟨ht, hargs⟩

lemma Env.isStuck_form (t : Term) : isStuck t = (t.nameless []).isStuck := by
  rw [isStuck, spine]
  fun_induction spineOnto t [] with
  | case1 head arg args ih => exact ih
  | case2 head args happ =>
    cases head with
    | app f a => exact (happ f a rfl).elim
    | _ => rfl

lemma Branches.isArms_nameless (stack : List Var) (bs : Branches) :
    (bs.nameless stack).isArms = true := by
  cases bs with
  | nil => rfl
  | cons ctor fields body rest => exact rest.isArms_nameless stack

/-! ### Substitution for binders -/

lemma Subst.nameless_single (hbody : body.Over ((below n).bind [v]))
    (harg : arg.Over (.below n)) :
    (((Subst.single v arg).apply body).value n).nameless [] =
      (body.nameless [v]).instantiate [arg.nameless []] := by
  have hbelow : ∀ x, ((below n).bind [v]).vars x →
      ((Subst.single v arg).image x).Over (.below n) := (single_maps v harg).vars
  rw [nameless_apply hbelow hbody, instantiate_single hbody]

lemma Subst.nameless_fields (hbody : body.Over ((below n).bind fields))
    (hargs : ∀ a ∈ args, a.Over (.below n)) (hlen : fields.length = args.length) :
    (((Subst.ofPairs (fields.zip args)).apply body).value n).nameless [] =
      (body.nameless fields.reverse).instantiate (args.map (nameless [])).reverse := by
  have hbelow : ∀ x, ((below n).bind fields).vars x →
      ((Subst.ofPairs (fields.zip args)).image x).Over (.below n) := by
    intro x hx
    rcases image_ofPairs hlen x with ⟨hmem, -⟩ | ⟨himage, hnot⟩
    · exact hargs _ hmem
    · rw [himage]
      exact hx.resolve_left hnot
  rw [nameless_apply hbelow hbody, instantiate_ofPairs hbody hlen]

namespace Env

variable {env : Env} (hclosed : env.Closed)

/-- A case split selects as its form does. -/
lemma matchBranch?_form (hw : w.Over (.below n)) (hbranches : branches.Over (.below n)) :
    (env.matchBranch? w branches).map (fun found => ((found.1.apply found.2).value n).nameless []) =
      select? (env.rules hclosed) (w.nameless []) (branches.nameless []) := by
  cases hmatch : env.matchBranch? w branches with
  | some found =>
    obtain ⟨ctor, args, branch, hspine, hbranch, hparams, hlen, hσ, hbody⟩ :=
      matchBranch?_eq_some hmatch
    obtain ⟨name, rfl, hctor⟩ := ctorSpine?_eq_some hspine
    have hargs : ∀ a ∈ args.drop ctor.numParams, a.Over (.below n) := fun a ha =>
      (over_apps.1 hw).2 a (mem_of_mem_drop ha)
    have harm := Branches.arm?_nameless [] hbranch
    rw [append_nil] at harm
    have hc := (agrees_rules hclosed fun x => x.id < n).ctor trivial hctor
    rw [map_some, hσ, hbody,
      nameless_fields (Branches.over_find? hbranches hbranch) hargs hlen.symm,
      map_drop, eq_comm, select?_eq_some, nameless_apps]
    refine ⟨name, _, _, _, _, _, rfl, hc, harm, ?_, rfl⟩
    rw [length_map, ← hlen, length_drop]
    omega
  | none =>
    symm
    by_contra hsome
    obtain ⟨t, ht⟩ := ne_none_iff_exists'.1 hsome
    obtain ⟨c, name, p, k, args, body, hform, hc, harm, hlen, -⟩ :=
      select?_eq_some.1 ht
    obtain ⟨ts, rfl, rfl⟩ := eq_apps_of_nameless hform
    rw [length_map] at hlen
    exact matchBranch?_of_arm? hclosed hc harm hlen hmatch

/-! ### Depth by depth -/

/-- The form of what a computation returns. -/
def form? (x : Eval Term) (n : Nat) : Option Nameless := (x n).map fun p => p.1.nameless []

lemma form?_of_returns (h : Returns x n u m) : form? x n = some (u.nameless []) := by
  rw [form?, show x n = some (u, m) from h, map_some]

lemma form?_bind (x : Eval α) (f : α → Eval Term) (n : Nat) :
    form? (x >>= f) n = (x n).bind fun p => form? (f p.1) p.2 :=
  Option.map_bind

lemma form?_lift (x : Fresh Term) (f : Term → Eval Term) (n : Nat) :
    form? (liftM x >>= f) n = form? (f (x.value n)) (x.next n) := rfl

/-- What is shown by induction on the depth. -/
structure FormsAt (env : Env) (hclosed : env.Closed) (fuel : Nat) : Prop where
  term : ∀ {t : Term} {n : Nat}, t.Over (.below n) →
    form? (env.whnfWith fuel t) n = eval (env.rules hclosed) fuel (t.nameless [])
  spine : ∀ {f : Term} {args : List Term} {n : Nat}, f.Over (.below n) →
    (∀ a ∈ args, a.Over (.below n)) →
    form? (env.whnfSpine fuel f args) n =
      evalSpine (env.rules hclosed) fuel (f.nameless []) (args.map (nameless []))
  split : ∀ {t : Term} {branches : Branches} {n : Nat}, t.Over (.below n) →
    branches.Over (.below n) →
    (env.reduceCase fuel t branches n).map (fun p => p.1.map (nameless [])) =
      evalCase (env.rules hclosed) fuel (t.nameless []) (branches.nameless [])

section

variable {fuel : Nat}

include hclosed in
lemma whnfWith_over (ht : t.Over (.below n)) (h : Returns (env.whnfWith fuel t) n w m) :
    w.Over (.below m) := by
  have hred := (Whnf.of_whnfWith fuel h).reduct (agrees_rules hclosed fun x => x.id < n)
    (fun _ hx => hx) ht (forall_mem_nil _)
  exact Over.mono (S := .below n) (below_le hred.next) hred.reach

include hclosed in
lemma reduceCase_over (ht : t.Over (.below n)) (hbranches : branches.Over (.below n))
    (h : Returns (env.reduceCase fuel t branches) n (some u) m) : u.Over (.below m) := by
  have hR := agrees_rules hclosed fun x => x.id < n
  obtain ⟨w, k, hw, ⟨σ, body, hmatch, heq, rfl⟩ | ⟨-, heq, -⟩⟩ := Whnf.of_reduceCase fuel h
  · cases heq
    have hred := hw.reduct hR (fun _ hx => hx) ht (forall_mem_nil _)
    have hsel := Reduct.select hR (fun x hx => hx.trans_le hred.next) hred.reach
      hbranches hmatch
    exact Over.mono (S := .below n) (below_le (hred.next.trans hsel.next)) hsel.reach
  · cases heq

namespace FormsAt

variable {hclosed} (h : FormsAt env hclosed fuel)

include h

section

variable (ht : t.Over (.below n))

include ht

lemma succ_split (hbranches : branches.Over (.below n)) :
    (env.reduceCase (fuel + 1) t branches n).map (fun p => p.1.map (nameless [])) =
      evalCase (env.rules hclosed) (fuel + 1) (t.nameless []) (branches.nameless []) := by
  have hterm := h.term ht
  rw [evalCase, if_pos (branches.isArms_nameless []), ← hterm, form?, Option.map_map,
    reduceCase]
  change ((env.whnfWith fuel t n).bind _).map _ = _
  rw [Option.map_bind]
  cases hw : env.whnfWith fuel t n with
  | none => rfl
  | some p =>
    have hover := whnfWith_over hclosed ht (w := p.1) (m := p.2) hw
    have hle : n ≤ p.2 := (Whnf.of_whnfWith fuel (show Returns _ n p.1 p.2 from hw)).next
    have hform := matchBranch?_form hclosed hover (hbranches.mono (below_le hle))
    simp only [bind_some, Function.comp_apply, map_some, ← hform]
    cases env.matchBranch? p.1 branches with
    | none | some => rfl

/-- A case split evaluates to the form of what it reduces to. -/
lemma bind_split (hbranches : branches.Over (.below n))
    {f : Option Term → Eval Term}
    (hf : ∀ o m, n ≤ m → (∀ u, o = some u → u.Over (.below m)) →
      form? (f o) m = f' (o.map (nameless []))) :
    form? (env.reduceCase fuel t branches >>= f) n =
      (evalCase (env.rules hclosed) fuel (t.nameless []) (branches.nameless [])).bind
        f' := by
  rw [form?_bind, ← h.split ht hbranches]
  cases hcase : env.reduceCase fuel t branches n with
  | none => rfl
  | some p =>
    obtain ⟨o, m⟩ := p
    have hle : n ≤ m := by
      obtain ⟨w, k, hw, ⟨σ, body, -, -, rfl⟩ | ⟨-, -, rfl⟩⟩ := Whnf.of_reduceCase fuel hcase
      · exact hw.next.trans (apply_next σ body k)
      · exact hw.next
    refine hf o m hle fun u hu => ?_
    subst hu
    exact reduceCase_over hclosed ht hbranches hcase

lemma unwound (hargs : ∀ a ∈ args, a.Over (.below n)) :
    form? (env.whnfSpine fuel (t.spineOnto args).1 (t.spineOnto args).2) n =
      evalSpine (env.rules hclosed) fuel
        ((t.nameless []).unwind (args.map (nameless []))).1
        ((t.nameless []).unwind (args.map (nameless []))).2 := by
  obtain ⟨hhead, hargs⟩ := spineOnto_over ht hargs
  rw [nameless_unwind]
  exact h.spine hhead hargs

lemma succ_term :
    form? (env.whnfWith (fuel + 1) t) n =
      eval (env.rules hclosed) (fuel + 1) (t.nameless []) := by
  cases t with
  | ann t type => exact h.term ht.1
  | app f a =>
    rw [whnfWith]
    exact h.unwound (t := .app f a) ht (forall_mem_nil _)
  | global g => exact h.spine ht (forall_mem_nil _)
  | case scrut branches =>
    rw [whnfWith, nameless, eval]
    refine h.bind_split ht.2.1 ht.2.2 fun o m _ ho => ?_
    cases o with
    | some u => exact h.term (ho u rfl)
    | none => rfl
  | _ => rfl

end

lemma succ_spine (hf : f.Over (.below n)) (hargs : ∀ a ∈ args, a.Over (.below n)) :
    form? (env.whnfSpine (fuel + 1) f args) n =
      evalSpine (env.rules hclosed) (fuel + 1) (f.nameless [])
        (args.map (nameless [])) := by
  have hreturn : form? (pure (f.apps args)) n =
      some ((f.nameless []).apps (args.map (nameless []))) :=
    congrArg some (nameless_apps [] f args)
  cases f with
  | ann t type => exact h.spine hf.1 hargs
  | app f a =>
    rw [whnfSpine]
    exact h.unwound (t := .app f a) hf hargs
  | lam v dom body =>
    cases args with
    | nil => exact hreturn
    | cons arg args =>
      obtain ⟨harg, hargs⟩ := forall_mem_cons.1 hargs
      have hnext := apply_next (Subst.single v arg) body n
      rw [whnfSpine, form?_lift, map_cons, nameless, evalSpine,
        ← nameless_single hf.2 harg]
      refine h.spine ?_ fun a ha => (hargs a ha).mono (below_le hnext)
      exact (apply_over (single_maps v harg) n hf.2).mono (below_le hnext)
  | case scrut branches =>
    rw [whnfSpine, nameless, evalSpine]
    refine h.bind_split hf.2.1 hf.2.2 fun o m hle ho => ?_
    cases o with
    | some u => exact h.spine (ho u rfl) fun a ha => (hargs a ha).mono (below_le hle)
    | none => exact hreturn
  | global g =>
    have hunfold : (env.rules hclosed).unfold g =
        (env.sig.unfoldable? env.unfold g).map (nameless []) := rfl
    rw [whnfSpine, nameless, evalSpine, hunfold]
    cases hbody : env.sig.unfoldable? env.unfold g with
    | none => exact hreturn
    | some body =>
      -- The body is closed, so it is behind every supply.
      have hle : closed.Le (.below n) :=
        ⟨fun _ hx => False.elim hx, fun _ _ => trivial, fun _ => trivial⟩
      have hover := (hclosed hbody).mono hle
      dsimp only [map_some]
      rw [form?_bind, ← h.spine hover hargs]
      cases hrun : env.whnfSpine fuel body args n with
      | none => simp [form?, hrun]
      | some p =>
        rw [form?_of_returns (u := p.1) (m := p.2) hrun, bind_some, isStuck_form]
        change _ = if _ then _ else _
        split
        · exact hreturn
        · rfl
  | _ => exact hreturn

end FormsAt

end

lemma formsAt (fuel : Nat) : FormsAt env hclosed fuel := by
  induction fuel with
  | zero => exact ⟨fun _ => rfl, fun _ _ => rfl, fun _ _ => rfl⟩
  | succ fuel ih => exact ⟨ih.succ_term, ih.succ_spine, ih.succ_split⟩

/-- Weak-head reduction evaluates the form of a term. -/
lemma whnf_form (ht : t.Over (.below n)) :
    form? (env.whnf t) n = eval (env.rules hclosed) env.fuel (t.nameless []) :=
  (formsAt hclosed env.fuel).term ht

/-! ### Terms at rest -/

variable {fuel : Nat}

lemma reduceCase_of_none (ht : t.Over (.below n)) (hbranches : branches.Over (.below n))
    (h : evalCase (env.rules hclosed) fuel (t.nameless []) (branches.nameless []) =
      some none) :
    ∃ m, Returns (env.reduceCase fuel t branches) n none m := by
  rw [← (formsAt hclosed fuel).split ht hbranches] at h
  obtain ⟨⟨o, m⟩, hcase, hnone⟩ := map_eq_some_iff.1 h
  obtain rfl := map_eq_none_iff.1 hnone
  exact ⟨m, hcase⟩

lemma whnfSpine_of_rests (hf : f.Over (.below n)) (hargs : ∀ a ∈ args, a.Over (.below n))
    (h : RestsSpine (env.rules hclosed) fuel (f.nameless [])
      (args.map (nameless []))) :
    ∃ m, Returns (env.whnfSpine fuel f args) n (f.apps args) m := by
  cases fuel with
  | zero => exact h.elim
  | succ fuel =>
    cases f with
    | ann | app => exact h.elim
    | lam v dom body =>
      obtain rfl : args = [] := map_eq_nil_iff.1 h
      exact ⟨n, rfl⟩
    | case scrut branches =>
      obtain ⟨m, hcase⟩ := reduceCase_of_none hclosed hf.2.1 hf.2.2 h
      refine ⟨m, ?_⟩
      rw [whnfSpine]
      exact returns_bind.2 ⟨none, m, hcase, rfl⟩
    | global g =>
      rw [whnfSpine]
      cases hbody : env.sig.unfoldable? env.unfold g with
      | none => exact ⟨n, rfl⟩
      | some body =>
        have hrule := (agrees_rules hclosed fun x => x.id < n).unfold trivial hbody
        obtain ⟨u, hu, hstuck⟩ := h _ hrule.1
        rw [← (formsAt hclosed fuel).spine (hrule.2.mono (noVars_le _)) hargs] at hu
        obtain ⟨p, hp, rfl⟩ := map_eq_some_iff.1 hu
        refine ⟨p.2, returns_bind.2 ⟨p.1, p.2, hp, ?_⟩⟩
        rw [isStuck_form, if_pos hstuck]
        rfl
    | _ => exact ⟨n, rfl⟩

lemma whnf_of_rests (ht : t.Over (.below n))
    (h : Rests (env.rules hclosed) env.fuel (t.nameless [])) :
    ∃ m, Returns (env.whnf t) n t m := by
  rw [whnf]
  generalize env.fuel = fuel at h
  cases fuel with
  | zero => exact h.elim
  | succ fuel =>
    cases t with
    | ann => exact h.elim
    | app f a =>
      obtain ⟨hhead, hargs⟩ :=
        spineOnto_over (t := .app f a) ht (forall_mem_nil _)
      have hspine : RestsSpine (env.rules hclosed) fuel
          (((app f a).nameless []).unwind ([].map (nameless []))).1
          (((app f a).nameless []).unwind ([].map (nameless []))).2 := h
      rw [nameless_unwind] at hspine
      obtain ⟨m, hm⟩ := whnfSpine_of_rests hclosed hhead hargs hspine
      rw [apps_spineOnto] at hm
      refine ⟨m, ?_⟩
      rw [whnfWith]
      exact hm
    | global g => exact whnfSpine_of_rests hclosed ht (forall_mem_nil _) h
    | case scrut branches =>
      obtain ⟨m, hcase⟩ := reduceCase_of_none hclosed ht.2.1 ht.2.2 h
      refine ⟨m, ?_⟩
      rw [whnfWith]
      exact returns_bind.2 ⟨none, m, hcase, rfl⟩
    | _ => exact ⟨n, rfl⟩

end Env

end Clausal
