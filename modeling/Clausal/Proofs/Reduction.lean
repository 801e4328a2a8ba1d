import Clausal.Proofs.Nameless.Head
import Clausal.Proofs.Substitution
import Clausal.Reduction

/-!
# Weak-head normal forms

`Env.whnf` takes weak-head steps of nameless forms, and no others: a function
that stays folded takes none.  It introduces no free variables, so every fact
about the computed form carries over to all instances of the term.
-/

namespace Clausal

open Eval List Option Subst Term

variable {args : List Term} {t head : Term} {S : Reach} {ctor : Ctor} {σ : Subst}

namespace Term

lemma apps_concat (head : Term) (args : List Term) (a : Term) :
    head.apps (args ++ [a]) = .app (head.apps args) a := by
  simp [apps]

lemma nameless_apps (stack : List Var) (head : Term) (args : List Term) :
    (head.apps args).nameless stack = (head.nameless stack).apps (args.map (nameless stack)) := by
  induction args generalizing head with
  | nil => rfl
  | cons a args ih => exact ih (.app head a)

lemma over_apps : (head.apps args).Over S ↔ head.Over S ∧ ∀ a ∈ args, a.Over S := by
  induction args generalizing head with
  | nil => simp [apps]
  | cons a args ih =>
    have hstep := @ih (.app head a)
    simp only [apps, foldl_cons] at hstep ⊢
    rw [hstep, Over, forall_mem_cons, and_assoc]

lemma apps_spineOnto (t : Term) (args : List Term) :
    (t.spineOnto args).1.apps (t.spineOnto args).2 = t.apps args := by
  fun_induction spineOnto t args with
  | case1 head arg args ih => exact ih
  | case2 head args _ => rfl

lemma apps_spine (t : Term) : t.spine.1.apps t.spine.2 = t := apps_spineOnto t []

lemma spineOnto_apps (head : Term) (args rest : List Term) :
    (head.apps args).spineOnto rest = head.spineOnto (args ++ rest) := by
  induction args using List.reverseRecOn generalizing rest with
  | nil => rfl
  | append_singleton args a ih =>
    rw [apps_concat, spineOnto, ih, append_assoc]
    rfl

lemma spine_apps (name : Name) (args : List Term) :
    ((global name).apps args).spine = (.global name, args) := by
  simp [spine, spineOnto_apps, spineOnto]

lemma globalSpine?_apps (name : Name) (args : List Term) :
    ((global name).apps args).globalSpine? = some (name, args) := by
  rw [globalSpine?, spine_apps]

lemma eq_of_globalSpine? (h : t.globalSpine? = some (name, args)) :
    t = (global name).apps args := by
  have hspine := apps_spine t
  unfold globalSpine? at h
  split at h
  · next name' args' heq =>
      simp only [some.injEq, Prod.mk.injEq] at h
      obtain ⟨rfl, rfl⟩ := h
      rw [heq] at hspine
      exact hspine.symm
  · simp at h

end Term

namespace Env

/-- The bodies that may be unfolded have no free variables. -/
def Closed (env : Env) : Prop :=
  ∀ ⦃name : Name⦄ ⦃body : Term⦄, env.sig.unfoldable? env.unfold name = some body →
    body.Over .closed

variable {env : Env}

lemma unfoldable?_of_ctor? (h : env.ctor? name = some ctor) :
    env.sig.unfoldable? env.unfold name = none := by
  unfold ctor? Signature.ctor? at h
  unfold Signature.unfoldable? Signature.function?
  split at h
  · next hget => simp [hget]
  · simp at h

/-- The rules of reduction that an environment gives to nameless forms. -/
def rules (env : Env) (h : env.Closed) : Nameless.Rules where
  unfold name := (env.sig.unfoldable? env.unfold name).map (nameless [])
  ctor name := (env.ctor? name).map fun ctor => (ctor.name, ctor.numParams)
  closed {name body} hbody := by
    obtain ⟨b, hb, rfl⟩ := map_eq_some_iff.1 hbody
    exact nameless_closed (h hb)
  rigid {name k} hk := by
    obtain ⟨ctor, hctor, _⟩ := map_eq_some_iff.1 hk
    rw [unfoldable?_of_ctor? hctor, map_none]

lemma ctorSpine?_eq_some (h : env.ctorSpine? t = some (ctor, args)) :
    ∃ name, t = (global name).apps args ∧ env.ctor? name = some ctor := by
  unfold ctorSpine? at h
  split at h
  · next name args' hspine =>
      obtain ⟨ctor', hctor, heq⟩ := map_eq_some_iff.1 h
      cases heq
      exact ⟨name, eq_of_globalSpine? hspine, hctor⟩
  · simp at h

lemma matchBranch?_eq_some (h : env.matchBranch? scrut branches = some (σ, body)) :
    ∃ ctor args branch, env.ctorSpine? scrut = some (ctor, args) ∧
      branches.find? ctor.name = some branch ∧ ctor.numParams ≤ args.length ∧
      (args.drop ctor.numParams).length = branch.fields.length ∧
      σ = .ofPairs (branch.fields.zip (args.drop ctor.numParams)) ∧ body = branch.body := by
  unfold matchBranch? at h
  obtain ⟨⟨ctor, args⟩, hspine, h⟩ := bind_eq_some_iff.1 h
  obtain ⟨branch, hbranch, h⟩ := bind_eq_some_iff.1 h
  split at h
  · next hlen =>
      simp only [some.injEq, Prod.mk.injEq] at h
      exact ⟨ctor, args, branch, hspine, hbranch, hlen.1, hlen.2, h.1.symm, h.2.symm⟩
  · simp at h

end Env

lemma Branches.find?_cons (ctor : Name) (fields : List Var) (body : Term) (rest : Branches)
    (name : Name) : (Branches.cons ctor fields body rest).find? name =
      if ctor = name then some ⟨ctor, fields, body⟩ else rest.find? name := by
  by_cases h : ctor = name <;> simp [find?, toList, h]

lemma Branches.arm?_nameless {bs : Branches} (stack : List Var) (h : bs.find? name = some branch)
      :
    (bs.nameless stack).arm? name =
      some (branch.fields.length, branch.body.nameless (branch.fields.reverse ++ stack)) := by
  match bs with
  | .nil => simp [find?, toList] at h
  | .cons ctor fields body rest =>
    rw [find?_cons] at h
    simp only [Branches.nameless, Nameless.arm?]
    split at h
    · next hc =>
        simp only [some.injEq] at h
        subst h
        rw [if_pos hc]
    · next hc =>
        rw [if_neg hc]
        exact arm?_nameless stack h

lemma Branches.over_find? {bs : Branches} (hbs : bs.Over S) (h : bs.find? name = some branch) :
    branch.body.Over (S.bind branch.fields) := by
  match bs with
  | .nil => simp [find?, toList] at h
  | .cons ctor fields body rest =>
    rw [find?_cons] at h
    split at h
    · simp only [some.injEq] at h
      subst h
      exact hbs.1
    · exact over_find? hbs.2 h

namespace Env

/-- On what is within `S`, the environment computes by the rules `R`. -/
structure Agrees (env : Env) (R : Nameless.Rules) (S : Reach) : Prop where
  unfold : ∀ {g body}, S.globals g → env.sig.unfoldable? env.unfold g = some body →
    R.unfold g = some (body.nameless []) ∧ body.Over S.noVars
  ctor : ∀ {c k}, S.globals c → env.ctor? c = some k → R.ctor c = some (k.name, k.numParams)

lemma agrees_rules {env : Env} (h : env.Closed) (V : Var → Prop) :
    env.Agrees (env.rules h) { vars := V } where
  unfold _ hbody := by
    refine ⟨?_, h hbody⟩
    change (env.sig.unfoldable? env.unfold _).map _ = _
    rw [hbody, map_some]
  ctor _ hk := by
    change (env.ctor? _).map _ = _
    rw [hk, map_some]

end Env

/-- A reduct of a term within `S`, computed from the supply `n`. -/
structure Reduct (R : Nameless.Rules) (S : Reach) (t : Term) (n : Nat) (u : Term) (m : Nat) :
    Prop where
  next : n ≤ m
  reach : u.Over S
  steps : Nameless.HeadReduces R (t.nameless []) (u.nameless [])

lemma Reduct.refl (ht : t.Over S) (n : Nat) :
    Reduct R S t n t n := ⟨le_refl n, ht, .refl⟩

lemma Reduct.trans (h : Reduct R S t n u m) (h' : Reduct R S u m v k) : Reduct R S t n v k :=
  ⟨h.next.trans h'.next, h'.reach, h.steps.trans h'.steps⟩

lemma Reduct.apps (h : Reduct R S t n u m) (hargs : ∀ a ∈ args, a.Over S) :
    Reduct R S (t.apps args) n (u.apps args) m := by
  refine ⟨h.next, over_apps.2 ⟨h.reach, hargs⟩, ?_⟩
  rw [nameless_apps, nameless_apps]
  exact h.steps.apps _

lemma Reduct.case (h : Reduct R S t n u m) (hsplits : S.splits) (hbranches : branches.Over S) :
    Reduct R S (.case t branches) n (.case u branches) m :=
  ⟨h.next, ⟨hsplits, h.reach, hbranches⟩, h.steps.case _⟩

/-- Variables behind a supply. -/
def Reach.Behind (S : Reach) (n : Nat) : Prop := ∀ x, S.vars x → x.id < n

lemma Reach.Behind.mono (h : S.Behind n) (hnm : n ≤ m) : S.Behind m :=
  fun x hx => lt_of_lt_of_le (h x hx) hnm

lemma Reach.Behind.le (h : S.Behind n) : S.Le (.below n) :=
  ⟨h, fun _ _ => trivial, fun _ => trivial⟩

lemma Reduct.beta (hS : S.Behind n) (hbody : body.Over (S.bind [v]))
    (harg : arg.Over S) :
    Reduct R S (.app (.lam v dom body) arg) n (((single v arg).apply body).value n)
      (((single v arg).apply body).next n) := by
  have hmaps := single_maps v harg
  have hbelow : ∀ x, (S.bind [v]).vars x → ((single v arg).image x).Over (.below n) :=
    fun x hx => (hmaps.vars x hx).mono hS.le
  refine ⟨apply_next _ _ n, apply_over hmaps n hbody, .single ?_⟩
  rw [nameless_apply hbelow hbody, ← instantiate_single hbody]
  exact .beta _ _ _

lemma Subst.image_ofPairs {fields : List Var} (hlen : fields.length = args.length) (x : Var) :
    (ofPairs (fields.zip args)).image x ∈ args ∧ x ∈ fields ∨
      (ofPairs (fields.zip args)).image x = .var x ∧ x ∉ fields := by
  induction fields using List.reverseRecOn generalizing args with
  | nil => exact .inr ⟨rfl, by simp⟩
  | append_singleton fields v ih =>
    obtain ⟨args, a, rfl, hlen', hput⟩ := ofPairs_snoc hlen
    rw [hput, image_put]
    by_cases hv : v = x
    · exact .inl ⟨by simp [hv], by simp [hv]⟩
    · rw [if_neg hv]
      rcases ih hlen' with ⟨hmem, hx⟩ | ⟨himage, hx⟩
      · exact .inl ⟨by simp [hmem], by simp [hx]⟩
      · exact .inr ⟨himage, by simp [hx, Ne.symm hv]⟩

lemma Reduct.select {env : Env} (hR : env.Agrees R S) (hS : S.Behind n) (hscrut : scrut.Over S)
    (hbranches : branches.Over S) (h : env.matchBranch? scrut branches = some (σ, body)) :
    Reduct R S (.case scrut branches) n ((σ.apply body).value n) ((σ.apply body).next n) := by
  obtain ⟨ctor, args, branch, hspine, hbranch, hparams, hlen, rfl, rfl⟩ :=
    Env.matchBranch?_eq_some h
  obtain ⟨name, rfl, hctor⟩ := Env.ctorSpine?_eq_some hspine
  obtain ⟨hname, hargs⟩ := over_apps.1 hscrut
  have hbody := Branches.over_find? hbranches hbranch
  have hmaps : (ofPairs (branch.fields.zip (args.drop ctor.numParams))).entries.Maps
      (S.bind branch.fields) S := by
    refine ⟨fun x hx => ?_, fun _ hc => hc, fun hs => hs⟩
    rw [← image]
    rcases image_ofPairs hlen.symm x with ⟨hmem, _⟩ | ⟨himage, hnot⟩
    · exact hargs _ (mem_of_mem_drop hmem)
    · rw [himage]
      exact hx.resolve_left hnot
  have hbelow : ∀ x, (S.bind branch.fields).vars x →
      ((ofPairs (branch.fields.zip (args.drop ctor.numParams))).image x).Over (.below n) :=
    fun x hx => (hmaps.vars x hx).mono hS.le
  refine ⟨apply_next _ _ n, apply_over hmaps n hbody, .single ?_⟩
  rw [nameless_apply hbelow hbody, ← instantiate_ofPairs hbody hlen.symm,
    nameless, nameless_apps, map_drop]
  have harm := Branches.arm?_nameless [] hbranch
  rw [append_nil] at harm
  refine .select (hR.ctor hname hctor) harm ?_
  rw [length_map, ← hlen, length_drop]
  omega

/-- A head that takes no arguments. -/
def Term.isInert : Term → Bool
  | .univ | .var _ | .pi _ _ _ | .absurd _ => true
  | _ => false

/-- The runs of weak-head reduction on a head and its arguments, without fuel.
The numbers are the supply before and after the run. -/
inductive Env.Whnf (env : Env) : Term → List Term → Nat → Term → Nat → Prop
  | erase {t type u : Term} {args : List Term} {n m : Nat} :
      Whnf env t args n u m → Whnf env (.ann t type) args n u m
  | app {f a u : Term} {args : List Term} {n m : Nat} :
      Whnf env f (a :: args) n u m → Whnf env (.app f a) args n u m
  | beta {v : Var} {dom body arg u : Term} {args : List Term} {n m : Nat} :
      Whnf env (((single v arg).apply body).value n) args
        (((single v arg).apply body).next n) u m →
      Whnf env (.lam v dom body) (arg :: args) n u m
  | select {scrut w body u : Term} {branches : Branches} {σ : Subst} {args : List Term}
      {n k m : Nat} :
      Whnf env scrut [] n w k → env.matchBranch? w branches = some (σ, body) →
      Whnf env ((σ.apply body).value k) args ((σ.apply body).next k) u m →
      Whnf env (.case scrut branches) args n u m
  | stuck {scrut w : Term} {branches : Branches} {n k : Nat} (args : List Term) :
      Whnf env scrut [] n w k → env.matchBranch? w branches = none →
      Whnf env (.case scrut branches) args n ((case scrut branches).apps args) k
  | unfold {g : Name} {body u : Term} {args : List Term} {n m : Nat} :
      env.sig.unfoldable? env.unfold g = some body → Whnf env body args n u m →
      isStuck u = false → Whnf env (.global g) args n u m
  | fold {g : Name} {body w : Term} {args : List Term} {n m : Nat} :
      env.sig.unfoldable? env.unfold g = some body → Whnf env body args n w m →
      isStuck w = true → Whnf env (.global g) args n ((global g).apps args) m
  | rigid {g : Name} (args : List Term) (n : Nat) :
      env.sig.unfoldable? env.unfold g = none →
      Whnf env (.global g) args n ((global g).apps args) n
  | literal (v : Var) (dom body : Term) (n : Nat) :
      Whnf env (.lam v dom body) [] n (.lam v dom body) n
  | inert {head : Term} (args : List Term) (n : Nat) :
      head.isInert = true → Whnf env head args n (head.apps args) n

namespace Env

variable {env : Env}

lemma Whnf.of_spineOnto (h : env.Whnf (t.spineOnto args).1 (t.spineOnto args).2 n u m) :
    env.Whnf t args n u m := by
  fun_induction spineOnto t args with
  | case1 head arg args ih => exact .app (ih h)
  | case2 head args _ => exact h

lemma Whnf.to_apps (h : env.Whnf (head.apps args) rest n u m) :
    env.Whnf head (args ++ rest) n u m := by
  induction args using List.reverseRecOn generalizing rest with
  | nil => exact h
  | append_singleton args a ih =>
    rw [apps_concat] at h
    rw [append_assoc]
    cases h with
    | app h => exact ih h
    | inert _ _ hinert => simp [isInert] at hinert

/-- A global that may not be unfolded is reduced with its arguments. -/
lemma Whnf.eq_of_rigid (hg : env.sig.unfoldable? env.unfold g = none)
    (h : env.Whnf ((global g).apps args) [] n u m) :
    u = (global g).apps args ∧ m = n := by
  have h' := h.to_apps
  rw [append_nil] at h'
  cases h' with
  | rigid => exact ⟨rfl, rfl⟩
  | unfold hbody | fold hbody => simp [hg] at hbody
  | inert _ _ hinert => simp [isInert] at hinert

mutual

lemma Whnf.of_whnfWith : (fuel : Nat) → ∀ {t u n m}, Returns (env.whnfWith fuel t) n u m →
    env.Whnf t [] n u m
  | 0, _, _, _, _, h => by simp [whnfWith] at h
  | fuel + 1, t, u, n, m, h => by
    cases t with
    | ann t type =>
      rw [whnfWith] at h
      exact .erase (of_whnfWith fuel h)
    | app f a | global g =>
      rw [whnfWith] at h
      exact .of_spineOnto (of_whnfSpine fuel h)
    | case scrut branches =>
      simp only [whnfWith, returns_bind] at h
      obtain ⟨r, k, hr, h⟩ := h
      obtain ⟨w, j, hw, ⟨σ, body, hmatch, rfl, rfl⟩ | ⟨hmatch, rfl, rfl⟩⟩ :=
        of_reduceCase fuel hr
      · exact .select hw hmatch (of_whnfWith fuel h)
      · simp only [returns_pure] at h
        obtain ⟨rfl, rfl⟩ := h
        exact .stuck [] hw hmatch
    | lam v dom body =>
      simp only [whnfWith, returns_pure] at h
      obtain ⟨rfl, rfl⟩ := h
      exact .literal v dom body n
    | _ =>
      simp only [whnfWith, returns_pure] at h
      obtain ⟨rfl, rfl⟩ := h
      exact .inert [] n rfl

/-- A run of the reducer is a reduction, by induction on the fuel. -/
lemma Whnf.of_whnfSpine : (fuel : Nat) → ∀ {head u args n m},
    Returns (env.whnfSpine fuel head args) n u m → env.Whnf head args n u m
  | 0, _, _, _, _, _, h => by simp [whnfSpine] at h
  | fuel + 1, head, u, args, n, m, h => by
    cases head with
    | ann t type =>
      rw [whnfSpine] at h
      exact .erase (of_whnfSpine fuel h)
    | app f a =>
      rw [whnfSpine] at h
      exact .of_spineOnto (of_whnfSpine fuel h)
    | lam v dom body =>
      cases args with
      | nil =>
        simp only [whnfSpine, returns_pure] at h
        obtain ⟨rfl, rfl⟩ := h
        exact .literal v dom body n
      | cons arg args =>
        simp only [whnfSpine, returns_bind, returns_lift] at h
        obtain ⟨b, k, ⟨rfl, rfl⟩, h⟩ := h
        exact .beta (of_whnfSpine fuel h)
    | case scrut branches =>
      simp only [whnfSpine, returns_bind] at h
      obtain ⟨r, k, hr, h⟩ := h
      obtain ⟨w, j, hw, ⟨σ, body, hmatch, rfl, rfl⟩ | ⟨hmatch, rfl, rfl⟩⟩ :=
        of_reduceCase fuel hr
      · exact .select hw hmatch (of_whnfSpine fuel h)
      · simp only [returns_pure] at h
        obtain ⟨rfl, rfl⟩ := h
        exact .stuck args hw hmatch
    | global g =>
      simp only [whnfSpine] at h
      split at h
      · next body hbody =>
          simp only [returns_bind] at h
          obtain ⟨w, k, hw, h⟩ := h
          split at h
          · next hstuck =>
              simp only [returns_pure] at h
              obtain ⟨rfl, rfl⟩ := h
              exact .fold hbody (of_whnfSpine fuel hw) hstuck
          · next hstuck =>
              simp only [returns_pure] at h
              obtain ⟨rfl, rfl⟩ := h
              exact .unfold hbody (of_whnfSpine fuel hw) (by simpa using hstuck)
      · next hnone =>
          simp only [returns_pure] at h
          obtain ⟨rfl, rfl⟩ := h
          exact .rigid args n hnone
    | _ =>
      simp only [whnfSpine, returns_pure] at h
      obtain ⟨rfl, rfl⟩ := h
      exact .inert args n rfl

lemma Whnf.of_reduceCase : (fuel : Nat) → ∀ {scrut branches r n m},
    Returns (env.reduceCase fuel scrut branches) n r m → ∃ w k, env.Whnf scrut [] n w k ∧ ((∃ σ
      body, env.matchBranch? w branches = some (σ, body) ∧ r = some ((σ.apply body).value k) ∧ m =
      (σ.apply body).next k) ∨ env.matchBranch? w branches = none ∧ r = none ∧ m = k)
  | 0, _, _, _, _, _, h => by simp [reduceCase] at h
  | fuel + 1, scrut, branches, r, n, m, h => by
    simp only [reduceCase, returns_bind] at h
    obtain ⟨w, k, hw, h⟩ := h
    refine ⟨w, k, of_whnfWith fuel hw, ?_⟩
    split at h
    · next σ body hmatch =>
        simp only [returns_bind, returns_lift, returns_pure] at h
        obtain ⟨t, j, ⟨rfl, rfl⟩, rfl, rfl⟩ := h
        exact .inl ⟨σ, body, hmatch, rfl, rfl⟩
    · next hmatch =>
        simp only [returns_pure] at h
        obtain ⟨rfl, rfl⟩ := h
        exact .inr ⟨hmatch, rfl, rfl⟩

end

lemma Whnf.of_whnf (h : Returns (env.whnf t) n u m) :
    env.Whnf t [] n u m := .of_whnfWith env.fuel h

/-- A run of weak-head reduction takes weak-head steps. -/
lemma Whnf.reduct (hR : env.Agrees R S) (h : env.Whnf head args n u m) (hS : S.Behind n)
    (hhead : head.Over S) (hargs : ∀ a ∈ args, a.Over S) : Reduct R S (head.apps args) n u m := by
  induction h with
  | @erase t type u args n m _ ih =>
    have hstep : Reduct R S (.ann t type) n t n := ⟨le_refl n, hhead.1, .single (.erase _ _)⟩
    exact (hstep.apps hargs).trans (ih hS hhead.1 hargs)
  | app _ ih => exact ih hS hhead.1 (forall_mem_cons.2 ⟨hhead.2, hargs⟩)
  | @beta v dom body arg u args n m _ ih =>
    obtain ⟨harg, hargs⟩ := forall_mem_cons.1 hargs
    have hstep : Reduct R S (.app (.lam v dom body) arg) n _ _ := Reduct.beta hS hhead.2 harg
    exact (hstep.apps hargs).trans (ih (hS.mono hstep.next) hstep.reach hargs)
  | select _ hmatch _ ihscrut ih =>
    have hscrut := ihscrut hS hhead.2.1 (by simp)
    have hstep := (hscrut.case hhead.1 hhead.2.2).trans
      (Reduct.select hR (hS.mono hscrut.next) hscrut.reach hhead.2.2 hmatch)
    exact (hstep.apps hargs).trans (ih (hS.mono hstep.next) hstep.reach hargs)
  | stuck args _ _ ihscrut =>
    have hscrut := ihscrut hS hhead.2.1 (by simp)
    exact ⟨hscrut.next, over_apps.2 ⟨hhead, hargs⟩, .refl⟩
  | @unfold g body u args n m hbody _ _ ih =>
    obtain ⟨hrule, hover⟩ := hR.unfold hhead hbody
    have hover := hover.mono S.noVars_le
    have hstep : Reduct R S (.global g) n body n := ⟨le_refl n, hover, .single (.unfold hrule)⟩
    exact (hstep.apps hargs).trans (ih hS hover hargs)
  | fold hbody _ _ ih =>
    obtain ⟨-, hover⟩ := hR.unfold hhead hbody
    exact ⟨(ih hS (hover.mono S.noVars_le) hargs).next, over_apps.2 ⟨hhead, hargs⟩, .refl⟩
  | rigid args n _ | inert args n _ => exact .refl (over_apps.2 ⟨hhead, hargs⟩) n
  | literal v dom body n => exact .refl hhead n

lemma whnf_reduct (hR : env.Agrees R S) (hS : S.Behind n) (ht : t.Over S)
    (h : Returns (env.whnf t) n u m) : Reduct R S t n u m :=
  (Whnf.of_whnf h).reduct hR hS ht (by simp)

end Env
end Clausal
