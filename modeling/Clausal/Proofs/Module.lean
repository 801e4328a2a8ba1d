import Clausal.Proofs.Formation

/-!
# What elaboration makes of a module

Types are resolved from source text, so they have no case splits, and they are checked
before they are added, so they are closed.  Every definition is compiled against such
a signature, whichever items are at fault.
-/

namespace Clausal

open Eval List Option Telescope Term

variable {m : Nat} {e : Elaboration} {type : Term} {d : CompiledDefinition}

/-! ### Signatures -/

/-- A family lists each constructor once; the types of constructors are closed, and
so are the bodies that may be unfolded. -/
def Entry.Sound : Entry → Prop
  | .family f => f.ctors.Nodup
  | .ctor c => c.type.Over .closed
  | .function f => f.Closed
  | .postulate _ => True

namespace Signature

variable {n : Nat} {sig : Signature}

section

variable (h : sig.SplitFree n)

include h

lemma SplitFree.insert (name : Name) {entry : Entry}
    (htype : entry.type.SplitFree n)
    (hbody : ∀ f, entry = .function f → f.SplitFree n) : (sig.insert name entry).SplitFree n where
  type other type hother := by
    rw [type?, get?_insert] at hother
    split at hother
    · exact some.inj hother ▸ htype
    · exact h.type hother
  body other body hother := by
    rw [unfoldable?, function?, get?_insert] at hother
    by_cases hname : other = name
    · rw [if_pos hname] at hother
      cases entry with
      | function f =>
        simp only [contains_nil, Bool.or_false] at hother
        split at hother
        · next ht => exact (hbody f rfl).body ht hother
        · cases hother
      | _ => cases hother
    · rw [if_neg hname] at hother
      exact h.body hother

lemma SplitFree.addFunction {f : Function} (hf : f.SplitFree n) :
    (sig.addFunction f).SplitFree n :=
  h.insert f.name hf.type fun _ heq => Entry.function.inj heq ▸ hf

lemma SplitFree.addPostulate (name : Name) (htype : type.SplitFree n) :
    (sig.addPostulate name type).SplitFree n :=
  h.insert name htype nofun

lemma SplitFree.addFamily {f : Family} (hf : f.type.SplitFree n)
    (hctors : ∀ c ∈ ctors, c.type.SplitFree n) : (sig.addFamily f ctors).SplitFree n := by
  have hfold : (ctors.foldl (fun sig c => sig.insert c.name (.ctor c)) sig).SplitFree n := by
    induction ctors generalizing sig with
    | nil => exact h
    | cons c ctors ih =>
      obtain ⟨hc, hctors⟩ := forall_mem_cons.1 hctors
      exact ih (h.insert c.name hc nofun) hctors
  exact hfold.insert f.name hf nofun

end

/-- What elaboration keeps up in the signature of a module. -/
structure Formed (n : Nat) (sig : Signature) : Prop where
  splitFree : sig.SplitFree n
  sound : ∀ ⦃name : Name⦄ ⦃entry : Entry⦄, sig.get? name = some entry → entry.Sound

namespace Formed

variable (h : sig.Formed n)

include h

lemma mono (hnm : n ≤ m) : sig.Formed m :=
  ⟨h.splitFree.mono hnm, h.sound⟩

lemma closed : sig.Closed where
  ctor c k hk := by
    unfold ctor? at hk
    split at hk
    · next k' hget =>
        cases hk
        exact h.sound hget
    · cases hk
  body name body hbody := by
    simp only [unfoldable?, function?] at hbody
    split at hbody
    · next f hfunction =>
        split at hfunction
        · next f' hget =>
            cases hfunction
            simp only [contains_nil, Bool.or_false] at hbody
            split at hbody
            · next ht => exact h.sound hget ht hbody
            · cases hbody
        · cases hfunction
    · cases hbody

lemma ctors_nodup (hfamily : sig.family? name = some family) : family.ctors.Nodup := by
  unfold family? at hfamily
  split at hfamily
  · next f hget =>
      cases hfamily
      exact h.sound hget
  · cases hfamily

lemma sound_insert (name : Name) (entry : Entry) (hentry : entry.Sound)
    ⦃other : Name⦄ ⦃found : Entry⦄ (hother : (sig.insert name entry).get? other = some found) :
    found.Sound := by
  rw [get?_insert] at hother
  split at hother
  · exact some.inj hother ▸ hentry
  · exact h.sound hother

lemma addFunction {f : Function} (hf : f.SplitFree n) (hclosed : f.Closed) :
    (sig.addFunction f).Formed n :=
  ⟨h.splitFree.addFunction hf, h.sound_insert f.name (.function f) hclosed⟩

lemma declare (name : Name) (htype : type.SplitFree n) :
    (sig.addFunction { name, type }).Formed n :=
  h.addFunction ⟨htype, by simp⟩ (by simp [Function.Closed])

lemma addPostulate (name : Name) (htype : type.SplitFree n) :
    (sig.addPostulate name type).Formed n :=
  ⟨h.splitFree.addPostulate name htype, h.sound_insert name (.postulate type) trivial⟩

lemma addFamily {f : Family} (hf : f.type.SplitFree n) (hnodup : f.ctors.Nodup)
    (hctors : ∀ c ∈ ctors, c.type.SplitFree n ∧ c.type.Over .closed) :
    (sig.addFamily f ctors).Formed n := by
  have hfold : (ctors.foldl (fun sig c => sig.insert c.name (.ctor c)) sig).Formed n := by
    induction ctors generalizing sig with
    | nil => exact h
    | cons c ctors ih =>
      obtain ⟨⟨hfree, hclosed⟩, hctors⟩ := forall_mem_cons.1 hctors
      exact ih ⟨h.splitFree.insert c.name hfree nofun,
        h.sound_insert c.name (.ctor c) hclosed⟩ hctors
  exact ⟨h.splitFree.addFamily hf fun c hc => (hctors c hc).1,
    hfold.sound_insert f.name (.family f) hnodup⟩

/-- Committing a function that was made keeps the signature well formed. -/
lemma commit {f : CompiledFunction} (hf : f.Made m) (hm : m ≤ n) : (sig.commit f).Formed n := by
  have hequations : ∀ (equations : List Equation) {sig : Signature}, sig.Formed n →
      (∀ e ∈ equations, e.type.SplitFree n) → (equations.foldl (fun sig e =>
        sig.addFunction
          { name := e.name, type := e.type, body := some e.proof }) sig).Formed n := by
    intro equations
    induction equations with
    | nil => exact fun hsig _ => hsig
    | cons e equations ih =>
      intro sig hsig htypes
      obtain ⟨he, htypes⟩ := forall_mem_cons.1 htypes
      exact ih (hsig.addFunction ⟨he, by simp⟩ (by simp [Function.Closed])) htypes
  have hbody : (sig.addFunction
      { name := f.name, type := f.type, body := some f.term, transparent := f.transparent,
        eliminator := some f.elimination.name }).Formed n := by
    refine h.addFunction ⟨hf.type_splitFree.mono hm, ?_⟩ ?_
    · exact fun _ _ hb => some.inj hb ▸ hf.term_caseTree.mono hm
    · exact fun _ _ hb => some.inj hb ▸ hf.term_closed
  exact (hequations f.equations hbody fun e he => (hf.equations_splitFree e he).mono hm).addFunction
    ⟨hf.elimination_splitFree.mono hm, by simp⟩ (by simp [Function.Closed])

lemma commitDefinition (hd : ∀ f ∈ d.functions, ∃ k ≤ n, Nonempty (f.Made k)) :
    (sig.commitDefinition d).Formed n := by
  obtain ⟨⟨k, hk, ⟨hmain⟩⟩, haux⟩ := forall_mem_cons.1 hd
  have hfold : ∀ (fs : List CompiledFunction) {sig : Signature}, sig.Formed n →
      (∀ f ∈ fs, ∃ k ≤ n, Nonempty (f.Made k)) → (fs.foldl Signature.commit sig).Formed n := by
    intro fs
    induction fs with
    | nil => exact fun hsig _ => hsig
    | cons f fs ih =>
      intro sig hsig hfs
      obtain ⟨⟨j, hj, ⟨hf⟩⟩, hfs⟩ := forall_mem_cons.1 hfs
      exact ih (hsig.commit hf hj) hfs
  exact (hfold d.auxiliaries h haux).commit hmain hk

end Formed

lemma prelude_formed (n : Nat) : (prelude.value n).Formed (prelude.next n) := by
  have hnext : prelude.next n = n + 3 := rfl
  have hempty : ({} : Signature).Formed (n + 3) := ⟨⟨nofun, nofun⟩, nofun⟩
  have hA : n < n + 3 := by omega
  have hx : n + 1 < n + 3 := by omega
  have harrow : n + 2 < n + 3 := by omega
  rw [hnext]
  simp only [prelude, Fresh.value_bind, Fresh.value_fresh, Fresh.next_fresh, Fresh.value_pure]
  refine hempty.addFamily ?_ (nodup_singleton _) fun c hc => ?_
  · exact ⟨hA, trivial, hx, hA, harrow, hA, trivial⟩
  · rw [mem_singleton.1 hc]
    refine ⟨⟨hA, trivial, hx, hA, ⟨⟨trivial, hA⟩, hx⟩, hx⟩, ?_⟩
    simp [pis, eq, apps, Over, Reach.bind, Reach.closed]

lemma prelude_splitFree (n : Nat) :
    n ≤ prelude.next n ∧ (prelude.value n).SplitFree (prelude.next n) :=
  ⟨Nat.le_add_right n 3, (prelude_formed n).splitFree⟩

end Signature

/-! ### Steps of elaboration -/

lemma Env.telescope_forward (env : Env) (type : Term) : Forward (env.telescope type) := by
  have hwith : ∀ (fuel : Nat) (type : Term), Forward (env.telescopeWith fuel type) := by
    intro fuel
    induction fuel with
    | zero => exact fun _ => .outOfFuel
    | succ fuel ih =>
      intro type
      rw [Env.telescopeWith]
      refine .bind (Env.whnf_forward _ _) fun reduced => ?_
      split
      · exact .bind (ih _) fun _ => .pure _
      · exact .pure _
  exact hwith env.fuel type

namespace Elaborate

variable {α β : Type}

/-- From a supply on, a step of elaboration keeps the signature formed, whether it
succeeds or not, and what it gives satisfies a condition. -/
def Keeps (n₀ : Nat) (x : Elaborate α) (Q : Nat → α → Prop) : Prop :=
  ∀ ⦃s : ModuleState⦄ ⦃n : Nat⦄ ⦃r : Except Message α⦄ ⦃s' : ModuleState⦄ ⦃m : Nat⦄,
    n₀ ≤ n → s.sig.Formed n → Returns (x.run.run s) n (r, s') m →
    n ≤ m ∧ s'.sig.Formed m ∧ ∀ a, r = .ok a → Q m a

namespace Keeps

variable {R : Nat → β → Prop}

protected lemma pure (ha : ∀ n, n₀ ≤ n → Q n a) : Keeps n₀ (pure a) Q := by
  intro s n r s' m hn hsig h
  obtain ⟨heq, rfl⟩ := returns_pure.1 h
  cases heq
  exact ⟨le_refl n, hsig, fun b hb => Except.ok.inj hb ▸ ha n hn⟩

protected lemma throw (e : Message) : Keeps n₀ (throw e) Q := by
  intro s n r s' m hn hsig h
  obtain ⟨heq, rfl⟩ := returns_pure.1 h
  cases heq
  exact ⟨le_refl n, hsig, nofun⟩

variable {f : α → Elaborate β} {as : List α}

protected lemma bind (hx : Keeps n₀ x Q) (hf : ∀ k a, n₀ ≤ k → Q k a → Keeps k (f a) R) :
    Keeps n₀ (x >>= f) R := by
  intro s n r s' m hn hsig h
  rcases returns_state_bind.1 h with ⟨a, s₁, k, hfirst, h⟩ | ⟨e, hfirst, rfl⟩
  · obtain ⟨hk, hsig₁, hQ⟩ := hx hn hsig hfirst
    obtain ⟨hm, hrest⟩ := hf k a (hn.trans hk) (hQ a rfl) (le_refl k) hsig₁ h
    exact ⟨hk.trans hm, hrest⟩
  · obtain ⟨hm, hsig', -⟩ := hx hn hsig hfirst
    exact ⟨hm, hsig', nofun⟩

protected lemma lift {x : Eval α} (hx : Forward x)
    (hQ : ∀ n a m, n₀ ≤ n → Returns x n a m → Q m a) : Keeps n₀ (liftM x) Q := by
  intro s n r s' m hn hsig h
  obtain ⟨a, ha, rfl, rfl⟩ := returns_state_lift.1 h
  exact ⟨hx ha, hsig.mono (hx ha), fun b hb => Except.ok.inj hb ▸ hQ n a _ hn ha⟩

protected lemma get_bind (hk : ∀ n s, n₀ ≤ n → s.sig.Formed n → Keeps n (k s) Q) :
    Keeps n₀ (get >>= k) Q := by
  intro s n r s' m hn hsig h
  exact hk n s hn hsig (le_refl n) hsig h

protected lemma modify {f : ModuleState → ModuleState} {Q : Nat → PUnit → Prop}
    (hf : ∀ n s, n₀ ≤ n → s.sig.Formed n → (f s).sig.Formed n)
    (hQ : ∀ n, n₀ ≤ n → Q n ⟨⟩) : Keeps n₀ (modify f) Q := by
  intro s n r s' m hn hsig h
  obtain ⟨heq, rfl⟩ := returns_pure.1 h
  cases heq
  exact ⟨le_refl n, hf n s hn hsig, fun _ _ => hQ n hn⟩

protected lemma set {s : ModuleState} {Q : Nat → PUnit → Prop} (hs : s.sig.Formed n₀)
    (hQ : ∀ n, n₀ ≤ n → Q n ⟨⟩) : Keeps n₀ (set s) Q := by
  intro _ n r s' m hn _ h
  obtain ⟨heq, rfl⟩ := returns_pure.1 h
  cases heq
  exact ⟨le_refl n, hs.mono hn, fun _ _ => hQ n hn⟩

protected lemma reporting (hQ : ∀ {n m : Nat} {a : α}, n ≤ m → Q n a → Q m a)
    (hx : Keeps n₀ x Q) : Keeps n₀ (reporting x) fun n r => ∀ a ∈ r, Q n a := by
  intro s n r s' m hn hsig h
  simp only [Elaborate.reporting, tryCatch, tryCatchThe, MonadExceptOf.tryCatch, ExceptT.tryCatch,
    ExceptT.run_mk, StateT.run_bind] at h
  obtain ⟨⟨a, s₁⟩, k, hfirst, h⟩ := returns_bind.1 h
  have hsome : Keeps n₀ (some <$> x) fun n r => ∀ a ∈ r, Q n a := by
    rw [map_eq_pure_bind]
    refine hx.bind fun k a _ ha => .pure fun n hn b hb => ?_
    exact some.inj hb ▸ hQ hn ha
  obtain ⟨hk, hsig₁, hresult⟩ := hsome hn hsig hfirst
  cases a with
  | ok a =>
    obtain ⟨heq, rfl⟩ := returns_pure.1 h
    cases heq
    exact ⟨hk, hsig₁, hresult⟩
  | error e =>
    obtain ⟨heq, rfl⟩ := returns_pure.1 h
    cases heq
    refine ⟨hk, hsig₁, fun a ha => ?_⟩
    cases ha
    simp

section

variable (hR : ∀ {n m : Nat} {b : β}, n ≤ m → R n b → R m b)

include hR

protected lemma mapM
    (hf : ∀ a ∈ as, ∀ n, n₀ ≤ n → Keeps n (f a) R) :
    Keeps n₀ (as.mapM f) fun n bs => ∀ b ∈ bs, R n b := by
  induction as generalizing n₀ with
  | nil => exact .pure fun _ _ => by simp
  | cons a as ih =>
    obtain ⟨ha, has⟩ := forall_mem_cons.1 hf
    rw [mapM_cons]
    refine (ha n₀ (le_refl n₀)).bind fun k b hk hb => ?_
    refine (ih fun a ha n hn => has a ha n (hk.trans hn)).bind fun l bs hl hbs => ?_
    exact .pure fun n hn => forall_mem_cons.2
      ⟨hR (hl.trans hn) hb, fun b hb => hR hn (hbs b hb)⟩

protected lemma filterMapM {f : α → Elaborate (Option β)}
    (hf : ∀ a ∈ as, ∀ n, n₀ ≤ n → Keeps n (f a) fun n r => ∀ b ∈ r, R n b) :
    Keeps n₀ (as.filterMapM f) fun n bs => ∀ b ∈ bs, R n b := by
  induction as generalizing n₀ with
  | nil => exact .pure fun _ _ => by simp
  | cons a as ih =>
    obtain ⟨ha, has⟩ := forall_mem_cons.1 hf
    rw [filterMapM_cons]
    refine (ha n₀ (le_refl n₀)).bind fun k r hk hr => ?_
    have hrest := ih fun a ha n hn => has a ha n (hk.trans hn)
    cases r with
    | none => exact hrest
    | some b =>
      refine hrest.bind fun l bs hl hbs => ?_
      exact .pure fun n hn => forall_mem_cons.2
        ⟨hR (hl.trans hn) (hr b rfl), fun b hb => hR hn (hbs b hb)⟩

end

lemma and_returns {P : α → Prop} (hx : Keeps n₀ x Q)
    (hP : ∀ ⦃s : ModuleState⦄ ⦃n : Nat⦄ ⦃a : α⦄ ⦃s' : ModuleState⦄ ⦃m : Nat⦄,
      Returns (x.run.run s) n (.ok a, s') m → P a) :
    Keeps n₀ x fun n a => Q n a ∧ P a := by
  intro s n r s' m hn hsig h
  obtain ⟨hm, hsig', hQ⟩ := hx hn hsig h
  exact ⟨hm, hsig', fun a ha => ⟨hQ a ha, hP (ha ▸ h)⟩⟩

end Keeps

/-! ### Items -/

lemma resolved_keeps
    (hQ : ∀ {n m : Nat} {a : α}, n ≤ m → Q n a → Q m a)
    (hforward : ∀ scope, Fresh.Forward (r scope))
    (hr : ∀ scope n a m, n₀ ≤ n → Fresh.Yields (r scope) n a m → Q m a) :
    Keeps n₀ (resolved r) Q := by
  refine .get_bind fun k s hk _ => ?_
  refine (Keeps.lift (x := liftM (r { sig := s.sig }).run) (.lift (hforward _))
    (Q := fun m result => ∀ a, result = .ok a → Q m a) ?_).bind fun l result hl hresult => ?_
  · intro n result m hn h a ha
    obtain ⟨hvalue, hnext⟩ := returns_lift.1 h
    exact hr { sig := s.sig } n a m (hk.trans hn) ⟨hvalue.trans ha, hnext⟩
  · cases result with
    | ok a => exact .pure fun n hn => hQ hn (hresult a rfl)
    | error e => exact .throw _

lemma checkType_keeps (span : Span) (htype : type.SplitFree n₀) :
    Keeps n₀ (checkType span type) fun _ _ => type.Over .closed := by
  refine .get_bind fun k s _ _ => ?_
  refine (Keeps.lift (Env.check_forward _ _ _)
    (Q := fun _ r => ∀ u, r = .ok u → type.Over .closed) fun n r m _ h u hu => ?_).bind
    fun l result _ hresult => ?_
  · subst hu
    exact (Env.check_over htype h).mono reach_nil_le
  · cases result with
    | ok u => exact .pure fun _ _ => hresult u rfl
    | error e => exact .throw _

lemma define_keeps (ident : Surface.Ident) : Keeps n₀ (define ident) fun _ _ => True := by
  refine .get_bind fun k s _ hs => ?_
  dsimp only
  split
  · exact .throw _
  · exact .set hs fun _ _ => trivial

lemma term_keeps (hlocals : locals.SplitFree n₀) (t : Surface.Term) :
    Keeps n₀ (resolved fun scope => scope.term locals t) fun n u => u.SplitFree n :=
  resolved_keeps (fun hnm h => h.mono hnm) (fun _ => Surface.Scope.term_forward locals t)
    fun _ _ _ _ hn h => (Surface.Scope.term_splitFree (hlocals.mono hn) t h).2

lemma constructor_keeps {family : Family} (hparams : family.params.All SplitFree n₀)
    (numIndices : Nat) (hlocals : locals.SplitFree n₀) (c : Surface.CtorDecl) :
    Keeps n₀ (constructor family numIndices locals c) fun n c =>
      c.type.SplitFree n ∧ c.type.Over .closed := by
  refine (term_keeps hlocals c.type).bind fun k type hk htype => ?_
  have hwhole : (family.params.pis type).SplitFree k :=
    splitFree_pis.2 ⟨splitFree_hereditary.telescope_mono hparams hk, htype⟩
  refine (checkType_keeps _ hwhole).bind fun l _ hl hclosed => ?_
  refine .get_bind fun i s hi _ => ?_
  refine (Keeps.lift (Env.telescope_forward _ _) (Q := fun _ _ => True) fun _ _ _ _ _ =>
    trivial).bind fun j result hj _ => ?_
  dsimp only
  split
  · refine (define_keeps c.name).bind fun o _ ho _ => .pure fun n hn => ?_
    exact ⟨hwhole.mono (by omega), hclosed⟩
  · exact .throw _

/-! ### Names of constructors -/

end Elaborate

/-- The names of items and constructors so far. -/
def ModuleState.taken (s : ModuleState) : List Name := s.places.map (·.1)

namespace Elaborate

/-- The step leaves the state as it is. -/
def Reads (x : Elaborate α) : Prop :=
  ∀ ⦃s : ModuleState⦄ ⦃n : Nat⦄ ⦃r : Except Message α⦄ ⦃s' : ModuleState⦄ ⦃m : Nat⦄,
    Returns (x.run.run s) n (r, s') m → s' = s

variable {x : Elaborate α} {f : α → Elaborate β} {n : Nat}

namespace Reads

protected lemma pure (a : α) : Reads (pure a) := fun _ _ _ _ _ h =>
  (Prod.mk.inj (returns_pure.1 h).1).2.symm

protected lemma throw (e : Message) : Reads (throw e : Elaborate α) := fun _ _ _ _ _ h =>
  (Prod.mk.inj (returns_pure.1 h).1).2.symm

protected lemma bind (hx : Reads x) (hf : ∀ a, Reads (f a)) : Reads (x >>= f) := by
  intro s n r s' m h
  rcases returns_state_bind.1 h with ⟨a, s₁, k, hfirst, hrest⟩ | ⟨e, hfirst, -⟩
  · exact (hf a hrest).trans (hx hfirst)
  · exact hx hfirst

protected lemma get_bind (hk : ∀ s, Reads (k s)) : Reads (get >>= k) := fun s _ _ _ _ h => hk s h

protected lemma lift (x : Eval α) : Reads (liftM x) := by
  intro s n r s' m h
  obtain ⟨a, -, -, rfl⟩ := returns_state_lift.1 h
  rfl

end Reads

lemma resolved_reads (r : Surface.Scope → Surface.Resolve α) : Reads (resolved r) := by
  refine .get_bind fun s => .bind (.lift _) fun result => ?_
  cases result with
  | ok a => exact .pure a
  | error e => exact .throw _

lemma checkType_reads (span : Span) (type : Term) : Reads (checkType span type) := by
  refine .get_bind fun s => .bind (.lift _) fun result => ?_
  cases result with
  | ok a => exact .pure _
  | error e => exact .throw _

/-- Names stay taken, and those of what the step gives are different and new. -/
def Takes (x : Elaborate α) (names : α → List Name) : Prop :=
  ∀ ⦃s : ModuleState⦄ ⦃n : Nat⦄ ⦃r : Except Message α⦄ ⦃s' : ModuleState⦄ ⦃m : Nat⦄,
    Returns (x.run.run s) n (r, s') m → s.taken ⊆ s'.taken ∧
      ∀ a, r = .ok a → (names a).Nodup ∧ ∀ name ∈ names a, name ∈ s'.taken ∧ name ∉ s.taken

protected lemma Takes.throw (e : Message) : Takes (throw e : Elaborate α) names := by
  intro s n r s' m h
  obtain ⟨heq, -⟩ := returns_pure.1 h
  cases heq
  exact ⟨Subset.refl _, nofun⟩

lemma Takes.after {names : β → List Name} (hx : Reads x) (hf : ∀ a, Takes (f a) names) :
    Takes (x >>= f) names := by
  intro s n r s' m h
  rcases returns_state_bind.1 h with ⟨a, s₁, k, hfirst, hrest⟩ | ⟨e, hfirst, rfl⟩
  · obtain rfl := hx hfirst
    exact hf a hrest
  · rw [hx hfirst]
    exact ⟨Subset.refl _, nofun⟩

lemma define_takes (ident : Surface.Ident) : Takes (define ident) fun _ => [ident.name] := by
  intro s n r s' m h
  change Returns (StateT.run (ExceptT.run (if s.sig.contains ident.name ||
    ((s.places.find? fun entry => entry.1 == ident.name).map (·.2)).isSome then _ else _)) s) n
      (r, s') m at h
  split at h
  · obtain ⟨heq, -⟩ := returns_pure.1 h
    cases heq
    exact ⟨Subset.refl _, nofun⟩
  · next hnew =>
      obtain ⟨heq, -⟩ := returns_pure.1 h
      cases heq
      have hplaces : ident.name ∉ s.taken := fun hmem => by
        obtain ⟨entry, hentry, hname⟩ := mem_map.1 hmem
        simp only [Bool.or_eq_true, isSome_map, find?_isSome, not_or] at hnew
        exact hnew.2 ⟨entry, hentry, by simpa using hname⟩
      have htaken :
          ({ s with places := s.places ++ [(ident.name, ident.span)] } : ModuleState).taken =
          s.taken ++ [ident.name] := by simp [ModuleState.taken]
      rw [htaken]
      refine ⟨subset_append_left _ _, fun _ _ => ⟨nodup_singleton _, fun name hname => ?_⟩⟩
      obtain rfl := mem_singleton.1 hname
      exact ⟨by simp, hplaces⟩

/-- What is given after a name was taken may go by that name. -/
lemma Takes.map {g : α → β} {names : β → List Name} (hx : Takes x fun a => names (g a)) :
    Takes (x >>= fun a => pure (g a)) names := by
  intro s n r s' m h
  rcases returns_state_bind.1 h with ⟨a, s₁, k, hfirst, hrest⟩ | ⟨e, hfirst, rfl⟩
  · obtain ⟨heq, -⟩ := returns_pure.1 hrest
    cases heq
    obtain ⟨hsub, hnames⟩ := hx hfirst
    exact ⟨hsub, fun b hb => Except.ok.inj hb ▸ hnames a rfl⟩
  · exact ⟨(hx hfirst).1, nofun⟩

lemma constructor_takes (family : Family) (numIndices : Nat) (locals : Surface.Locals)
    (c : Surface.CtorDecl) :
    Takes (constructor family numIndices locals c) fun c => [c.name] := by
  refine .after (resolved_reads _) fun type => .after (checkType_reads _ _) fun _ => ?_
  refine .after (.get_bind fun s => .pure _) fun env => .after (.lift _) fun result => ?_
  dsimp only
  split
  · exact .map (define_takes c.name)
  · exact .throw _

lemma reporting_takes (hx : Takes x names) : Takes (reporting x) fun r => r.elim [] names := by
  intro s n r s' m h
  simp only [Elaborate.reporting, tryCatch, tryCatchThe, MonadExceptOf.tryCatch, ExceptT.tryCatch,
    ExceptT.run_mk, StateT.run_bind] at h
  obtain ⟨⟨a, s₁⟩, k, hfirst, h⟩ := returns_bind.1 h
  have hsome : Takes (some <$> x) fun r => r.elim [] names := by
    rw [map_eq_pure_bind]
    exact .map hx
  obtain ⟨hsub, hnames⟩ := hsome hfirst
  cases a with
  | ok a =>
    obtain ⟨heq, -⟩ := returns_pure.1 h
    cases heq
    exact ⟨hsub, hnames⟩
  | error e =>
    obtain ⟨heq, -⟩ := returns_pure.1 h
    cases heq
    refine ⟨hsub, fun a ha => ?_⟩
    cases ha
    simp

/-- What is given one after another has different names. -/
lemma filterMapM_takes {f : α → Elaborate (Option β)} (as : List α)
    (hf : ∀ a, Takes (f a) fun r => r.elim [] fun b => [name b]) :
    Takes (as.filterMapM f) fun bs => bs.map name := by
  induction as with
  | nil =>
    intro s n r s' m h
    obtain ⟨heq, -⟩ := returns_pure.1 h
    cases heq
    refine ⟨Subset.refl _, fun bs hbs => ?_⟩
    cases hbs
    simp
  | cons a as ih =>
    rw [filterMapM_cons]
    intro s n r s' m h
    rcases returns_state_bind.1 h with ⟨b, s₁, k, hfirst, hrest⟩ | ⟨e, hfirst, rfl⟩
    · obtain ⟨hsub, hb⟩ := hf a hfirst
      cases b with
      | none =>
        obtain ⟨hsub', hbs⟩ := ih hrest
        refine ⟨Subset.trans hsub hsub', fun bs hr => ⟨(hbs bs hr).1, fun name hname => ?_⟩⟩
        obtain ⟨htaken, hnew⟩ := (hbs bs hr).2 name hname
        exact ⟨htaken, fun hmem => hnew (hsub hmem)⟩
      | some b =>
        rcases returns_state_bind.1 hrest with ⟨bs, s₂, l, hbs, hlast⟩ | ⟨e, hbs, rfl⟩
        · obtain ⟨heq, -⟩ := returns_pure.1 hlast
          cases heq
          obtain ⟨hsub', hbs⟩ := ih hbs
          refine ⟨Subset.trans hsub hsub', fun cs hcs => ?_⟩
          cases hcs
          obtain ⟨-, hbname⟩ := hb (some b) rfl
          obtain ⟨hnodup, hnames⟩ := hbs bs rfl
          obtain ⟨hbtaken, hbnew⟩ := hbname (name b) (mem_singleton_self _)
          refine ⟨nodup_cons.2 ⟨fun hmem => (hnames _ hmem).2 hbtaken, hnodup⟩, ?_⟩
          refine forall_mem_cons.2 ⟨⟨hsub' hbtaken, hbnew⟩, fun other hother => ?_⟩
          exact ⟨(hnames other hother).1, fun hmem => (hnames other hother).2 (hsub hmem)⟩
        · exact ⟨Subset.trans hsub (ih hbs).1, nofun⟩
    · exact ⟨(hf a hfirst).1, nofun⟩

lemma family_keeps (f : Surface.Family) : Keeps n₀ (family f) fun _ _ => True := by
  refine (resolved_keeps (Q := fun n r => r.1.All SplitFree n ∧ r.2.1.SplitFree n ∧
    r.2.2.SplitFree n) (fun hnm h => ⟨splitFree_hereditary.telescope_mono h.1 hnm,
      h.2.1.mono hnm, h.2.2.mono hnm⟩) ?_ ?_).bind fun k r hk hr => ?_
  · exact fun scope => .bind (Surface.Scope.params_forward _ _) fun _ =>
      .bind (Surface.Scope.term_forward _ _) fun _ => .pure _
  · intro scope n a m hn h
    simp only [Fresh.yields_bind, Fresh.yields_pure] at h
    obtain ⟨⟨Γ, locals⟩, k, hparams, type, l, htype, rfl, rfl⟩ := h
    obtain ⟨hk, hΓ, hlocals⟩ := Surface.Scope.params_splitFree
      (by simp [Surface.Locals.SplitFree]) f.params hparams
    obtain ⟨hl, htype⟩ := Surface.Scope.term_splitFree hlocals f.type htype
    exact ⟨splitFree_hereditary.telescope_mono hΓ hl, htype, hlocals.mono hl⟩
  · obtain ⟨params, type, locals⟩ := r
    obtain ⟨hparams, htype, hlocals⟩ := hr
    have hwhole : (params.pis type).SplitFree k := splitFree_pis.2 ⟨hparams, htype⟩
    refine (checkType_keeps _ hwhole).bind fun l _ hl _ => ?_
    refine .get_bind fun i s hi _ => ?_
    refine (Keeps.lift (Env.telescope_forward _ _) (Q := fun _ _ => True) fun _ _ _ _ _ =>
      trivial).bind fun j result hj _ => ?_
    dsimp only
    split
    · exact (Keeps.throw _ (Q := fun _ _ => False)).bind fun _ _ _ hfalse => hfalse.elim
    · refine (define_keeps f.name).bind fun d _ hd _ => ?_
      refine (Keeps.modify (Q := fun _ _ => True) (fun n s hn hs => ?_) fun _ _ => trivial).bind
        fun e _ he _ => ?_
      · exact hs.addFamily (hwhole.mono (by omega)) nodup_nil (by simp)
      refine ((Keeps.filterMapM (R := fun n c => c.type.SplitFree n ∧ c.type.Over .closed)
        (fun hnm h => ⟨h.1.mono hnm, h.2⟩) fun c _ n hn => ?_).and_returns
        (P := fun ctors => (ctors.map (·.name)).Nodup) fun s n ctors s' m h => ?_).bind
        fun g ctors hg hctors => ?_
      · refine .reporting (fun hnm h => ⟨h.1.mono hnm, h.2⟩) (constructor_keeps ?_ _ ?_ c)
        · exact splitFree_hereditary.telescope_mono hparams (by omega)
        · exact hlocals.mono (by omega)
      · have htakes := filterMapM_takes f.ctors fun c =>
          reporting_takes (constructor_takes ⟨f.name.name, params, params.pis type, []⟩
            result.1.length locals c)
        exact ((htakes h).2 ctors rfl).1
      refine .modify (fun n s hn hs => ?_) fun _ _ => trivial
      exact hs.addFamily (hwhole.mono (by omega)) hctors.2 fun c hc =>
        ⟨(hctors.1 c hc).1.mono hn, (hctors.1 c hc).2⟩

lemma postulate_keeps (ident : Surface.Ident) (type : Surface.Term) :
    Keeps n₀ (postulate ident type) fun _ _ => True := by
  refine (term_keeps (by simp [Surface.Locals.SplitFree]) type).bind fun k core hk hcore => ?_
  refine (checkType_keeps _ hcore).bind fun l _ hl _ => ?_
  refine (define_keeps _).bind fun i _ hi _ => ?_
  refine .modify (fun n s hn hs => ?_) fun _ _ => trivial
  exact hs.addPostulate _ (hcore.mono (by omega))

lemma trustedRule_keeps (span : Span) (ident : Surface.Ident) (type : Surface.Term) :
    Keeps n₀ (trustedRule span ident type) fun _ _ => True := by
  refine (term_keeps (by simp [Surface.Locals.SplitFree]) type).bind fun k core hk hcore => ?_
  refine (checkType_keeps _ hcore).bind fun l _ hl _ => ?_
  refine .get_bind fun i s hi _ => ?_
  split
  · exact .throw _
  · refine (define_keeps _).bind fun j _ hj _ => ?_
    refine .modify (fun n s hn hs => ?_) fun _ _ => trivial
    exact hs.addPostulate _ (hcore.mono (by omega))

lemma listNotation_keeps (span : Span) (nil cons : Name) :
    Keeps n₀ (listNotation span nil cons) fun _ _ => True := by
  refine .get_bind fun k s _ hs => ?_
  split
  · exact .set ⟨⟨hs.splitFree.type, hs.splitFree.body⟩, hs.sound⟩ fun _ _ => trivial
  · exact .throw _

/-- The declared type of a definition is closed and has no case splits. -/
lemma declare_keeps (d : Surface.Definition) :
    Keeps n₀ (declare d) fun n type => type.SplitFree n ∧ type.Over .closed := by
  refine (resolved_keeps (Q := fun n type => type.SplitFree n) (fun hnm h => h.mono hnm)
    (fun _ => Surface.Scope.funType_forward _ _ _) fun _ _ _ _ _ h =>
      (Surface.Scope.funType_splitFree (by simp [Surface.Locals.SplitFree]) h).2).bind
    fun k type hk htype => ?_
  refine (checkType_keeps _ htype).bind fun l _ hl hclosed => ?_
  refine (define_keeps _).bind fun i _ hi _ => ?_
  refine (Keeps.modify (Q := fun _ _ => True) (fun n s hn hs => ?_) fun _ _ => trivial).bind
    fun j _ hj _ => .pure fun n hn => ⟨htype.mono (by omega), hclosed⟩
  exact hs.addFunction ⟨htype.mono (by omega), by simp⟩ (by simp [Function.Closed])

lemma item_keeps (i : Surface.Item) :
    Keeps n₀ (item i) fun n r => ∀ d ∈ r, d.2.SplitFree n ∧ d.2.Over .closed := by
  cases i with
  | family f => exact (family_keeps f).bind fun _ _ _ _ => .pure fun _ _ => by simp
  | definition d =>
    refine (declare_keeps d).bind fun k type hk htype => .pure fun n hn d hd => ?_
    exact some.inj hd ▸ ⟨htype.1.mono hn, htype.2⟩
  | postulate _ name type =>
    exact (postulate_keeps name type).bind fun _ _ _ _ => .pure fun _ _ => by simp
  | rule span name type =>
    exact (trustedRule_keeps span name type).bind fun _ _ _ _ => .pure fun _ _ => by simp
  | listNotation span nil cons =>
    exact (listNotation_keeps span nil.name cons.name).bind fun _ _ _ _ =>
      .pure fun _ _ => by simp

/-! ### Definitions -/

/-- A definition was compiled with a closed type, against a formed signature, before
a supply. -/
def CompiledUpTo (n : Nat) (d : CompiledDefinition) : Prop :=
  ∃ base sig decl options base' k l, sig.Formed k ∧ decl.type.SplitFree k ∧
    decl.type.Over .closed ∧ Returns (compile base sig decl options) k (.ok d, base') l ∧ l ≤ n

lemma CompiledUpTo.mono (h : CompiledUpTo n d) (hnm : n ≤ m) : CompiledUpTo m d :=
  have ⟨base, sig, decl, options, base', k, l, hsig, htype, hclosed, hrun, hl⟩ := h
  ⟨base, sig, decl, options, base', k, l, hsig, htype, hclosed, hrun, hl.trans hnm⟩

/-- Every function of such a definition was made. -/
lemma CompiledUpTo.made (h : CompiledUpTo n d) :
    ∀ f ∈ d.functions, ∃ k ≤ n, Nonempty (f.Made k) := by
  obtain ⟨base, sig, decl, options, base', k, l, hsig, htype, -, hrun, hl⟩ := h
  intro f hf
  obtain ⟨j, hj, hmade⟩ := compile_made hsig.splitFree htype hrun f hf
  exact ⟨j, hj.trans hl, hmade⟩

lemma report_keeps (message : Message) : Keeps n₀ (report message) fun _ _ => True :=
  .modify (fun _ _ _ hs => hs) fun _ _ => trivial

lemma compileDeclared_keeps (hsig : sig.Formed n₀) (options : CompileOptions)
    (d : Surface.Definition) (htype : type.SplitFree n₀) (hclosed : type.Over .closed) :
    Keeps n₀ (compileDeclared sig options d type) fun n r => ∀ d, r = .ok d → CompiledUpTo n d := by
  refine .get_bind fun k s hk _ => ?_
  refine (Keeps.lift (compile_forward _ _ _ _)
    (Q := fun n r => ∀ d, r.1 = .ok d → CompiledUpTo n d) ?_).bind fun l r hl hr => ?_
  · rintro n ⟨r, base⟩ m hn h d rfl
    exact ⟨_, sig, _, options, base, n, m, hsig.mono (by omega), htype.mono (by omega), hclosed, h,
      le_refl m⟩
  · refine (Keeps.modify (Q := fun _ _ => True) (fun n s hn hs => ?_) fun _ _ => trivial).bind
      fun i _ hi _ => .pure ?_
    · exact hs
    · exact fun n hn d hd => (hr d hd).mono (by omega)

lemma settle_keeps
    (hresult : ∀ d, result = .ok d → CompiledUpTo n₀ d) :
    Keeps n₀ (settle result) fun n r => ∀ d ∈ r, CompiledUpTo n d := by
  cases result with
  | ok d =>
    have hd := hresult d rfl
    refine (Keeps.modify (Q := fun _ _ => True) (fun n s hn hs => ?_) fun _ _ => trivial).bind
      fun k _ hk _ => .pure fun n hn d' hd' => ?_
    · exact hs.commitDefinition (hd.mono hn).made
    · exact some.inj hd' ▸ hd.mono (by omega)
  | error e =>
    exact (report_keeps _).bind fun _ _ _ _ => .pure fun _ _ => by simp

lemma compileLevel_keeps (options : CompileOptions)
    (hlevel : ∀ d ∈ level, d.2.SplitFree n₀ ∧ d.2.Over .closed) :
    Keeps n₀ (compileLevel options level) fun n ds => ∀ d ∈ ds, CompiledUpTo n d := by
  refine .get_bind fun k s hk hs => ?_
  refine (Keeps.mapM (R := fun n r => ∀ d, r = .ok d → CompiledUpTo n d)
    ?_ fun d hd n hn => ?_).bind fun l results hl hresults => ?_
  · exact fun hnm h d hd => (h d hd).mono hnm
  · exact compileDeclared_keeps (hs.mono hn) options d.1 ((hlevel d hd).1.mono (by omega))
      (hlevel d hd).2
  · refine .filterMapM (fun hnm h => h.mono hnm) fun r hr n hn => settle_keeps fun d hd => ?_
    exact (hresults r hr d hd).mono hn

lemma compileAll_keeps (options : CompileOptions)
    (hdeclared : ∀ d ∈ declared, d.2.SplitFree n₀ ∧ d.2.Over .closed) :
    Keeps n₀ (compileAll options declared) fun n ds => ∀ d ∈ ds, CompiledUpTo n d := by
  refine (Keeps.mapM (R := fun n ds => ∀ d ∈ ds, CompiledUpTo n d)
    (fun hnm h d hd => (h d hd).mono hnm) fun level _ n hn => ?_).bind fun k dss hk hdss => ?_
  · refine compileLevel_keeps options fun d hd => ?_
    obtain ⟨i, -, hi⟩ := mem_filterMap.1 hd
    obtain ⟨htype, hclosed⟩ := hdeclared d (mem_of_getElem? hi)
    exact ⟨htype.mono hn, hclosed⟩
  · refine .pure fun n hn d hd => ?_
    obtain ⟨ds, hds, hd⟩ := mem_flatten.1 hd
    exact (hdss ds hds d hd).mono hn

lemma module_keeps (options : CompileOptions) (items : List Surface.Item) :
    Keeps n₀ (module options items) fun n ds => ∀ d ∈ ds, CompiledUpTo n d := by
  refine (Keeps.filterMapM (R := fun n d => d.2.SplitFree n ∧ d.2.Over .closed)
    (fun hnm h => ⟨h.1.mono hnm, h.2⟩)
    fun i _ n _ => ?_).bind fun k declared _ hdeclared => compileAll_keeps options hdeclared
  refine ((item_keeps i).reporting fun hnm h d hd =>
    ⟨(h d hd).1.mono hnm, (h d hd).2⟩).bind fun k r _ hr => ?_
  refine .pure fun n hn d hd => ?_
  obtain ⟨htype, hclosed⟩ := hr (some d) (join_eq_some_iff.1 hd) d rfl
  exact ⟨htype.mono hn, hclosed⟩

end Elaborate

variable (h : Returns (elaborate base items options) n e m)

include h

/-- Every definition that the elaboration of a module gives was compiled with a
closed type, against a formed signature. -/
lemma elaborate_compiled :
    ∀ d ∈ e.definitions, Elaborate.CompiledUpTo m d := by
  obtain ⟨sig, k, hprelude, h⟩ := returns_bind.1 h
  obtain ⟨rfl, rfl⟩ := returns_lift.1 hprelude
  obtain ⟨⟨r, s⟩, l, hmodule, h⟩ := returns_bind.1 h
  obtain ⟨rfl, rfl⟩ := returns_pure.1 h
  obtain ⟨-, -, hcompiled⟩ := Elaborate.module_keeps options items (Nat.zero_le _)
    (Signature.prelude_formed n) hmodule
  intro d hd
  cases r with
  | ok ds => exact hcompiled ds rfl d hd
  | error e => cases hd

lemma elaborate_formed : e.sig.Formed m := by
  obtain ⟨sig, k, hprelude, h⟩ := returns_bind.1 h
  obtain ⟨rfl, rfl⟩ := returns_lift.1 hprelude
  obtain ⟨⟨r, s⟩, l, hmodule, h⟩ := returns_bind.1 h
  obtain ⟨rfl, rfl⟩ := returns_pure.1 h
  exact (Elaborate.module_keeps options items (Nat.zero_le _) (Signature.prelude_formed n)
    hmodule).2.1

lemma elaborate_made (hf : f ∈ e.functions) :
    ∃ k, Nonempty (f.Made k) := by
  obtain ⟨d, hd, hfd⟩ := mem_flatMap.1 hf
  obtain ⟨k, -, hk⟩ := (elaborate_compiled h d hd).made f hfd
  exact ⟨k, hk⟩

end Clausal
