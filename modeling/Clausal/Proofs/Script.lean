import Clausal.Proofs.Steps

/-!
# What the rule base sees of a compilation

A compilation comes to a script: the names that it asks the rule base for, and what it
ends with if all of them are granted.
-/

namespace Clausal

/-- The names that a compilation asks for, and its outcome.  Where a name is
asked for, the workspace and the supply are those that a refusal leaves. -/
inductive Script (α : Type) where
  /-- The compilation does not end. -/
  | stuck
  | ends (result : Except CompileError α) (w : Workspace) (n : Nat)
  | claim (span : Span) (name : Name) (w : Workspace) (n : Nat) (rest : Script α)

namespace Script

variable {α β : Type}

/-- Play a script on a rule base. -/
def play : Script α → RuleBase → Option ((Except CompileError α × Workspace) × Nat)
  | stuck, _ => none
  | ends result w n, base => some ((result, w.rebase base), n)
  | claim span name w n rest, base =>
    match base.claim name with
    | .ok base => rest.play base
    | .error _ => some ((.error (.alreadyCompiling span name), w.rebase base), n)

/-- The workspace lists the names that were granted, `held` being the first of them. -/
def Holding (held : List Name) : Script α → Prop
  | stuck => True
  | ends _ w _ => w.held = held
  | claim _ name w _ rest => w.held = held ∧ rest.Holding (name :: held)

/-- One script, and one more for what it ends with. -/
def andThen (next : α → Workspace → Nat → Script β) : Script α → Script β
  | stuck => stuck
  | ends (.ok a) w n => next a w n
  | ends (.error e) w n => ends (.error e) w n
  | claim span name w n rest => claim span name w n (rest.andThen next)

lemma Holding.andThen {next : α → Workspace → Nat → Script β} {s : Script α}
    {held : List Name} (hs : s.Holding held)
    (hnext : ∀ a w n, (next a w n).Holding w.held) : (s.andThen next).Holding held := by
  fun_induction Script.andThen next s generalizing held with
  | case1 => trivial
  | case2 a w n => exact hs ▸ hnext a w n
  | case3 e w n => exact hs
  | case4 span name w n rest ih => exact ⟨hs.1, ih hs.2⟩

end Script

namespace Compile

variable {α β : Type}

/-- The script is what the rule base sees of the step. -/
def Follows (x : Compile α) (w : Workspace) (n : Nat) (s : Script α) : Prop :=
  ∀ base, x.run.run (w.rebase base) n = s.play base

/-- From every workspace and supply the step has a script. -/
def Scripted (x : Compile α) : Prop :=
  ∀ w n, ∃ s : Script α, Follows x w n s ∧ s.Holding w.held

variable {next : α → Workspace → Nat → Script β}

/-- To play two scripts one after another is to play the first and go on with what it ends with. -/
lemma Script.play_andThen (hf : ∀ a w n, Follows (f a) w n (next a w n)) (s : Script α)
    (base : RuleBase) :
    (s.andThen next).play base = (s.play base).bind fun r =>
      (ExceptT.bindCont f r.1.1 : StateT Workspace Eval (Except CompileError β)).run r.1.2 r.2 := by
  fun_induction Script.andThen next s generalizing base with
  | case1 => rfl
  | case2 a w n => exact (hf a w n base).symm
  | case3 e w n => rfl
  | case4 span name w n rest ih =>
    simp only [Script.play]
    split
    · exact ih _
    · rfl

lemma Follows.bind (hx : Follows x w n s) (hf : ∀ a w n, Follows (f a) w n (next a w n)) :
    Follows (x >>= f) w n (s.andThen next) := by
  intro base
  rw [Script.play_andThen hf, ← hx base]
  rfl

namespace Scripted

lemma bind {f : α → Compile β} (hx : Scripted x) (hf : ∀ a, Scripted (f a)) :
    Scripted (x >>= f) := by
  intro w n
  obtain ⟨s, hs, hheld⟩ := hx w n
  choose next hnext using hf
  exact ⟨s.andThen next, hs.bind fun a w n => (hnext a w n).1,
    hheld.andThen fun a w n => (hnext a w n).2⟩

lemma pure (a : α) : Scripted (pure a) := fun w n =>
  ⟨.ends (.ok a) w n, fun _ => rfl, rfl⟩

lemma throw (e : CompileError) : Scripted (throw e : Compile α) := fun w n =>
  ⟨.ends (.error e) w n, fun _ => rfl, rfl⟩

lemma outOfFuel : Scripted (outOfFuel : Compile α) := fun _ _ => ⟨.stuck, fun _ => rfl, trivial⟩

lemma attempt (a : Attempt α) : Scripted (attempt a) := by
  intro w n
  cases ha : a.run n with
  | none =>
    refine ⟨.stuck, fun base => ?_, trivial⟩
    change (a.run n).bind _ = none
    rw [ha]
    rfl
  | some r =>
    refine ⟨.ends r.1 w r.2, fun base => ?_, rfl⟩
    change (a.run n).bind _ = some ((r.1, w.rebase base), r.2)
    rw [ha]
    rfl

lemma lift (x : Eval α) : Scripted (liftM x : Compile α) := by
  intro w n
  cases hx : x n with
  | none =>
    refine ⟨.stuck, fun base => ?_, trivial⟩
    change ((x n).bind _).bind _ = none
    rw [hx]
    rfl
  | some r =>
    refine ⟨.ends (.ok r.1) w r.2, fun base => ?_, rfl⟩
    change ((x n).bind _).bind _ = some ((Except.ok r.1, w.rebase base), r.2)
    rw [hx]
    rfl

/-- Reading the workspace is no reading of the rule base if that makes no
difference to what follows. -/
lemma get_bind (hbase : ∀ w base, k (w.rebase base) = k w) (hk : ∀ w, Scripted (k w)) :
    Scripted (get >>= k) := by
  intro w n
  obtain ⟨s, hs, hheld⟩ := hk w w n
  refine ⟨s, fun base => ?_, hheld⟩
  change (k (w.rebase base)).run.run (w.rebase base) n = s.play base
  rw [hbase, hs base]

variable {f : Workspace → Workspace}

lemma modify (hbase : ∀ w base, f (w.rebase base) = (f w).rebase base)
    (hheld : ∀ w, (f w).held = w.held) : Scripted (modify f : Compile PUnit) := by
  intro w n
  refine ⟨.ends (.ok ⟨⟩) (f w) n, fun base => ?_, hheld w⟩
  change some ((Except.ok PUnit.unit, f (w.rebase base)), n) = _
  rw [hbase]
  rfl

lemma update {g : Workspace → α} (hbase : ∀ w base, f (w.rebase base) = (f w).rebase base)
    (hg : ∀ w base, g (w.rebase base) = g w) (hheld : ∀ w, (f w).held = w.held) :
    Scripted (do let w ← get; set (f w); return g w) := by
  intro w n
  refine ⟨.ends (.ok (g w)) (f w) n, fun base => ?_, hheld w⟩
  change some ((Except.ok (g (w.rebase base)), f (w.rebase base)), n) = _
  rw [hbase, hg]
  rfl

/-- The one step that asks the rule base. -/
lemma claim (span : Span) (name : Name) : Scripted (claim span name) := by
  intro w n
  refine ⟨.claim span name w n (.ends (.ok ()) { w with held := name :: w.held } n),
    fun base => ?_, rfl, rfl⟩
  simp only [Script.play]
  cases hclaim : base.claim name with
  | ok claimed =>
    change (match (w.rebase base).base.claim name with
      | .ok base => (set { w with base, held := name :: w.held } : Compile Unit)
      | .error _ => MonadExcept.throw (CompileError.alreadyCompiling span name)).run.run
        (w.rebase base) n = _
    rw [show (w.rebase base).base.claim name = .ok claimed from hclaim]
    rfl
  | error e =>
    change (match (w.rebase base).base.claim name with
      | .ok base => (set { w with base, held := name :: w.held } : Compile Unit)
      | .error _ => MonadExcept.throw (CompileError.alreadyCompiling span name)).run.run
        (w.rebase base) n = _
    rw [show (w.rebase base).base.claim name = .error e from hclaim]
    rfl

lemma closed : Closed @Scripted where
  bind := bind
  pure := pure
  throw := throw
  outOfFuel := outOfFuel
  attempt _ := attempt _
  lift _ := lift _
  get_bind := get_bind
  modify := modify
  update := update
  claim := claim

end Scripted

/-- Compiling a definition, the rule base is asked for names and for nothing else. -/
lemma definition_scripted (decl : Declaration) (options : CompileOptions) :
    Scripted (definition decl options) := Scripted.closed.definition_has decl options

end Compile
end Clausal
