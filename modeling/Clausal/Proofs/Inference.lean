import Clausal.Proofs.AlphaConversion
import Clausal.Proofs.Checking

/-!
# What is inferred is accepted

Only function literals are treated in two ways: inferring makes a function type of
their own binder, and checking takes the expected type apart.  Everything else is
inferred again, from a later supply and to another depth.
-/

namespace Clausal

open Eval Subst Term

variable {fuel : Nat} {r : Except TypeError Unit} {type expected : Term} {α β ε : Type}

lemma Check.Slides.later {r : Except ε β} (h : Check.Slides ⟨n₀, k - n⟩ φ x y) (hn : n₀ ≤ n)
    (hk : n ≤ k) (hrun : Eval.Yields x n a m) (hlater : Eval.Returns y.run k r l) :
    r = .ok (φ a) ∧ l = m + (k - n) :=
  (h hn hrun (by rwa [show n + (k - n) = k by omega])).2 a rfl

lemma Slide.telescope_old (s : Slide) {Γ : Telescope} (h : Γ.All AllBelow s.start) :
    Γ.mapVars s.var = Γ := by
  refine (List.map_congr_left fun entry hentry => ?_).trans (List.map_id Γ)
  obtain ⟨hvar, htype⟩ := h entry hentry
  exact Prod.ext (s.var_old hvar) (s.term_old htype)

lemma Signature.AllBelow.fixed {env : Env} (h : env.sig.AllBelow s.start) : env.Fixed s where
  bodies := (Env.bodiesBelow h).fixed
  types htype := s.term_old (h.type? htype)
  ctors hctor := s.term_old (h.ctor? hctor)

lemma Slide.nameless_old (s : Slide) {t : Term} (h : t.Over (.below s.start)) :
    (t.mapVars s.var).nameless [] = t.nameless [] := by
  have hslide := t.nameless_slide s []
  rw [List.map_nil] at hslide
  rw [hslide]
  refine t.nameless_fill h fun x hx => ?_
  simp only [Var.locate, Nameless.fill, filling, s.var_old hx]

lemma Eval.run_lift_bind {r : Except ε β}
    (h : Returns ((liftM x : ExceptT ε Eval α) >>= f).run n r m) :
    ∃ a k, Returns x n a k ∧ Returns (f a).run k r m := by
  rcases run_bind_cases.1 h with ⟨e, he, -⟩ | ⟨a, k, ha, hr⟩
  · obtain ⟨_, _, hok⟩ := returns_run_lift.1 he
    cases hok
  · exact ⟨a, k, yields_lift.1 ha, hr⟩

namespace Env

variable {env : Env} {n m k l : Nat} {Γ : Telescope} {t : Term}

/-! ### The variables of inferred types -/

lemma all_concat (hΓ : Γ.All AllBelow n) (hv : v.id < n) (hdom : dom.AllBelow n) :
    Telescope.All AllBelow n (Γ ++ [(v, dom)]) := by
  intro entry hentry
  rcases List.mem_append.1 hentry with hold | hnew
  · exact hΓ entry hold
  · rw [List.mem_singleton.1 hnew]
    exact ⟨hv, hdom⟩

/-- The type is behind the supply that is left, and its free variables were in use before. -/
lemma synthWith_scope (hclosed : env.Closed) (hsig : env.sig.AllBelow n₀) (fuel : Nat)
    (hn : n₀ ≤ n) (hΓ : Γ.All AllBelow n₀) (ht : t.AllBelow n₀)
    (h : Yields (env.synthWith fuel Γ t) n type m) : type.AllBelow m ∧ type.Over (.below n₀) := by
  induction fuel generalizing Γ t type n m with
  | zero => exact (returns_outOfFuel h).elim
  | succ fuel ih =>
    cases t with
    | univ =>
      obtain ⟨rfl, rfl⟩ := yields_pure.1 h
      exact ⟨trivial, trivial⟩
    | var v =>
      rw [synthWith] at h
      split at h
      next htype =>
        obtain ⟨rfl, rfl⟩ := yields_pure.1 h
        have hbelow := (hΓ _ (Telescope.mem_of_type? htype)).2
        exact ⟨hbelow.mono hn, hbelow.over⟩
      next => exact (yields_throw h).elim
    | global name =>
      rw [synthWith] at h
      split at h
      next htype =>
        obtain ⟨rfl, rfl⟩ := yields_pure.1 h
        exact ⟨(hsig.type? htype).mono hn, (hsig.type? htype).over⟩
      next => exact (yields_throw h).elim
    | pi v dom cod =>
      simp only [synthWith, yields_bind, yields_pure] at h
      obtain ⟨_, _, -, _, _, -, rfl, -⟩ := h
      exact ⟨trivial, trivial⟩
    | lam v dom body =>
      simp only [synthWith, yields_bind, yields_pure] at h
      obtain ⟨_, k, hdom, cod, l, hbody, rfl, rfl⟩ := h
      have hk := checkWith_forward fuel _ _ _ hdom
      have hl := synthWith_forward fuel _ _ hbody
      obtain ⟨hbelow, hover⟩ := ih (hn.trans hk) (all_concat hΓ ht.1 ht.2.1) ht.2.2 hbody
      have hnl : n₀ ≤ l := by omega
      exact ⟨⟨ht.1.trans_le hnl, AllBelow.mono hnl ht.2.1, hbelow⟩,
        AllBelow.over ht.2.1, hover.mono (Reach.le_bind _ [v])⟩
    | app head arg =>
      simp only [synthWith, yields_bind, yields_lift] at h
      obtain ⟨headType, k, hhead, reduced, l, hwhnf, h⟩ := h
      have hk := synthWith_forward fuel _ _ hhead
      have hl := env.whnf_forward _ hwhnf
      obtain ⟨hbelow, hover⟩ := ih hn hΓ ht.1 hhead
      have hbelow := (Whnf.of_whnf hwhnf).allBelow (bodiesBelow hsig) (hn.trans hk)
        hbelow (List.forall_mem_nil _)
      have hover := (whnf_reduct (agrees_rules hclosed fun x => x.id < n₀)
        (fun x hx => by exact hx.trans_le (hn.trans hk)) hover hwhnf).reach
      split at h
      next v dom cod =>
        simp only [yields_bind, yields_liftFresh] at h
        obtain ⟨_, j, harg, rfl, rfl⟩ := h
        have hj := checkWith_forward fuel _ _ _ harg
        refine ⟨allBelow_hereditary.cod (hbelow.mono hj) (ht.2.mono (by omega)), ?_⟩
        exact apply_over (single_maps v (AllBelow.over ht.2)) j hover.2
      next => exact (yields_throw h).elim
    | ann t type =>
      simp only [synthWith, yields_bind, yields_pure] at h
      obtain ⟨_, k, htype, _, l, hterm, rfl, rfl⟩ := h
      have hk := checkWith_forward fuel _ _ _ htype
      have hl := checkWith_forward fuel _ _ _ hterm
      exact ⟨ht.2.mono (by omega), AllBelow.over ht.2⟩
    | case | absurd => exact (yields_throw h).elim

/-! ### A second run -/

/-- What was checked once is accepted again, from a later supply and to any depth that suffices. -/
lemma checkWith_again (hsig : env.sig.AllBelow n₀) (hn : n₀ ≤ n) (hk : n ≤ k)
    (hΓ : Γ.All AllBelow n₀) (ht : t.AllBelow n₀) (hexpected : expected.AllBelow n₀)
    (h : Yields (env.checkWith fuel Γ t expected) n () m)
    (hrun : Returns (env.checkWith fuel' Γ t expected).run k r l) :
    r = .ok () ∧ l = m + (k - n) := by
  have hslides := checkWith_slides (s := ⟨n₀, k - n⟩) hsig.fixed fuel fuel' Γ t expected
  rw [Slide.telescope_old ⟨n₀, k - n⟩ hΓ, Slide.term_old ⟨n₀, k - n⟩ ht,
    Slide.term_old ⟨n₀, k - n⟩ hexpected] at hslides
  exact hslides.later hn hk h hrun

/-- The type that is inferred again has the form of the first one. -/
lemma synthWith_again (hclosed : env.Closed) (hsig : env.sig.AllBelow n₀)
    {r : Except TypeError Term} (hn : n₀ ≤ n) (hk : n ≤ k) (hΓ : Γ.All AllBelow n₀)
    (ht : t.AllBelow n₀) (h : Yields (env.synthWith fuel Γ t) n type m)
    (hrun : Returns (env.synthWith fuel' Γ t).run k r l) :
    ∃ found, r = .ok found ∧ found.AllBelow l ∧ found.nameless [] = type.nameless [] := by
  have hslides := synthWith_slides (s := ⟨n₀, k - n⟩) hsig.fixed fuel fuel' Γ t
  rw [Slide.telescope_old ⟨n₀, k - n⟩ hΓ, Slide.term_old ⟨n₀, k - n⟩ ht] at hslides
  obtain ⟨rfl, -⟩ := hslides.later hn hk h hrun
  obtain ⟨hbelow, -⟩ := synthWith_scope hclosed hsig fuel' (hn.trans hk) hΓ ht hrun
  obtain ⟨-, hover⟩ := synthWith_scope hclosed hsig fuel hn hΓ ht h
  exact ⟨_, rfl, hbelow, Slide.nameless_old ⟨n₀, k - n⟩ hover⟩

/-! ### Checking what was inferred -/

lemma whnf_pi_eq (h : Returns (env.whnf (.pi v dom cod)) n u m) : u = .pi v dom cod ∧ m = n := by
  unfold whnf at h
  cases hfuel : env.fuel <;> rw [hfuel] at h
  · exact (returns_outOfFuel h).elim
  · obtain ⟨rfl, rfl⟩ := returns_pure.1 h
    exact ⟨rfl, rfl⟩

lemma checkSynth_of_synthWith (hclosed : env.Closed) (hsig : env.sig.AllBelow n₀) (hn : n₀ ≤ n)
    (hk : n ≤ k) (hΓ : Γ.All AllBelow n₀) (ht : t.AllBelow n₀)
    (hexpected : expected.AllBelow k) (heq : type.nameless [] = expected.nameless [])
    (h : Yields (env.synthWith fuel Γ t) n type m)
    (hrun : Returns (env.checkSynth fuel' Γ t expected).run k r l) : r = .ok () := by
  cases fuel' with
  | zero => exact (returns_outOfFuel hrun).elim
  | succ fuel' =>
    rw [checkSynth] at hrun
    rcases run_bind_cases.1 hrun with ⟨e, he, -⟩ | ⟨found, j, hfound, hcompare⟩
    · obtain ⟨_, hok, -⟩ := synthWith_again hclosed hsig hn hk hΓ ht h he
      cases hok
    · obtain ⟨_, hok, hbelow, hform⟩ := synthWith_again hclosed hsig hn hk hΓ ht h hfound
      cases hok
      have hj := synthWith_forward fuel' _ _ hfound
      obtain ⟨same, i, hsame, hend⟩ := run_lift_bind hcompare
      have hbodies := (bodiesBelow hsig).mono (show n₀ ≤ j by omega)
      obtain rfl := convertible_eq_true hclosed hbodies hbelow (hexpected.mono hj)
        (hform.trans heq) hsame
      exact ((returns_pure (a := Except.ok ())).1 hend).1.symm

/-- A literal that is checked against a function type.  The domain is checked first, then the
domains are compared, and then the body is checked against the codomain for its binder. -/
lemma checkWith_lam_pi
    (h : Returns (env.checkWith (fuel + 1) Γ (.lam v dom body) (.pi w dom' cod')).run k r l) :
    (∃ e, Returns (env.checkWith fuel Γ dom .univ).run k (.error e) l) ∨
      ∃ i same j, Yields (env.checkWith fuel Γ dom .univ) k () i ∧
        Returns (env.convertible dom dom') i same j ∧
        (same = true → Returns (env.checkWith fuel (Γ ++ [(v, dom)]) body
          (((single w (.var v)).apply cod').value j)).run
          (((single w (.var v)).apply cod').next j) r l) := by
  rw [checkWith] at h
  obtain ⟨_, _, hwhnf, hcheck⟩ := run_lift_bind h
  obtain ⟨rfl, rfl⟩ := whnf_pi_eq hwhnf
  rcases run_bind_cases.1 hcheck with ⟨e, he, -⟩ | ⟨_, i, hdom, hrest⟩
  · exact .inl ⟨e, he⟩
  · obtain ⟨same, j, hsame, hbody⟩ := run_lift_bind hrest
    refine .inr ⟨i, same, j, hdom, hsame, ?_⟩
    rintro rfl
    obtain ⟨_, _, hcod, hbody⟩ := run_lift_bind hbody
    obtain ⟨rfl, rfl⟩ := returns_lift.1 hcod
    exact hbody

/-- A term checks against every type with the form of its own. -/
lemma checkWith_of_synthWith (hclosed : env.Closed) (hsig : env.sig.AllBelow n₀) (fuel : Nat)
    (hn : n₀ ≤ n) (hk : n ≤ k) (hΓ : Γ.All AllBelow n₀) (ht : t.AllBelow n₀)
    (hexpected : expected.AllBelow k) (heq : type.nameless [] = expected.nameless [])
    (h : Yields (env.synthWith fuel Γ t) n type m)
    (hrun : Returns (env.checkWith fuel' Γ t expected).run k r l) : r = .ok () := by
  induction fuel generalizing fuel' Γ t type expected n m k l with
  | zero => exact (returns_outOfFuel h).elim
  | succ fuel ih =>
    cases fuel' with
    | zero => exact (returns_outOfFuel hrun).elim
    | succ fuel' =>
      cases t with
      | lam v dom body =>
        simp only [synthWith, yields_bind, yields_pure] at h
        obtain ⟨_, n₁, hdom, cod, _, hbody, rfl, rfl⟩ := h
        have hn₁ := checkWith_forward fuel _ _ _ hdom
        cases alike_of_nameless_eq heq with
        | @pi _ w _ _ dom' cod' hdoms hcods =>
          have hagain {r : Except TypeError Unit} {i : Nat}
              (h : Returns (env.checkWith fuel' Γ dom .univ).run k r i) :
              r = .ok () ∧ i = n₁ + (k - n) :=
            checkWith_again hsig hn hk hΓ ht.2.1 (by trivial) hdom h
          rcases checkWith_lam_pi hrun with ⟨e, he⟩ | ⟨i, same, j, hdom', hsame, hrest⟩
          · cases (hagain he).1
          · -- The second run is ahead of the first one at every stage.
            obtain ⟨-, rfl⟩ := hagain hdom'
            have hj := env.convertible_forward _ _ hsame
            have hi : n₀ ≤ n₁ + (k - n) := by omega
            have hki : k ≤ n₁ + (k - n) := by omega
            have hnext := apply_next (.single w (.var v)) cod' j
            obtain rfl := convertible_eq_true hclosed ((bodiesBelow hsig).mono hi)
              (AllBelow.mono hi ht.2.1) (AllBelow.mono hki hexpected.2.1) hdoms
              hsame
            obtain ⟨hform, hbelow⟩ := nameless_single_eq
              (AllBelow.mono (hki.trans hj) hexpected.2.2)
              (ht.1.trans_le (hi.trans hj)) hcods
            exact ih (by omega) (by omega) (all_concat hΓ ht.1 ht.2.1) ht.2.2 hbelow hform
              hbody (hrest rfl)
      | case | absurd => exact (yields_throw h).elim
      | univ | var | global | pi | app | ann =>
        change Returns (env.checkSynth fuel' Γ _ expected).run k r l at hrun
        exact checkSynth_of_synthWith hclosed hsig hn hk hΓ ht hexpected heq h hrun

/-- What is inferred for a term, it is accepted at, and at every type that equals it up to bound
variables. -/
theorem check_of_synth (hclosed : env.Closed) (hsig : env.sig.AllBelow n)
    (hΓ : Γ.All Term.AllBelow n) (ht : t.AllBelow n) {type expected : Term}
    (h : Yields (env.synth Γ t) n type m) (heq : type.alphaEq expected = true) (hk : n ≤ k)
    (hexpected : expected.AllBelow k) :
    ∀ r l, Returns (env.check Γ t expected).run k r l → r = .ok () :=
  fun _ _ hrun => checkWith_of_synthWith hclosed hsig env.fuel (le_refl n) hk hΓ ht hexpected
    ((alphaEq_iff _ _).1 heq) h hrun

end Env

namespace Inference

open Families

def y : Var := ⟨2, "y"⟩

def k : Var := ⟨3, "k"⟩

/-- `case n of { zero => zero | succ v => v }` -/
def predecessor (v : Var) : Term :=
  .case (.var n) (.cons "zero" [] (.global "zero") (.cons "succ" [v] (.var v) .nil))

/-- `fun (x : K n) => (fun (y : Type) => fun (k : y) => k) (K (case n of ...))` -/
def literal : Term :=
  .lam x (const (.var n)) (.app (.lam y .univ (.lam k (.var y) (.var k))) (const (predecessor k)))

/-- `Pi (v : K n), Pi (w : K (case n of ...)), K (case n of ...)` -/
def literalType (v w z : Var) : Term :=
  .pi v (const (.var n)) (.pi w (const (predecessor z)) (const (predecessor z)))

/-- The inferred type has a binder that was taken from the supply; in the other one all binders
are the same variable. -/
theorem literal_accepted :
    env.Closed ∧ env.sig.AllBelow 4 ∧ Telescope.All Term.AllBelow 4 [(n, nat)] ∧
      literal.AllBelow 4 ∧
      Eval.Yields (env.synth [(n, nat)] literal) 4 (literalType x ⟨4, "k"⟩ k) 5 ∧
      literalType x ⟨4, "k"⟩ k ≠ literalType x x x ∧
      (literalType x ⟨4, "k"⟩ k).alphaEq (literalType x x x) = true ∧
      (literalType x x x).AllBelow 4 ∧
      ∃ l, Eval.Returns (env.check [(n, nat)] literal (literalType x x x)).run 4 (.ok ()) l := by
  have hsig : env.sig.AllBelow 4 := by decide
  have hΓ : Telescope.All Term.AllBelow 4 [(n, nat)] := by
    unfold Telescope.All
    decide
  have ht : literal.AllBelow 4 := by decide
  have hsynth : Eval.Yields (env.synth [(n, nat)] literal) 4 (literalType x ⟨4, "k"⟩ k) 5 := by rfl
  have heq : (literalType x ⟨4, "k"⟩ k).alphaEq (literalType x x x) = true := by decide
  have hexpected : (literalType x x x).AllBelow 4 := by decide
  have hrun : ((env.check [(n, nat)] literal (literalType x x x)).run 4).isSome = true := by
    decide +kernel
  obtain ⟨⟨r, l⟩, hr⟩ := Option.isSome_iff_exists.1 hrun
  obtain rfl : r = .ok () := Env.check_of_synth env_closed hsig hΓ ht hsynth heq (le_refl 4)
    hexpected r l hr
  exact ⟨env_closed, hsig, hΓ, ht, hsynth, by decide, heq, hexpected, l, hr⟩

end Inference

end Clausal
