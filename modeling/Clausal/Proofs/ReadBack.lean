import Clausal.Proofs.Printing

/-!
# Printed terms read back

The text of a closed term without case splits is read as a term that resolves to
the same term, up to the choice of bound variables.  Three things can stand in the
way: a display name that is also the name of a global, a name that is not a name of
the language, and a domain that looks like parameters.
-/

namespace Clausal

open Fresh List Reach
open Surface (Phrase Operand Scope Locals)

variable {v : Var} {m : Nat} {t : Term} {u : Clausal.Term}

/-! ### Free variables -/

/-- The given variables, and the globals of a signature. -/
def Reach.within (sig : Signature) (vs : List Var) : Reach :=
  { vars := (· ∈ vs), globals := fun c => sig.contains c = true }

lemma Reach.within_cons (sig : Signature) (v : Var) (vs : List Var) :
    (within sig vs).bind [v] = within sig (v :: vs) := by
  simp [bind, within]

lemma Term.Over.unused (hoccurs : t.occurs v = false)
    (h : t.Over ((within sig vs).bind [v])) :
    t.Over { within sig vs with vars := fun x => x ∈ vs ∧ x ≠ v } := by
  refine h.restrict fun x hx ho => ?_
  have hne : x ≠ v := by
    rintro rfl
    rw [hoccurs] at ho
    cases ho
  exact ⟨hx.resolve_left (by simpa using hne), hne⟩

/-! ### Resolution does not depend on places -/

namespace Surface.Scope

lemma bindNames_unplaced (locals : Locals) (type : Clausal.Term) (idents : List Ident) :
    bindNames locals type (idents.map (·.unplaced)) = bindNames locals type idents := by
  induction idents generalizing locals with
  | nil => rfl
  | cons i idents ih =>
    rw [map_cons, bindNames, bindNames]
    simp only [ih]
    rfl

variable {scope : Scope} {locals : Locals}

lemma name_unplaced (span : Span) (h : Yields (scope.name locals nowhere n) k u m) :
    Yields (scope.name locals span n) k u m := by
  rw [Scope.name] at h ⊢
  split at h
  · exact h
  · split at h <;> simp at h

lemma params_unplaced
    (h : ∀ p ∈ ps, ∀ locals n u m, Yields (scope.term locals p.type.unplaced) n u m →
      Yields (scope.term locals p.type) n u m)
    (hps : Yields (scope.params locals (paramsUnplaced ps)) n r m) :
    Yields (scope.params locals ps) n r m := by
  induction ps generalizing locals n m r with
  | nil => exact hps
  | cons p ps ih =>
    obtain ⟨hp, hrest⟩ := forall_mem_cons.mp h
    obtain ⟨names, type⟩ := p
    simp only [paramsUnplaced, Param.unplaced, Scope.params, Scope.param, bindNames_unplaced,
      yields_bind] at hps ⊢
    obtain ⟨first, k, ⟨t, j, ht, hnames⟩, second, l, hsecond, hr⟩ := hps
    exact ⟨first, k, ⟨t, j, hp locals n t j ht, hnames⟩, second, l, ih hrest hsecond, hr⟩

/-- A term resolves as it does without places. -/
lemma term_unplaced (h : Yields (scope.term locals t.unplaced) n u m) :
    Yields (scope.term locals t) n u m := by
  induction t using Term.induct generalizing locals n u m with
  | name span x => exact name_unplaced span h
  | univ span => exact h
  | ann span t type iht ihtype =>
    simp only [Term.unplaced, Scope.term, yields_bind] at h ⊢
    obtain ⟨t', k, ht, type', l, htype, hu⟩ := h
    exact ⟨t', k, iht ht, type', l, ihtype htype, hu⟩
  | arrow span dom cod ihdom ihcod =>
    simp only [Term.unplaced, Scope.term, yields_bind] at h ⊢
    obtain ⟨dom', k, hdom, cod', l, hcod, hu⟩ := h
    exact ⟨dom', k, ihdom hdom, cod', l, ihcod hcod, hu⟩
  | pi span ps body ihps ihbody | lam span ps body ihps ihbody =>
    simp only [Term.unplaced, Scope.term, yields_bind] at h ⊢
    obtain ⟨r, k, hr, body', l, hbody, hu⟩ := h
    exact ⟨r, k, params_unplaced (fun p hp _ _ _ _ => ihps p hp) hr, body', l, ihbody hbody, hu⟩
  | app span head arg ihhead iharg =>
    simp only [Term.unplaced, Scope.term, yields_bind] at h ⊢
    obtain ⟨head', k, hhead, arg', l, harg, hu⟩ := h
    exact ⟨head', k, ihhead hhead, arg', l, iharg harg, hu⟩

end Surface.Scope

/-! ### The trees of printed terms -/

namespace Surface

lemma operandsTree_append (t : Term) (as bs : List Operand) :
    operandsTree t (as ++ bs) = operandsTree (operandsTree t as) bs := by
  induction as generalizing t with
  | nil => rfl
  | cons a as ih => rw [cons_append, operandsTree, ih, operandsTree]

lemma Phrase.head_args_tree (p : Phrase) : operandsTree p.head.tree p.args = p.tree := by
  cases p <;> rfl

end Surface

namespace Term

variable (δ : Var → Name)

/-- The surface term that is read for a term. -/
def tree (t : Term) : Surface.Term := (t.printed δ).tree

lemma tree_app (f a : Term) :
    (Term.app f a).tree δ = .app Surface.nowhere (f.tree δ) (a.tree δ) := by
  rw [tree, printed, Phrase.tree, Surface.operandsTree_append, Phrase.head_args_tree,
    Surface.operandsTree, Surface.operandsTree, Phrase.operand_tree]
  rfl

lemma tree_pi (h : cod.occurs v = true) :
    (Term.pi v dom cod).tree δ =
      .pi Surface.nowhere [.mk [⟨Surface.nowhere, δ v⟩] (dom.tree δ)] (cod.tree δ) := by
  rw [tree, printed, if_pos h]
  rfl

lemma tree_arrow (h : cod.occurs v = false) :
    (Term.pi v dom cod).tree δ = .arrow Surface.nowhere (dom.tree δ) (cod.tree δ) := by
  have hne : ¬ cod.occurs v = true := by simp [h]
  rw [tree, printed, if_neg hne, Phrase.tree, Phrase.head_args_tree]
  rfl

end Term

/-! ### Resolving a printed term -/

/-- All names of what is read for a term below some binders can be resolved, and its nameless form
is that of the term. -/
def Term.ReadsAs (sig : Signature) (names : Naming) (vs : List Var) (t : Term) : Prop :=
  (∀ o ∈ (t.tree names.display).occurrences (vs.map names.display), o.Resolvable ⟨sig, []⟩ []) ∧
    Scope.form ⟨sig, []⟩ [] (vs.map names.display) (t.tree names.display) = t.nameless vs

section

variable {sig : Signature} {names : Naming} {vs : List Var}

/-- The display name of a bound variable stands for that variable. -/
lemma Naming.Proper.meaning_var (hproper : names.Proper)
    (hvs : ∀ w ∈ vs, (names.nameOf? w).isSome) (hv : (names.nameOf? v).isSome) (hmem : v ∈ vs) :
    Scope.meaning ⟨sig, []⟩ [] (names.display v) (vs.map names.display) = v.locate vs := by
  induction vs with
  | nil => cases hmem
  | cons w vs ih =>
    rw [map_cons, Scope.meaning, Var.locate]
    -- A binder further in has the same display name only if it is the same variable.
    by_cases hw : w = v
    · rw [if_pos (congrArg names.display hw), if_pos hw]
    · have hdisplay : names.display w ≠ names.display v := fun heq =>
        hw (hproper.eq_of_display_eq (hvs w (.head vs)) hv heq)
      rw [if_neg hdisplay, if_neg hw, ih (fun x hx => hvs x (.tail w hx))
        ((mem_cons.1 hmem).resolve_left (Ne.symm hw))]

/-- The name of a global stands for no local. -/
lemma Naming.meaning_global (hvs : ∀ w ∈ vs, (names.nameOf? w).isSome)
    (hc : ∀ entry ∈ names.given, entry.2 ≠ c) :
    Scope.meaning ⟨sig, []⟩ [] c (vs.map names.display) = .global c := by
  induction vs with
  | nil =>
    change Term.nameless [] (Option.getD (if sig.contains c then _ else _) _) = _
    split <;> rfl
  | cons w vs ih =>
    obtain ⟨hw, hvs⟩ := forall_mem_cons.1 hvs
    obtain ⟨s, hs⟩ := Option.isSome_iff_exists.1 hw
    have hne : names.display w ≠ c := by
      simpa [Naming.display, hs] using hc _ (Naming.mem_of_nameOf? hs)
    rw [map_cons, Scope.meaning, if_neg hne, ih hvs]
    rfl

variable (hproper : names.Proper) (hapart : ∀ entry ∈ names.given, sig.contains entry.2 = false)

include hproper hapart in
/-- Reading finds the term again, by induction on it; binders push their names. -/
lemma Term.readsAs : (t : Term) → t.plain = true → t.Named names → (vs : List Var) →
    (∀ w ∈ vs, (names.nameOf? w).isSome) → t.Over (.within sig vs) → t.ReadsAs sig names vs
  | .univ, _, _, vs, _, _ => ⟨forall_mem_nil _, rfl⟩
  | .var v, _, hnamed, vs, hvs, hover =>
    ⟨forall_mem_singleton.2 (.inl (mem_map_of_mem hover)),
      hproper.meaning_var hvs hnamed hover⟩
  | .global c, _, _, vs, hvs, hover => by
    refine ⟨forall_mem_singleton.2 (.inr (.inr hover)),
      Naming.meaning_global hvs fun entry hentry heq => ?_⟩
    have hother := hapart entry hentry
    rw [heq, show sig.contains c = true from hover] at hother
    cases hother
  | .pi v dom cod, h, hnamed, vs, hvs, hover => by
    simp only [Term.plain, Bool.and_eq_true] at h
    have hdom := Term.readsAs dom h.1.2 hnamed.2.1 vs hvs hover.1
    cases hoccurs : cod.occurs v with
    | true =>
      obtain ⟨hcod, hform⟩ := Term.readsAs cod h.2 hnamed.2.2 (v :: vs)
        (forall_mem_cons.2 ⟨hnamed.1 hoccurs, hvs⟩) (within_cons sig v _ ▸ hover.2)
      rw [ReadsAs, tree_pi _ hoccurs]
      exact ⟨forall_mem_append.2 ⟨forall_mem_append.2 ⟨hdom.1, forall_mem_nil _⟩, hcod⟩,
        congrArg₂ Nameless.pi hdom.2 hform⟩
    | false =>
      have hunused := Term.Over.unused hoccurs hover.2
      have hcodOver : cod.Over (.within sig vs) := by
        refine Term.Over.mono ?_ hunused
        exact ⟨fun _ hx => hx.1, fun _ hc => hc, fun hs => hs⟩
      obtain ⟨hcod, hform⟩ := Term.readsAs cod h.2 hnamed.2.2 vs hvs hcodOver
      rw [ReadsAs, tree_arrow _ hoccurs]
      refine ⟨forall_mem_append.2 ⟨hdom.1, hcod⟩, ?_⟩
      rw [Scope.form, hdom.2, hform, Term.nameless, Term.nameless_cons hunused (by simp)]
  | .lam v dom body, h, hnamed, vs, hvs, hover => by
    simp only [Term.plain, Bool.and_eq_true] at h
    have hdom := Term.readsAs dom h.1.2 hnamed.2.1 vs hvs hover.1
    obtain ⟨hbody, hform⟩ := Term.readsAs body h.2 hnamed.2.2 (v :: vs)
      (forall_mem_cons.2 ⟨hnamed.1, hvs⟩) (within_cons sig v _ ▸ hover.2)
    exact ⟨forall_mem_append.2 ⟨forall_mem_append.2 ⟨hdom.1, forall_mem_nil _⟩, hbody⟩,
      congrArg₂ Nameless.lam hdom.2 hform⟩
  | .app f a, h, hnamed, vs, hvs, hover => by
    simp only [Term.plain, Bool.and_eq_true] at h
    have hf := Term.readsAs f h.1 hnamed.1 vs hvs hover.1
    have ha := Term.readsAs a h.2 hnamed.2 vs hvs hover.2
    rw [ReadsAs, tree_app]
    exact ⟨forall_mem_append.2 ⟨hf.1, ha.1⟩, congrArg₂ Nameless.app hf.2 ha.2⟩
  | .ann t type, h, hnamed, vs, hvs, hover => by
    simp only [Term.plain, Bool.and_eq_true] at h
    have ht := Term.readsAs t h.1 hnamed.1 vs hvs hover.1
    have htype := Term.readsAs type h.2 hnamed.2 vs hvs hover.2
    exact ⟨forall_mem_append.2 ⟨ht.1, htype.1⟩, congrArg₂ Nameless.ann ht.2 htype.2⟩

end

/-- A printed term reads back as itself, up to bound variables: if the term is
closed and without case splits, if its names can be written, if no display name is
the name of a global, and if no domain looks like parameters. -/
theorem Term.printed_reads_back (sig : Signature) (t : Term) (hplain : t.plain = true)
    (hclosed : t.Over (.within sig [])) (hdomains : t.clearDomains = true)
    (hapart : ∀ entry ∈ (Print.names t).given, sig.contains entry.2 = false) (n : Nat) :
    ∃ u, Surface.parseTerm (Print.fresh (Print.render t)) = (some u, []) ∧
      ∃ t' m, Yields (Scope.term ⟨sig, []⟩ [] u) n t' m ∧ t.alphaEq t' = true := by
  have hproper := Print.names_proper hplain
  have hnamed : t.Named (Print.names t) := Print.term_named t hplain .top {}
  obtain ⟨u, hparse, hu⟩ := Surface.parseTerm_of_lexes (Print.render_lexes hplain)
    (Term.printed_clear (Print.names t).display hplain hdomains)
  obtain ⟨hnames, hform⟩ := Term.readsAs hproper hapart t hplain hnamed [] (by simp) hclosed
  obtain ⟨t', m, hyields, hresolved⟩ := Surface.Scope.term_resolves hnames n
  refine ⟨u, hparse, t', m, Surface.Scope.term_unplaced ?_, ?_⟩
  · rw [hu]
    exact hyields
  · have hread := hresolved.form (Surface.Scope.apart_nil (by simp))
    exact (Term.alphaEqUnder_iff [] t t').mpr (hform.symm.trans hread.symm)

namespace ReadBack

/-- Natural numbers with a function. -/
def sig : Signature :=
  { entries := [("Nat", .postulate .univ), ("f", .postulate (.global "Nat"))] }

/-- Two variables of the same name, below each other. -/
def shadowing : Term :=
  .lam ⟨0, "x"⟩ .univ (.lam ⟨1, "x"⟩ (.pi ⟨2, "_"⟩ (.global "Nat") (.var ⟨0, "x"⟩))
    (.app (.ann (.app (.global "f") (.var ⟨1, "x"⟩)) .univ) (.var ⟨0, "x"⟩)))

theorem shadowing_reads_back :
    ∃ u, Surface.parseTerm (Print.fresh (Print.render shadowing)) = (some u, []) ∧
      ∃ t' m, Yields (Scope.term ⟨sig, []⟩ [] u) 0 t' m ∧ shadowing.alphaEq t' = true := by
  refine Term.printed_reads_back sig shadowing (by decide) ?_ (by decide) (by decide) 0
  simp [shadowing, Term.Over, Reach.within, Reach.bind, sig, Signature.contains, Signature.get?]

/-- A function type with an annotated domain. -/
def annotated : Term := .pi ⟨0, "_"⟩ (.ann (.global "Nat") .univ) (.global "Nat")

/-- Its domain looks like a parameter.  What is read back binds the global. -/
theorem annotated_domain_misread :
    ∃ u, Surface.parseTerm (Print.fresh (Print.render annotated)) = (some u, []) ∧
      ∃ t' m, Yields (Scope.term ⟨sig, []⟩ [] u) 0 t' m ∧ annotated.alphaEq t' = false := by
  have hplain : annotated.plain = true := by decide
  let parameter : Phrase := .spine .univ []
  let body : Phrase := .spine (.name "Nat") []
  obtain ⟨u, hparse, hu⟩ := Surface.parseTerm_of_lexes (p := .pi [.mk ["Nat"] parameter] body)
    (Print.render_lexes hplain) ⟨by simp, ⟨⟨by simp, trivial, trivial⟩, trivial⟩, trivial, trivial⟩
  refine ⟨u, hparse, .pi ⟨0, "Nat"⟩ .univ (.var ⟨0, "Nat"⟩), 1,
    Surface.Scope.term_unplaced ?_, by decide⟩
  rw [hu]
  exact ⟨rfl, rfl⟩

end ReadBack

end Clausal
