import Clausal.Proofs.Commit
import Mathlib.Data.List.Perm.Subperm

/-!
# Display names

A printer names variables as it meets them.  No two variables get the same display
name, a name once given stays, and display names are names of the language if the
names of the variables are.
-/

namespace Clausal

open List Option

variable {names : Naming} {v : Var} {s : Name}

/-! ### Numbered names -/

namespace Lexeme

lemma nameRest_append (hcs : nameRest cs = true) (hds : ∀ d ∈ ds, isNameChar d = true) :
    nameRest (cs ++ ds) = true := by
  fun_induction nameRest cs with
  | case1 =>
    induction ds with
    | nil => rfl
    | cons d ds ih =>
      obtain ⟨hd, hds⟩ := forall_mem_cons.mp hds
      rw [nil_append, nameRest_cons hd]
      exact ih hds
  | case2 c cs ih =>
    obtain ⟨hc, hcs⟩ := Bool.and_eq_true_iff.mp hcs
    rw [cons_append, cons_append, nameRest, hc, ih hcs]
    rfl
  | case3 c cs _ ih =>
    obtain ⟨hc, hcs⟩ := Bool.and_eq_true_iff.mp hcs
    rw [cons_append, nameRest_cons hc]
    exact ih hcs

lemma isNameChar_of_isDigit (h : c.isDigit = true) : isNameChar c = true := by
  simp [isNameChar, Char.isAlphanum, h]

end Lexeme

namespace Naming

/-- A name with a number. -/
def candidate (base : Name) (n : Nat) : Name := base ++ "_" ++ toString n

variable {base : Name}

lemma candidate_inj (h : candidate base i = candidate base j) : i = j :=
  Name.toString_inj ((String.append_right_inj _).1 h)

/-- Numbering a name that can be read gives a name that can be read. -/
lemma candidate_lexical (h : base.Lexical) (n : Nat) : Name.Lexical (candidate base n) := by
  have hlist : (candidate base n).toList = base.toList ++ ('_' :: (toString n).toList) := by
    simp [candidate, String.toList_append]
  have htail : ∀ d ∈ '_' :: (toString n).toList, Lexeme.isNameChar d = true := by
    refine forall_mem_cons.mpr ⟨by decide, fun d hd => ?_⟩
    exact Lexeme.isNameChar_of_isDigit (Name.isDigit_of_mem_toString hd)
  obtain ⟨hword, -, -⟩ := h
  cases hbase : base.toList with
  | nil =>
    rw [hbase] at hword
    cases hword
  | cons c cs =>
    rw [hbase] at hword hlist
    obtain ⟨hc, hcs⟩ := Bool.and_eq_true_iff.mp hword
    refine ⟨?_, ?_, fun k hk heq => ?_⟩
    · rw [hlist, cons_append, Name.isWord, hc, Lexeme.nameRest_append hcs htail]
      rfl
    · -- A lone underscore is too short.
      intro heq
      have hlength := congrArg (fun s : String => s.toList.length) heq
      rw [hlist] at hlength
      simp [Name.underscore] at hlength
    · -- Reserved words have no underscores.
      have hnone : ∀ k ∈ Keyword.all, '_' ∉ k.text.toList := by decide
      apply hnone k hk
      rw [heq, hlist]
      simp

/-! ### Choosing a name -/

lemma isUsed_iff : names.isUsed s = true ↔ s ∈ names.given.map (·.2) := by
  simp [isUsed]

/-- The search goes past used names only, and stops at an unused one or after the last try. -/
lemma numbered_eq (names : Naming) (base : Name) (tries n : Nat) :
    ∃ k, n ≤ k ∧ names.numbered base tries n = candidate base k ∧
      (∀ i, n ≤ i → i < k → names.isUsed (candidate base i) = true) ∧
      (names.isUsed (candidate base k) = true → k = n + tries) := by
  fun_induction numbered names base tries n with
  | case1 n => exact ⟨n, le_refl n, rfl, by omega, fun _ => rfl⟩
  | case2 tries n _ hused ih =>
    obtain ⟨k, hk, heq, hall, hlast⟩ := ih
    refine ⟨k, Nat.le_of_succ_le hk, heq, fun i hi hik => ?_, fun h => by have := hlast h; omega⟩
    rcases Nat.eq_or_lt_of_le hi with rfl | hi
    · exact hused
    · exact hall i hi hik
  | case3 tries n _ hunused =>
    exact ⟨n, le_refl n, rfl, by omega, fun h => (hunused h).elim⟩

/-- There are more numbered names to look at than names in use. -/
lemma numbered_first (names : Naming) (base : Name) (n : Nat) :
    ∃ k, n ≤ k ∧ names.numbered base names.given.length n = candidate base k ∧
      (∀ i, n ≤ i → i < k → names.isUsed (candidate base i) = true) ∧
      names.isUsed (candidate base k) = false := by
  obtain ⟨k, hk, heq, hall, hlast⟩ := numbered_eq names base names.given.length n
  refine ⟨k, hk, heq, hall, Bool.eq_false_iff.2 fun hused => ?_⟩
  obtain rfl := hlast hused
  -- By counting: the names looked at are distinct, and there is one too many.
  let tried := (range (names.given.length + 1)).map fun i => candidate base (n + i)
  have hnodup : tried.Nodup := by
    refine Nodup.map (fun i j h => ?_) nodup_range
    have := candidate_inj h
    omega
  have hsubset : tried ⊆ names.given.map (·.2) := by
    intro s hs
    obtain ⟨i, hi, rfl⟩ := mem_map.mp hs
    rw [← isUsed_iff]
    rcases Nat.eq_or_lt_of_le (Nat.le_of_lt_succ (mem_range.mp hi)) with rfl | hi
    · exact hused
    · exact hall (n + i) (by omega) (by omega)
  have hlength := (subperm_of_subset hnodup hsubset).length_le
  simp only [tried, length_map, length_range] at hlength
  omega

end Naming

/-- The name of a variable is a name of the language, or tells that it has none. -/
def Var.nameable (v : Var) : Bool := v.name.isUnderscore || decide v.name.Lexical

namespace Naming

/-- The first unused of the names a variable can get: its own, or else its own with a number. -/
def FirstUnused (names : Naming) (v : Var) (s : Name) : Prop :=
  names.isUsed s = false ∧ (s = base v ∨ names.isUsed (base v) = true ∧
    ∃ k, 2 ≤ k ∧ s = candidate (base v) k ∧
      ∀ i, 2 ≤ i → i < k → names.isUsed (candidate (base v) i) = true)

lemma choose_first (names : Naming) (v : Var) : names.FirstUnused v (names.choose v) := by
  rw [choose]
  split
  · next hused =>
    obtain ⟨k, hk, heq, hall, hunused⟩ := numbered_first names (base v) 2
    exact ⟨heq ▸ hunused, .inr ⟨hused, k, hk, heq, hall⟩⟩
  · next hunused => exact ⟨by simpa using hunused, .inl rfl⟩

lemma choose_lexical (names : Naming) (hv : v.nameable = true) :
    Name.Lexical (names.choose v) := by
  have hbase : Name.Lexical (base v) := by
    rw [base]
    split
    · decide
    · next h => simpa [Var.nameable, h] using hv
  rcases (choose_first names v).2 with heq | ⟨-, k, -, heq, -⟩
  · rwa [heq]
  · rw [heq]
    exact candidate_lexical hbase k

/-! ### Names that are given -/

/-- No display name is given twice. -/
def Distinct (names : Naming) : Prop := (names.given.map (·.2)).Nodup

/-- Display names are distinct, and names of the language. -/
structure Proper (names : Naming) : Prop where
  distinct : names.Distinct
  lexical : ∀ entry ∈ names.given, Name.Lexical entry.2

/-- Names once given stay. -/
def Le (names names' : Naming) : Prop :=
  ∀ v s, names.nameOf? v = some s → names'.nameOf? v = some s

lemma Le.refl (names : Naming) : names.Le names := fun _ _ h => h

lemma Le.trans {names₁ : Naming} (h : names₁.Le names₂) (h' : names₂.Le names₃) :
    names₁.Le names₃ := fun v s hs => h' v s (h v s hs)

lemma Le.isSome (h : names.Le names') (hv : (names.nameOf? v).isSome) :
    (names'.nameOf? v).isSome := by
  obtain ⟨s, hs⟩ := isSome_iff_exists.mp hv
  exact isSome_of_eq_some (h v s hs)

/-- The display name of a variable that has one. -/
def display (names : Naming) (v : Var) : Name := (names.nameOf? v).getD ""

lemma mem_of_nameOf? (h : names.nameOf? v = some s) : (v, s) ∈ names.given := by
  obtain ⟨entry, hfind, rfl⟩ := map_eq_some_iff.mp h
  have hv : entry.1 = v := by simpa using find?_some hfind
  rw [← hv]
  exact mem_of_find?_eq_some hfind

/-- Variables with the same display name are the same. -/
lemma Distinct.eq_of_nameOf? (h : names.Distinct) (hv : names.nameOf? v = some s)
    (hw : names.nameOf? w = some s) : v = w :=
  congrArg Prod.fst (inj_on_of_nodup_map h (mem_of_nameOf? hv) (mem_of_nameOf? hw) rfl)

lemma Proper.eq_of_display_eq (h : names.Proper) (hv : (names.nameOf? v).isSome)
    (hw : (names.nameOf? w).isSome) (heq : names.display v = names.display w) : v = w := by
  obtain ⟨s, hs⟩ := isSome_iff_exists.mp hv
  obtain ⟨s', hs'⟩ := isSome_iff_exists.mp hw
  simp only [display, hs, hs', getD_some] at heq
  exact h.distinct.eq_of_nameOf? hs (heq ▸ hs')

end Naming

namespace Print

/-- What asking for a display name does: the variable has it then, other variables
keep theirs. -/
lemma varName_spec (v : Var) (names : Naming) :
    names.Le ((varName v).run names).2 ∧
      ((varName v).run names).2.nameOf? v = some ((varName v).run names).1 ∧
      (names.Distinct → ((varName v).run names).2.Distinct) ∧
      (v.nameable = true → names.Proper → ((varName v).run names).2.Proper) := by
  change names.Le (varName v names).2 ∧ (varName v names).2.nameOf? v = some (varName v names).1 ∧
    (names.Distinct → (varName v names).2.Distinct) ∧
    (v.nameable = true → names.Proper → (varName v names).2.Proper)
  rw [varName]
  cases hv : names.nameOf? v with
  | some s => exact ⟨.refl names, hv, id, fun _ h => h⟩
  | none =>
    have hdistinct (h : names.Distinct) : Naming.Distinct ⟨(v, names.choose v) :: names.given⟩ := by
      have hunused := (names.choose_first v).1
      rw [← Bool.not_eq_true, Naming.isUsed_iff] at hunused
      exact nodup_cons.mpr ⟨hunused, h⟩
    refine ⟨fun w s hw => ?_, ?_, hdistinct, fun hname h => ⟨hdistinct h.distinct, ?_⟩⟩
    · have hne : v ≠ w := by
        rintro rfl
        rw [hv] at hw
        cases hw
      simpa [Naming.nameOf?, hne] using hw
    · simp [Naming.nameOf?]
    · exact forall_mem_cons.mpr ⟨names.choose_lexical hname, h.lexical⟩

lemma varName_of_none (h : names.nameOf? v = none) :
    ((varName v).run names).1 = names.choose v := by
  change (varName v names).1 = _
  rw [varName, h]

/-! ### Histories -/

/-- Printing names variables and does nothing else to a naming. -/
def Names {α : Type} (p : Print α) : Prop :=
  ∀ names : Naming, ∃ vs : List Var,
    (p.run names).2 = vs.foldl (fun names v => ((varName v).run names).2) names

namespace Names

variable {α β : Type}

protected lemma pure (a : α) : Names (pure a : Print α) := fun _ => ⟨[], rfl⟩

protected lemma bind (hp : Names p) (hf : ∀ a, Names (f a)) : Names (p >>= f) := by
  intro names
  obtain ⟨vs, hvs⟩ := hp names
  obtain ⟨ws, hws⟩ := hf (p.run names).1 (p.run names).2
  refine ⟨vs ++ ws, ?_⟩
  rw [foldl_append, ← hvs, ← hws]
  rfl

lemma var (v : Var) : Names (var v) := fun _ => ⟨[v], rfl⟩

lemma forM (hf : ∀ a, Names (f a)) (as : List α) : Names (as.forM f) := by
  induction as with
  | nil => exact .pure _
  | cons a as ih => exact (hf a).bind fun _ => ih

lemma mapM (hf : ∀ a, Names (f a)) (as : List α) : Names (as.mapM f) := by
  induction as with
  | nil =>
    rw [mapM_nil]
    exact .pure _
  | cons a as ih =>
    rw [mapM_cons]
    exact (hf a).bind fun _ => ih.bind fun _ => .pure _

end Names

mutual

/-- Printing only ever names variables, by induction on the term. -/
lemma term_names : (t : Term) → (prec : Prec) → Names (term prec t)
  | .univ, _ | .global _, _ => .pure _
  | .var v, _ => .var v
  | .pi v dom cod, prec => by
    rw [term]
    split
    · exact (Names.var v).bind fun _ => (term_names dom _).bind fun _ =>
        (term_names cod _).bind fun _ => .pure _
    · exact (term_names dom _).bind fun _ => (term_names cod _).bind fun _ => .pure _
  | .lam v dom body, _ => (Names.var v).bind fun _ => (term_names dom _).bind fun _ =>
      (term_names body _).bind fun _ => .pure _
  | .app a b, _ | .ann a b, _ =>
      (term_names a _).bind fun _ => (term_names b _).bind fun _ => .pure _
  | .case scrut bs, _ =>
      (term_names scrut _).bind fun _ => (branches_names bs).bind fun _ => .pure _
  | .absurd scrut, _ => (term_names scrut _).bind fun _ => .pure _

lemma branches_names : (bs : Branches) → Names (branches bs)
  | .nil => .pure _
  | .cons _ fields body rest => (Names.mapM .var fields).bind fun _ =>
      (term_names body _).bind fun _ => (branches_names rest).bind fun _ => .pure _

end

/-- What a printer can be asked for. -/
inductive Request where
  | bindTelescope (Γ : Telescope)
  | render (t : Term)
  | renderTelescope (Γ : Telescope)
  | term (prec : Prec) (t : Term)

/-- The display names after a request. -/
def Request.run (names : Naming) : Request → Naming
  | .bindTelescope Γ => ((Print.bindTelescope Γ).run names).2
  | .render t => ((Print.render t).run names).2
  | .renderTelescope Γ => ((Print.renderTelescope Γ).run names).2
  | .term prec t => ((Print.term prec t).run names).2

/-- The display names after requests to a new printer. -/
def namesAfter (requests : List Request) : Naming := requests.foldl Request.run {}

lemma Request.run_eq (r : Request) (names : Naming) : ∃ vs : List Var,
    r.run names = vs.foldl (fun names v => ((varName v).run names).2) names := by
  cases r with
  | bindTelescope Γ => exact Names.forM (fun e => fun _ => ⟨[e.1], rfl⟩) Γ names
  | render t => exact ((term_names t .top).bind fun _ => .pure _) names
  | renderTelescope Γ =>
    rw [run, Print.renderTelescope]
    refine Names.mapM (fun e => ?_) Γ names
    exact (Names.var e.1).bind fun _ => (term_names e.2 .top).bind fun _ => .pure _
  | term prec t => exact term_names t prec names

lemma foldl_varName (vs : List Var) (names : Naming) :
    names.Le (vs.foldl (fun names v => ((varName v).run names).2) names) ∧
      (names.Distinct → (vs.foldl (fun names v => ((varName v).run names).2) names).Distinct) := by
  induction vs generalizing names with
  | nil => exact ⟨.refl names, id⟩
  | cons v vs ih =>
    obtain ⟨hle, -, hdistinct, -⟩ := varName_spec v names
    exact ⟨hle.trans (ih _).1, fun h => (ih _).2 (hdistinct h)⟩

lemma foldl_run (requests : List Request) (names : Naming) :
    names.Le (requests.foldl Request.run names) ∧
      (names.Distinct → (requests.foldl Request.run names).Distinct) := by
  induction requests generalizing names with
  | nil => exact ⟨.refl names, id⟩
  | cons r requests ih =>
    obtain ⟨vs, hvs⟩ := r.run_eq names
    obtain ⟨hle, hdistinct⟩ := foldl_varName vs names
    rw [foldl_cons, hvs]
    exact ⟨hle.trans (ih _).1, fun h => (ih _).2 (hdistinct h)⟩

/-- Whatever is printed, a variable keeps the display name it first got, and no two variables have
the same one.  A variable that is met for the first time gets the first name that is unused. -/
theorem displayNames_identify (requests : List Request) :
    (∀ later v s, (namesAfter requests).nameOf? v = some s →
      (namesAfter (requests ++ later)).nameOf? v = some s) ∧
    (∀ v w s, (namesAfter requests).nameOf? v = some s →
      (namesAfter requests).nameOf? w = some s → v = w) ∧
    ∀ v, ((varName v).run (namesAfter requests)).2.nameOf? v =
        some ((varName v).run (namesAfter requests)).1 ∧
      ((namesAfter requests).nameOf? v = none →
        (namesAfter requests).FirstUnused v ((varName v).run (namesAfter requests)).1) := by
  have hdistinct : (namesAfter requests).Distinct := (foldl_run requests {}).2 List.nodup_nil
  refine ⟨fun later v s hs => ?_, fun v w s => hdistinct.eq_of_nameOf?, fun v => ?_⟩
  · rw [namesAfter, foldl_append]
    exact (foldl_run later (namesAfter requests)).1 v s hs
  · exact ⟨(varName_spec v _).2.1, fun hnone => varName_of_none hnone ▸ Naming.choose_first _ v⟩

end Print
end Clausal
