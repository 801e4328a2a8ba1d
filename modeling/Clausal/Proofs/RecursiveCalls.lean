import Clausal.Compilation.Elimination
import Clausal.Proofs.Reduction

/-!
# Recursive calls

The arguments of the calls that stand for themselves: the whole term, an argument, or an
annotated term, outside of binders and case splits.
-/

namespace Clausal

open List Term

variable {t : Term} {f : Name} {n : Nat} {args call : List Term}

/-! ### Calls that stand for themselves -/

/-- The first term is an argument or an annotated term somewhere in the second, outside of
binders, of case splits and of the types of annotations. -/
inductive Term.Within (s : Term) : Term → Prop
  | argument (head : Term) : Within s (.app head s)
  | annotated (type : Term) : Within s (.ann s type)
  | below_head {head : Term} (arg : Term) : Within s head → Within s (.app head arg)
  | below_argument (head : Term) {arg : Term} : Within s arg → Within s (.app head arg)
  | below_annotated {u : Term} (type : Term) : Within s u → Within s (.ann u type)

/-- The first term is the second or stands in it. -/
def Term.Stands (s t : Term) : Prop := s = t ∨ s.Within t

lemma Term.spine_eq_global : t.spine = (.global f, call) ↔ (global f).apps call = t := by
  constructor
  · intro h
    rw [← apps_spine t, h]
  · rintro rfl
    exact spine_apps f call

/-- The calls in a term that is applied to arguments: the whole, if it is a call, and those
that stand in it. -/
lemma Term.mem_callsWith : call ∈ t.callsWith f n args ↔ (call.length = n ∧ call ≠ []) ∧
    (t.spineOnto args = (.global f, call) ∨ ((global f).apps call).Within t) := by
  fun_induction callsWith f n t args with
  | case1 head arg args ihhead iharg =>
    rw [mem_append, ihhead, iharg, ← and_or_left, ← spine, spine_eq_global]
    refine and_congr_right fun _ => ⟨?_, ?_⟩
    · rintro ((hspine | hwithin) | hwhole | hwithin)
      · exact .inl hspine
      · exact .inr (.below_head arg hwithin)
      · exact .inr (hwhole ▸ .argument head)
      · exact .inr (.below_argument head hwithin)
    · rintro (hspine | hwithin)
      · exact .inl (.inl hspine)
      · cases hwithin with
        | argument => exact .inr (.inl rfl)
        | below_head _ h => exact .inl (.inr h)
        | below_argument _ h => exact .inr (.inr h)
  | case2 args name hcond =>
    simp only [Bool.and_eq_true, beq_iff_eq, Bool.not_eq_true', isEmpty_eq_false_iff] at hcond
    obtain ⟨⟨rfl, rfl⟩, hargs⟩ := hcond
    rw [mem_singleton]
    constructor
    · rintro rfl
      exact ⟨⟨rfl, hargs⟩, .inl rfl⟩
    · rintro ⟨-, hspine | hwithin⟩
      · exact (Prod.mk.inj hspine).2.symm
      · cases hwithin
  | case3 args name hcond =>
    simp only [Bool.and_eq_true, beq_iff_eq, Bool.not_eq_true', isEmpty_eq_false_iff] at hcond
    refine ⟨fun h => (not_mem_nil h).elim, ?_⟩
    rintro ⟨⟨rfl, hcall⟩, hspine | hwithin⟩
    · obtain ⟨hname, rfl⟩ := Prod.mk.inj hspine
      exact (hcond ⟨⟨global.inj hname, rfl⟩, hcall⟩).elim
    · cases hwithin
  | case4 args t type ih =>
    rw [ih, ← spine, spine_eq_global]
    refine and_congr_right fun _ => ⟨?_, ?_⟩
    · rintro (hwhole | hwithin)
      · exact .inr (hwhole ▸ .annotated type)
      · exact .inr (.below_annotated type hwithin)
    · rintro (hspine | hwithin)
      · cases (Prod.mk.inj hspine).1
      · cases hwithin with
        | annotated => exact .inl rfl
        | below_annotated _ h => exact .inr h
  | case5 t args happ hglobal hann =>
    refine ⟨fun h => (not_mem_nil h).elim, ?_⟩
    rintro ⟨-, hspine | hwithin⟩
    · cases t with
      | app head arg => exact (happ head arg rfl).elim
      | global name => exact (hglobal name rfl).elim
      | _ => cases (Prod.mk.inj hspine).1
    · cases hwithin with
      | argument | below_head | below_argument => exact (happ _ _ rfl).elim
      | annotated | below_annotated => exact (hann _ _ rfl).elim

/-! ### Each call once -/

/-- Two lists of arguments are the same up to bound variables. -/
def SameArgs : List Term → List Term → Prop := Forall₂ fun t u => t.alphaEq u = true

lemma sameArgs_iff (h : args.length = call.length) :
    sameArgs args call = true ↔ SameArgs args call := by
  rw [SameArgs, forall₂_iff_zip, sameArgs, all_eq_true]
  exact ⟨fun hall => ⟨h, fun hmem => hall _ hmem⟩, fun hall entry hmem => hall.2 hmem⟩

lemma sameArgs_refl (args : List Term) : sameArgs args args = true :=
  (sameArgs_iff rfl).2 (forall₂_same.2 fun t _ => (alphaEq_iff t t).2 rfl)

lemma distinctCalls_concat (calls : List (List Term)) (args : List Term) :
    distinctCalls (calls ++ [args]) =
      if (distinctCalls calls).any fun other => sameArgs other args then distinctCalls calls
      else distinctCalls calls ++ [args] := by
  rw [distinctCalls, foldl_append]
  rfl

lemma mem_of_mem_distinctCalls (h : call ∈ distinctCalls calls) : call ∈ calls := by
  induction calls using List.reverseRecOn with
  | nil => exact h
  | append_singleton calls args ih =>
    rw [distinctCalls_concat] at h
    split at h
    · exact mem_append_left _ (ih h)
    · exact mem_append.2 ((mem_append.1 h).imp_left ih)

lemma exists_mem_distinctCalls (h : call ∈ calls) :
    ∃ other ∈ distinctCalls calls, sameArgs other call = true := by
  induction calls using List.reverseRecOn with
  | nil => cases h
  | append_singleton calls args ih =>
    rw [distinctCalls_concat]
    rcases mem_append.1 h with h | h
    · obtain ⟨other, hmem, hsame⟩ := ih h
      refine ⟨other, ?_, hsame⟩
      split
      · exact hmem
      · exact mem_append_left _ hmem
    · obtain rfl := mem_singleton.1 h
      split
      · next hany => exact any_eq_true.1 hany
      · exact ⟨call, by simp, sameArgs_refl call⟩

lemma distinctCalls_pairwise (calls : List (List Term)) :
    (distinctCalls calls).Pairwise fun a b => sameArgs a b = false := by
  induction calls using List.reverseRecOn with
  | nil => exact .nil
  | append_singleton calls args ih =>
    rw [distinctCalls_concat]
    split
    · exact ih
    · next hany =>
        refine pairwise_append.2 ⟨ih, pairwise_singleton _ _, fun other hother last hlast => ?_⟩
        obtain rfl := mem_singleton.1 hlast
        exact Bool.eq_false_iff.2 fun hsame => hany (any_eq_true.2 ⟨other, hother, hsame⟩)

/-! ### The calls of a right-hand side -/

lemma Term.mem_callsWith_nil : call ∈ t.callsWith f n [] ↔
    (call.length = n ∧ call ≠ []) ∧ ((global f).apps call).Stands t := by
  rw [mem_callsWith, ← spine, spine_eq_global, Stands]

/-- The recursive calls of a term are, up to bound variables and each once, the argument lists
of the calls with as many arguments as the function has, at least one, that stand in it. -/
theorem Term.recursiveCalls_exact (t : Term) (f : Name) (n : Nat) :
    (∀ args : List Term, args.length = n → args ≠ [] → ((Term.global f).apps args).Stands t →
      ∃ call ∈ t.recursiveCalls f n, SameArgs call args) ∧
    (∀ call ∈ t.recursiveCalls f n,
      call.length = n ∧ call ≠ [] ∧ ((Term.global f).apps call).Stands t) ∧
    (t.recursiveCalls f n).Pairwise fun call other => ¬ SameArgs call other := by
  have hfound : ∀ call ∈ t.recursiveCalls f n,
      (call.length = n ∧ call ≠ []) ∧ ((Term.global f).apps call).Stands t :=
    fun call hcall => mem_callsWith_nil.1 (mem_of_mem_distinctCalls hcall)
  refine ⟨fun args hlength hargs hstands => ?_, fun call hcall => ?_, ?_⟩
  · obtain ⟨call, hcall, hsame⟩ :=
      exists_mem_distinctCalls (mem_callsWith_nil.2 ⟨⟨hlength, hargs⟩, hstands⟩)
    exact ⟨call, hcall, (sameArgs_iff ((hfound call hcall).1.1.trans hlength.symm)).1 hsame⟩
  · exact and_assoc.1 (hfound call hcall)
  · refine (distinctCalls_pairwise _).imp_of_mem fun {call other} hcall hother hdiffer hsame => ?_
    have hlength := (hfound call hcall).1.1.trans (hfound other hother).1.1.symm
    exact Bool.eq_false_iff.1 hdiffer ((sameArgs_iff hlength).2 hsame)

-- A repeated call counts once, and one below a binder does not count.
example : (apps (.global "g") [.app (.global "f") .univ, .app (.global "f") .univ,
    .lam ⟨0, "x"⟩ .univ (.app (.global "f") (.var ⟨0, "x"⟩))]).recursiveCalls "f" 1 =
    [[.univ]] := by decide

/-- The first term occurs in the second outside of binders, case splits and absurd cases. -/
inductive Term.Occurs (s : Term) : Term → Prop
  | whole : Occurs s s
  | head {head : Term} (arg : Term) : Occurs s head → Occurs s (.app head arg)
  | argument (head : Term) {arg : Term} : Occurs s arg → Occurs s (.app head arg)
  | annotated {u : Term} (type : Term) : Occurs s u → Occurs s (.ann u type)
  | type (u : Term) {type : Term} : Occurs s type → Occurs s (.ann u type)

/-- A call without arguments is missed, and so is one whose result is applied. -/
theorem Term.calls_missed :
    (((Term.global "f").apps []).Occurs (.global "f") ∧
      (Term.global "f").recursiveCalls "f" 0 = []) ∧
    ((Term.global "f").apps [.univ]).Occurs (.app (.app (.global "f") .univ) (.global "zero")) ∧
      (Term.app (.app (.global "f") .univ) (.global "zero")).recursiveCalls "f" 1 = [] :=
  ⟨⟨.whole, by decide⟩, .head _ .whole, by decide⟩

end Clausal
