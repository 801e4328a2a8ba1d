import Clausal.Proofs.LexicalScope
import Clausal.Proofs.SplitFree

/-!
# Resolution of names

A resolved term has no case splits if the terms that its names stand for have
none: the source cannot write them, and every binder gets a variable from the
supply.
-/

namespace Clausal.Surface

open Fresh (Yields)

/-- The terms that names stand for have no case splits. -/
def Locals.SplitFree (n : Nat) (locals : Locals) : Prop := ∀ e ∈ locals, e.2.SplitFree n

variable {scope : Scope} {locals : Locals}

lemma Locals.SplitFree.mono (h : locals.SplitFree n) (hnm : n ≤ m) : locals.SplitFree m :=
  fun e he => (h e he).mono hnm

lemma Locals.SplitFree.cons (h : locals.SplitFree n) (name : Name)
    (ht : t.SplitFree n) : Locals.SplitFree n ((name, t) :: locals) :=
  List.forall_mem_cons.2 ⟨ht, h⟩

lemma kept_splitFree : Kept fun n t => t.SplitFree n where
  mono hnm h := h.mono hnm
  var h := h
  global := trivial
  univ := trivial
  bind b _ _ _ hv ht hu := by cases b <;> exact ⟨hv, ht, hu⟩
  app hf ha := ⟨hf, ha⟩
  ann ht htype := ⟨ht, htype⟩

namespace Scope

variable {u : Clausal.Term} (hlocals : locals.SplitFree n)

include hlocals

lemma term_splitFree (t : Term) (h : Yields (scope.term locals t) n u m) :
    n ≤ m ∧ u.SplitFree m := by
  obtain ⟨-, hm, hu⟩ := (term_outcome t [] n).yields h
  exact ⟨hm, hu.kept _ kept_splitFree hlocals⟩

lemma params_splitFree (ps : List Param) (h : Yields (scope.params locals ps) n (Γ, locals') m) :
    n ≤ m ∧ Γ.All Term.SplitFree m ∧ locals'.SplitFree m := by
  obtain ⟨-, hm, hr⟩ := (params_outcome (fun p _ => term_outcome p.type) [] n).yields h
  exact ⟨hm, hr.2.2 _ kept_splitFree hlocals⟩

lemma funType_splitFree (h : Yields (scope.funType locals ps result) n u m) :
    n ≤ m ∧ u.SplitFree m := by
  obtain ⟨-, hm, hu⟩ :=
    (abstraction_outcome .pi (fun p _ => term_outcome p.type) (term_outcome result) [] n).yields h
  exact ⟨hm, hu.1 _ kept_splitFree hlocals⟩

end Scope
end Clausal.Surface
