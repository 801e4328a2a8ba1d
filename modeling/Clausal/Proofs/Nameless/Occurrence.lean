import Clausal.Proofs.Nameless.Form

/-!
# Occurrences of variables

A term refers exactly to the variables that occur free in it, and these are its
list of free variables.
-/

namespace Clausal

open Bool List

variable {t : Term}

mutual

lemma Term.Over.restrict : {t : Term} → t.Over S →
    (∀ x, S.vars x → t.occurs x = true → V x) → t.Over { S with vars := V }
  | .univ, _, _ => trivial
  | .var v, ht, h => h v ht (by simp [Term.occurs])
  | .global _, ht, _ => ht
  | .pi v dom cod, ht, h | .lam v dom body, ht, h => by
    refine ⟨ht.1.restrict fun x hx ho => h x hx (by simp [Term.occurs, ho]), ?_⟩
    refine Term.Over.restrict (S := S.bind [v]) ht.2 fun x hx ho => ?_
    by_cases hv : x = v
    · exact .inl (by simp [hv])
    · exact .inr (h x (hx.resolve_left (by simpa using hv)) (by
        simp [Term.occurs, ho, Ne.symm hv]))
  | .app _ _, ht, h | .ann _ _, ht, h =>
    ⟨ht.1.restrict fun x hx ho => h x hx (by simp [Term.occurs, ho]),
      ht.2.restrict fun x hx ho => h x hx (by simp [Term.occurs, ho])⟩
  | .case _ _, ht, h =>
    ⟨ht.1, ht.2.1.restrict fun x hx ho => h x hx (by simp [Term.occurs, ho]),
      ht.2.2.restrict fun x hx ho => h x hx (by simp [Term.occurs, ho])⟩
  | .absurd scrut, ht, h => Term.Over.restrict (t := scrut) ht h

lemma Branches.Over.restrict : {bs : Branches} → bs.Over S →
    (∀ x, S.vars x → bs.occurs x = true → V x) → bs.Over { S with vars := V }
  | .nil, _, _ => trivial
  | .cons _ fields body rest, ht, h => by
    refine ⟨?_, ht.2.restrict fun x hx ho => h x hx (by simp [Branches.occurs, ho])⟩
    refine Term.Over.restrict (S := S.bind fields) ht.1 fun x hx ho => ?_
    by_cases hv : x ∈ fields
    · exact .inl hv
    · exact .inr (h x (hx.resolve_left hv) (by simp [Branches.occurs, ho, hv]))

end

mutual

lemma Term.Over.occurs : {t : Term} → t.Over S → t.occurs x = true → S.vars x
  | .var v, ht, h => by
    obtain rfl : v = x := by simpa [Term.occurs] using h
    exact ht
  | .pi v dom cod, ht, h | .lam v dom body, ht, h => by
    simp only [Term.occurs, or_eq_true, and_eq_true, bne_iff_ne] at h
    rcases h with h | ⟨hv, h⟩
    · exact ht.1.occurs h
    · exact (Term.Over.occurs (S := S.bind [v]) ht.2 h).resolve_left (by simpa using hv.symm)
  | .app _ _, ht, h | .ann _ _, ht, h => (or_eq_true_iff.1 h).elim ht.1.occurs ht.2.occurs
  | .case _ _, ht, h => (or_eq_true_iff.1 h).elim ht.2.1.occurs ht.2.2.occurs
  | .absurd scrut, ht, h => Term.Over.occurs (t := scrut) ht h

lemma Branches.Over.occurs : {bs : Branches} → bs.Over S → bs.occurs x = true → S.vars x
  | .cons _ fields _ _, hb, h => by
    simp only [Branches.occurs, or_eq_true, and_eq_true, not_eq_true',
      contains_eq_mem, decide_eq_false_iff_not] at h
    rcases h with ⟨hx, h⟩ | h
    · exact (Term.Over.occurs (S := S.bind fields) hb.1 h).resolve_left hx
    · exact hb.2.occurs h

end

mutual

lemma Term.over_any (hvars : ∀ x, S.vars x) (hglobals : ∀ c, S.globals c)
    (hsplits : S.splits) : (t : Term) → t.Over S
  | .univ => trivial
  | .var v => hvars v
  | .global name => hglobals name
  | .pi v dom cod | .lam v dom cod => ⟨dom.over_any hvars hglobals hsplits,
      cod.over_any (S := S.bind [v]) (fun x => .inr (hvars x)) hglobals hsplits⟩
  | .app head arg | .ann head arg =>
    ⟨head.over_any hvars hglobals hsplits, arg.over_any hvars hglobals hsplits⟩
  | .case scrut branches =>
    ⟨hsplits, scrut.over_any hvars hglobals hsplits, branches.over_any hvars hglobals hsplits⟩
  | .absurd scrut => scrut.over_any hvars hglobals hsplits

lemma Branches.over_any (hvars : ∀ x, S.vars x) (hglobals : ∀ c, S.globals c)
    (hsplits : S.splits) : (bs : Branches) → bs.Over S
  | .nil => trivial
  | .cons _ fields body rest =>
    ⟨body.over_any (S := S.bind fields) (fun x => .inr (hvars x)) hglobals hsplits,
      rest.over_any hvars hglobals hsplits⟩

end

lemma Term.nameless_eq_of_alphaEq (h : t.alphaEq u = true) (stack : List Var) :
    t.nameless stack = u.nameless stack := by
  have hfill (t : Term) : (t.nameless []).fill ⟨fun x => x.locate stack, .bound⟩ =
      t.nameless stack := by
    have hany : t.Over { vars := fun _ => True } :=
      Term.over_any (fun _ => trivial) (fun _ => trivial) trivial t
    exact t.nameless_fill hany fun x _ => rfl
  rw [← hfill t, ← hfill u, (Term.alphaEq_iff t u).1 h]

variable {V : Var → Prop}

/-- A term is over a set of variables exactly if every variable that occurs is in it. -/
lemma Term.over_iff_occurs : t.Over { vars := V } ↔ ∀ x, t.occurs x = true → V x := by
  refine ⟨fun h x hx => h.occurs hx, fun h => ?_⟩
  -- Without any bound first, and then restricted to what occurs.
  have hall : t.Over { vars := fun _ => True } :=
    t.over_any (fun _ => trivial) (fun _ => trivial) trivial
  exact hall.restrict fun x _ hx => h x hx

lemma Term.Over.weaken (ht : t.Over { vars := V }) (h : ∀ x, V x → W x) : t.Over { vars := W } :=
  over_iff_occurs.2 fun x hx => h x (ht.occurs hx)

mutual

/-- The list of free variables has those that occur outside of binders. -/
lemma Term.mem_freeVarsOutside (bound : List Var) : (t : Term) →
    (x ∈ t.freeVarsOutside bound ↔ x ∉ bound ∧ t.occurs x = true)
  | .univ | .global _ => by simp [Term.freeVarsOutside, Term.occurs]
  | .var v => by
    by_cases hv : v ∈ bound
    · have hne : x ∉ bound → v ≠ x := fun hx he => hx (he ▸ hv)
      simpa [Term.freeVarsOutside, Term.occurs, hv] using hne
    · by_cases hx : v = x
      · subst hx
        simp [Term.freeVarsOutside, Term.occurs, hv]
      · simp [Term.freeVarsOutside, Term.occurs, hv, hx, Ne.symm hx]
  | .pi v dom cod | .lam v dom cod => by
    have hdom := Term.mem_freeVarsOutside (x := x) bound dom
    have hcod := Term.mem_freeVarsOutside (x := x) (v :: bound) cod
    simp only [Term.freeVarsOutside, mem_append, hdom, hcod, Term.occurs]
    grind
  | .app head arg | .ann head arg => by
    have hhead := Term.mem_freeVarsOutside (x := x) bound head
    have harg := Term.mem_freeVarsOutside (x := x) bound arg
    simp only [Term.freeVarsOutside, mem_append, hhead, harg, Term.occurs, or_eq_true, and_or_left]
  | .case scrut branches => by
    have hscrut := Term.mem_freeVarsOutside (x := x) bound scrut
    have hbranches := Branches.mem_freeVarsOutside (x := x) bound branches
    simp only [Term.freeVarsOutside, mem_append, hscrut, hbranches, Term.occurs,
      or_eq_true, and_or_left]
  | .absurd scrut => Term.mem_freeVarsOutside bound scrut

lemma Branches.mem_freeVarsOutside (bound : List Var) : (bs : Branches) →
    (x ∈ bs.freeVarsOutside bound ↔ x ∉ bound ∧ bs.occurs x = true)
  | .nil => by simp [Branches.freeVarsOutside, Branches.occurs]
  | .cons _ fields body rest => by
    have hbody := Term.mem_freeVarsOutside (x := x) (fields ++ bound) body
    have hrest := Branches.mem_freeVarsOutside (x := x) bound rest
    simp only [Branches.freeVarsOutside, mem_append, hbody, hrest, Branches.occurs,
      or_eq_true, and_eq_true, not_eq_true', contains_eq_mem,
      decide_eq_false_iff_not]
    grind

end

lemma Term.mem_freeVars : x ∈ t.freeVars ↔ t.occurs x = true := by
  rw [freeVars, mem_eraseDups, mem_freeVarsOutside]
  simp

lemma Term.over_iff_freeVars : t.Over { vars := V } ↔ ∀ x ∈ t.freeVars, V x := by
  simp only [over_iff_occurs, mem_freeVars]

end Clausal
