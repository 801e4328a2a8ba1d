import Mathlib.Algebra.GroupWithZero.Nat
import Clausal.Proofs.Overlap
import Clausal.Proofs.PatternForms

/-!
# Progress of splitting

Each split on the way to a problem has met one more constructor of some row, or has made
the row clash.  Settling a row adds functions to the signature; this keeps what was found
out about other rows, provided nothing is replaced that reduction looks at.
-/

namespace Clausal

open List Nameless
open Eval (Returns)

variable {s : Filling}

/-! ### Signatures that keep what reduction looks at -/

/-- Constructors and bodies that may be unfolded are the same in the second signature. -/
structure Signature.Preserves (sig sig' : Signature) : Prop where
  ctor : ∀ ⦃c : Name⦄ ⦃k : Ctor⦄, sig.ctor? c = some k → sig'.ctor? c = some k
  body : ∀ ⦃g : Name⦄ ⦃t : Term⦄, sig.unfoldable? [] g = some t → sig'.unfoldable? [] g = some t

namespace Signature.Preserves

variable {sig sig₁ : Signature}

lemma refl (sig : Signature) : sig.Preserves sig := ⟨fun _ _ h => h, fun _ _ h => h⟩

lemma trans (h : sig.Preserves sig₁) (h' : sig₁.Preserves sig') : sig.Preserves sig' :=
  ⟨fun _ _ hc => h'.ctor (h.ctor hc), fun _ _ hg => h'.body (h.body hg)⟩

lemma rules_le (h : sig.Preserves sig') (hclosed : ({ sig } : Env).Closed)
    (hclosed' : ({ sig := sig' } : Env).Closed) :
    (({ sig } : Env).rules hclosed).Le (({ sig := sig' } : Env).rules hclosed') where
  unfold hg := by
    obtain ⟨t, ht, rfl⟩ := Option.map_eq_some_iff.1 hg
    exact Option.map_eq_some_iff.2 ⟨t, h.body ht, rfl⟩
  ctor hc := by
    obtain ⟨k, hk, rfl⟩ := Option.map_eq_some_iff.1 hc
    exact Option.map_eq_some_iff.2 ⟨k, h.ctor hk, rfl⟩

lemma knows (h : sig.Preserves sig') (hknows : ({ sig } : Env).Knows ctors) :
    ({ sig := sig' } : Env).Knows ctors := fun c hc => by
  obtain ⟨k, hk⟩ := Option.isSome_iff_exists.1 (hknows c hc)
  exact Option.isSome_iff_exists.2 ⟨k, h.ctor hk⟩

end Signature.Preserves

/-! ### What rows have spent -/

/-- So many constructors of the row have been met; of a row that clashes, any number. -/
def Row.Spends (R : Rules) (row : Row) (args : List Nameless) (j : Nat) : Prop :=
  patternsMeet R row.patterns args j ∨ patternsClash R row.patterns args ∧ j ≤ row.ctors.length

namespace Row.Spends

variable {R : Rules} {row : Row}

variable (h : row.Spends R args j)

include h

lemma le : j ≤ row.ctors.length :=
  h.elim (patternsMeet_le row.patterns) And.right

lemma carry (hle : R.Le R') (s : Filling) :
    row.Spends R' (args.map (fill s)) j :=
  h.imp (patternsMeet_carry hle s row.patterns)
    fun ⟨hclash, hj⟩ => ⟨patternsClash_carry hle s row.patterns hclash, hj⟩

/-- A row that is blocked by a variable spends one more when the variable is replaced. -/
lemma advance (hclash : ¬ patternsClash R row.patterns args)
    (hle : R.Le R') (hblock : patternsBlock R v row.patterns args)
    (hv : R'.Shows (s.free v) c fields) : row.Spends R' (args.map (fill s)) (j + 1) := by
  have hmeet := h.resolve_right fun hspent => hclash hspent.1
  obtain ⟨hlt, hnext⟩ := patternsMeet_advance hle hv row.patterns hmeet hblock
  exact hnext.imp_right fun hclash => ⟨hclash, hlt⟩

end Row.Spends

lemma exists_forall₂_succ (xs : List α) (h : List.Forall₂ P (xs ++ a :: ys) js)
    (hkeep : ∀ b j, P b j → Q b j) (hstep : ∀ j, P a j → Q a (j + 1)) :
    ∃ js', List.Forall₂ Q (xs ++ a :: ys) js' ∧ js'.sum = js.sum + 1 := by
  induction xs generalizing js with
  | nil =>
    obtain ⟨j, js, hj, hjs, rfl⟩ := forall₂_cons_left_iff.1 h
    refine ⟨(j + 1) :: js, .cons (hstep j hj) (hjs.imp fun _ _ => hkeep _ _), ?_⟩
    simp only [sum_cons]
    omega
  | cons x xs ih =>
    obtain ⟨j, js, hj, hjs, rfl⟩ := forall₂_cons_left_iff.1 h
    obtain ⟨js', hjs', hsum⟩ := ih hjs
    refine ⟨j :: js', .cons (hkeep x j hj) hjs', ?_⟩
    simp only [sum_cons, hsum]
    omega

/-- The splits above a problem have been spent on its rows, and the rows that are no longer
tried clash with its arguments. -/
structure Spent (R : Rules) (rows others : List (Nat × Row)) (args : List Nameless)
    (depth : Nat) : Prop where
  counts : ∃ js, List.Forall₂ (fun (e : Nat × Row) j => e.2.Spends R args j) rows js ∧
    depth ≤ js.sum
  dropped : ∃ dropped, rows = dropped ++ others ∧
    ∀ e ∈ dropped, patternsClash R e.2.patterns args

namespace Spent

lemma start (R : Rules) (rows : List (Nat × Row)) (args : List Nameless) :
    Spent R rows rows args 0 where
  counts := ⟨rows.map fun _ => 0, forall₂_map_right_iff.2 (forall₂_same.2 fun e _ =>
    .inl (patternsMeet_zero e.2.patterns args)), Nat.zero_le _⟩
  dropped := ⟨[], rfl, forall_mem_nil _⟩

/-- There are no more splits above a problem than constructors in the rows. -/
lemma depth_le (h : Spent R rows others args depth) :
    depth ≤ (rows.flatMap fun e => e.2.ctors).length := by
  obtain ⟨js, hjs, hdepth⟩ := h.counts
  refine hdepth.trans ?_
  clear hdepth h
  induction hjs with
  | nil => exact Nat.zero_le _
  | cons hj _ ih =>
    rw [sum_cons, flatMap_cons, length_append]
    exact Nat.add_le_add hj.le ih

lemma split (h : Spent R rows others args depth) (hothers : others = skipped ++ e :: rest)
    (hskipped : ∀ e ∈ skipped, patternsClash R e.2.patterns args)
    (hblock : patternsBlock R v e.2.patterns args) (hclash : ¬ patternsClash R e.2.patterns args)
    (hle : R.Le R') (hv : R'.Shows (s.free v) c fields) :
    Spent R' rows (e :: rest) (args.map (fill s)) (depth + 1) := by
  obtain ⟨js, hjs, hdepth⟩ := h.counts
  obtain ⟨dropped, hrows, hdropped⟩ := h.dropped
  have hsplit : rows = (dropped ++ skipped) ++ e :: rest := by
    rw [hrows, hothers, append_assoc]
  refine ⟨?_, dropped ++ skipped, hsplit, fun d hd => ?_⟩
  · rw [hsplit] at hjs ⊢
    obtain ⟨js', hjs', hsum⟩ := exists_forall₂_succ (dropped ++ skipped) hjs
      (fun d j hj => hj.carry hle s) fun j hj => hj.advance hclash hle hblock hv
    exact ⟨js', hjs', by omega⟩
  · refine patternsClash_carry hle s d.2.patterns ?_
    exact (mem_append.1 hd).elim (hdropped d) (hskipped d)

end Spent

/-! ### Calls of splitting -/

lemma Env.Refined.shows (h : Env.Refined env Γ v n r m) (hclosed : env.Closed) :
    ∃ c fields, (env.rules hclosed).Shows (r.subst.filling.free v) c fields := by
  obtain ⟨args, himage⟩ := h.subst_ctor
  refine ⟨r.ctor, _, (h.splitting.ctor.name, h.splitting.ctor.numParams),
    args.map (Term.nameless []), ?_, ?_, rfl⟩
  · change (env.ctor? r.ctor).map _ = _
    rw [h.splitting.ctor?_eq, Option.map_some]
  · change HeadReduces _ ((r.subst.image v).nameless []) _
    rw [himage, Term.nameless_apps]
    exact .refl

namespace Compile

/-- What has been spent up to a call.  A branch that is left spends one more whatever
constructor form the variable that is split becomes. -/
def SplitCall.Spent (R : Rules) (rows : List (Nat × Row)) (depth : Nat) : SplitCall → Prop
  | .problem q others => Clausal.Spent R rows others (q.args.map (Term.nameless [])) depth
  | .branches q others rs => ∃ v,
      (∀ r ∈ rs, ∃ c fields, R.Shows (r.subst.filling.free v) c fields) ∧
      ∀ R', R.Le R' → ∀ (s : Filling) c fields, R'.Shows (s.free v) c fields →
        Clausal.Spent R' rows others ((q.args.map (Term.nameless [])).map (fill s))
          (depth + 1)

section Visits

/-- Splitting may rely on what it has found out: the constructors of the rows are known, and
settling rows keeps what reduction looks at. -/
structure Relies (target : SplitTarget) (settle : ReachedRow → Compile SplitTree) (p : Problem)
    (rows : List (Nat × Row)) (w : Workspace) (n : Nat) : Prop where
  knows : ∀ e ∈ rows, w.env.Knows e.2.ctors
  keeps : Respects (fun w w' => w.sig.Preserves w'.sig) target settle p rows w n

/-- Up to a call that is visited, what reduction looks at is kept. -/
lemma Relies.preserves (h : Relies target settle p rows w n)
    (hvisits : Visits target settle p rows w n depth call w₁ i) : w.sig.Preserves w₁.sig :=
  Visits.related (R := fun w w' => w.sig.Preserves w'.sig) (fun w => .refl w.sig)
    (fun h h' => h.trans h') h.keeps hvisits

/-- The splits above a call have been spent on the rows. -/
lemma Visits.spent (hsettle : Grows root settle) (hsig : w.sig.SplitFree n)
    (hclosed : w.sig.Closed) (hp : p.SplitFree n) (hrelies : Relies target settle p rows w n)
    (h : Visits target settle p rows w n depth call w₁ i) (hclosed₁ : w₁.env.Closed) :
    call.Spent (w₁.env.rules hclosed₁) rows depth := by
  induction h with
  | start => exact Spent.start _ rows _
  | @enter depth q others later v wanted rs w₁ i k l hvisits hdecide hrefine ih =>
    have hq : q.SplitFree i := (hvisits.extends hsettle hsig hp).2
    have hknows : ∀ e ∈ others, w₁.env.Knows e.2.ctors := fun e he =>
      (hrelies.preserves hvisits).knows (hrelies.knows e (hvisits.suffix.subset he))
    obtain ⟨skipped, rest, hothers, hskipped, -, hsplit⟩ :=
      Env.decideRows_skips hclosed₁ hknows hq.args_below hdecide
    -- The first row that does not clash is blocked by the variable that is split.
    obtain ⟨rfl, e, rest', rfl, hblock, hclash⟩ := hsplit v wanted later rfl
    obtain ⟨hrs⟩ := Env.refinements_yields hrefine
    refine ⟨v, fun r hr => ?_, fun R' hle s c fields hv => ?_⟩
    · obtain ⟨hr⟩ := hrs.refined r hr
      exact hr.shows hclosed₁
    · exact (ih hclosed₁).split hothers hskipped hblock hclash hle hv
  | @branch depth q others r rs w₁ i hvisits ih =>
    obtain ⟨v, hshows, hnext⟩ := ih hclosed₁
    obtain ⟨c, fields, hv⟩ := hshows r mem_cons_self
    obtain ⟨sig, v', k, l, hsig', hq, hl, hrs⟩ := (hvisits.extends hsettle hsig hp).2
    obtain ⟨hr⟩ := hrs r mem_cons_self
    have hargs := hr.args_eq hsig' hq hl (q.refine_refines r i)
    have hspent := hnext _ (.refl _) r.subst.filling c fields hv
    rw [map_map] at hspent
    change Spent _ rows others (((q.refine r).value i).args.map (Term.nameless [])) (depth + 1)
    rw [hargs]
    exact hspent
  | @next depth fuel q others r rs w₁ w₂ i j result hvisits hsplit ih =>
    -- What is known of the branches that are left was found out before the first was split.
    have hstep : w₁.sig.Preserves w₂.sig :=
      Splits.relates (R := fun w w' => w.sig.Preserves w'.sig) (fun w => .refl w.sig)
        (fun h h' => h.trans h') hrelies.keeps (.branch hvisits) (splits_of_split fuel hsplit)
    have hclosed' : w₁.sig.Closed := (hvisits.extends hsettle hsig hp).1.closed hclosed
    have hle := hstep.rules_le hclosed'.body hclosed₁
    obtain ⟨v, hshows, hnext⟩ := ih hclosed'.body
    refine ⟨v, fun r' hr' => ?_, fun R' hle' s c fields hv => ?_⟩
    · obtain ⟨c, fields, hv⟩ := hshows r' (mem_cons_of_mem r hr')
      exact ⟨c, fields, hv.mono hle⟩
    · exact hnext R' (hle.trans hle') s c fields hv

/-- There are no more splits above a call than constructors in the rows. -/
lemma Visits.depth_le (hsettle : Grows root settle) (hsig : w.sig.SplitFree n)
    (hclosed : w.sig.Closed) (hp : p.SplitFree n) (hrelies : Relies target settle p rows w n)
    (h : Visits target settle p rows w n depth call w₁ i) :
    depth ≤ (rows.flatMap fun e => e.2.ctors).length := by
  induction h with
  | start => exact Nat.zero_le _
  | enter _ _ _ ih => exact ih
  | branch hvisits _ =>
    -- Only here one more split is above the call.
    have hclosed₁ := (hvisits.extends hsettle hsig hp).1.closed hclosed
    exact Spent.depth_le
      ((Visits.branch hvisits).spent hsettle hsig hclosed hp hrelies hclosed₁.body)
  | next _ _ ih => exact ih

end Visits

end Compile

end Clausal
