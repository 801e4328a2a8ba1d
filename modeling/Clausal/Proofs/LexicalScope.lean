import Clausal.Proofs.Hygiene
import Clausal.Proofs.Nameless.Occurrence
import Clausal.Proofs.Writing
import Clausal.Surface.Scope

/-!
# Lexical scope

A name stands for its innermost binder, or else for a local or a global.  This is said by
a nameless form that is read off the source; resolution has the same form, takes a
variable of its own for every binder, and fails at the first name that stands for
nothing.
-/

namespace Clausal

/-! ### Variables that are bound once -/

mutual

/-- Binders are among the given variables, and none is bound again below itself. -/
def Term.BindsOnce (P : Var → Prop) : Term → Prop
  | .univ | .var _ | .global _ => True
  | .pi v a b | .lam v a b => P v ∧ a.BindsOnce P ∧ b.BindsOnce fun x => x ≠ v ∧ P x
  | .app a b | .ann a b => a.BindsOnce P ∧ b.BindsOnce P
  | .case scrut branches => scrut.BindsOnce P ∧ branches.BindsOnce P
  | .absurd scrut => scrut.BindsOnce P

def Branches.BindsOnce (P : Var → Prop) : Branches → Prop
  | .nil => True
  | .cons _ fields body rest => (∀ v ∈ fields, P v) ∧ fields.Nodup ∧
      body.BindsOnce (fun x => x ∉ fields ∧ P x) ∧ rest.BindsOnce P

end

mutual

lemma Term.BindsOnce.mono {P Q : Var → Prop} (h : ∀ x, P x → Q x) :
    {t : Term} → t.BindsOnce P → t.BindsOnce Q
  | .univ, _ | .var _, _ | .global _, _ => trivial
  | .pi v _ _, ht | .lam v _ _, ht =>
    ⟨h v ht.1, ht.2.1.mono h, ht.2.2.mono fun x hx => ⟨hx.1, h x hx.2⟩⟩
  | .app _ _, ht | .ann _ _, ht | .case _ _, ht => ⟨ht.1.mono h, ht.2.mono h⟩
  | .absurd scrut, ht => Term.BindsOnce.mono (t := scrut) h ht

lemma Branches.BindsOnce.mono {P Q : Var → Prop} (h : ∀ x, P x → Q x) :
    {bs : Branches} → bs.BindsOnce P → bs.BindsOnce Q
  | .nil, _ => trivial
  | .cons _ _ _ _, hb => ⟨fun v hv => h v (hb.1 v hv), hb.2.1,
      hb.2.2.1.mono fun x hx => ⟨hx.1, h x hx.2⟩, hb.2.2.2.mono h⟩

end

/-- The variables of a telescope are distinct, and its types bind others. -/
def Telescope.BindsOnce (P : Var → Prop) (Γ : Telescope) : Prop :=
  Γ.vars.Nodup ∧ ∀ e ∈ Γ, P e.1 ∧ e.2.BindsOnce fun x => x ∉ Γ.vars ∧ P x

/-- Telescopes that are read one after the other. -/
lemma Telescope.BindsOnce.append {Γ Δ : Telescope} {n k m : Nat} (hΓ : Γ.BindsOnce (Var.Taken n k))
    (hΔ : Δ.BindsOnce (Var.Taken k m)) (hnk : n ≤ k) (hkm : k ≤ m) :
    BindsOnce (Var.Taken n m) (Γ ++ Δ) := by
  have hvars : vars (Γ ++ Δ) = Γ.vars ++ Δ.vars := List.map_append
  have hapart {x : Var} (hx : Var.Taken n k x) (hx' : Var.Taken k m x) : False :=
    lt_irrefl k (hx'.1.trans_lt hx.2)
  have hfirst : ∀ v ∈ Γ.vars, Var.Taken n k v := List.forall_mem_map.2 fun e he => (hΓ.2 e he).1
  have hsecond : ∀ v ∈ Δ.vars, Var.Taken k m v := List.forall_mem_map.2 fun e he => (hΔ.2 e he).1
  refine ⟨?_, fun e he => ?_⟩
  · rw [hvars, List.nodup_append]
    exact ⟨hΓ.1, hΔ.1, fun v hv w hw heq => hapart (hfirst v hv) (heq ▸ hsecond w hw)⟩
  · simp only [hvars, List.mem_append, not_or]
    rcases List.mem_append.1 he with he | he
    · obtain ⟨hv, ht⟩ := hΓ.2 e he
      exact ⟨hv.mono (le_refl n) hkm, ht.mono fun x hx =>
        ⟨⟨hx.1, fun hmem => hapart hx.2 (hsecond x hmem)⟩, hx.2.mono (le_refl n) hkm⟩⟩
    · obtain ⟨hv, ht⟩ := hΔ.2 e he
      exact ⟨hv.mono hnk (le_refl m), ht.mono fun x hx =>
        ⟨⟨fun hmem => hapart (hfirst x hmem) hx.2, hx.1⟩, hx.2.mono hnk (le_refl m)⟩⟩

end Clausal

namespace Clausal.Surface

open List
open Fresh (value next Yields)

/-! ### Names in a term -/

/-- A name in a term, with the names that are bound where it stands, the innermost first. -/
structure Occurrence where
  span : Span
  name : Name
  bound : List Name

/-- Parameters bind their names from left to right. -/
def Param.bind (bound : List Name) (p : Param) : List Name :=
  (p.names.map (·.name)).reverse ++ bound

def bindParams (bound : List Name) (ps : List Param) : List Name := ps.foldl Param.bind bound

mutual

/-- The names in a term from left to right. -/
def Term.occurrences (bound : List Name) : Term → List Occurrence
  | .name span x => [⟨span, x, bound⟩]
  | .univ _ => []
  | .ann _ t u | .arrow _ t u | .app _ t u => t.occurrences bound ++ u.occurrences bound
  | .pi _ ps body | .lam _ ps body =>
    paramsOccurrences bound ps ++ body.occurrences (bindParams bound ps)

def paramsOccurrences (bound : List Name) : List Param → List Occurrence
  | [] => []
  | p :: ps => p.occurrences bound ++ paramsOccurrences (p.bind bound) ps

/-- The names that a parameter binds are not counted. -/
def Param.occurrences (bound : List Name) : Param → List Occurrence
  | .mk _ type => type.occurrences bound

end

/-- The name is bound around its place, or it is a local or a global. -/
def Occurrence.Resolvable (scope : Scope) (locals : Locals) (o : Occurrence) : Prop :=
  o.name ∈ o.bound ∨ o.name ∈ locals.map (·.1) ∨ scope.sig.contains o.name = true

instance (scope : Scope) (locals : Locals) (o : Occurrence) :
    Decidable (o.Resolvable scope locals) :=
  inferInstanceAs (Decidable (_ ∨ _))

/-- How a name that cannot be resolved is reported.  All names in scope can be suggested. -/
def Occurrence.error (scope : Scope) (locals : Locals) (o : Occurrence) : ScopeError :=
  if scope.auxiliaries.contains o.name then .auxiliary o.span o.name
  else .unbound o.span o.name (scope.suggest? (o.bound.map (·, .univ) ++ locals) o.name)

/-! ### Nameless forms of surface terms -/

/-- Function types and functions bind alike. -/
inductive Abstraction where
  | pi
  | lam

namespace Abstraction

def term : Abstraction → Var → Clausal.Term → Clausal.Term → Clausal.Term
  | pi => .pi
  | lam => .lam

def form : Abstraction → Nameless → Nameless → Nameless
  | pi => .pi
  | lam => .lam

def close (b : Abstraction) (Γ : Telescope) (body : Clausal.Term) : Clausal.Term :=
  Γ.foldr (fun entry acc => b.term entry.1 entry.2 acc) body

/-- Several binders of one type, which does not refer to them. -/
def copies (b : Abstraction) (inner : Nameless) : Nat → Nameless → Nameless
  | 0, _ => inner
  | k + 1, type => b.form type (b.copies inner k (type.shift 1))

end Abstraction

namespace Scope

variable (scope : Scope) (locals : Locals)

/-- What a name stands for: its innermost binder, or else a local or a global. -/
def meaning (x : Name) : List Name → Nameless
  | [] => ((scope.lookup? locals x).getD (.global x)).nameless []
  | y :: bound => if y = x then .bound 0 else (meaning x bound).shift 1

mutual

/-- The nameless form of a surface term below some names. -/
def form (bound : List Name) : Term → Nameless
  | .name _ x => scope.meaning locals x bound
  | .univ _ => .univ
  | .ann _ t type => .ann (form bound t) (form bound type)
  | .arrow _ dom cod => .pi (form bound dom) ((form bound cod).shift 1)
  | .pi _ ps body => paramsForm .pi bound ps (form (bindParams bound ps) body)
  | .lam _ ps body => paramsForm .lam bound ps (form (bindParams bound ps) body)
  | .app _ head arg => .app (form bound head) (form bound arg)

/-- A type stands outside of the names that share it. -/
def paramsForm (b : Abstraction) (bound : List Name) : List Param → Nameless → Nameless
  | [], inner => inner
  | p :: ps, inner => paramForm b bound p (paramsForm b (p.bind bound) ps inner)

def paramForm (b : Abstraction) (bound : List Name) : Param → Nameless → Nameless
  | .mk names type, inner => b.copies inner names.length (form bound type)

end

/-- The report of the first name that cannot be resolved. -/
def fault? (os : List Occurrence) : Option ScopeError :=
  (os.find? fun o => !decide (o.Resolvable scope locals)).map (·.error scope locals)

lemma fault?_append (os os' : List Occurrence) :
    scope.fault? locals (os ++ os') = (scope.fault? locals os).or (scope.fault? locals os') := by
  rw [fault?, find?_append, Option.map_or]
  rfl

end Scope

/-! ### Runs -/

/-- The locals below more binders. -/
def Locals.under (locals : Locals) (vs : List Var) : Locals :=
  vs.map (fun v => (v.name, .var v)) ++ locals

/-- The computation fails as told, or it succeeds with a property of the value and the supply. -/
def Outcome {α : Type} (x : Resolve α) (n : Nat) (fault : Option ScopeError)
    (post : α → Nat → Prop) :
    Prop :=
  n ≤ next x.run n ∧ match fault with
    | some e => value x.run n = .error e
    | none => ∃ a, value x.run n = .ok a ∧ post a (next x.run n)

namespace Outcome

variable {α β : Type} {x : Resolve α} {f : α → Resolve β} {n : Nat}
  {fault fault' : Option ScopeError}
  {post : α → Nat → Prop} {post' : β → Nat → Prop}

lemma pure (h : post a n) : Outcome (pure a) n none post := ⟨le_refl n, a, rfl, h⟩

lemma lift {y : Fresh α} (hy : n ≤ y.next n) (h : post (y.value n) (y.next n)) :
    Outcome (liftM y : Resolve α) n none post := ⟨hy, _, rfl, h⟩

lemma bind (hx : Outcome x n fault post)
    (hf : ∀ a k, n ≤ k → post a k → Outcome (f a) k fault' post') :
    Outcome (x >>= f) n (fault.or fault') post' := by
  have hrun : (x >>= f).run = (x.run : Fresh (Except ScopeError α)) >>= ExceptT.bindCont f := rfl
  have hnext := Fresh.next_bind x.run (ExceptT.bindCont f) n
  have hvalue := Fresh.value_bind x.run (ExceptT.bindCont f) n
  obtain ⟨hle, hx⟩ := hx
  cases fault with
  | some e =>
    rw [hx] at hnext hvalue
    exact ⟨hnext ▸ hle, hvalue⟩
  | none =>
    obtain ⟨a, ha, hpost⟩ := hx
    rw [ha] at hnext hvalue
    obtain ⟨hle', hf⟩ := hf a _ hle hpost
    refine ⟨hnext ▸ hle.trans hle', ?_⟩
    rw [hrun, hnext, hvalue]
    exact hf

lemma mono {post' : α → Nat → Prop} (h : Outcome x n fault post)
    (himp : ∀ a m, n ≤ m → post a m → post' a m) : Outcome x n fault post' := by
  refine ⟨h.1, ?_⟩
  cases fault with
  | some e => exact h.2
  | none =>
    obtain ⟨a, ha, hpost⟩ := h.2
    exact ⟨a, ha, himp a _ h.1 hpost⟩

lemma yields (h : Outcome x n fault post) (hx : Yields x n a m) :
    fault = none ∧ n ≤ m ∧ post a m := by
  obtain ⟨hle, h⟩ := h
  obtain ⟨hvalue, rfl⟩ := hx
  cases fault with
  | some e =>
    rw [hvalue] at h
    cases h
  | none =>
    obtain ⟨b, hb, hpost⟩ := h
    rw [hvalue] at hb
    cases hb
    exact ⟨rfl, hle, hpost⟩

end Outcome

/-- The free variables of a term are those of the locals and some bound ones. -/
def Locals.Closes (locals : Locals) (vs : List Var) (u : Clausal.Term) : Prop :=
  ∀ x, u.occurs x = true → x ∈ vs ∨ ∃ e ∈ locals, e.2.occurs x = true

/-- Bound variables that are distinct and not those of locals, all behind the supply. -/
structure Locals.Apart (locals : Locals) (vs : List Var) (n : Nat) : Prop where
  nodup : vs.Nodup
  below : ∀ v ∈ vs, v.id < n
  apart : ∀ e ∈ locals, ∀ x, e.2.occurs x = true → x.id < n ∧ x ∉ vs

/-- The terms that locals stand for have no binders. -/
def Locals.BindNothing (locals : Locals) : Prop := ∀ e ∈ locals, ∀ P, e.2.BindsOnce P

/-- A property of terms that resolution keeps. -/
structure Kept (P : Nat → Clausal.Term → Prop) : Prop where
  mono : ∀ {n m : Nat} {t : Clausal.Term}, n ≤ m → P n t → P m t
  var : ∀ {n : Nat} {v : Var}, v.id < n → P n (.var v)
  global : ∀ {n : Nat} {c : Name}, P n (.global c)
  univ : ∀ {n : Nat}, P n .univ
  bind : ∀ {n : Nat} (b : Abstraction) {v : Var} {t u : Clausal.Term}, v.id < n → P n t → P n u →
    P n (b.term v t u)
  app : ∀ {n : Nat} {t u : Clausal.Term}, P n t → P n u → P n (.app t u)
  ann : ∀ {n : Nat} {t u : Clausal.Term}, P n t → P n u → P n (.ann t u)

variable {scope : Scope} {locals : Locals} {n m : Nat} {t u : Clausal.Term}

namespace Locals.Apart

variable (h : locals.Apart vs n)

include h

lemma mono (hnm : n ≤ m) : locals.Apart vs m where
  nodup := h.nodup
  below v hv := lt_of_lt_of_le (h.below v hv) hnm
  apart e he x hx := (h.apart e he x hx).imp_left (lt_of_lt_of_le · hnm)

lemma cons (x : Name) : locals.Apart (⟨n, x⟩ :: vs) (n + 1) where
  nodup := nodup_cons.2 ⟨fun hmem => lt_irrefl n (h.below _ hmem), h.nodup⟩
  below := forall_mem_cons.2 ⟨Nat.lt_succ_self n, fun v hv => Nat.lt_succ_of_lt (h.below v hv)⟩
  apart e he y hy := by
    obtain ⟨hlt, hmem⟩ := h.apart e he y hy
    refine ⟨Nat.lt_succ_of_lt hlt, fun hy => ?_⟩
    rcases mem_cons.1 hy with rfl | hy
    · exact lt_irrefl n hlt
    · exact hmem hy

lemma not_occurs (hu : locals.Closes vs u) (x : Name) :
    u.occurs ⟨n, x⟩ = false := by
  by_contra hx
  rcases hu _ (by simpa using hx) with hmem | ⟨e, he, hocc⟩
  · exact lt_irrefl n (h.below _ hmem)
  · exact lt_irrefl n (h.apart e he _ hocc).1

end Locals.Apart

lemma Locals.Closes.mono (h : locals.Closes vs u) (hvs : ∀ v ∈ vs, v ∈ vs') :
    locals.Closes vs' u := fun x hx => (h x hx).imp_left (hvs x)

lemma nameless_cons_of_not_occurs (h : u.occurs v = false) :
    u.nameless (v :: stack) = (u.nameless stack).shift 1 :=
  Term.nameless_cons (Term.over_iff_occurs.2 fun _ hx => hx) (by simp [h])

/-! ### Single names -/

lemma Scope.lookup?_isSome :
    (scope.lookup? locals x).isSome = true ↔
      x ∈ locals.map (·.1) ∨ scope.sig.contains x = true := by
  unfold Scope.lookup?
  split
  · next y t hfind =>
    have hname : y = x := by simpa using find?_some hfind
    have hmem := mem_map_of_mem (f := Prod.fst) (mem_of_find?_eq_some hfind)
    exact iff_of_true rfl (.inl (hname ▸ hmem))
  · next hfind =>
    have hnone : x ∉ locals.map (·.1) := fun hmem => by
      obtain ⟨e, he, rfl⟩ := mem_map.1 hmem
      exact find?_eq_none.1 hfind e he (beq_self_eq_true e.1)
    split <;> simp_all

lemma Scope.mem_of_lookup? (h : scope.lookup? locals x = some u) :
    (∃ e ∈ locals, e.2 = u) ∨ u = .global x := by
  unfold Scope.lookup? at h
  split at h
  · next hfind =>
    cases h
    exact .inl ⟨_, mem_of_find?_eq_some hfind, rfl⟩
  · split at h
    · cases h
      exact .inr rfl
    · cases h

lemma Scope.lookup?_closes (h : scope.lookup? (locals.under vs) x = some u) :
    locals.Closes vs u := by
  intro y hy
  rcases Scope.mem_of_lookup? h with ⟨e, he, rfl⟩ | rfl
  · rcases mem_append.1 he with he | he
    · obtain ⟨v, hv, rfl⟩ := mem_map.1 he
      obtain rfl : v = y := by simpa [Term.occurs] using hy
      exact .inl hv
    · exact .inr ⟨e, he, hy⟩
  · cases hy

lemma Scope.lookup?_nameless (hvs : locals.Apart vs n)
    (h : scope.lookup? (locals.under vs) x = some u) :
    u.nameless vs = scope.meaning locals x (vs.map (·.name)) := by
  induction vs with
  | nil =>
    have hlocal : scope.lookup? locals x = some u := h
    rw [map_nil, Scope.meaning, hlocal]
    rfl
  | cons v vs ih =>
    obtain ⟨hv, hnodup⟩ := nodup_cons.1 hvs.nodup
    have htail : locals.Apart vs n := ⟨hnodup, fun w hw => hvs.below w (mem_cons_of_mem v hw),
      fun e he y hy => (hvs.apart e he y hy).imp_right fun hmem => hmem ∘ mem_cons_of_mem v⟩
    rw [map_cons, Scope.meaning]
    by_cases hx : v.name = x
    · have hfind :
          (locals.under (v :: vs)).find? (fun entry => entry.1 == x) = some (x, .var v) := by
        rw [Locals.under, map_cons, cons_append, find?_cons_of_pos (by simpa using hx), hx]
      rw [Scope.lookup?, hfind] at h
      cases h
      simp [Term.nameless, Var.locate, hx]
    · have hinner : scope.lookup? (locals.under vs) x = some u := by
        rwa [Scope.lookup?, Locals.under, map_cons, cons_append,
          find?_cons_of_neg (by simpa using hx)] at h
      have hfresh : u.occurs v = false := by
        by_contra hocc
        rcases Scope.lookup?_closes hinner v (by simpa using hocc) with hmem | ⟨e, he, hocc⟩
        · exact hv hmem
        · exact (hvs.apart e he v hocc).2 mem_cons_self
      rw [if_neg hx, ← ih htail hinner, nameless_cons_of_not_occurs hfresh]

/-- What comes of a term: what is kept, the free variables, and the nameless form. -/
structure Resolved (scope : Scope) (locals : Locals) (vs : List Var) (n : Nat) (t : Term)
    (u : Clausal.Term) (m : Nat) : Prop where
  kept : ∀ P, Kept P → (∀ e ∈ locals.under vs, P n e.2) → P m u
  closes : locals.Closes vs u
  form : locals.Apart vs n → u.nameless vs = scope.form locals (vs.map (·.name)) t
  once : locals.BindNothing → u.BindsOnce (Var.Taken n m)

lemma Scope.suggest?_congr (h : locals.map (·.1) = locals'.map (·.1)) :
    scope.suggest? locals x = scope.suggest? locals' x := by
  rw [Scope.suggest?, Scope.suggest?, h]

/-- The innermost binding is found, or the name is reported. -/
lemma Scope.name_outcome (span : Span) (vs : List Var) (n : Nat) :
    Outcome (scope.name (locals.under vs) span x) n
      (scope.fault? locals (Term.occurrences (vs.map (·.name)) (.name span x)))
      (Resolved scope locals vs n (.name span x)) := by
  have hnames : (locals.under vs).map (·.1) = vs.map (·.name) ++ locals.map (·.1) := by
    simp [Locals.under]
  have hresolvable : (scope.lookup? (locals.under vs) x).isSome = true ↔
      Occurrence.Resolvable scope locals ⟨span, x, vs.map (·.name)⟩ := by
    rw [Scope.lookup?_isSome, hnames, mem_append, or_assoc]
    rfl
  unfold Scope.name
  cases hlookup : scope.lookup? (locals.under vs) x with
  | some u =>
    have hok := hresolvable.1 (by rw [hlookup]; rfl)
    rw [Term.occurrences, Scope.fault?, find?_cons_of_neg (by simpa using hok)]
    refine .pure ⟨fun P hP hlocals => ?_, Scope.lookup?_closes hlookup,
      fun hvs => Scope.lookup?_nameless hvs hlookup, fun honce => ?_⟩
    · rcases Scope.mem_of_lookup? hlookup with ⟨e, he, rfl⟩ | rfl
      · exact hlocals e he
      · exact hP.global
    · rcases Scope.mem_of_lookup? hlookup with ⟨e, he, rfl⟩ | rfl
      · rcases mem_append.1 he with he | he
        · obtain ⟨v, -, rfl⟩ := mem_map.1 he
          trivial
        · exact honce e he _
      · trivial
  | none =>
    have hfail : ¬ Occurrence.Resolvable scope locals ⟨span, x, vs.map (·.name)⟩ := fun hok => by
      rw [← hresolvable, hlookup] at hok
      cases hok
    have hsuggest : scope.suggest? (locals.under vs) x =
        scope.suggest? ((vs.map (·.name)).map (·, .univ) ++ locals) x :=
      Scope.suggest?_congr (by simp [Locals.under])
    rw [Term.occurrences, Scope.fault?, find?_cons_of_pos (by simpa using hfail), Option.map_some,
      Occurrence.error, ← hsuggest]
    by_cases haux : scope.auxiliaries.contains x = true
    · simp only [if_pos haux]
      exact ⟨le_refl n, rfl⟩
    · simp only [if_neg haux]
      exact ⟨le_refl n, rfl⟩

/-! ### Binders -/

namespace Abstraction

variable (b : Abstraction)

lemma occurs_term :
    (b.term v t u).occurs x = true ↔ t.occurs x = true ∨ v ≠ x ∧ u.occurs x = true := by
  cases b <;> simp [term, Term.occurs]

lemma nameless_term (stack : List Var) :
    (b.term v t u).nameless stack = b.form (t.nameless stack) (u.nameless (v :: stack)) := by
  cases b <;> rfl

lemma close_append : b.close (Γ ++ Δ) u = b.close Γ (b.close Δ u) := by
  simp [close]

end Abstraction

lemma Kept.close (hP : Kept P) (b : Abstraction) (hΓ : ∀ e ∈ Γ, e.1.id < n ∧ P n e.2) (hu : P n u)
      : P n (b.close Γ u) := by
  induction Γ with
  | nil => exact hu
  | cons e Γ ih =>
    obtain ⟨⟨hv, ht⟩, hΓ⟩ := forall_mem_cons.1 hΓ
    exact hP.bind b hv ht (ih hΓ)

/-- Binders around a term that binds none of them. -/
lemma Abstraction.close_once (b : Abstraction) (hΓ : Γ.BindsOnce P)
    (hu : u.BindsOnce fun x => x ∉ Γ.vars ∧ P x) : (b.close Γ u).BindsOnce P := by
  induction Γ generalizing P with
  | nil => exact hu.mono fun x hx => hx.2
  | cons e Γ ih =>
    obtain ⟨hnodup, hall⟩ := hΓ
    obtain ⟨hnew, hnodup⟩ := nodup_cons.1 hnodup
    obtain ⟨⟨hv, ht⟩, hΓ⟩ := forall_mem_cons.1 hall
    -- Further in, the variable of the entry may not be bound any more.
    have hinner (x : Var) (hx : x ∉ Telescope.vars (e :: Γ) ∧ P x) :
        x ∉ Telescope.vars Γ ∧ x ≠ e.1 ∧ P x :=
      ⟨fun hmem => hx.1 (mem_cons_of_mem _ hmem), fun heq => hx.1 (heq ▸ mem_cons_self), hx.2⟩
    have hrest : (b.close Γ u).BindsOnce fun x => x ≠ e.1 ∧ P x := by
      refine ih ⟨hnodup, fun e' he' => ⟨⟨fun heq => hnew ?_, (hΓ e' he').1⟩, ?_⟩⟩ (hu.mono hinner)
      · exact mem_map.2 ⟨e', he', heq⟩
      · exact (hΓ e' he').2.mono hinner
    cases b <;> exact ⟨hv, ht.mono fun x hx => hx.2, hrest⟩

/-- What entries add to the scope, the innermost variable first. -/
structure Opens (locals : Locals) (vs : List Var) (n : Nat) (Γ : Telescope) (ws : List Var)
    (m : Nat)
    (form : Abstraction → Nameless → Nameless) : Prop where
  closes : ∀ (b : Abstraction) (u : Clausal.Term), locals.Closes (ws ++ vs) u →
    locals.Closes vs (b.close Γ u)
  apart : locals.Apart vs n → locals.Apart (ws ++ vs) m
  form : locals.Apart vs n → ∀ (b : Abstraction) (u : Clausal.Term),
    (b.close Γ u).nameless vs = form b (u.nameless (ws ++ vs))

namespace Opens

lemma nil (locals : Locals) (vs : List Var) (n : Nat) :
    Opens locals vs n [] [] n fun _ inner => inner :=
  ⟨fun _ _ h => h, fun h => h, fun _ _ _ => rfl⟩

lemma congr (h : Opens locals vs n Γ ws m f)
    (hfg : locals.Apart vs n → ∀ b inner, f b inner = g b inner) : Opens locals vs n Γ ws m g :=
  ⟨h.closes, h.apart, fun hvs b u => (h.form hvs b u).trans (hfg hvs b _)⟩

lemma earlier (h : Opens locals vs k Γ ws m f) (hnk : n ≤ k) : Opens locals vs n Γ ws m f :=
  ⟨h.closes, fun hvs => h.apart (hvs.mono hnk), fun hvs => h.form (hvs.mono hnk)⟩

lemma append (h : Opens locals vs n Γ ws m f) (h' : Opens locals (ws ++ vs) m Δ xs k g) :
    Opens locals vs n (Γ ++ Δ) (xs ++ ws) k fun b inner => f b (g b inner) where
  closes b u hu := by
    rw [b.close_append]
    exact h.closes b _ (h'.closes b u (by rwa [← append_assoc]))
  apart hvs := by
    rw [append_assoc]
    exact h'.apart (h.apart hvs)
  form hvs b u := by
    rw [b.close_append, h.form hvs, h'.form (h.apart hvs), append_assoc]

lemma single (ht : locals.Closes vs t) (n : Nat) (x : Name) :
    Opens locals vs n [(⟨n, x⟩, t)] [⟨n, x⟩] (n + 1) fun b => b.form (t.nameless vs) where
  closes b u hu y hy := by
    rcases b.occurs_term.1 hy with hy | ⟨hne, hy⟩
    · exact ht y hy
    · exact (hu y hy).imp_left fun hmem => (mem_cons.1 hmem).resolve_left hne.symm
  apart hvs := hvs.cons x
  form _ b u := b.nameless_term vs

end Opens

namespace Scope

lemma bindNames_next (locals : Locals) (type : Clausal.Term) (idents : List Ident) (n : Nat) :
    n ≤ next (bindNames locals type idents) n := by
  induction idents generalizing locals n with
  | nil => exact le_refl n
  | cons ident idents ih => exact le_trans (Nat.le_succ n) (ih _ _)

lemma bindNames_opens (idents : List Ident) (ht : locals.Closes vs t) (n : Nat) :
    ∃ Γ ws, value (bindNames (locals.under vs) t idents) n = (Γ, locals.under (ws ++ vs)) ∧
      (ws ++ vs).map (·.name) = (idents.map (·.name)).reverse ++ vs.map (·.name) ∧
      Opens locals vs n Γ ws (next (bindNames (locals.under vs) t idents) n)
        fun b inner => b.copies inner idents.length (t.nameless vs) := by
  induction idents generalizing vs n with
  | nil => exact ⟨[], [], rfl, rfl, .nil locals vs n⟩
  | cons i idents ih =>
    have ht' : locals.Closes (⟨n, i.name⟩ :: vs) t := ht.mono fun v hv => mem_cons_of_mem _ hv
    obtain ⟨Γ, ws, hvalue, hnames, hopens⟩ := ih ht' (n + 1)
    refine ⟨(⟨n, i.name⟩, t) :: Γ, ws ++ [⟨n, i.name⟩], ?_, ?_, ?_⟩
    · rw [append_assoc]
      exact congrArg (fun r : Telescope × Locals => ((⟨n, i.name⟩, t) :: r.1, r.2)) hvalue
    · rw [append_assoc]
      simpa using hnames
    · refine ((Opens.single ht n i.name).append hopens).congr fun hvs b inner => ?_
      rw [nameless_cons_of_not_occurs (hvs.not_occurs ht i.name)]
      rfl

lemma bindNames_kept (hP : Kept P) (hlocals : ∀ e ∈ locals, P n e.2) (ht : P n t)
    (idents : List Ident) :
    (∀ e ∈ (value (bindNames locals t idents) n).1, e.1.id < next (bindNames locals t idents) n ∧
      P (next (bindNames locals t idents) n) e.2) ∧
    ∀ e ∈ (value (bindNames locals t idents) n).2, P (next (bindNames locals t idents) n) e.2 := by
  induction idents generalizing locals n with
  | nil => exact ⟨by simp [bindNames], hlocals⟩
  | cons i idents ih =>
    have hn := Nat.le_succ n
    have hnext := bindNames_next ((i.name, .var ⟨n, i.name⟩) :: locals) t idents (n + 1)
    obtain ⟨hΓ, hrest⟩ := @ih ((i.name, .var ⟨n, i.name⟩) :: locals) (n + 1)
      (forall_mem_cons.2 ⟨hP.var (Nat.lt_succ_self n), fun e he => hP.mono hn (hlocals e he)⟩)
      (hP.mono hn ht)
    exact ⟨forall_mem_cons.2 ⟨⟨hnext, hP.mono (hn.trans hnext) ht⟩, hΓ⟩, hrest⟩

/-- Names that share a type get variables of their own. -/
lemma bindNames_once (ht : t.BindsOnce (Var.Taken n k)) (hnk : n ≤ k) (locals : Locals)
    (idents : List Ident) :
    (value (bindNames locals t idents) k).1.BindsOnce
      (Var.Taken n (next (bindNames locals t idents) k)) := by
  have hvars : ∀ locals k, ((value (bindNames locals t idents) k).1.map (·.1)).Nodup ∧
      ∀ e ∈ (value (bindNames locals t idents) k).1,
        Var.Taken k (next (bindNames locals t idents) k) e.1 ∧ e.2 = t := by
    induction idents with
    | nil => exact fun _ _ => ⟨nodup_nil, forall_mem_nil _⟩
    | cons i idents ih =>
      intro locals k
      obtain ⟨hnodup, hall⟩ := ih ((i.name, .var ⟨k, i.name⟩) :: locals) (k + 1)
      have hnext := bindNames_next ((i.name, .var ⟨k, i.name⟩) :: locals) t idents (k + 1)
      refine ⟨nodup_cons.2 ⟨fun hmem => ?_, hnodup⟩, forall_mem_cons.2
        ⟨⟨⟨le_refl k, hnext⟩, rfl⟩, fun e he => (hall e he).imp_left ?_⟩⟩
      · obtain ⟨e, he, heq⟩ := mem_map.1 hmem
        have hid := (hall e he).1.1
        rw [heq] at hid
        exact Nat.not_succ_le_self k hid
      · exact Var.Taken.mono (Nat.le_succ k) le_rfl
  obtain ⟨hnodup, hall⟩ := hvars locals k
  refine ⟨hnodup, fun e he => ?_⟩
  obtain ⟨hv, rfl⟩ := hall e he
  refine ⟨hv.mono hnk le_rfl, ht.mono fun x hx => ⟨fun hmem => ?_, ?_⟩⟩
  · obtain ⟨e', he', rfl⟩ := mem_map.1 hmem
    exact lt_irrefl k (lt_of_le_of_lt (hall e' he').1.1 hx.2)
  · exact hx.mono (le_refl n) (bindNames_next locals e.2 idents k)

/-- What comes of parameters: the variables that they add, and what is kept. -/
def Bound (scope : Scope) (locals : Locals) (vs : List Var) (n : Nat) (ps : List Param)
    (r : Telescope × Locals) (m : Nat) : Prop :=
  (∃ ws, r.2 = locals.under (ws ++ vs) ∧ (ws ++ vs).map (·.name) = bindParams (vs.map (·.name)) ps ∧
    Opens locals vs n r.1 ws m fun b => scope.paramsForm locals b (vs.map (·.name)) ps) ∧
  (locals.BindNothing → r.1.BindsOnce (Var.Taken n m)) ∧
  ∀ P, Kept P → (∀ e ∈ locals.under vs, P n e.2) →
    (∀ e ∈ r.1, e.1.id < m ∧ P m e.2) ∧ ∀ e ∈ r.2, P m e.2

/-- All that is to be shown of a term. -/
def Resolves (scope : Scope) (locals : Locals) (t : Term) : Prop :=
  ∀ vs n, Outcome (scope.term (locals.under vs) t) n
    (scope.fault? locals (t.occurrences (vs.map (·.name)))) (Resolved scope locals vs n t)

lemma param_outcome (h : Resolves scope locals p.type) (vs : List Var) (n : Nat) :
    Outcome (scope.param (locals.under vs) p) n
      (scope.fault? locals (p.occurrences (vs.map (·.name)))) (Bound scope locals vs n [p]) := by
  obtain ⟨names, type⟩ := p
  rw [← Option.or_none (o := scope.fault? _ _)]
  refine (h vs n).bind fun u k hk hu => .lift (bindNames_next _ u names k) ?_
  obtain ⟨Γ, ws, hvalue, hnames, hopens⟩ := bindNames_opens names hu.closes k
  refine ⟨⟨ws, by rw [hvalue], hnames, ?_⟩, fun honce => bindNames_once (hu.once honce) hk _ names,
    fun P hP hlocals => ?_⟩
  · rw [hvalue]
    refine (hopens.earlier hk).congr fun hvs b inner => ?_
    rw [hu.form hvs]
    rfl
  · exact bindNames_kept hP (fun e he => hP.mono hk (hlocals e he)) (hu.kept P hP hlocals) names

/-- Parameters see those before them; the first fault ends the reading. -/
lemma params_outcome (h : ∀ p ∈ ps, Resolves scope locals p.type) (vs : List Var) (n : Nat) :
    Outcome (scope.params (locals.under vs) ps) n
      (scope.fault? locals (paramsOccurrences (vs.map (·.name)) ps))
      (Bound scope locals vs n ps) := by
  induction ps generalizing vs n with
  | nil =>
    exact .pure ⟨⟨[], rfl, rfl, .nil locals vs n⟩, fun _ => ⟨nodup_nil, forall_mem_nil _⟩,
      fun P hP hlocals => ⟨by simp, hlocals⟩⟩
  | cons p ps ih =>
    obtain ⟨hp, hps⟩ := forall_mem_cons.1 h
    rw [paramsOccurrences, fault?_append]
    refine (param_outcome hp vs n).bind fun r k hk hr => ?_
    obtain ⟨Γ, locals'⟩ := r
    obtain ⟨⟨ws, rfl, hnames, hopens⟩, honce, hkept⟩ := hr
    have hbind : (ws ++ vs).map (·.name) = p.bind (vs.map (·.name)) := hnames
    rw [← hbind, ← Option.or_none (o := scope.fault? _ _)]
    refine (ih hps (ws ++ vs) k).bind fun r l hl hr => .pure ?_
    obtain ⟨Δ, locals'⟩ := r
    obtain ⟨⟨xs, rfl, hnames', hopens'⟩, honce', hkept'⟩ := hr
    refine ⟨⟨xs ++ ws, by rw [append_assoc], ?_, ?_⟩,
      fun hnothing => (honce hnothing).append (honce' hnothing) hk hl, fun P hP hlocals => ?_⟩
    · rw [append_assoc, hnames', hbind]
      rfl
    · rw [hbind] at hopens'
      exact hopens.append hopens'
    · obtain ⟨hΓ, hlocals⟩ := hkept P hP hlocals
      obtain ⟨hΔ, hlocals⟩ := hkept' P hP hlocals
      refine ⟨fun e he => ?_, hlocals⟩
      rcases mem_append.1 he with he | he
      · exact (hΓ e he).imp (lt_of_lt_of_le · hl) (hP.mono hl)
      · exact hΔ e he

lemma pair_outcome {t : Term} (h : Resolves scope locals t) (h' : Resolves scope locals t')
    {vs : List Var} {n : Nat} {f : Clausal.Term → Clausal.Term → Resolve Clausal.Term}

    (hf : ∀ u u' m, n ≤ m → Resolved scope locals vs n t u m → Resolved scope locals vs n t' u' m →
      Outcome (f u u') m none post) :
    Outcome (scope.term (locals.under vs) t >>= fun u => scope.term (locals.under vs) t' >>= f u) n
      (scope.fault? locals (t.occurrences (vs.map (·.name)) ++ t'.occurrences (vs.map (·.name))))
      post := by
  rw [fault?_append]
  refine (h vs n).bind fun u k hk hu => ?_
  rw [← Option.or_none (o := scope.fault? _ _)]
  refine (h' vs k).bind fun u' m hm hu' => hf u u' m (hk.trans hm) ?_ ?_
  · exact ⟨fun P hP hlocals => hP.mono hm (hu.kept P hP hlocals), hu.closes, hu.form,
      fun honce => (hu.once honce).mono fun _ => Var.Taken.mono (le_refl n) hm⟩
  · exact ⟨fun P hP hlocals => hu'.kept P hP fun e he => hP.mono hk (hlocals e he), hu'.closes,
      fun hvs => hu'.form (hvs.mono hk),
      fun honce => (hu'.once honce).mono fun _ => Var.Taken.mono hk (le_refl m)⟩

lemma abstraction_outcome (b : Abstraction) (hps : ∀ p ∈ ps, Resolves scope locals p.type)
    (hbody : Resolves scope locals body) (vs : List Var) (n : Nat) :
    Outcome (scope.params (locals.under vs) ps >>= fun r => scope.term r.2 body >>= fun u =>
        pure (b.close r.1 u)) n
      (scope.fault? locals (paramsOccurrences (vs.map (·.name)) ps ++
        body.occurrences (bindParams (vs.map (·.name)) ps))) fun u m =>
      (∀ P, Kept P → (∀ e ∈ locals.under vs, P n e.2) → P m u) ∧ locals.Closes vs u ∧
        (locals.Apart vs n → u.nameless vs = scope.paramsForm locals b (vs.map (·.name)) ps
          (scope.form locals (bindParams (vs.map (·.name)) ps) body)) ∧
        (locals.BindNothing → u.BindsOnce (Var.Taken n m)) := by
  rw [fault?_append]
  refine (params_outcome hps vs n).bind fun r k hk hr => ?_
  obtain ⟨Γ, locals'⟩ := r
  obtain ⟨⟨ws, rfl, hnames, hopens⟩, honce, hkept⟩ := hr
  rw [← hnames, ← Option.or_none (o := scope.fault? _ _)]
  refine (hbody (ws ++ vs) k).bind fun u m hm hu => .pure ⟨fun P hP hlocals => ?_,
    hopens.closes b u hu.closes, fun hvs => ?_, fun hnothing => ?_⟩
  · obtain ⟨hΓ, hlocals⟩ := hkept P hP hlocals
    exact hP.close b (fun e he => (hΓ e he).imp (lt_of_lt_of_le · hm) (hP.mono hm))
      (hu.kept P hP hlocals)
  · rw [hopens.form hvs, hu.form (hopens.apart hvs)]
  · -- The body is read after all parameters, so it binds none of their variables.
    obtain ⟨hnodup, hΓ⟩ := honce hnothing
    refine b.close_once ⟨hnodup, fun e he => ⟨(hΓ e he).1.mono (le_refl n) hm, ?_⟩⟩ ?_
    · exact (hΓ e he).2.mono fun x hx => ⟨hx.1, hx.2.mono (le_refl n) hm⟩
    · refine (hu.once hnothing).mono fun x hx => ⟨fun hmem => ?_, hx.mono hk (le_refl m)⟩
      obtain ⟨e, he, rfl⟩ := mem_map.1 hmem
      exact lt_irrefl k (hx.1.trans_lt (hΓ e he).1.2)

/-- Resolution either fails at the first name that it cannot resolve, or it succeeds. -/
lemma term_outcome (t : Term) : Resolves scope locals t := by
  induction t using Term.induct with
  | name span x => exact name_outcome span
  | univ span =>
    exact fun vs n => .pure
      ⟨fun P hP _ => hP.univ, fun x hx => (Bool.false_ne_true hx).elim, fun _ => rfl,
        fun _ => trivial⟩
  | ann span t type iht ihtype =>
    refine fun vs n => pair_outcome iht ihtype fun u u' m _ hu hu' =>
      .pure ⟨?_, ?_, ?_, fun honce => ⟨hu.once honce, hu'.once honce⟩⟩
    · exact fun P hP hlocals => hP.ann (hu.kept P hP hlocals) (hu'.kept P hP hlocals)
    · exact fun x hx => (Bool.or_eq_true_iff.1 hx).elim (hu.closes x) (hu'.closes x)
    · intro hvs
      rw [Term.nameless, hu.form hvs, hu'.form hvs]
      rfl
  | app span head arg ihhead iharg =>
    refine fun vs n => pair_outcome ihhead iharg fun u u' m _ hu hu' =>
      .pure ⟨?_, ?_, ?_, fun honce => ⟨hu.once honce, hu'.once honce⟩⟩
    · exact fun P hP hlocals => hP.app (hu.kept P hP hlocals) (hu'.kept P hP hlocals)
    · exact fun x hx => (Bool.or_eq_true_iff.1 hx).elim (hu.closes x) (hu'.closes x)
    · intro hvs
      rw [Term.nameless, hu.form hvs, hu'.form hvs]
      rfl
  | arrow span dom cod ihdom ihcod =>
    refine fun vs n => pair_outcome ihdom ihcod fun u u' m hm hu hu' =>
      .lift (Nat.le_succ m) ⟨fun P hP hlocals => ?_, ?_, fun hvs => ?_, fun honce => ?_⟩
    · exact hP.bind .pi (Nat.lt_succ_self m) (hP.mono (Nat.le_succ m) (hu.kept P hP hlocals))
        (hP.mono (Nat.le_succ m) (hu'.kept P hP hlocals))
    · exact (Opens.single hu.closes m _).closes .pi u'
        (hu'.closes.mono fun v hv => mem_cons_of_mem _ hv)
    · have hfresh := (hvs.mono hm).not_occurs hu'.closes Name.underscore
      change Nameless.pi (u.nameless vs) (u'.nameless (⟨m, Name.underscore⟩ :: vs)) = _
      rw [nameless_cons_of_not_occurs hfresh, hu.form hvs, hu'.form hvs]
      rfl
    · have hmore {x : Var} (hx : Var.Taken n m x) : Var.Taken n (m + 1) x :=
        hx.mono (le_refl n) (Nat.le_succ m)
      refine ⟨⟨hm, Nat.lt_succ_self m⟩, (hu.once honce).mono fun _ => hmore,
        (hu'.once honce).mono fun x hx => ⟨?_, hmore hx⟩⟩
      rintro rfl
      exact lt_irrefl m hx.2
  | pi span ps body ihps ihbody =>
    exact fun vs n => (abstraction_outcome .pi ihps ihbody vs n).mono fun u m _ h =>
      ⟨h.1, h.2.1, h.2.2.1, h.2.2.2⟩
  | lam span ps body ihps ihbody =>
    exact fun vs n => (abstraction_outcome .lam ihps ihbody vs n).mono fun u m _ h =>
      ⟨h.1, h.2.1, h.2.2.1, h.2.2.2⟩

end Scope

/-! ### One stack of locals -/

/-- Resolution with all locals on one stack. -/
abbrev Stacked := ExceptT ScopeError (StateT Locals Fresh)

namespace Stacked

variable {α β : Type}

/-- A computation that only looks at the stack. -/
def looking (y : Locals → Resolve α) : Stacked α :=
  ExceptT.mk fun locals => (·, locals) <$> (y locals).run

/-- Cut the stack back to its height of before, also after a failure. -/
def restoring (x : Stacked α) : Stacked α :=
  ExceptT.mk fun locals =>
    (fun r => (r.1, r.2.drop (r.2.length - locals.length))) <$> x.run locals

def push (entry : Name × Clausal.Term) : Stacked Unit := modify (entry :: ·)

/-- Bind names of one type, from left to right. -/
def pushNames (type : Clausal.Term) : List Ident → Stacked Telescope
  | [] => return []
  | ident :: idents => do
      let v ← looking fun _ => liftM (Var.fresh ident.name)
      push (ident.name, .var v)
      return (v, type) :: (← pushNames type idents)

mutual

/-- Resolve the names of a term.  The names of parameters are pushed on the stack. -/
def term (scope : Scope) : Term → Stacked Clausal.Term
  | .name span x => looking fun locals => scope.name locals span x
  | .univ _ => return .univ
  | .ann _ t type => do
      let t ← term scope t
      let type ← term scope type
      return .ann t type
  | .arrow _ dom cod => do
      let dom ← term scope dom
      let cod ← term scope cod
      looking fun _ => liftM (Clausal.Term.arrow dom cod)
  | .pi _ ps body => restoring do
      let Γ ← params scope ps
      let body ← term scope body
      return Telescope.pis Γ body
  | .lam _ ps body => restoring do
      let Γ ← params scope ps
      let body ← term scope body
      return Telescope.lams Γ body
  | .app _ head arg => do
      let head ← term scope head
      let arg ← term scope arg
      return .app head arg

def params (scope : Scope) : List Param → Stacked Telescope
  | [] => return []
  | p :: ps => do
      let Γ ← param scope p
      let Δ ← params scope ps
      return Γ ++ Δ

def param (scope : Scope) : Param → Stacked Telescope
  | .mk names type => do
      let type ← term scope type
      pushNames type names

end

lemma run_bind (x : Stacked α) (f : α → Stacked β) (locals : Locals) (n : Nat) :
    (x >>= f).run locals n = match x.run locals n with
      | ((.ok a, after), m) => (f a).run after m
      | ((.error e, after), m) => ((.error e, after), m) := by
  change (match x.run locals n with
    | ((r, after), m) => ExceptT.bindCont f r after m) = _
  rcases x.run locals n with ⟨⟨_ | _, _⟩, _⟩ <;> rfl

lemma resolve_run_bind (y : Resolve α) (g : α → Resolve β) (n : Nat) :
    (y >>= g).run n = match y.run n with
      | (.ok a, m) => (g a).run m
      | (.error e, m) => (.error e, m) := by
  change (match y.run n with
    | (r, m) => ExceptT.bindCont g r m) = _
  rcases y.run n with ⟨_ | _, _⟩ <;> rfl

lemma run_looking (y : Locals → Resolve α) (locals : Locals) (n : Nat) :
    (looking y).run locals n = match (y locals).run n with
      | (r, m) => ((r, locals), m) := rfl

lemma run_restoring (x : Stacked α) (locals : Locals) (n : Nat) :
    (restoring x).run locals n = match x.run locals n with
      | ((r, after), m) => ((r, after.drop (after.length - locals.length)), m) := rfl

lemma looking_bind (y : Locals → Resolve α) (g : α → Locals → Resolve β) :
    (looking y >>= fun a => looking (g a)) =
      looking fun locals => y locals >>= fun a => g a locals := by
  refine ExceptT.ext (funext fun locals => funext fun n => ?_)
  rw [run_bind, run_looking, run_looking, resolve_run_bind]
  rcases (y locals).run n with ⟨_ | _, _⟩ <;> rfl

/-- The stack that the computation leaves is the second part of the value, or at a failure what was
there with something on top. -/
def Follows (x : Stacked α) (y : Locals → Resolve (α × Locals)) : Prop :=
  ∀ locals n, ∃ pushed, match (y locals).run n with
    | (.ok (a, after), m) => x.run locals n = ((.ok a, after), m) ∧ after = pushed ++ locals
    | (.error e, m) => x.run locals n = ((.error e, pushed ++ locals), m)

namespace Follows

lemma looking (y : Locals → Resolve α) :
    Follows (looking y) fun locals => y locals >>= fun a => pure (a, locals) := by
  intro locals n
  refine ⟨[], ?_⟩
  rw [resolve_run_bind, run_looking]
  rcases (y locals).run n with ⟨_ | a, m⟩
  · rfl
  · exact ⟨rfl, rfl⟩

lemma bind {g : α → Locals → Resolve (β × Locals)} (hx : Follows x y)
    (hf : ∀ a, Follows (f a) (g a)) :
    Follows (x >>= f) fun locals => y locals >>= fun r => g r.1 r.2 := by
  intro locals n
  obtain ⟨pushed, h⟩ := hx locals n
  simp only [resolve_run_bind, run_bind]
  rcases hy : (y locals).run n with ⟨_ | ⟨a, after⟩, m⟩ <;> rw [hy] at h
  · exact ⟨pushed, by rw [h]⟩
  · obtain ⟨hrun, rfl⟩ := h
    obtain ⟨pushed', h'⟩ := hf a (pushed ++ locals) m
    refine ⟨pushed' ++ pushed, ?_⟩
    rw [hrun, append_assoc]
    exact h'

lemma restoring {g : α → Locals → Resolve β} (hx : Follows x y) :
    restoring (x >>= fun a => Stacked.looking (g a)) =
      Stacked.looking fun locals => y locals >>= fun r => g r.1 r.2 := by
  refine ExceptT.ext (funext fun locals => funext fun n => ?_)
  obtain ⟨pushed, h⟩ := hx locals n
  have hcut : (pushed ++ locals).drop ((pushed ++ locals).length - locals.length) = locals := by
    simp
  rw [run_restoring, run_bind, run_looking, resolve_run_bind]
  rcases hy : (y locals).run n with ⟨_ | ⟨a, after⟩, m⟩ <;> rw [hy] at h
  · rw [h]
    simp only [hcut]
  · obtain ⟨hrun, rfl⟩ := h
    rw [hrun]
    exact congrArg (fun rest => ((((g a (pushed ++ locals)).run m).1, rest),
      ((g a (pushed ++ locals)).run m).2)) hcut

end Follows

lemma pushNames_follows (type : Clausal.Term) (idents : List Ident) :
    Follows (pushNames type idents) fun locals => liftM (Scope.bindNames locals type idents) := by
  induction idents with
  | nil => exact fun locals n => ⟨[], rfl, rfl⟩
  | cons i idents ih =>
    have hpush : ∀ entry, Follows (push entry) fun locals => pure ((), entry :: locals) :=
      fun entry locals n => ⟨[entry], rfl, rfl⟩
    exact (Follows.looking fun _ => liftM (Var.fresh i.name)).bind fun v =>
      (hpush _).bind fun _ => ih.bind fun Γ => Follows.looking fun _ => pure ((v, type) :: Γ)

lemma params_follows
    (h : ∀ p ∈ ps, term scope p.type = looking fun locals => scope.term locals p.type) :
    Follows (params scope ps) fun locals => scope.params locals ps := by
  induction ps with
  | nil => exact fun locals n => ⟨[], rfl, rfl⟩
  | cons p ps ih =>
    obtain ⟨hp, hps⟩ := forall_mem_cons.1 h
    obtain ⟨names, type⟩ := p
    have hparam : Follows (param scope (.mk names type)) fun locals =>
        scope.param locals (.mk names type) := by
      have hbind := (Follows.looking fun locals => scope.term locals type).bind
        fun u => pushNames_follows u names
      simp only [bind_assoc, pure_bind] at hbind
      rw [param, show term scope type = _ from hp]
      exact hbind
    exact hparam.bind fun Γ => (ih hps).bind fun Δ => Follows.looking fun _ => pure (Γ ++ Δ)

lemma looking_pair (y : Locals → Resolve α) (y' : Locals → Resolve β)
    (g : α → β → Locals → Resolve γ) :
    (looking y >>= fun a => looking y' >>= fun b => looking (g a b)) =
      looking fun locals => y locals >>= fun a => y' locals >>= fun b => g a b locals := by
  simp only [looking_bind]

/-- The stack after a term is that of before, and the outcome is that of the locals on it. -/
lemma term_eq (scope : Scope) (t : Term) :
    term scope t = looking fun locals => scope.term locals t := by
  induction t using Term.induct with
  | name | univ => rfl
  | ann span t type iht ihtype =>
    rw [term, iht, ihtype]
    exact looking_pair _ _ fun t type _ => pure (Clausal.Term.ann t type)
  | app span head arg ihhead iharg =>
    rw [term, ihhead, iharg]
    exact looking_pair _ _ fun head arg _ => pure (Clausal.Term.app head arg)
  | arrow span dom cod ihdom ihcod =>
    rw [term, ihdom, ihcod]
    exact looking_pair _ _ fun dom cod _ => liftM (Clausal.Term.arrow dom cod)
  | pi span ps body ihps ihbody =>
    have hbody (Γ : Telescope) := looking_bind (fun locals => scope.term locals body)
      fun u _ => pure (Telescope.pis Γ u)
    rw [term, ihbody]
    exact (congrArg (restoring <| params scope ps >>= ·) (funext hbody)).trans
      (params_follows ihps).restoring
  | lam span ps body ihps ihbody =>
    have hbody (Γ : Telescope) := looking_bind (fun locals => scope.term locals body)
      fun u _ => pure (Telescope.lams Γ u)
    rw [term, ihbody]
    exact (congrArg (restoring <| params scope ps >>= ·) (funext hbody)).trans
      (params_follows ihps).restoring

end Stacked

/-! ### Whole terms -/

namespace Scope

lemma apart_nil (h : ∀ e ∈ locals, e.2.Over (.below n)) : locals.Apart [] n :=
  ⟨nodup_nil, by simp, fun e he _ hx => ⟨(h e he).occurs hx, not_mem_nil⟩⟩

lemma fault?_eq_none : scope.fault? locals os = none ↔ ∀ o ∈ os, o.Resolvable scope locals := by
  simp [fault?, find?_eq_none]

lemma term_resolves {t : Term} (h : ∀ o ∈ t.occurrences [], o.Resolvable scope locals) (n : Nat) :
    ∃ u m, Yields (scope.term locals t) n u m ∧ Resolved scope locals [] n t u m := by
  have hterm : Outcome (scope.term locals t) n _ _ := term_outcome t [] n
  rw [map_nil, fault?_eq_none.2 h] at hterm
  obtain ⟨-, u, hu, hresolved⟩ := hterm
  exact ⟨u, _, ⟨hu, rfl⟩, hresolved⟩

lemma fault?_first {after : List Occurrence}
    (hbefore : ∀ p ∈ before, p.Resolvable scope locals) (ho : ¬ o.Resolvable scope locals) :
    scope.fault? locals (before ++ o :: after) = some (o.error scope locals) := by
  rw [fault?_append, fault?_eq_none.2 hbefore, Option.none_or, fault?,
    find?_cons_of_pos (by simpa using ho), Option.map_some]

/-- A term resolves exactly if all names in it do, and fails at the first that does not.  What it
resolves to has no free variables but those of locals, and every name stands for its innermost
binder.  With the locals on one stack the outcome is the same, and the stack is left as it was. -/
theorem term_lexical (scope : Scope) (locals : Locals) (t : Term) (n : Nat) :
    ((∃ u m, Yields (scope.term locals t) n u m) ↔
      ∀ o ∈ t.occurrences [], o.Resolvable scope locals) ∧
    (∀ before o after, t.occurrences [] = before ++ o :: after →
      (∀ p ∈ before, p.Resolvable scope locals) → ¬ o.Resolvable scope locals →
      value (scope.term locals t).run n = .error (o.error scope locals)) ∧
    (∀ u m, Yields (scope.term locals t) n u m →
      (∀ x, u.occurs x = true → ∃ e ∈ locals, e.2.occurs x = true) ∧
      ((∀ e ∈ locals, e.2.Over (.below n)) → u.nameless [] = scope.form locals [] t)) ∧
    (Stacked.term scope t).run locals = (·, locals) <$> (scope.term locals t).run := by
  have hterm : Outcome (scope.term locals t) n (scope.fault? locals (t.occurrences []))
    (Resolved scope locals [] n t) := term_outcome t [] n
  refine ⟨⟨fun ⟨u, m, h⟩ => fault?_eq_none.1 (hterm.yields h).1, fun h => ?_⟩,
    fun before o after hsplit hbefore ho => ?_, fun u m h => ?_, ?_⟩
  · obtain ⟨u, m, hu, -⟩ := term_resolves h n
    exact ⟨u, m, hu⟩
  · rw [hsplit, fault?_first hbefore ho] at hterm
    exact hterm.2
  · obtain ⟨-, -, hu⟩ := hterm.yields h
    exact ⟨fun x hx => (hu.closes x hx).resolve_left not_mem_nil,
      fun hlocals => hu.form (apart_nil hlocals)⟩
  · rw [Stacked.term_eq]
    rfl

/-- Two parameters of one name, of which the second is referred to. -/
def shadowing : Term :=
  .lam nowhere [.mk [⟨nowhere, "x"⟩, ⟨nowhere, "x"⟩] (.name nowhere "A")] (.name nowhere "x")

theorem shadowing_lexical :
    ∃ u m, Yields (Scope.term ⟨{}, []⟩ [("A", .var ⟨0, "a"⟩)] shadowing) 1 u m ∧
    u.nameless [] = .lam (.free ⟨0, "a"⟩) (.lam (.free ⟨0, "a"⟩) (.bound 0)) := by
  obtain ⟨hok, -, hform, -⟩ := term_lexical ⟨{}, []⟩ [("A", .var ⟨0, "a"⟩)] shadowing 1
  obtain ⟨u, m, h⟩ := hok.2 (by decide)
  exact ⟨u, m, h, (hform u m h).2 (by simp [Term.Over, Reach.below])⟩

end Scope
end Clausal.Surface
