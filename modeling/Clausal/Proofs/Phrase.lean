import Clausal.Proofs.Lexing
import Clausal.Proofs.Reads

/-!
# Terms as they are written

A phrase is a term as it is written, with its parentheses.  Reading the tokens
of a phrase gives the term that it stands for, up to places, unless parameters
are read where none are meant: annotated names to the left of an arrow look like
the parameters of a function type.
-/

namespace Clausal.Surface

open List Parse Term

/-- No place in particular. -/
def nowhere : Span := ⟨0, 0⟩

def Ident.unplaced (i : Ident) : Ident := ⟨nowhere, i.name⟩

mutual

/-- A term without the places that it was read from. -/
def Term.unplaced : Term → Term
  | .name _ n => .name nowhere n
  | .univ _ => .univ nowhere
  | .ann _ t type => .ann nowhere t.unplaced type.unplaced
  | .arrow _ dom cod => .arrow nowhere dom.unplaced cod.unplaced
  | .pi _ ps body => .pi nowhere (paramsUnplaced ps) body.unplaced
  | .lam _ ps body => .lam nowhere (paramsUnplaced ps) body.unplaced
  | .app _ head arg => .app nowhere head.unplaced arg.unplaced

def Param.unplaced : Param → Param
  | .mk names type => .mk (names.map (·.unplaced)) type.unplaced

def paramsUnplaced : List Param → List Param
  | [] => []
  | p :: ps => p.unplaced :: paramsUnplaced ps

end

lemma paramsUnplaced_eq_map (ps : List Param) : paramsUnplaced ps = ps.map (·.unplaced) := by
  induction ps with
  | nil => rfl
  | cons p ps ih => rw [paramsUnplaced, ih, map_cons]

/-! ### Phrases -/

mutual

/-- A term as it is written. -/
inductive Phrase where
  | lam (params : List Binder) (body : Phrase)
  | pi (params : List Binder) (body : Phrase)
  /-- A function type; its domain is an application or a single operand. -/
  | arrow (head : Operand) (args : List Operand) (cod : Phrase)
  | spine (head : Operand) (args : List Operand)

/-- An operand of an application. -/
inductive Operand where
  | name (n : Name)
  | univ
  | paren (body : Phrase)
  | ann (term type : Phrase)

/-- Parameters that share a type. -/
inductive Binder where
  | mk (names : List Name) (type : Phrase)

end

mutual

/-- The tokens of a phrase. -/
def Phrase.tokens : Phrase → List Token
  | .lam ps body => .keyword .function :: (bindersTokens ps ++ .mark .fatArrow :: body.tokens)
  | .pi ps body => bindersTokens ps ++ .mark .arrow :: body.tokens
  | .arrow head args cod =>
    head.tokens ++ (operandsTokens args ++ .mark .arrow :: cod.tokens)
  | .spine head args => head.tokens ++ operandsTokens args

def Operand.tokens : Operand → List Token
  | .name n => [.name n]
  | .univ => [.keyword .univ]
  | .paren p => .mark .openParen :: (p.tokens ++ [.mark .closeParen])
  | .ann t type =>
    .mark .openParen :: (t.tokens ++ .mark .colon :: (type.tokens ++ [.mark .closeParen]))

def Binder.tokens : Binder → List Token
  | .mk names type =>
    .mark .openParen ::
      (names.map .name ++ .mark .colon :: (type.tokens ++ [.mark .closeParen]))

def operandsTokens : List Operand → List Token
  | [] => []
  | o :: os => o.tokens ++ operandsTokens os

def bindersTokens : List Binder → List Token
  | [] => []
  | b :: bs => b.tokens ++ bindersTokens bs

end

mutual

/-- The term that a phrase stands for. -/
def Phrase.tree : Phrase → Term
  | .lam ps body => .lam nowhere (bindersTree ps) body.tree
  | .pi ps body => .pi nowhere (bindersTree ps) body.tree
  | .arrow head args cod => .arrow nowhere (operandsTree head.tree args) cod.tree
  | .spine head args => operandsTree head.tree args

def Operand.tree : Operand → Term
  | .name n => .name nowhere n
  | .univ => .univ nowhere
  | .paren p => p.tree
  | .ann t type => .ann nowhere t.tree type.tree

def Binder.tree : Binder → Param
  | .mk names type => .mk (names.map (⟨nowhere, ·⟩)) type.tree

/-- A term applied to operands. -/
def operandsTree (head : Term) : List Operand → Term
  | [] => head
  | o :: os => operandsTree (.app nowhere head o.tree) os

def bindersTree : List Binder → List Param
  | [] => []
  | b :: bs => b.tree :: bindersTree bs

end

def Operand.isName : Operand → Bool
  | .name _ => true
  | _ => false

/-- Whether a phrase is nothing but names. -/
def Phrase.isNames : Phrase → Bool
  | .spine head args => (head :: args).all Operand.isName
  | _ => false

/-- Whether an operand looks like parameters: names with a type. -/
def Operand.isBinder : Operand → Bool
  | .ann p _ => p.isNames
  | _ => false

mutual

/-- Parameters are there where they must be, and none are seen where they are
not meant. -/
def Phrase.Clear : Phrase → Prop
  | .lam ps body => ps ≠ [] ∧ bindersClear ps ∧ body.Clear
  | .pi ps body => ps ≠ [] ∧ bindersClear ps ∧ body.Clear
  | .arrow head args cod =>
    head.Clear ∧ operandsClear args ∧ cod.Clear ∧
      (head :: args).all Operand.isBinder = false
  | .spine head args => head.Clear ∧ operandsClear args

def Operand.Clear : Operand → Prop
  | .name _ => True
  | .univ => True
  | .paren p => p.Clear
  | .ann t type => t.Clear ∧ type.Clear

def Binder.Clear : Binder → Prop
  | .mk names type => names ≠ [] ∧ type.Clear

def operandsClear : List Operand → Prop
  | [] => True
  | o :: os => o.Clear ∧ operandsClear os

def bindersClear : List Binder → Prop
  | [] => True
  | b :: bs => b.Clear ∧ bindersClear bs

end

lemma bindersTokens_eq_flatMap (bs : List Binder) :
    bindersTokens bs = bs.flatMap (·.tokens) := by
  induction bs with
  | nil => rfl
  | cons b bs ih => rw [bindersTokens, ih, flatMap_cons]

lemma bindersTree_eq_map (bs : List Binder) : bindersTree bs = bs.map (·.tree) := by
  induction bs with
  | nil => rfl
  | cons b bs ih => rw [bindersTree, ih, map_cons]

lemma bindersClear_iff (bs : List Binder) : bindersClear bs ↔ ∀ b ∈ bs, b.Clear := by
  induction bs with
  | nil => simp [bindersClear]
  | cons b bs ih => rw [bindersClear, ih, forall_mem_cons]

/-! ### How phrases begin -/

lemma Operand.exists_tokens (o : Operand) :
    ∃ t ts, o.tokens = t :: ts ∧ startsAtom t = true := by
  cases o <;> exact ⟨_, _, rfl, rfl⟩

lemma Operand.tokens_pos (o : Operand) : 0 < o.tokens.length := by
  obtain ⟨t, ts, h, -⟩ := o.exists_tokens
  simp [h]

lemma operandsTokens_cons_length (o : Operand) (os : List Operand) :
    (operandsTokens (o :: os)).length = o.tokens.length + (operandsTokens os).length := by
  rw [operandsTokens, length_append]

lemma Operand.first_ne_function (o : Operand) (ts : List Token) (next : Option Token) :
    first (o.tokens ++ ts) next ≠ some (.keyword .function) := by
  obtain ⟨t, rest, htokens, hstart⟩ := o.exists_tokens
  rw [htokens]
  rintro ⟨⟩
  cases hstart

lemma Binder.length_tokens (names : List Name) (type : Phrase) :
    (Binder.mk names type).tokens.length = names.length + type.tokens.length + 3 := by
  simp only [Binder.tokens, length_cons, length_append, length_map, length_nil]
  omega

/-! ### Names at the beginning of a phrase -/

/-- Names up to a token that is neither a name nor a colon. -/
def Interrupted (ts : List Token) : Prop :=
  ∃ (names : List Name) (t : Token) (rest : List Token),
    ts = names.map .name ++ t :: rest ∧ ¬ IsName (some t) ∧ t ≠ .mark .colon

namespace Interrupted

lemma start (hname : ¬ IsName (some t)) (hcolon : t ≠ .mark .colon) (ts : List Token) :
    Interrupted (t :: ts) :=
  ⟨[], t, ts, rfl, hname, hcolon⟩

lemma mark (hcolon : m ≠ .colon) (ts : List Token) : Interrupted (.mark m :: ts) :=
  start (by rintro ⟨n, ⟨⟩⟩) (by simpa using hcolon) ts

lemma append (h : Interrupted ts) (ts' : List Token) : Interrupted (ts ++ ts') := by
  obtain ⟨names, t, rest, rfl, hname, hcolon⟩ := h
  exact ⟨names, t, rest ++ ts', by simp, hname, hcolon⟩

lemma names_append (h : Interrupted ts) (names : List Name) :
    Interrupted (names.map .name ++ ts) := by
  obtain ⟨names', t, rest, rfl, hname, hcolon⟩ := h
  exact ⟨names ++ names', t, rest, by simp, hname, hcolon⟩

end Interrupted

variable {p : Phrase} {o : Operand}

lemma operandsTokens_of_names (h : os.all Operand.isName = true) :
    ∃ names : List Name, operandsTokens os = names.map .name ∧ names.length = os.length := by
  induction os with
  | nil => exact ⟨[], rfl, rfl⟩
  | cons o os ih =>
    rw [all_cons, Bool.and_eq_true] at h
    obtain ⟨names, hnames, hlength⟩ := ih h.2
    cases o with
    | name n =>
      refine ⟨n :: names, ?_, by simp [hlength]⟩
      simp [operandsTokens, Operand.tokens, hnames]
    | univ | paren | ann => cases h.1

lemma operandsTokens_interrupted (h : os.all Operand.isName = false) :
    Interrupted (operandsTokens os) := by
  induction os with
  | nil => cases h
  | cons o os ih =>
    cases o with
    | name n => exact (ih (by simpa [Operand.isName] using h)).names_append [n]
    | univ => exact Interrupted.start (by rintro ⟨n, ⟨⟩⟩) (by decide) _
    | paren p | ann p type => exact Interrupted.mark (by decide) _

lemma Phrase.tokens_of_isNames (h : p.isNames = true) :
    ∃ names : List Name, p.tokens = names.map .name ∧ names ≠ [] := by
  cases p with
  | spine head args =>
    obtain ⟨names, htokens, hlength⟩ := operandsTokens_of_names h
    exact ⟨names, htokens, by rintro rfl; cases hlength⟩
  | lam | pi | arrow => cases h

lemma Phrase.tokens_interrupted (h : p.isNames = false) : Interrupted p.tokens := by
  cases p with
  | spine head args => exact operandsTokens_interrupted h
  | lam ps body => exact Interrupted.start (by rintro ⟨n, ⟨⟩⟩) (by decide) _
  | pi ps body =>
    cases ps with
    | nil => exact Interrupted.mark (by decide) _
    | cons b ps =>
      obtain ⟨names, type⟩ := b
      exact Interrupted.mark (by decide) _
  | arrow head args cod =>
    rw [Phrase.tokens, ← append_assoc]
    change Interrupted (operandsTokens (head :: args) ++ .mark .arrow :: cod.tokens)
    cases hall : (head :: args).all Operand.isName with
    | false => exact (operandsTokens_interrupted hall).append _
    | true =>
      obtain ⟨names, hnames, -⟩ := operandsTokens_of_names hall
      rw [hnames]
      exact (Interrupted.mark (by decide) cod.tokens).names_append names

/-- An operand that starts like parameters and is none. -/
lemma Operand.tokens_interrupted (h : o.isBinder = false)
    (hts : o.tokens = .mark .openParen :: ts) : Interrupted ts := by
  cases o with
  | name | univ => cases hts
  | paren p =>
    obtain rfl : _ = ts := (cons.inj hts).2
    cases hp : p.isNames with
    | false => exact (Phrase.tokens_interrupted hp).append _
    | true =>
      obtain ⟨names, hnames, -⟩ := Phrase.tokens_of_isNames hp
      rw [hnames]
      exact (Interrupted.mark (by decide) []).names_append names
  | ann p type =>
    obtain rfl : _ = ts := (cons.inj hts).2
    exact (Phrase.tokens_interrupted h).append _

lemma Operand.exists_binder (h : o.isBinder = true) (hclear : o.Clear) :
    ∃ b : Binder, b.Clear ∧ b.tokens = o.tokens := by
  cases o with
  | name | univ | paren => cases h
  | ann p type =>
    obtain ⟨names, hnames, hne⟩ := Phrase.tokens_of_isNames h
    exact ⟨.mk names type, ⟨hne, hclear.2⟩, by rw [Binder.tokens, Operand.tokens, hnames]⟩

lemma exists_binders (h : os.all Operand.isBinder = true) (hclear : operandsClear os) :
    ∃ bs : List Binder, bindersClear bs ∧ bindersTokens bs = operandsTokens os := by
  induction os with
  | nil => exact ⟨[], trivial, rfl⟩
  | cons o os ih =>
    rw [all_cons, Bool.and_eq_true] at h
    obtain ⟨b, hb, hbo⟩ := Operand.exists_binder h.1 hclear.1
    obtain ⟨bs, hbs, hbsos⟩ := ih h.2 hclear.2
    exact ⟨b :: bs, ⟨hb, hbs⟩, by rw [bindersTokens, operandsTokens, hbo, hbsos]⟩

/-! ### Reading phrases -/

lemma exists_bindersTokens (h : bindersClear bs) (hne : bs ≠ []) :
    ∃ x ts, bindersTokens bs = .mark .openParen :: .name x :: ts := by
  cases bs with
  | nil => exact (hne rfl).elim
  | cons b bs =>
    obtain ⟨names, type⟩ := b
    cases names with
    | nil => exact (h.1.1 rfl).elim
    | cons x names => exact ⟨x, _, rfl⟩

namespace Parse

/-- What ends the operands of an application. -/
def EndsOperands (o : Option Token) : Prop := ∀ t, o = some t → startsAtom t = false

/-- What ends a term. -/
def EndsTerm (o : Option Token) : Prop := EndsOperands o ∧ o ≠ some (.mark .arrow)

lemma endsOperands_some (h : startsAtom t = false) : EndsOperands (some t) := by
  rintro u ⟨⟩
  exact h

lemma endsTerm_some (h : startsAtom t = false) (harrow : t ≠ .mark .arrow) : EndsTerm (some t) :=
  ⟨endsOperands_some h, fun heq => harrow (Option.some.inj heq)⟩

/-- A term, and then a token that ends it. -/
lemma Reads.bind_ends {p : Parse α} (hp : Reads p ts EndsTerm post)
    (hf : ∀ a, post a → Reads (f a) (t :: ts') next' post') (h : startsAtom t = false := by rfl)
    (harrow : t ≠ .mark .arrow := by decide) : Reads (p >>= f) (ts ++ t :: ts') next' post' :=
  hp.bind hf fun _ _ => endsTerm_some h harrow

/-- Phrases of fewer than `n` tokens are read.  Terms, parameters, operands and
lists of them call each other, so up to four calls go by for every token taken. -/
def TermsRead (n : Nat) : Prop :=
  ∀ p : Phrase, p.Clear → p.tokens.length < n → ∀ fuel, 4 * p.tokens.length + 3 ≤ fuel →
    Reads (term fuel) p.tokens EndsTerm (·.unplaced = p.tree)

lemma param_reads (ih : TermsRead n) {b : Binder} (hb : b.Clear) (hn : b.tokens.length ≤ n)
    (hfuel : 4 * b.tokens.length ≤ fuel) :
    Reads (param fuel) b.tokens (fun _ => True) (·.unplaced = b.tree) := by
  obtain ⟨names, type⟩ := b
  obtain ⟨hnames, htype⟩ := hb
  rw [Binder.length_tokens] at hn hfuel
  cases names with
  | nil => exact (hnames rfl).elim
  | cons x names =>
    simp only [length_cons] at hn hfuel
    rcases fuel with _ | fuel
    · omega
    rw [param, Binder.tokens, map_cons]
    refine Reads.bind_expect fun _ => ?_
    refine Reads.bind_ident fun i hi => ?_
    refine (idents_reads names (by omega)).bind (fun is his => ?_) (fun _ _ => by rintro ⟨_, ⟨⟩⟩)
    refine Reads.bind_expect fun _ => ?_
    refine (ih type htype (by omega) fuel (by omega)).bind_ends fun t ht => ?_
    refine (expect_reads _).map fun _ _ => ?_
    subst hi his
    simp [Param.unplaced, Binder.tree, Ident.unplaced, ht]

variable {os : List Operand}

lemma params_reads (ih : TermsRead n) (hbs : bindersClear bs) (hn : (bindersTokens bs).length ≤ n)
    (hfuel : 4 * (bindersTokens bs).length + 1 ≤ fuel) :
    Reads (params fuel) (bindersTokens bs) (· ≠ some (.mark .openParen))
      (paramsUnplaced · = bindersTree bs) := by
  rcases fuel with _ | fuel
  · omega
  induction bs generalizing fuel with
  | nil =>
    rw [params]
    refine Reads.bind_atMark_miss (fun _ h => h) ?_
    exact Reads.pure (by rfl) _
  | cons b bs ihbs =>
    obtain ⟨hb, hbs⟩ := hbs
    obtain ⟨names, type⟩ := b
    have hlength := Binder.length_tokens names type
    rw [bindersTokens, length_append] at hn hfuel
    rw [params]
    refine Reads.bind_atMark ?_
    refine (param_reads ih hb (by omega) (by omega)).bind_any fun q hq => ?_
    rcases fuel with _ | fuel
    · omega
    -- The tokens of the first parameters pay for reading the others.
    refine (ihbs hbs (by omega) fuel (by omega)).map fun qs hqs => ?_
    simp [paramsUnplaced, bindersTree, hq, hqs]

lemma atom_reads (ih : TermsRead n) {o : Operand} (ho : o.Clear) (hn : o.tokens.length ≤ n)
    (hfuel : 4 * o.tokens.length ≤ fuel) :
    Reads (atom fuel) o.tokens (fun _ => True) (·.unplaced = o.tree) := by
  have hpos := o.tokens_pos
  rcases fuel with _ | fuel
  · omega
  rw [atom]
  cases o with
  | name x =>
    refine Reads.bind_peek ?_
    exact (ident_reads x).map fun i hi => by simp [unplaced, Operand.tree, hi]
  | univ =>
    refine Reads.bind_peek ?_
    exact (expect_reads _).map fun _ _ => rfl
  | paren p =>
    simp only [Operand.tokens, length_cons, length_append, length_nil] at hn hfuel
    refine Reads.bind_peek (Reads.bind_expect fun _ => ?_)
    refine (ih p ho (by omega) fuel (by omega)).bind_ends fun u hu => ?_
    refine Reads.bind_eat_miss (fun _ _ => by simp) ?_
    exact (expect_reads _).map fun _ _ => hu
  | ann p type =>
    simp only [Operand.tokens, length_cons, length_append, length_nil] at hn hfuel
    refine Reads.bind_peek (Reads.bind_expect fun _ => ?_)
    refine (ih p ho.1 (by omega) fuel (by omega)).bind_ends fun u hu => ?_
    refine Reads.bind_eat fun colon => ?_
    refine (ih type ho.2 (by omega) fuel (by omega)).bind_ends fun v hv => ?_
    exact (expect_reads _).map fun _ _ => by simp [unplaced, Operand.tree, hu, hv]

/-- Operands are read until none begins, by induction on the list. -/
lemma operands_reads (ih : TermsRead n) (hos : operandsClear os)
    (hn : (operandsTokens os).length ≤ n) (hfuel : 4 * (operandsTokens os).length + 1 ≤ fuel)
    {head : Term} (hhead : head.unplaced = head') :
    Reads (operands fuel head) (operandsTokens os) EndsOperands
      (·.unplaced = operandsTree head' os) := by
  rcases fuel with _ | fuel
  · omega
  induction os generalizing fuel head head' with
  | nil =>
    rw [operands]
    refine (peek?_reads EndsOperands).bind_nil (fun next hnext => ?_) (fun _ h => h)
    cases next with
    | none => exact Reads.pure (by exact hhead) _
    | some t =>
      simp only [hnext t rfl, Bool.false_eq_true, if_false]
      exact Reads.pure (by exact hhead) _
  | cons o os ihos =>
    obtain ⟨ho, hos⟩ := hos
    obtain ⟨t, ts, htokens, hstart⟩ := o.exists_tokens
    have hpos := o.tokens_pos
    rw [operandsTokens, length_append] at hn hfuel
    rw [operands]
    refine (peek?_reads (· = some t)).bind_nil (fun next hnext => ?_)
      (fun _ _ => by rw [operandsTokens, htokens]; rfl)
    subst hnext
    simp only [hstart, if_true]
    refine (atom_reads ih ho (by omega) (by omega)).bind_any fun arg harg => ?_
    rcases fuel with _ | fuel
    · omega
    exact ihos hos (by omega) (by simp [unplaced, hhead, harg]) fuel (by omega)

/-! Parameters are tried first.  Where an application stands, either they fail, or
they end before something that is no arrow. -/

lemma param_fails (hts : Interrupted ts) (hfuel : ts.length ≤ fuel) :
    Fails (param (fuel + 1)) (.mark .openParen :: ts) (fun _ => True) := by
  obtain ⟨names, t, rest, rfl, hname, hcolon⟩ := hts
  rw [length_append, length_map] at hfuel
  rw [param]
  refine (expect_reads _).bind_any fun _ _ => ?_
  cases names with
  | nil => exact (ident_fails.of_first (t :: rest) fun _ _ => hname).bind _
  | cons n names =>
    rw [length_cons] at hfuel
    refine (ident_reads n).bind_any fun _ _ => ?_
    refine (idents_reads names (by omega)).bind (fun _ _ => ?_) (fun _ _ => hname)
    exact ((expect_fails _).of_first (t :: rest) fun _ _ => by simpa using hcolon).bind _

/-- Parameters are given up if no arrow follows them. -/
lemma binders?_misses {next : Option Token → Prop}
    (h : Stops (params fuel) ts next (· ≠ some (.mark .arrow))) :
    Looks (binders? (fuel + 1)) ts next none := by
  intro taken rest eof htaken hrest
  obtain ⟨result, after, hrun, hstop⟩ := h taken rest eof htaken hrest
  rw [binders?, run_bind_ok (run_get _)]
  split
  · rw [hrun]
    cases result with
    | error e => rfl
    | ok params =>
      have hmiss : (eatMark? .arrow).run.run after = (.ok none, after) := by
        rw [eatMark?, run_eat?, if_neg (hstop rfl)]
      exact (run_bind_ok (run_set _ after)).trans (run_bind_ok hmiss)
  · rfl

section

variable (ih : TermsRead n)

include ih

/-- Operands that are not all written like parameters are not taken for them. -/
lemma params_stop (hos : operandsClear os)
    (hall : os.all Operand.isBinder = false) (hn : (operandsTokens os).length ≤ n)
    (hfuel : 4 * (operandsTokens os).length + 1 ≤ fuel) :
    Stops (params fuel) (operandsTokens os) (fun _ => True) (· ≠ some (.mark .arrow)) := by
  rcases fuel with _ | fuel
  · omega
  induction os generalizing fuel with
  | nil => cases hall
  | cons o os ihos =>
    rw [operandsTokens, length_append] at hn hfuel
    obtain ⟨t, ts, htokens, hstart⟩ := o.exists_tokens
    have hpos := o.tokens_pos
    rw [params, operandsTokens]
    by_cases ht : t = .mark .openParen
    · subst ht
      refine Stops.bind_nil (atMark_reads .openParen) (fun b hb => ?_)
        (fun _ _ => by rw [htokens]; rfl)
      subst hb
      cases ho : o.isBinder with
      | false =>
        -- The operand only starts like parameters: reading it as such fails.
        rcases fuel with _ | fuel
        · omega
        rw [htokens, length_cons] at hfuel
        rw [htokens]
        have hlength : ts.length ≤ fuel := by omega
        have hfails := param_fails (Operand.tokens_interrupted ho htokens) hlength
        exact Stops.of_fails (Fails.bind (hfails.append _ _) _)
      | true =>
        obtain ⟨b, hb, hbo⟩ := Operand.exists_binder ho hos.1
        rw [← hbo] at hn hfuel hpos ⊢
        refine (param_reads ih hb (by omega) (by omega)).bind_any fun p _ => ?_
        rcases fuel with _ | fuel
        · omega
        have hos' : os.all Operand.isBinder = false := by simpa [ho] using hall
        exact (ihos hos.2 hos' (by omega) fuel (by omega)).map _
    · refine Stops.bind_nil (atMark_misses .openParen) (fun b hb => ?_)
        (fun _ _ => by rw [htokens]; simpa using ht)
      subst hb
      refine Stops.pure _ fun _ _ => ?_
      rw [htokens]
      rintro ⟨⟩
      cases hstart

/-- An application is not taken for parameters if no arrow follows. -/
lemma binders?_misses_spine (hos : operandsClear os)
    (hn : (operandsTokens os).length ≤ n) (hfuel : 4 * (operandsTokens os).length + 2 ≤ fuel) :
    Looks (binders? fuel) (operandsTokens os) EndsTerm none := by
  rcases fuel with _ | fuel
  · omega
  refine binders?_misses ?_
  cases hall : os.all Operand.isBinder with
  | false =>
    have hfuel' : 4 * (operandsTokens os).length + 1 ≤ fuel := by omega
    have hstops := (params_stop ih hos hall hn hfuel').append [] EndsTerm
    rwa [append_nil] at hstops
  | true =>
    -- The operands are read as parameters, and then the arrow is missing.
    obtain ⟨bs, hbs, hbos⟩ := exists_binders hall hos
    rw [← hbos] at hn hfuel ⊢
    have hread := params_reads ih hbs hn (show 4 * (bindersTokens bs).length + 1 ≤ fuel by omega)
    refine Stops.of_reads (hread.imp (fun o ho => ?_) fun _ h => h) fun _ ho => ho.2
    rintro rfl
    exact absurd (ho.1 _ rfl) (by decide)

lemma binders?_misses_domain (hos : operandsClear os)
    (hall : os.all Operand.isBinder = false) (hn : (operandsTokens os).length ≤ n)
    (hfuel : 4 * (operandsTokens os).length + 2 ≤ fuel) (ts : List Token)
    (next : Option Token → Prop) :
    Looks (binders? fuel) (operandsTokens os ++ ts) next none := by
  rcases fuel with _ | fuel
  · omega
  exact binders?_misses ((params_stop ih hos hall hn (by omega)).append ts next)

lemma binders?_reads (hbs : bindersClear bs) (hne : bs ≠ [])
    (hn : (bindersTokens bs).length ≤ n) (hfuel : 4 * (bindersTokens bs).length + 2 ≤ fuel) :
    Reads (binders? fuel) (bindersTokens bs ++ [.mark .arrow]) (fun _ => True)
      (fun o => ∃ start ps, o = some (start, ps) ∧ paramsUnplaced ps = bindersTree bs) := by
  rcases fuel with _ | fuel
  · omega
  intro taken rest eof htaken _
  obtain ⟨taken, last, rfl, h₁, h₂⟩ := map_eq_append_iff.mp htaken
  obtain ⟨arrow, rfl, harrow⟩ := map_eq_singleton_iff.mp h₂
  obtain ⟨ps, hrun, hps⟩ := params_reads ih hbs hn (show _ ≤ fuel by omega) taken (arrow :: rest)
    eof h₁ (by simp [harrow])
  obtain ⟨span, heat, hspan⟩ :=
    eat?_reads (.mark .arrow) [arrow] rest eof (by simp [harrow]) trivial
  obtain ⟨span, rfl⟩ := Option.isSome_iff_exists.mp hspan
  obtain ⟨x, ts, htokens⟩ := exists_bindersTokens hbs hne
  rw [htokens] at h₁
  obtain ⟨⟨_, start⟩, taken, rfl, rfl, hmore⟩ := map_eq_cons_iff.mp h₁
  obtain ⟨⟨_, place⟩, taken, rfl, rfl, -⟩ := map_eq_cons_iff.mp hmore
  refine ⟨some (start, ps), ?_, start, ps, rfl, hps⟩
  rw [append_assoc, binders?, run_bind_ok (run_get _)]
  simp only [cons_append, nil_append] at hrun ⊢
  simp only [hrun]
  exact (run_bind_ok (run_set _ _)).trans (run_bind_ok heat)

/-- One more token: every phrase is read if the phrases with fewer tokens are. -/
lemma TermsRead.succ : TermsRead (n + 1) := by
  intro p hp hn fuel hfuel
  rcases fuel with _ | fuel
  · omega
  rw [term]
  cases p with
  | lam bs body =>
    obtain ⟨hne, hbs, hbody⟩ := hp
    simp only [Phrase.tokens, length_cons, length_append] at hn hfuel
    refine Reads.bind_eat fun start => ?_
    cases bs with
    | nil => exact (hne rfl).elim
    | cons b bs =>
      obtain ⟨hb, hbs⟩ := hbs
      simp only [bindersTokens, length_append] at hn hfuel
      rw [bindersTokens, append_assoc]
      refine (param_reads ih hb (by omega) (by omega)).bind_any fun q hq => ?_
      refine (params_reads ih hbs (by omega) (by omega)).bind (fun qs hqs => ?_)
        (fun _ _ => by simp)
      refine Reads.bind_expect fun _ => ?_
      refine (ih body hbody (by omega) fuel (by omega)).map fun u hu => ?_
      simp [unplaced, Phrase.tree, paramsUnplaced, bindersTree, hq, hqs, hu]
  | pi bs body =>
    obtain ⟨hne, hbs, hbody⟩ := hp
    obtain ⟨x, ts, htokens⟩ := exists_bindersTokens hbs hne
    simp only [Phrase.tokens, length_cons, length_append] at hn hfuel
    refine Reads.bind_eat_miss (fun _ _ => by rw [Phrase.tokens, htokens]; simp) ?_
    -- The arrow is taken together with the parameters: it decides about them.
    rw [Phrase.tokens, append_cons]
    refine (binders?_reads ih hbs hne (by omega) (by omega)).bind_any fun o ho => ?_
    obtain ⟨start, ps, rfl, hps⟩ := ho
    refine (ih body hbody (by omega) fuel (by omega)).map fun u hu => ?_
    simp [unplaced, Phrase.tree, hps, hu]
  | arrow head args cod =>
    obtain ⟨hhead, hargs, hcod, hall⟩ := hp
    simp only [Phrase.tokens, length_cons, length_append] at hn hfuel
    have hlength := operandsTokens_cons_length head args
    refine Reads.bind_eat_miss (fun _ _ => head.first_ne_function _ _) ?_
    rw [Phrase.tokens, ← append_assoc]
    -- The parameters that are tried first leave the domain where it is.
    have hdomain : operandsClear (head :: args) := ⟨hhead, hargs⟩
    refine Reads.look (binders?_misses_domain ih hdomain hall (by omega) (by omega) _ _) ?_
    rw [append_assoc]
    refine (atom_reads ih hhead (by omega) (by omega)).bind_any fun u hu => ?_
    refine (operands_reads ih hargs (by omega) (by omega) hu).bind (fun v hv => ?_)
      (fun _ _ => endsOperands_some rfl)
    refine Reads.bind_eat fun span => ?_
    refine (ih cod hcod (by omega) fuel (by omega)).map fun w hw => ?_
    simp [unplaced, Phrase.tree, hv, hw]
  | spine head args =>
    simp only [Phrase.tokens, length_append] at hn hfuel
    have hlength := operandsTokens_cons_length head args
    refine Reads.bind_eat_miss (fun _ _ => head.first_ne_function _ _) ?_
    have hspine : operandsClear (head :: args) := hp
    refine Reads.look (binders?_misses_spine ih hspine (by omega) (by omega)) ?_
    refine (atom_reads ih hp.1 (by omega) (by omega)).bind_any fun u hu => ?_
    rw [← append_nil (operandsTokens args)]
    refine (operands_reads ih hp.2 (by omega) (by omega) hu).bind (fun v hv => ?_) (fun _ h => h.1)
    refine Reads.bind_eat_miss (fun _ h => h.2) ?_
    exact Reads.pure (by exact hv) _

end

lemma termsRead (n : Nat) : TermsRead n := by
  induction n with
  | zero => exact fun p _ h => absurd h (Nat.not_lt_zero _)
  | succ n ih => exact ih.succ

/-- Reading the tokens of a phrase gives the term that it stands for. -/
lemma term_reads {p : Phrase} (hp : p.Clear) (hfuel : 4 * p.tokens.length + 3 ≤ fuel) :
    Reads (term fuel) p.tokens EndsTerm (·.unplaced = p.tree) :=
  termsRead _ p hp (Nat.lt_succ_self _) fuel hfuel

end Parse

/-- A text that is read as the tokens of a phrase is read as its term. -/
lemma parseTerm_of_lexes (htext : Lexes text.toList p.tokens) (hp : p.Clear) :
    ∃ u, parseTerm text = (some u, []) ∧ u.unplaced = p.tree := by
  obtain ⟨htokens, herrors⟩ := htext 0
  change (lex text).1.map (·.token) = p.tokens at htokens
  have hfaults : (lex text).2 = [] := by rw [lex, LexemeAt.ofText, herrors, map_nil]
  have hlength : (lex text).1.length = p.tokens.length := by rw [← htokens, length_map]
  have hfuel : 4 * p.tokens.length + 3 ≤ fuelFor (lex text).1 := by
    rw [fuelFor, hlength]
    omega
  obtain ⟨u, hrun, hu⟩ := term_reads hp hfuel (lex text).1 [] text.utf8ByteSize htokens
    ⟨nofun, nofun⟩
  refine ⟨u, ?_, hu⟩
  rw [append_nil] at hrun
  rw [parseTerm]
  simp only [hrun, hfaults]

end Clausal.Surface
