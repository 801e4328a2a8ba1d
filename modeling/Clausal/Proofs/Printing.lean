import Clausal.Proofs.DisplayNames
import Clausal.Proofs.Layouts

/-!
# What the printer writes

With display names for its variables, a term without case splits is written as a
phrase: parentheses stand where a part binds less tightly than its position asks.
However the printer breaks the lines, its text is read as the tokens of this
phrase.
-/

namespace Clausal

open Bool Doc Option Surface Term

variable {t : Term} {p : Phrase}

/-! ### Terms as phrases -/

namespace Surface

namespace Phrase

/-- The head of a phrase that stands to the left of an operand or an arrow. -/
def head : Phrase → Operand
  | .spine h _ => h
  | p => .paren p

/-- The operands that such a phrase has already. -/
def args : Phrase → List Operand
  | .spine _ as => as
  | _ => []

/-- How tightly a phrase binds. -/
def prec : Phrase → Prec
  | .spine _ [] => .atomic
  | .spine _ (_ :: _) => .app
  | _ => .function

/-- The tokens of a phrase at a position. -/
def tokensAt (outer : Prec) (p : Phrase) : List Token :=
  if outer.needsParens p.prec then parenthesised p.tokens else p.tokens

end Phrase

end Surface

/-- The phrase that is printed for a term.  Case splits are not written. -/
def Term.printed (δ : Var → Name) : Term → Phrase
  | .univ => .spine .univ []
  | .var v => .spine (.name (δ v)) []
  | .global c => .spine (.name c) []
  | .pi v dom cod =>
    if cod.occurs v then .pi [.mk [δ v] (dom.printed δ)] (cod.printed δ)
    else .arrow (dom.printed δ).head (dom.printed δ).args (cod.printed δ)
  | .lam v dom body => .lam [.mk [δ v] (dom.printed δ)] (body.printed δ)
  | .app head arg =>
    .spine (head.printed δ).head ((head.printed δ).args ++ [(arg.printed δ).operand])
  | .ann t type => .spine (.ann (t.printed δ) (type.printed δ)) []
  | .case _ _ => .spine .univ []
  | .absurd _ => .spine .univ []

/-- A term without case splits, whose variables and globals have names that can be
written. -/
def Term.plain : Term → Bool
  | .univ => true
  | .var v => v.nameable
  | .global c => decide c.Lexical
  | .pi v dom cod => v.nameable && dom.plain && cod.plain
  | .lam v dom body => v.nameable && dom.plain && body.plain
  | .app head arg => head.plain && arg.plain
  | .ann t type => t.plain && type.plain
  | .case _ _ => false
  | .absurd _ => false

/-- All variables that are written have display names. -/
def Term.Named (names : Naming) : Term → Prop
  | .univ => True
  | .var v => (names.nameOf? v).isSome
  | .global _ => True
  | .pi v dom cod =>
    (cod.occurs v = true → (names.nameOf? v).isSome) ∧ dom.Named names ∧ cod.Named names
  | .lam v dom body => (names.nameOf? v).isSome ∧ dom.Named names ∧ body.Named names
  | .app head arg => head.Named names ∧ arg.Named names
  | .ann t type => t.Named names ∧ type.Named names
  | .case _ _ => True
  | .absurd _ => True

attribute [local simp] printed plain Print.term

lemma Term.Named.mono (hle : names.Le names') : {t : Term} → t.Named names → t.Named names'
  | .univ, _ => trivial
  | .var _, h => hle.isSome h
  | .global _, _ => trivial
  | .pi _ _ _, h => ⟨fun ho => hle.isSome (h.1 ho), h.2.1.mono hle, h.2.2.mono hle⟩
  | .lam _ _ _, h => ⟨hle.isSome h.1, h.2.1.mono hle, h.2.2.mono hle⟩
  | .app _ _, h | .ann _ _, h => ⟨h.1.mono hle, h.2.mono hle⟩
  | .case _ _, _ | .absurd _, _ => trivial

namespace Surface.Phrase

lemma head_args_tokens (p : Phrase) :
    p.head.tokens ++ operandsTokens p.args = p.tokensAt .app := by
  cases p with
  | spine h as =>
    cases as with
    | nil | cons => rfl
  | _ => simp [head, args, tokensAt, prec, Operand.tokens, operandsTokens, parenthesised,
      Prec.needsParens, Prec.level]

lemma operand_tokens (p : Phrase) : p.operand.tokens = p.tokensAt .atomic := by
  cases p with
  | spine h as =>
    cases as with
    | nil => simp [operand, tokensAt, prec, tokens, operandsTokens, Prec.needsParens, Prec.level]
    | cons a as => rfl
  | _ => rfl

lemma tokensAt_top (p : Phrase) : p.tokensAt .top = p.tokens := by
  simp [tokensAt, Prec.needsParens, Prec.level]

lemma tokensAt_function (p : Phrase) : p.tokensAt .function = p.tokens := by
  cases p with
  | spine h as => cases as <;> rfl
  | _ => rfl

lemma operandsTokens_append (as bs : List Operand) :
    operandsTokens (as ++ bs) = operandsTokens as ++ operandsTokens bs := by
  induction as with
  | nil => rfl
  | cons a as ih => rw [List.cons_append, operandsTokens, ih, operandsTokens, List.append_assoc]

lemma prec_spine_concat (h : Operand) (as : List Operand) (o : Operand) :
    (Phrase.spine h (as ++ [o])).prec = .app := by
  cases as <;> rfl

lemma tokens_spine_concat (p q : Phrase) :
    (Phrase.spine p.head (p.args ++ [q.operand])).tokens =
      p.tokensAt .app ++ q.tokensAt .atomic := by
  rw [tokens, operandsTokens_append, ← List.append_assoc, head_args_tokens, operandsTokens,
    operandsTokens, List.append_nil, operand_tokens]

end Surface.Phrase

/-! ### Documents of terms -/

namespace Print

lemma spells_parens (h : d.Spells ts) :
    (parens wrap d).Spells (if wrap then parenthesised ts else ts) := by
  cases wrap with
  | false => exact h
  | true =>
    refine SpellAll.concat (SpellAll.mark (m := .openParen) (by decide) ?_)
    exact .word h (detached_mark (m := .closeParen) (by decide) (by decide))
      (.last (spellsApart_mark (m := .closeParen) (by decide)).spells)

/-- Printing gives a document and perhaps new names.  Whatever names are given later,
the document spells the tokens. -/
structure Writes (p : Print Doc) (names : Naming) (tokens : (Var → Name) → List Token) : Prop where
  le : names.Le (p.run names).2
  proper : names.Proper → (p.run names).2.Proper
  spells : ∀ names' : Naming, names'.Proper → (p.run names).2.Le names' →
    (p.run names).1.Spells (tokens names'.display)

/-- The document of a term at a position spells its phrase. -/
abbrev WritesTerm (prec : Prec) (t : Term) (names : Naming) : Prop :=
  Writes (term prec t) names fun δ => (t.printed δ).tokensAt prec

lemma writes_token {t : Token} (ht : t.Lexical) (names : Naming) :
    Writes (pure (.text t.text)) names fun _ => [t] :=
  ⟨.refl names, fun h => h, fun _ _ _ => spells_token ht⟩

lemma writes_var (hv : v.nameable = true) (names : Naming) :
    Writes (var v) names fun δ => [.name (δ v)] := by
  obtain ⟨hle, hname, -, hproper⟩ := varName_spec v names
  refine ⟨hle, hproper hv, fun names' hnames' hle' => ?_⟩
  -- The name that was given is still there when all of the term is printed.
  have hdisplay := hle' v _ hname
  have hlexical := hnames'.lexical _ (Naming.mem_of_nameOf? hdisplay)
  have heq : names'.display v = ((varName v).run names).1 := by
    rw [Naming.display, hdisplay, getD_some]
  change (text ((varName v).run names).1).Spells _
  rw [heq]
  exact spells_token (t := .name _) hlexical

lemma app_writes (hf : WritesTerm .app f names)
    (ha : WritesTerm .atomic a ((term .app f).run names).2) : WritesTerm prec (.app f a) names := by
  refine ⟨hf.le.trans ha.le, fun h => ha.proper (hf.proper h), fun names' hnames' hle => ?_⟩
  have hhead := hf.spells names' hnames' (ha.le.trans hle)
  have harg := ha.spells names' hnames' hle
  have hgap := gap_line.nest indent
  rw [printed, Phrase.tokensAt, Phrase.prec_spine_concat,
    Phrase.tokens_spine_concat]
  refine spells_parens (Spells.group (SpellAll.concat ?_))
  exact .word hhead hgap.detached (.gap hgap (.last (harg.nest indent)))

lemma spells_param {v : Doc} (hv : v.Spells [.name x]) (hd : d.Spells ts)
    (hdocs : SpellAll docs ts') :
    SpellAll ([.text "(", v, .space, .text ":", .space, d, .text ")"] ++ docs)
      (.mark .openParen :: .name x :: .mark .colon :: (ts ++ .mark .closeParen :: ts')) := by
  have hclose : (text Mark.closeParen.text).Detached :=
    detached_mark (by decide) (by decide)
  refine .mark (m := .openParen) (by decide) (.word hv gap_space.detached ?_)
  refine .gap gap_space (.mark (m := .colon) (by decide) (.gap gap_space ?_))
  exact .word hd hclose (.mark (m := .closeParen) (by decide) hdocs)

lemma pi_writes (hoccurs : cod.occurs v = true) (hv : Writes (var v) names fun δ => [.name (δ v)])
    (hdom : WritesTerm .top dom ((var v).run names).2)
    (hcod : WritesTerm .function cod ((term .top dom).run ((var v).run names).2).2) :
    WritesTerm prec (.pi v dom cod) names := by
  rw [WritesTerm, term, if_pos hoccurs]
  refine ⟨hv.le.trans (hdom.le.trans hcod.le), fun h => hcod.proper (hdom.proper (hv.proper h)),
    fun names' hnames' hle => ?_⟩
  have hname := hv.spells names' hnames' (hdom.le.trans (hcod.le.trans hle))
  have htype := hdom.spells names' hnames' (hcod.le.trans hle)
  have hbody := hcod.spells names' hnames' hle
  rw [Phrase.tokensAt_top] at htype
  rw [Phrase.tokensAt_function] at hbody
  have htokens : ((pi v dom cod).printed names'.display).tokens =
      (.mark .openParen :: .name (names'.display v) :: .mark .colon ::
        ((dom.printed names'.display).tokens ++ .mark .closeParen :: [.mark .arrow])) ++
      (cod.printed names'.display).tokens := by
    simp [printed, hoccurs, Phrase.tokens, bindersTokens,
      Binder.tokens]
  have harrow : SpellAll [.space, .text "->"] [.mark .arrow] :=
    .gap gap_space (.last (spellsApart_mark (m := .arrow) (by decide)).spells)
  have hprec : ((pi v dom cod).printed names'.display).prec = .function := by
    simp [printed, hoccurs, Phrase.prec]
  rw [Phrase.tokensAt, hprec, htokens]
  refine spells_parens (SpellAll.concat ?_)
  refine .word (Spells.group ?_) gap_softline.detached (.gap gap_softline (.last hbody))
  exact (spells_param hname htype harrow).concat

lemma arrow_writes (hoccurs : cod.occurs v = false) (hdom : WritesTerm .app dom names)
    (hcod : WritesTerm .function cod ((term .app dom).run names).2) :
    WritesTerm prec (.pi v dom cod) names := by
  have hne : ¬ cod.occurs v = true := by simp [hoccurs]
  rw [WritesTerm, term, if_neg hne]
  refine ⟨hdom.le.trans hcod.le, fun h => hcod.proper (hdom.proper h), fun names' hnames' hle => ?_⟩
  have htype := hdom.spells names' hnames' (hcod.le.trans hle)
  have hbody := hcod.spells names' hnames' hle
  rw [Phrase.tokensAt_function] at hbody
  have htokens : ((pi v dom cod).printed names'.display).tokens =
      (dom.printed names'.display).tokensAt .app ++
        .mark .arrow :: (cod.printed names'.display).tokens := by
    rw [printed, if_neg hne, Phrase.tokens, ← List.append_assoc,
      Phrase.head_args_tokens]
  have hprec : ((pi v dom cod).printed names'.display).prec = .function := by
    rw [printed, if_neg hne]
    rfl
  rw [Phrase.tokensAt, hprec, htokens]
  refine spells_parens (SpellAll.concat ?_)
  refine .word htype gap_softline.detached (.gap gap_softline ?_)
  exact .mark (m := .arrow) (by decide) (.gap gap_softline (.last hbody))

lemma lam_writes (hv : Writes (var v) names fun δ => [.name (δ v)])
    (hdom : WritesTerm .top dom ((var v).run names).2)
    (hbody : WritesTerm .function body ((term .top dom).run ((var v).run names).2).2) :
    WritesTerm prec (.lam v dom body) names := by
  refine ⟨hv.le.trans (hdom.le.trans hbody.le), fun h => hbody.proper (hdom.proper (hv.proper h)),
    fun names' hnames' hle => ?_⟩
  have hname := hv.spells names' hnames' (hdom.le.trans (hbody.le.trans hle))
  have htype := hdom.spells names' hnames' (hbody.le.trans hle)
  have hbody := hbody.spells names' hnames' hle
  rw [Phrase.tokensAt_top] at htype
  rw [Phrase.tokensAt_function] at hbody
  have htokens : ((lam v dom body).printed names'.display).tokens =
      ([.keyword .function] ++ (.mark .openParen :: .name (names'.display v) :: .mark .colon ::
        ((dom.printed names'.display).tokens ++ .mark .closeParen :: [.mark .fatArrow]))) ++
      (body.printed names'.display).tokens := by
    simp [printed, Phrase.tokens, bindersTokens, Binder.tokens]
  have harrow : SpellAll [.space, .text "=>"] [.mark .fatArrow] :=
    .gap gap_space (.last (spellsApart_mark (m := .fatArrow) (by decide)).spells)
  have hfun : (text "fun").Spells [.keyword .function] :=
    spells_token (t := .keyword .function) trivial
  have hgap := gap_line.nest indent
  rw [Phrase.tokensAt, htokens]
  refine spells_parens (Spells.group (SpellAll.concat ?_))
  refine .word (Spells.group ?_) hgap.detached (.gap hgap (.last (hbody.nest indent)))
  refine (SpellAll.word hfun gap_space.detached (.gap gap_space ?_)).concat
  exact spells_param hname htype harrow

lemma ann_writes (ht : WritesTerm .function t names)
    (htype : WritesTerm .top type ((term .function t).run names).2) :
    WritesTerm prec (.ann t type) names := by
  refine ⟨ht.le.trans htype.le, fun h => htype.proper (ht.proper h), fun names' hnames' hle => ?_⟩
  have ht := ht.spells names' hnames' (htype.le.trans hle)
  have htype := htype.spells names' hnames' hle
  rw [Phrase.tokensAt_function] at ht
  rw [Phrase.tokensAt_top] at htype
  have htokens : ((ann t type).printed names'.display).tokensAt prec =
      .mark .openParen :: ((t.printed names'.display).tokens ++
        .mark .colon :: ((type.printed names'.display).tokens ++ [.mark .closeParen])) := by
    cases prec <;>
      simp [printed, Phrase.tokensAt, Phrase.prec, Prec.needsParens,
        Prec.level, Phrase.tokens, Operand.tokens, operandsTokens]
  rw [htokens]
  refine SpellAll.concat (.mark (m := .openParen) (by decide) ?_)
  refine .word ht gap_space.detached (.gap gap_space (.mark (m := .colon) (by decide) ?_))
  refine .gap gap_softline (.word htype (detached_mark (m := .closeParen) (by decide)
    (by decide)) ?_)
  exact .last (spellsApart_mark (m := .closeParen) (by decide)).spells

/-- The document of a term spells its phrase, at every position. -/
lemma term_writes : (t : Term) → t.plain = true → (prec : Prec) → (names : Naming) →
    WritesTerm prec t names
  | .univ, _, prec, names => by
    cases prec <;> exact writes_token (t := .keyword .univ) trivial names
  | .var v, h, prec, names => by
    cases prec <;> exact writes_var h names
  | .global c, h, prec, names => by
    have hc : c.Lexical := of_decide_eq_true h
    cases prec <;> exact writes_token (t := .name c) hc names
  | .pi v dom cod, h, prec, names => by
    simp only [plain, and_eq_true] at h
    cases hoccurs : cod.occurs v with
    | true =>
      exact pi_writes hoccurs (writes_var h.1.1 _) (term_writes dom h.1.2 _ _)
        (term_writes cod h.2 _ _)
    | false => exact arrow_writes hoccurs (term_writes dom h.1.2 _ _) (term_writes cod h.2 _ _)
  | .lam v dom body, h, prec, names => by
    simp only [plain, and_eq_true] at h
    exact lam_writes (writes_var h.1.1 _) (term_writes dom h.1.2 _ _) (term_writes body h.2 _ _)
  | .app f a, h, prec, names => by
    simp only [plain, and_eq_true] at h
    exact app_writes (term_writes f h.1 _ _) (term_writes a h.2 _ _)
  | .ann t type, h, prec, names => by
    simp only [plain, and_eq_true] at h
    exact ann_writes (term_writes t h.1 _ _) (term_writes type h.2 _ _)

/-- Printing a term names the variables that it writes. -/
lemma term_named : (t : Term) → t.plain = true → (prec : Prec) → (names : Naming) →
    t.Named ((term prec t).run names).2
  | .univ, _, _, _ => trivial
  | .var v, _, _, names => isSome_of_eq_some (varName_spec v names).2.1
  | .global _, _, _, _ => trivial
  | .pi v dom cod, h, prec, names => by
    simp only [plain, and_eq_true] at h
    cases hoccurs : cod.occurs v with
    | true =>
      have hv := isSome_of_eq_some (varName_spec v names).2.1
      have hdom := term_writes dom h.1.2 .top ((var v).run names).2
      have hcod := term_writes cod h.2 .function ((term .top dom).run ((var v).run names).2).2
      rw [term, if_pos hoccurs]
      exact ⟨fun _ => hcod.le.isSome (hdom.le.isSome hv),
        (term_named dom h.1.2 _ _).mono hcod.le, term_named cod h.2 _ _⟩
    | false =>
      have hne : ¬ cod.occurs v = true := by simp [hoccurs]
      have hcod := term_writes cod h.2 .function ((term .app dom).run names).2
      rw [term, if_neg hne]
      exact ⟨fun ho => (hne ho).elim, (term_named dom h.1.2 _ _).mono hcod.le,
        term_named cod h.2 _ _⟩
  | .lam v dom body, h, prec, names => by
    simp only [plain, and_eq_true] at h
    have hv := isSome_of_eq_some (varName_spec v names).2.1
    have hdom := term_writes dom h.1.2 .top ((var v).run names).2
    have hbody := term_writes body h.2 .function ((term .top dom).run ((var v).run names).2).2
    exact ⟨hbody.le.isSome (hdom.le.isSome hv), (term_named dom h.1.2 _ _).mono hbody.le,
      term_named body h.2 _ _⟩
  | .app f a, h, prec, names => by
    simp only [plain, and_eq_true] at h
    have ha := term_writes a h.2 .atomic ((term .app f).run names).2
    exact ⟨(term_named f h.1 _ _).mono ha.le, term_named a h.2 _ _⟩
  | .ann t type, h, prec, names => by
    simp only [plain, and_eq_true] at h
    have htype := term_writes type h.2 .top ((term .function t).run names).2
    exact ⟨(term_named t h.1 _ _).mono htype.le, term_named type h.2 _ _⟩

/-- The names that are given when a term is printed on its own. -/
def names (t : Term) : Naming := ((render t).run {}).2

lemma names_proper (ht : t.plain = true) : (names t).Proper :=
  (term_writes t ht .top {}).proper ⟨List.nodup_nil, by simp⟩

/-- The text of a term is read as the tokens of its phrase. -/
lemma render_lexes (ht : t.plain = true) :
    Lexes (fresh (render t)).toList (t.printed (names t).display).tokens := by
  have hspells := (term_writes t ht .top {}).spells (names t) (names_proper ht) (.refl _)
  rw [Phrase.tokensAt_top] at hspells
  exact (hspells _ (render_lays (some width) _)).lexes

end Print

/-! ### Domains that look like parameters

To the left of an arrow, an annotation is written with its own parentheses only.  If
nothing but annotated names stands there, it is read as parameters. -/

namespace Term

def isName : Term → Bool
  | .var _ | .global _ => true
  | _ => false

/-- Whether a term is written as names only. -/
def isNames : Term → Bool
  | .app f a => f.isNames && a.isName
  | t => t.isName

/-- Whether a term is written as names with a type. -/
def isAnnotatedNames : Term → Bool
  | .ann t _ => t.isNames
  | _ => false

/-- Whether a term to the left of an arrow looks like parameters. -/
def looksBound : Term → Bool
  | .app f a => f.looksBound && a.isAnnotatedNames
  | t => t.isAnnotatedNames

/-- No domain of a function type looks like parameters. -/
def clearDomains : Term → Bool
  | .pi v dom cod => (cod.occurs v || !dom.looksBound) && dom.clearDomains && cod.clearDomains
  | .lam _ dom body => dom.clearDomains && body.clearDomains
  | .app f a => f.clearDomains && a.clearDomains
  | .ann t type => t.clearDomains && type.clearDomains
  | _ => true

lemma operand_isName (δ : Var → Name) (h : t.plain = true) :
    (t.printed δ).operand.isName = t.isName := by
  cases t with
  | pi v dom cod =>
    rw [printed]
    split <;> rfl
  | app f a =>
    rw [printed]
    cases (f.printed δ).args <;> rfl
  | case | absurd => cases h
  | _ => rfl

lemma printed_isNames (δ : Var → Name) : {t : Term} → t.plain = true →
    (t.printed δ).isNames = t.isNames
  | .univ, _ | .var _, _ | .global _, _ => rfl
  | .pi v dom cod, _ => by
    rw [printed]
    split <;> rfl
  | .lam _ _ _, _ => rfl
  | .app f a, h => by
    simp only [plain, and_eq_true] at h
    have hf := printed_isNames δ h.1
    have ha := operand_isName δ h.2
    rw [printed, isNames, ← hf, ← ha]
    cases hp : f.printed δ with
    | spine o os => simp [Phrase.isNames, Phrase.head, Phrase.args, Bool.and_assoc]
    | _ => simp [Phrase.isNames, Phrase.head, Phrase.args, Operand.isName]
  | .ann _ _, _ => rfl

lemma operand_isBinder (δ : Var → Name) (h : t.plain = true) :
    (t.printed δ).operand.isBinder = t.isAnnotatedNames := by
  cases t with
  | pi v dom cod =>
    rw [printed]
    split <;> rfl
  | app f a =>
    rw [printed]
    cases (f.printed δ).args <;> rfl
  | ann t type =>
    simp only [plain, and_eq_true] at h
    exact printed_isNames δ h.1
  | case | absurd => cases h
  | _ => rfl

lemma domain_isBinder (δ : Var → Name) : {t : Term} → t.plain = true →
    ((t.printed δ).head :: (t.printed δ).args).all Operand.isBinder = t.looksBound
  | .univ, _ | .var _, _ | .global _, _ => rfl
  | .pi v dom cod, _ => by
    rw [printed]
    split <;> rfl
  | .lam _ _ _, _ => rfl
  | .app f a, h => by
    simp only [plain, and_eq_true] at h
    have hf := domain_isBinder δ h.1
    have ha := operand_isBinder δ h.2
    rw [printed, looksBound, ← hf, ← ha]
    simp [Phrase.head, Phrase.args, Bool.and_assoc]
  | .ann t type, h => by
    simp only [plain, and_eq_true] at h
    rw [looksBound, isAnnotatedNames, ← printed_isNames δ h.1]
    · simp [printed, Phrase.head, Phrase.args, Operand.isBinder]
    · exact nofun

end Term

namespace Surface

lemma operandsClear_append (has : operandsClear as) (hbs : operandsClear bs) :
    operandsClear (as ++ bs) := by
  induction as with
  | nil => exact hbs
  | cons a as ih => exact ⟨has.1, ih has.2⟩

lemma Phrase.head_clear (h : p.Clear) : p.head.Clear := by
  cases p with
  | spine o os => exact h.1
  | _ => exact h

lemma Phrase.args_clear (h : p.Clear) : operandsClear p.args := by
  cases p with
  | spine o os => exact h.2
  | _ => trivial

end Surface

/-- The phrase of a term is read without mistaking domains for parameters. -/
lemma Term.printed_clear (δ : Var → Name) : {t : Term} → t.plain = true →
    t.clearDomains = true → (t.printed δ).Clear
  | .univ, _, _ | .var _, _, _ | .global _, _, _ => ⟨trivial, trivial⟩
  | .pi v dom cod, h, hclear => by
    simp only [plain, clearDomains, and_eq_true, or_eq_true, not_eq_true'] at h hclear
    have hdom := printed_clear δ h.1.2 hclear.1.2
    have hcod := printed_clear δ h.2 hclear.2
    rw [printed]
    split
    · exact ⟨by simp, ⟨⟨by simp, hdom⟩, trivial⟩, hcod⟩
    · next hoccurs =>
        have hbound := hclear.1.1.resolve_left hoccurs
        rw [← domain_isBinder δ h.1.2] at hbound
        exact ⟨Phrase.head_clear hdom, Phrase.args_clear hdom, hcod, hbound⟩
  | .lam v dom body, h, hclear => by
    simp only [plain, clearDomains, and_eq_true] at h hclear
    have hdom := printed_clear δ h.1.2 hclear.1
    exact ⟨by simp, ⟨⟨by simp, hdom⟩, trivial⟩, printed_clear δ h.2 hclear.2⟩
  | .app f a, h, hclear => by
    simp only [plain, clearDomains, and_eq_true] at h hclear
    have hf := printed_clear δ h.1 hclear.1
    have ha := Phrase.operand_clear (printed_clear δ h.2 hclear.2)
    exact ⟨Phrase.head_clear hf,
      operandsClear_append (Phrase.args_clear hf) ⟨ha, trivial⟩⟩
  | .ann t type, h, hclear => by
    simp only [plain, clearDomains, and_eq_true] at h hclear
    exact ⟨⟨printed_clear δ h.1 hclear.1, printed_clear δ h.2 hclear.2⟩, trivial⟩

end Clausal
