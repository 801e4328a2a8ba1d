import Clausal.Token.Lexer
import Mathlib.Data.List.Basic

/-!
# Texts and their tokens

A text is read as the tokens that it spells.  Words must not run into what
follows them; other marks may stand next to anything.

`Lexes` says how a whole text is read, `Spells` how a stretch of text is read
inside a longer one.
-/

namespace Clausal

open List

/-! ### Names and how tokens are written -/

namespace Lexeme

/-- The characters of a name after its first: a full stop stands between two
parts of a name. -/
def nameRest : List Char → Bool
  | [] => true
  | '.' :: c :: cs => isNameStart c && nameRest cs
  | c :: cs => isNameChar c && nameRest cs

lemma nameRest_cons (hc : isNameChar c = true) (cs : List Char) :
    nameRest (c :: cs) = nameRest cs := by
  rw [nameRest, hc, Bool.true_and]
  rintro d ds rfl
  cases hc

end Lexeme

namespace Name

/-- The characters make up a word: letters, digits, underscores and quotes, in
parts that are set apart by full stops and do not start with a digit or a quote. -/
def isWord : List Char → Bool
  | [] => false
  | c :: cs => Lexeme.isNameStart c && Lexeme.nameRest cs

/-- A text that is read as a name: a word that is neither reserved nor a lone
underscore. -/
def Lexical (n : Name) : Prop :=
  isWord n.toList = true ∧ n ≠ underscore ∧ ∀ k ∈ Keyword.all, k.text ≠ n

instance (n : Name) : Decidable n.Lexical :=
  inferInstanceAs (Decidable (_ ∧ _ ∧ _))

end Name

namespace Token

/-- How a token is written. -/
def text : Token → String
  | .name n => n
  | .keyword k => k.text
  | .mark m => m.text

/-- The name of a token is a name. -/
def Lexical : Token → Prop
  | .name n => n.Lexical
  | .keyword _ => True
  | .mark _ => True

end Token

/-! ### Reading of whole texts -/

/-- A text that is read as the given tokens, without a fault. -/
def Lexes (cs : List Char) (ts : List Token) : Prop :=
  ∀ offset, ((LexemeAt.cut offset cs).filterMap (·.token?)).map (·.token) = ts ∧
    (LexemeAt.cut offset cs).filterMap (·.error?) = []

namespace Lexes

lemma nil : Lexes [] [] := by
  intro offset
  rw [LexemeAt.cut]
  exact ⟨rfl, rfl⟩

lemma gap (hscan : Lexeme.scan c cs = (.gap, n)) (h : Lexes (cs.drop n) ts) :
    Lexes (c :: cs) ts := by
  intro offset
  rw [LexemeAt.cut, hscan]
  exact h _

lemma token (hscan : Lexeme.scan c cs = (.token t, n)) (h : Lexes (cs.drop n) ts) :
    Lexes (c :: cs) (t :: ts) := by
  intro offset
  rw [LexemeAt.cut, hscan]
  obtain ⟨htokens, hfaults⟩ := h (offset + LexemeAt.width (c :: cs.take n))
  exact ⟨congrArg (t :: ·) htokens, hfaults⟩

end Lexes

/-! ### Names -/

/-- The text does not go on with a name that stands before it. -/
def EndsName (cs : List Char) : Prop :=
  ∀ c ∈ cs.head?, Lexeme.isNameChar c = false ∧ c ≠ '.'

lemma EndsName.nil : EndsName [] := by simp [EndsName]

lemma EndsName.cons (cs : List Char) (hname : Lexeme.isNameChar c = false) (hstop : c ≠ '.') :
    EndsName (c :: cs) := by
  intro d hd
  obtain rfl : c = d := by simpa using hd
  exact ⟨hname, hstop⟩

namespace Lexeme

lemma nameTail_cons (h : isNameChar c = true) (cs : List Char) :
    nameTail (c :: cs) = c :: nameTail cs := by
  cases cs with
  | nil => simp [nameTail, h]
  | cons d cs => rw [nameTail, if_pos h]

lemma nameTail_eq_nil (h : EndsName cs) : nameTail cs = [] := by
  cases cs with
  | nil => rfl
  | cons c cs =>
    obtain ⟨hname, hstop⟩ := h c rfl
    cases cs with
    | nil => simp [nameTail, hname]
    | cons d cs => simp [nameTail, hname, hstop]

lemma nameTail_append (hcs : nameRest cs = true) (hrest : EndsName rest) :
    nameTail (cs ++ rest) = cs := by
  fun_induction nameRest cs with
  | case1 => exact nameTail_eq_nil hrest
  | case2 c cs ih =>
    obtain ⟨hc, hcs⟩ := Bool.and_eq_true_iff.mp hcs
    have hstop : isNameChar '.' = false := by decide
    simp [nameTail, hstop, hc, ih hcs]
  | case3 c cs _ ih =>
    obtain ⟨hc, hcs⟩ := Bool.and_eq_true_iff.mp hcs
    rw [cons_append, nameTail_cons hc, ih hcs]

lemma isNameChar_of_isNameStart (h : isNameStart c = true) : isNameChar c = true := by
  simp only [isNameStart, isNameChar, Char.isAlphanum, Bool.or_eq_true] at h ⊢
  tauto

lemma isBlank_eq_false (h : isNameChar c = true ∨ c = '.') : Text.isBlank c = false := by
  have hrange : 39 ≤ c.toNat ∧ c.toNat ≤ 122 := by
    have halpha : c.isAlpha = (c.isUpper || c.isLower) := rfl
    have hupper : c.isUpper = decide (c.val ≥ 65 ∧ c.val ≤ 90) := rfl
    have hlower : c.isLower = (decide (c.val ≥ 97) && decide (c.val ≤ 122)) := rfl
    simp only [isNameChar, Char.isAlphanum, halpha, hupper, hlower, Char.isDigit,
      Bool.or_eq_true, Bool.and_eq_true, decide_eq_true_eq, beq_iff_eq,
      UInt32.le_iff_toNat_le, ge_iff_le] at h
    change (((((65 ≤ c.toNat ∧ c.toNat ≤ 90) ∨ (97 ≤ c.toNat ∧ c.toNat ≤ 122)) ∨
      (48 ≤ c.toNat ∧ c.toNat ≤ 57)) ∨ c = '_') ∨ c = '\'') ∨ c = '.' at h
    rcases h with (((h | h) | rfl) | rfl) | rfl
    · omega
    · omega
    all_goals decide
  by_contra hblank
  have hblank : ∃ r ∈ Text.blankRanges, r.1 ≤ c.toNat ∧ c.toNat ≤ r.2 := by
    simpa [Text.isBlank] using hblank
  obtain ⟨⟨lo, hi⟩, hmem, hlo, hhi⟩ := hblank
  -- No blank range meets that of the characters of names.
  have hranges : ∀ r ∈ Text.blankRanges, r.2 < 39 ∨ 122 < r.1 := by decide
  have := hranges (lo, hi) hmem
  omega

lemma word_name {n : Name} (h : n.Lexical) : word n = .name n := by
  have hkeyword : Keyword.ofText? n = none := by
    rw [Keyword.ofText?, find?_eq_none]
    simpa using h.2.2
  simp [word, h.2.1, hkeyword]

lemma scan_word (hword : Name.isWord (c :: cs) = true) (hrest : EndsName rest) :
    scan c (cs ++ rest) = (.token (word (String.ofList (c :: cs))), cs.length) := by
  obtain ⟨hc, hcs⟩ := Bool.and_eq_true_iff.mp hword
  simp [scan, isBlank_eq_false (.inl (isNameChar_of_isNameStart hc)), hc, nameTail_append hcs hrest]

end Lexeme

/-! ### Stretches of text -/

/-- Characters that are read as tokens when what follows does not go on with a
name. -/
def Spells (cs : List Char) (ts : List Token) : Prop :=
  ∀ rest more, EndsName rest → Lexes rest more → Lexes (cs ++ rest) (ts ++ more)

/-- Characters that are read as tokens whatever follows. -/
def SpellsApart (cs : List Char) (ts : List Token) : Prop :=
  ∀ rest more, Lexes rest more → Lexes (cs ++ rest) (ts ++ more)

/-- Characters that do not go on with a name before them. -/
def Detached (cs : List Char) : Prop :=
  ∃ c rest, cs = c :: rest ∧ Lexeme.isNameChar c = false ∧ c ≠ '.'

lemma Detached.endsName (h : Detached cs) (rest : List Char) : EndsName (cs ++ rest) := by
  obtain ⟨c, tail, rfl, hname, hstop⟩ := h
  exact EndsName.cons _ hname hstop

lemma Detached.append (h : Detached cs) (more : List Char) : Detached (cs ++ more) := by
  obtain ⟨c, tail, rfl, hname, hstop⟩ := h
  exact ⟨c, tail ++ more, rfl, hname, hstop⟩

namespace SpellsApart

variable {cs : List Char}

lemma spells (h : SpellsApart cs ts) : Spells cs ts := fun rest more _ => h rest more

lemma append (h : SpellsApart cs ts) (h' : SpellsApart cs' ts') :
    SpellsApart (cs ++ cs') (ts ++ ts') := by
  intro rest more hmore
  rw [append_assoc, append_assoc]
  exact h _ _ (h' rest more hmore)

lemma append_spells (h : SpellsApart cs ts) (h' : Spells cs' ts') :
    Spells (cs ++ cs') (ts ++ ts') := by
  intro rest more hrest hmore
  rw [append_assoc, append_assoc]
  exact h _ _ (h' rest more hrest hmore)

lemma blank (hc : Text.isBlank c = true) : SpellsApart [c] [] := by
  intro rest more hmore
  have hscan : Lexeme.scan c rest = (.gap, 0) := by simp [Lexeme.scan, hc]
  exact Lexes.gap hscan hmore

lemma blanks (hcs : ∀ c ∈ cs, Text.isBlank c = true) : SpellsApart cs [] := by
  induction cs with
  | nil => exact fun _ _ h => h
  | cons c cs ih =>
    exact append (blank (hcs c mem_cons_self)) (ih fun d hd => hcs d (.tail c hd))

/-- All marks but the underscore may stand next to anything. -/
lemma mark (hm : m ≠ .underscore) : SpellsApart m.text.toList [.mark m] := by
  intro rest more hmore
  cases m with
  | underscore => exact (hm rfl).elim
  | _ => exact Lexes.token rfl hmore

end SpellsApart

namespace Spells

variable {cs : List Char}

lemma append (h : Spells cs ts) (h' : Spells cs' ts') (hcs' : Detached cs') :
    Spells (cs ++ cs') (ts ++ ts') := by
  intro rest more hrest hmore
  rw [append_assoc, append_assoc]
  exact h _ _ (hcs'.endsName rest) (h' rest more hrest hmore)

lemma lexes (h : Spells cs ts) : Lexes cs ts := by
  simpa using h [] [] EndsName.nil Lexes.nil

lemma word (hs : Name.isWord s.toList = true) :
    Spells s.toList [Lexeme.word s] := by
  intro rest more hrest hmore
  cases hcs : s.toList with
  | nil =>
    rw [hcs] at hs
    cases hs
  | cons c cs =>
    rw [hcs] at hs
    have hscan := Lexeme.scan_word hs hrest
    rw [← hcs, String.ofList_toList] at hscan
    refine Lexes.token hscan ?_
    rwa [show (cs.append rest).drop cs.length = rest from drop_left]

lemma token (ht : t.Lexical) : Spells t.text.toList [t] := by
  cases t with
  | name n =>
    have h := word ht.1
    rwa [Lexeme.word_name ht] at h
  | keyword k => cases k <;> exact word (by decide)
  | mark m =>
    by_cases hm : m = .underscore
    · subst hm
      exact word (by decide)
    · exact (SpellsApart.mark hm).spells

end Spells

lemma detached_blank (hc : Text.isBlank c = true) (cs : List Char) : Detached (c :: cs) := by
  refine ⟨c, cs, rfl, ?_, ?_⟩
  · by_contra h
    rw [Lexeme.isBlank_eq_false (.inl (by simpa using h))] at hc
    cases hc
  · intro h
    rw [Lexeme.isBlank_eq_false (.inr h)] at hc
    cases hc

/-- Tokens with a blank between neighbours. -/
def Token.spaced (ts : List Token) : String := " ".intercalate (ts.map text)

/-- Tokens set apart by blanks are read as these tokens. -/
lemma lexes_spaced (hts : ∀ t ∈ ts, t.Lexical) : Lexes (Token.spaced ts).toList ts := by
  rw [Token.spaced, String.toList_intercalate, map_map]
  refine Spells.lexes ?_
  induction ts with
  | nil => exact fun _ _ _ h => h
  | cons t ts ih =>
    have ht := Spells.token (hts t mem_cons_self)
    have hrest := ih fun u hu => hts u (.tail t hu)
    cases ts with
    | nil => simpa using ht
    | cons u ts =>
      rw [map_cons, map_cons, intercalate_cons_cons, append_assoc]
      have hblank : Text.isBlank ' ' = true := by decide
      exact ht.append ((SpellsApart.blank hblank).append_spells hrest) (detached_blank hblank _)

end Clausal
