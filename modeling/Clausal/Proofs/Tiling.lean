import Clausal.Proofs.Lexing
import Clausal.Surface.Parser
import Mathlib.Data.List.TakeWhile
import Mathlib.Data.String.Basic

/-!
# Lexemes tile the text

Every byte of a text belongs to one lexeme.  A word is taken as long as possible,
and a block comment up to the place where its marks first balance.  Marks of
comments are told apart from the left and do not overlap: in a comment that starts
with `/*/` nothing is closed yet, and `*/*` closes without opening again.

Main statement: `Surface.lex_tiles`.
-/

namespace Clausal

open List

variable {rest : List Char} {lexeme : Lexeme}

namespace LexemeAt

lemma width_append (cs cs' : List Char) : width (cs ++ cs') = width cs + width cs' := by
  induction cs with
  | nil => simp [width]
  | cons c cs ih => simp only [width, cons_append, foldr_cons] at ih ⊢; omega

lemma width_pos (c : Char) (cs : List Char) : 0 < width (c :: cs) :=
  c.utf8Size_pos.trans_le (Nat.le_add_right _ _)

lemma width_toList (text : String) : width text.toList = text.utf8ByteSize := by
  have h : ∀ cs, width cs = String.utf8Len cs := fun cs => by
    induction cs with
    | nil => rfl
    | cons c cs ih => rw [String.utf8Len, ← ih, Nat.add_comm]; rfl
  rw [h, ← String.utf8ByteSize_ofList, String.ofList_toList]

end LexemeAt

/-! ### The marks of a block comment -/

/-- A mark of a comment, or a character that is part of none. -/
inductive Stroke where
  | opening
  | closing
  | plain (c : Char)
deriving DecidableEq

namespace Stroke

def text : Stroke → List Char
  | opening => ['/', '*']
  | closing => ['*', '/']
  | plain c => [c]

/-- The strokes of a text, from the left. -/
def ofChars : List Char → List Stroke
  | '/' :: '*' :: cs => opening :: ofChars cs
  | '*' :: '/' :: cs => closing :: ofChars cs
  | c :: cs => plain c :: ofChars cs
  | [] => []

/-- The characters of strokes. -/
def chars (ss : List Stroke) : List Char := ss.flatMap text

/-- As many marks open as close. -/
def Balanced (ss : List Stroke) : Prop := ss.count opening = ss.count closing

/-- The marks balance at no place after the start. -/
def Unbalanced (ss : List Stroke) : Prop := ∀ s, s <+: ss → s ≠ [] → ¬ Balanced s

/-- The marks balance at the end, and at no place before it. -/
def Closes (ss : List Stroke) : Prop :=
  ss ≠ [] ∧ Balanced ss ∧ ∀ s, s <+: ss → s ≠ [] → Balanced s → s = ss

/-- The offset of the last mark that closes, or that of the start if there is none. -/
def LastClose (ss : List Stroke) (n : Nat) : Prop :=
  (closing ∉ ss ∧ n = 0) ∨
    ∃ s s', ss = s ++ closing :: s' ∧ closing ∉ s' ∧ n = LexemeAt.width (chars s)

@[simp] lemma chars_concat (ss : List Stroke) (s : Stroke) :
    chars (ss ++ [s]) = chars ss ++ s.text := by
  simp [chars]

lemma chars_ofChars (cs : List Char) : chars (ofChars cs) = cs := by
  fun_induction ofChars cs with
  | case1 cs ih | case2 cs ih | case3 c cs _ _ ih => simpa [chars, text] using ih
  | case4 => rfl

lemma Unbalanced.concat (h : Unbalanced ss) (hs : ¬ Balanced (ss ++ [s])) :
    Unbalanced (ss ++ [s]) := by
  intro s' hs' hne
  rcases prefix_concat_iff.1 hs' with rfl | hs'
  · exact hs
  · exact h s' hs' hne

lemma Unbalanced.closes (h : Unbalanced ss) (hs : Balanced (ss ++ [s])) : Closes (ss ++ [s]) := by
  refine ⟨by simp, hs, fun s' hs' hne hbalanced => ?_⟩
  rcases prefix_concat_iff.1 hs' with rfl | hs'
  · rfl
  · exact (h s' hs' hne hbalanced).elim

lemma LastClose.concat (h : LastClose ss n) (hs : s ≠ closing) : LastClose (ss ++ [s]) n := by
  rcases h with ⟨hnone, rfl⟩ | ⟨before, after, rfl, hafter, rfl⟩
  · exact .inl ⟨by simp [hnone, hs.symm], rfl⟩
  · exact .inr ⟨before, after ++ [s], by simp, by simp [hafter, hs.symm], rfl⟩

/-- How a block comment ends, given the strokes from its start on: the characters that belong
to it and the lexeme that they are. -/
def Ends (ss : List Stroke) (cs : List Char) : Lexeme → Prop
  | .gap => ∃ s, s <+: ss ∧ Closes s ∧ chars s = cs
  | .unclosed depth last =>
    Unbalanced ss ∧ chars ss = cs ∧ ss.count opening = ss.count closing + depth ∧ LastClose ss last
  | _ => False

lemma Ends.prefix_chars (h : Ends ss cs lexeme) : cs <+: chars ss := by
  cases lexeme with
  | token | stray => exact h.elim
  | gap =>
    obtain ⟨s, ⟨s', rfl⟩, -, rfl⟩ := h
    exact ⟨chars s', flatMap_append.symm⟩
  | unclosed depth last => exact h.2.1 ▸ prefix_rfl

lemma Ends.start (h : Ends (opening :: ss) cs lexeme) : ['/', '*'] <+: cs := by
  cases lexeme with
  | token | stray => exact h.elim
  | gap =>
    obtain ⟨s, hs, hcloses, rfl⟩ := h
    cases s with
    | nil => exact (hcloses.1 rfl).elim
    | cons o s =>
      obtain rfl := (cons_prefix_cons.1 hs).1
      exact ⟨chars s, rfl⟩
  | unclosed depth last => exact ⟨chars ss, h.2.1⟩

lemma Ends.gap_iff (h : Ends ss cs lexeme) :
    lexeme = .gap ↔ ∃ s, s <+: ss ∧ s ≠ [] ∧ Balanced s := by
  cases lexeme with
  | token | stray => exact h.elim
  | gap =>
    obtain ⟨s, hs, hcloses, -⟩ := h
    exact iff_of_true rfl ⟨s, hs, hcloses.1, hcloses.2.1⟩
  | unclosed depth last => simpa [Unbalanced] using h.1

lemma width_concat (s : Stroke) (h : width = LexemeAt.width (chars ss)) :
    width + LexemeAt.width s.text = LexemeAt.width (chars (ss ++ [s])) := by
  rw [chars_concat, LexemeAt.width_append, h]

/-- The scanner keeps count of what it has passed: its marks do not balance yet. -/
lemma block_ends (cs : List Char) (hss : Unbalanced ss)
    (hdepth : ss.count opening = ss.count closing + (depth + 1))
    (htaken : (chars ss).length = taken + 1) (hwidth : width = LexemeAt.width (chars ss))
    (hlast : LastClose ss last) :
    ∃ covered, (Lexeme.block cs depth taken width last).2 + 1 = covered.length ∧
      Ends (ss ++ ofChars cs) covered (Lexeme.block cs depth taken width last).1 := by
  fun_induction Lexeme.block cs depth taken width last generalizing ss with
  | case1 cs depth taken width last ih =>
    rw [ofChars, append_cons]
    refine ih (hss.concat ?_) ?_ ?_ (width_concat opening hwidth) (hlast.concat (by decide))
    all_goals simp [Balanced, hdepth, htaken, text]
    all_goals omega
  | case2 cs taken width last =>
    refine ⟨chars (ss ++ [closing]), by simp [text, htaken], ss ++ [closing], ?_,
      hss.closes (by simp [Balanced, hdepth]), rfl⟩
    simp [ofChars]
  | case3 last cs taken width depth ih =>
    rw [ofChars, append_cons]
    refine ih (hss.concat ?_) ?_ ?_ (width_concat closing hwidth)
      (.inr ⟨ss, [], rfl, not_mem_nil, hwidth⟩)
    all_goals simp [Balanced, hdepth, htaken, text]
    all_goals omega
  | case4 c cs depth taken width last hopen hclose ih =>
    rw [ofChars, append_cons]
    · refine ih (hss.concat ?_) ?_ ?_ (width_concat (plain c) hwidth) (hlast.concat (by rintro ⟨⟩))
      all_goals simp [Balanced, hdepth, htaken, text]
    · exact hopen
    · exact hclose
  | case5 depth taken width last =>
    rw [ofChars, append_nil]
    exact ⟨_, htaken.symm, hss, rfl, hdepth, hlast⟩

end Stroke

/-! ### Words are taken whole -/

namespace Lexeme

lemma nameTail_prefix (cs : List Char) : nameTail cs <+: cs := by
  fun_induction nameTail cs with
  | case1 | case3 | case6 => exact nil_prefix
  | case2 => exact prefix_rfl
  | case4 c d cs _ ih => exact (prefix_cons_inj c).2 ih
  | case5 c d cs _ _ ih => exact (prefix_cons_inj c).2 ((prefix_cons_inj d).2 ih)

lemma nameRest_nameTail (cs : List Char) : nameRest (nameTail cs) = true := by
  fun_induction nameTail cs with
  | case1 | case3 | case6 => rfl
  | case2 c hc => exact nameRest_cons hc []
  | case4 c d cs hc ih => rw [nameRest_cons hc, ih]
  | case5 c d cs _ h ih =>
    obtain ⟨hc, hd⟩ := Bool.and_eq_true_iff.1 h
    obtain rfl := beq_iff_eq.1 hc
    rw [nameRest, hd, ih, Bool.and_self]

/-- No longer part of the text goes on with a name. -/
lemma length_le_nameTail (hw : nameRest w = true) (h : w <+: cs) :
    w.length ≤ (nameTail cs).length := by
  fun_induction nameRest w generalizing cs with
  | case1 => exact Nat.zero_le _
  | case2 d w ih =>
    obtain ⟨hd, hw⟩ := Bool.and_eq_true_iff.1 hw
    obtain ⟨rest, rfl⟩ := h
    have hdot : isNameChar '.' = false := by decide
    simpa [nameTail, hdot, hd] using ih hw (prefix_append w rest)
  | case3 d w _ ih =>
    obtain ⟨hd, hw⟩ := Bool.and_eq_true_iff.1 hw
    obtain ⟨rest, rfl⟩ := h
    rw [cons_append, nameTail_cons hd]
    exact Nat.succ_le_succ (ih hw (prefix_append w rest))

/-- What a lexeme says about the characters that it covers, and about what follows them. -/
inductive Describes : Lexeme → (cs rest : List Char) → Prop
  | blank {c : Char} (rest : List Char) (hc : Text.isBlank c = true) : Describes .gap [c] rest
  | line {cs rest : List Char} (hline : '\n' ∉ cs) (hrest : ∀ c ∈ rest.head?, c = '\n') :
    Describes .gap ('/' :: '/' :: cs) rest
  | block {cs rest : List Char} {lexeme : Lexeme} (hstart : ['/', '*'] <+: cs)
    (hends : Stroke.Ends (Stroke.ofChars (cs ++ rest)) cs lexeme) : Describes lexeme cs rest
  /-- Words are as long as possible. -/
  | token {cs rest : List Char} {t : Token} (ht : t.Lexical) (htext : t.text.toList = cs)
    (hlongest : Name.isWord cs = true →
      ∀ w, Name.isWord w = true → w <+: cs ++ rest → w.length ≤ cs.length) :
    Describes (.token t) cs rest
  /-- Nothing starts here. -/
  | stray {c : Char} {rest : List Char} (hblank : Text.isBlank c = false)
    (hline : ¬ ['/', '/'] <+: c :: rest) (hblock : ¬ ['/', '*'] <+: c :: rest)
    (htoken : ∀ t : Token, t.Lexical → ¬ t.text.toList <+: c :: rest) : Describes .stray [c] rest

/-- A lexeme describes the character and as many after it as are taken. -/
def Covers (c : Char) (cs : List Char) (found : Lexeme × Nat) : Prop :=
  ∃ covered rest, cs = covered ++ rest ∧ found.2 = covered.length ∧
    found.1.Describes (c :: covered) rest

lemma word_spec (hs : Name.isWord s.toList = true) :
    (word s).Lexical ∧ (word s).text = s := by
  unfold word
  split
  · next h => exact ⟨trivial, (beq_iff_eq.1 h).symm⟩
  · next h =>
    split
    · next k hk =>
      have htext := find?_some (p := fun k : Keyword => k.text == s) hk
      exact ⟨trivial, beq_iff_eq.1 htext⟩
    · next hk => exact ⟨⟨hs, by simpa using h, by simpa [Keyword.ofText?] using hk⟩, rfl⟩

lemma word_covers (hc : isNameStart c = true) :
    Covers c cs (.token (word (String.ofList (c :: nameTail cs))), (nameTail cs).length) := by
  obtain ⟨rest, hrest⟩ := nameTail_prefix cs
  have hword : Name.isWord (String.ofList (c :: nameTail cs)).toList = true := by
    simp [Name.isWord, hc, nameRest_nameTail]
  obtain ⟨hlexical, htext⟩ := word_spec hword
  refine ⟨nameTail cs, rest, hrest.symm, rfl, .token hlexical (by rw [htext, String.toList_ofList])
    fun _ w hw h => ?_⟩
  rw [cons_append, hrest] at h
  cases w with
  | nil => cases hw
  | cons d w =>
    obtain ⟨-, hw⟩ := Bool.and_eq_true_iff.1 hw
    exact Nat.succ_le_succ (length_le_nameTail hw (cons_prefix_cons.1 h).2)

lemma line_covers (rest : List Char) :
    Covers '/' ('/' :: rest) (.gap, 1 + (rest.takeWhile (· != '\n')).length) := by
  refine ⟨'/' :: rest.takeWhile (· != '\n'), rest.dropWhile (· != '\n'), by simp,
    by simp [Nat.add_comm], .line (fun h => ?_) fun d hd => ?_⟩
  · simpa using mem_takeWhile_imp h
  · have hhead := head?_dropWhile_not (· != '\n') rest
    rw [Option.mem_def.1 hd] at hhead
    simpa using hhead

lemma block_covers (rest : List Char) : Covers '/' ('*' :: rest) (block rest 0 1 2 0) := by
  have hnil : Stroke.Unbalanced [] := fun s h hne => (hne (prefix_nil.1 h)).elim
  have hopen : Stroke.Unbalanced [.opening] := hnil.concat (by simp [Stroke.Balanced])
  obtain ⟨covered, hlength, hends⟩ : ∃ covered : List Char,
      (block rest 0 1 2 0).2 + 1 = covered.length ∧
      Stroke.Ends (Stroke.ofChars ('/' :: '*' :: rest)) covered (block rest 0 1 2 0).1 :=
    Stroke.block_ends rest hopen rfl rfl rfl (.inl ⟨by decide, rfl⟩)
  have hstart : ['/', '*'] <+: covered := hends.start
  obtain ⟨rest', hrest⟩ := hends.prefix_chars
  rw [Stroke.chars_ofChars] at hrest
  rw [← hrest] at hends
  obtain ⟨tail, rfl⟩ := hstart
  exact ⟨'*' :: tail, rest', (cons.inj hrest).2.symm, Nat.succ.inj hlength,
    .block ⟨tail, rfl⟩ hends⟩

lemma markAt?_covers (h : markAt? c cs = some (m, n)) :
    ∃ covered rest, cs = covered ++ rest ∧ n = covered.length ∧ m.text.toList = c :: covered := by
  unfold markAt? at h
  split at h
  all_goals cases h
  case h_3 rest | h_5 rest => exact ⟨['>'], rest, rfl, rfl, rfl⟩
  all_goals exact ⟨[], cs, rfl, rfl, rfl⟩

/-- A token starts like a name or with a mark. -/
lemma not_prefix_of_markAt?_eq_none {t : Token} (ht : t.Lexical) (hname : isNameStart c = false)
    (hmark : markAt? c cs = none) : ¬ t.text.toList <+: c :: cs := by
  have hword : ∀ w, Name.isWord w = true → ¬ w <+: c :: cs := by
    rintro (_ | ⟨d, w⟩) hw h
    · cases hw
    · obtain rfl := (cons_prefix_cons.1 h).1
      rw [Name.isWord, hname] at hw
      cases hw
  cases t with
  | name n => exact hword _ ht.1
  | keyword k => cases k <;> exact hword _ (by decide)
  | mark m =>
    cases m with
    | underscore => exact hword _ (by decide)
    | _ =>
      rintro ⟨rest, h⟩
      cases h
      cases hmark

lemma scan_covers (c : Char) (cs : List Char) : Covers c cs (scan c cs) := by
  unfold scan
  split
  · next h => exact ⟨[], cs, rfl, rfl, .blank cs h⟩
  · next hblank =>
    split
    · next hc => exact word_covers hc
    · next hc =>
      split
      · next rest => exact line_covers rest
      · next rest => exact block_covers rest
      · next hline hblock =>
        split
        · next m n hm =>
          obtain ⟨covered, rest, hcs, hn, htext⟩ := markAt?_covers hm
          refine ⟨covered, rest, hcs, hn, .token trivial htext fun h => ?_⟩
          exact (hc (Bool.and_eq_true_iff.1 h).1).elim
        · next hm =>
          refine ⟨[], cs, rfl, rfl, .stray (by simpa using hblank) ?_ ?_ fun t ht =>
            not_prefix_of_markAt?_eq_none ht (by simpa using hc) hm⟩
          · rintro ⟨rest, ⟨⟩⟩
            exact hline rest rfl rfl
          · rintro ⟨rest, ⟨⟩⟩
            exact hblock rest rfl rfl

/-- A block comment is a gap exactly if its marks balance somewhere. -/
lemma Describes.gap_iff {lexeme : Lexeme} (h : lexeme.Describes cs rest)
    (hstart : ['/', '*'] <+: cs ++ rest) :
    lexeme = .gap ↔ ∃ s, s <+: Stroke.ofChars (cs ++ rest) ∧ s ≠ [] ∧ Stroke.Balanced s := by
  cases h with
  | blank rest hc =>
    obtain rfl := (cons_prefix_cons.1 hstart).1
    cases hc
  | line => simp [cons_prefix_cons] at hstart
  | block _ hends => exact hends.gap_iff
  | token ht htext =>
    obtain ⟨body, hbody⟩ := hstart
    have hnone : markAt? '/' ('*' :: body) = none := rfl
    refine (not_prefix_of_markAt?_eq_none ht rfl hnone ?_).elim
    exact htext ▸ ⟨rest, hbody.symm⟩
  | stray _ _ hblock => exact (hblock hstart).elim

end Lexeme

/-! ### Whole texts -/

namespace LexemeAt

/-- Pieces that stand side by side from an offset on and make up a text. -/
inductive Tiles : (offset : Nat) → List Char → List LexemeAt → Prop
  | nil (offset : Nat) : Tiles offset [] []
  | cons {offset : Nat} {lexeme : Lexeme} {covered rest : List Char} {pieces : List LexemeAt}
    (hpos : 0 < width covered) (hlexeme : lexeme.Describes covered rest)
    (hrest : Tiles (offset + width covered) rest pieces) :
    Tiles offset (covered ++ rest) (⟨lexeme, offset, offset + width covered⟩ :: pieces)

/-- The pieces cover the text without gaps. -/
lemma cut_tiles (offset : Nat) (cs : List Char) : Tiles offset cs (cut offset cs) := by
  fun_induction cut offset cs with
  | case1 offset => exact .nil offset
  | case2 offset c cs lexeme more hscan next ih =>
    obtain ⟨covered, rest, rfl, hmore, hlexeme⟩ := Lexeme.scan_covers c cs
    rw [hscan] at hmore hlexeme
    obtain rfl : more = covered.length := hmore
    have hnext : next = offset + width (c :: covered) := by simp only [next, take_left]
    rw [hnext, drop_left] at ih
    rw [hnext, drop_left]
    exact .cons (width_pos c covered) hlexeme ih

namespace Tiles

variable (h : Tiles offset cs pieces)

include h

lemma describes (hp : p ∈ pieces) :
    ∃ before covered rest, cs = before ++ covered ++ rest ∧
      p.span = ⟨offset + width before, offset + width (before ++ covered)⟩ ∧
      p.span.start < p.span.stop ∧ p.lexeme.Describes covered rest := by
  induction h with
  | nil => cases hp
  | @cons offset lexeme covered rest pieces hpos hlexeme _ ih =>
    rcases mem_cons.1 hp with rfl | hp
    · exact ⟨[], covered, rest, rfl, rfl, Nat.lt_add_of_pos_right hpos, hlexeme⟩
    · obtain ⟨before, covered', rest', rfl, hspan, hlt, hdescribes⟩ := ih hp
      refine ⟨covered ++ before, covered', rest', by simp, ?_, hlt, hdescribes⟩
      simp [hspan, width_append, Nat.add_assoc]

lemma le_start (hp : p ∈ pieces) : offset ≤ p.span.start := by
  obtain ⟨before, _, _, _, hspan, -⟩ := h.describes hp
  simp [hspan]

lemma ordered : pieces.Pairwise (·.span.stop ≤ ·.span.start) := by
  induction h with
  | nil => exact .nil
  | cons _ _ hrest ih => exact .cons (fun _ hq => hrest.le_start hq) ih

/-- Every byte belongs to a piece. -/
lemma exists_mem (hi : offset ≤ i) (hlt : i < offset + width cs) :
    ∃ p ∈ pieces, p.span.start ≤ i ∧ i < p.span.stop := by
  induction h with
  | nil => simp [width] at hlt; omega
  | @cons offset _ covered _ _ _ _ _ ih =>
    rw [width_append] at hlt
    by_cases hfirst : i < offset + width covered
    · exact ⟨_, mem_cons_self, hi, hfirst⟩
    · obtain ⟨p, hp, hcover⟩ := ih (by omega) (by omega)
      exact ⟨p, mem_cons_of_mem _ hp, hcover⟩

end Tiles

/-- Tokens and faults, without what is skipped. -/
def kept (pieces : List LexemeAt) : List LexemeAt := pieces.filter (·.lexeme ≠ .gap)

end LexemeAt

namespace Surface

open LexemeAt

/-- What is skipped gives neither a token nor a fault. -/
lemma filterMap_kept (hf : ∀ p, p.lexeme = .gap → f p = none) (pieces : List LexemeAt) :
    (kept pieces).filterMap f = pieces.filterMap f := by
  rw [kept, filterMap_filter]
  congr 1
  funext p
  by_cases hp : p.lexeme = .gap
  · simp [hp, hf p hp]
  · simp [hp]

/-- The tokens and faults of a text are set apart from each other and from its ends by blanks,
line comments and closed block comments only.  Each covers whole characters and is what they
spell: a word is the longest that starts there, and a block comment is skipped exactly if its
marks balance, up to where they first do. -/
theorem lex_tiles (text : String) :
    lex text = ((kept (ofText text)).filterMap (·.token?),
      ((kept (ofText text)).filterMap (·.error?)).map .text) ∧
    (kept (ofText text)).Pairwise (·.span.stop ≤ ·.span.start) ∧
    (∀ p ∈ ofText text, ∃ before covered rest, text.toList = before ++ covered ++ rest ∧
      p.span = ⟨width before, width (before ++ covered)⟩ ∧ p.span.start < p.span.stop ∧
      p.lexeme.Describes covered rest ∧
      (['/', '*'] <+: covered ++ rest → (p.lexeme = .gap ↔
        ∃ s, s <+: Stroke.ofChars (covered ++ rest) ∧ s ≠ [] ∧ Stroke.Balanced s))) ∧
    ∀ i < text.utf8ByteSize, (∀ p ∈ kept (ofText text), ¬ (p.span.start ≤ i ∧ i < p.span.stop)) →
      ∃ before gap rest, text.toList = before ++ gap ++ rest ∧ width before ≤ i ∧
        i < width (before ++ gap) ∧ Lexeme.gap.Describes gap rest := by
  have htiles := cut_tiles 0 text.toList
  have hpieces : ∀ p ∈ ofText text, _ := fun p hp => htiles.describes hp
  refine ⟨?_, htiles.ordered.filter _, fun p hp => ?_, fun i hi hkept => ?_⟩
  · rw [filterMap_kept fun p hp => by rw [token?, hp],
      filterMap_kept fun p hp => by rw [error?, hp]]
    rfl
  · obtain ⟨before, covered, rest, htext, hspan, hlt, hdescribes⟩ := hpieces p hp
    rw [Nat.zero_add, Nat.zero_add] at hspan
    exact ⟨before, covered, rest, htext, hspan, hlt, hdescribes, hdescribes.gap_iff⟩
  · rw [← width_toList, ← Nat.zero_add (width _)] at hi
    obtain ⟨p, hp, hcover⟩ := htiles.exists_mem (Nat.zero_le i) hi
    have hgap : p.lexeme = .gap := by
      by_contra hne
      exact hkept p (mem_filter.2 ⟨hp, by simpa using hne⟩) hcover
    obtain ⟨before, covered, rest, htext, hspan, -, hdescribes⟩ := hpieces p hp
    rw [hgap] at hdescribes
    rw [hspan, Nat.zero_add, Nat.zero_add] at hcover
    exact ⟨before, covered, rest, htext, hcover.1, hcover.2, hdescribes⟩

end Surface
end Clausal
