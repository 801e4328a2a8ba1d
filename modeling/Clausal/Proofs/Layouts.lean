import Clausal.Layout
import Clausal.Proofs.Lexing
import Mathlib.Data.List.Forall2

/-!
# Layouts of documents

A layout of a document is what remains of it once every choice has been made.  A
document spells tokens if all its layouts are read as these tokens.
-/

namespace Clausal

open List

variable {m : Mark}

namespace Doc

/-- The characters are a layout of the document. -/
inductive Lays : Doc → List Char → Prop where
  | nil : Lays .nil []
  | text (s : String) : Lays (.text s) s.toList
  | append {left right : Doc} {cs ds : List Char} :
      Lays left cs → Lays right ds → Lays (.append left right) (cs ++ ds)
  | broken {broken flat : Doc} {cs : List Char} : Lays broken cs → Lays (.flatAlt broken flat) cs
  | flat {broken flat : Doc} {cs : List Char} : Lays flat cs → Lays (.flatAlt broken flat) cs
  | group {body : Doc} {cs : List Char} : Lays body cs → Lays (.group body) cs
  | nest {indent : Nat} {body : Doc} {cs : List Char} : Lays body cs → Lays (.nest indent body) cs
  | hardline (indent : Nat) : Lays .hardline ('\n' :: replicate indent ' ')

lemma pushn_toList (s : String) (c : Char) (n : Nat) :
    (s.pushn c n).toList = s.toList ++ replicate n c := by
  induction n with
  | zero => simp [String.pushn, Nat.repeat]
  | succ n ih =>
    simp only [String.pushn, Nat.repeat] at ih ⊢
    rw [String.toList_push, ih, append_assoc, replicate_succ']

/-- Writing a document adds one of its layouts to the output. -/
lemma write_lays (width : Option Nat) (d : Doc) (indent : Nat) (mode : Mode)
    (pending : List Doc) (out : Output) :
    ∃ cs, d.Lays cs ∧ (write width d indent mode pending out).text.toList =
      out.text.toList ++ cs := by
  induction d generalizing indent mode pending out with
  | nil => exact ⟨[], .nil, by simp [write]⟩
  | text s => exact ⟨_, .text s, by simp [write, Output.write]⟩
  | append l r ihl ihr =>
    obtain ⟨cs, hcs, hl⟩ := ihl indent mode (r :: pending) out
    obtain ⟨ds, hds, hr⟩ := ihr indent mode pending (write width l indent mode (r :: pending) out)
    exact ⟨_, .append hcs hds, by rw [write, hr, hl, append_assoc]⟩
  | flatAlt b f ihb ihf =>
    cases mode with
    | broken =>
      obtain ⟨cs, hcs, h⟩ := ihb indent .broken pending out
      exact ⟨cs, .broken hcs, h⟩
    | flat =>
      obtain ⟨cs, hcs, h⟩ := ihf indent .flat pending out
      exact ⟨cs, .flat hcs, h⟩
  | group d ih =>
    -- Whether the group fits only decides which of its layouts is taken.
    cases mode with
    | flat =>
      obtain ⟨cs, hcs, h⟩ := ih indent .flat pending out
      exact ⟨cs, .group hcs, h⟩
    | broken =>
      rw [write]
      split
      · obtain ⟨cs, hcs, h⟩ := ih indent .flat pending out
        exact ⟨cs, .group hcs, h⟩
      · obtain ⟨cs, hcs, h⟩ := ih indent .broken pending out
        exact ⟨cs, .group hcs, h⟩
  | nest n d ih =>
    obtain ⟨cs, hcs, h⟩ := ih (indent + n) mode pending out
    exact ⟨cs, .nest hcs, h⟩
  | hardline =>
    refine ⟨_, .hardline indent, ?_⟩
    simp [write, Output.newline, pushn_toList]

lemma render_lays (width : Option Nat) (d : Doc) : d.Lays (d.render width).toList := by
  obtain ⟨cs, hcs, h⟩ := write_lays width d 0 .broken [] {}
  rw [render, h]
  exact hcs

/-! ### Documents and the tokens that they spell -/

/-- Every layout is read as the tokens, unless a name goes on behind it. -/
def Spells (d : Doc) (ts : List Token) : Prop := ∀ cs, d.Lays cs → Clausal.Spells cs ts

/-- Every layout is read as the tokens, whatever follows. -/
def SpellsApart (d : Doc) (ts : List Token) : Prop := ∀ cs, d.Lays cs → Clausal.SpellsApart cs ts

/-- No layout goes on with a name before it. -/
def Detached (d : Doc) : Prop := ∀ cs, d.Lays cs → Clausal.Detached cs

variable {d : Doc}

lemma SpellsApart.spells (h : d.SpellsApart ts) : d.Spells ts := fun cs hcs => (h cs hcs).spells

lemma Spells.group (h : d.Spells ts) : (Doc.group d).Spells ts := by
  rintro cs ⟨⟩
  next hcs => exact h cs hcs

lemma Spells.nest (h : d.Spells ts) (n : Nat) : (Doc.nest n d).Spells ts := by
  rintro cs ⟨⟩
  next hcs => exact h cs hcs

lemma spells_token (ht : t.Lexical) : (Doc.text t.text).Spells [t] := by
  rintro cs ⟨⟩
  exact Clausal.Spells.token ht

lemma spellsApart_mark (hm : m ≠ .underscore) : (Doc.text m.text).SpellsApart [.mark m] := by
  rintro cs ⟨⟩
  exact Clausal.SpellsApart.mark hm

/-- A blank, or a line break with blanks behind it. -/
structure Gap (d : Doc) : Prop where
  spellsApart : d.SpellsApart []
  detached : d.Detached

lemma gap_space : Gap .space := by
  constructor
  · rintro cs ⟨⟩
    exact Clausal.SpellsApart.blank (by decide)
  · rintro cs ⟨⟩
    exact detached_blank (by decide) []

lemma gap_line : Gap .line := by
  have hblank (n : Nat) : ∀ c ∈ '\n' :: replicate n ' ', Text.isBlank c = true := by
    simp only [forall_mem_cons]
    refine ⟨by decide, fun c hc => ?_⟩
    obtain rfl := eq_of_mem_replicate hc
    decide
  constructor
  · intro cs hcs
    cases hcs with
    | broken hcs =>
      cases hcs with
      | hardline n => exact Clausal.SpellsApart.blanks (hblank n)
    | flat hcs => exact gap_space.spellsApart cs hcs
  · intro cs hcs
    cases hcs with
    | broken hcs =>
      cases hcs with
      | hardline n => exact detached_blank (by decide) _
    | flat hcs => exact gap_space.detached cs hcs

lemma gap_softline : Gap .softline := by
  constructor
  · rintro cs ⟨⟩
    next hcs => exact gap_line.spellsApart cs hcs
  · rintro cs ⟨⟩
    next hcs => exact gap_line.detached cs hcs

lemma Gap.nest (h : d.Gap) (n : Nat) : (Doc.nest n d).Gap := by
  constructor
  · rintro cs ⟨⟩
    next hcs => exact h.spellsApart cs hcs
  · rintro cs ⟨⟩
    next hcs => exact h.detached cs hcs

lemma detached_mark (hm : m ≠ .underscore) (hstop : m ≠ .fullStop) :
    (Doc.text m.text).Detached := by
  rintro cs ⟨⟩
  cases m with
  | underscore => exact (hm rfl).elim
  | fullStop => exact (hstop rfl).elim
  | _ => exact ⟨_, _, rfl, by decide, by decide⟩

/-! ### Documents in sequence -/

lemma lays_foldl {start : Doc} (h : (docs.foldl .append start).Lays cs) :
    ∃ as css, start.Lays as ∧ Forall₂ Lays docs css ∧ cs = as ++ css.flatten := by
  induction docs generalizing start with
  | nil => exact ⟨cs, [], h, .nil, by simp⟩
  | cons d docs ih =>
    obtain ⟨as, css, hstart, hdocs, rfl⟩ := ih h
    cases hstart with
    | append hstart hd => exact ⟨_, _, hstart, .cons hd hdocs, by simp⟩

lemma lays_concat (h : (concat docs).Lays cs) :
    ∃ css, Forall₂ Lays docs css ∧ cs = css.flatten := by
  obtain ⟨as, css, hstart, hdocs, rfl⟩ := lays_foldl h
  cases hstart
  exact ⟨css, hdocs, rfl⟩

/-- The documents one after another spell the tokens. -/
def SpellAll (docs : List Doc) (ts : List Token) : Prop :=
  ∀ css, Forall₂ Lays docs css → Clausal.Spells css.flatten ts

lemma SpellAll.concat (h : SpellAll docs ts) : (concat docs).Spells ts := by
  intro cs hcs
  obtain ⟨css, hdocs, rfl⟩ := lays_concat hcs
  exact h css hdocs

namespace SpellAll

variable {docs : List Doc}

lemma last (h : d.Spells ts) : SpellAll [d] ts := by
  rintro css (_ | ⟨hd, _ | _⟩)
  simpa using h _ hd

lemma apart (hd : d.SpellsApart ts) (h : SpellAll docs ts') :
    SpellAll (d :: docs) (ts ++ ts') := by
  rintro css (_ | ⟨hcs, hdocs⟩)
  exact (hd _ hcs).append_spells (h _ hdocs)

lemma gap (hd : d.Gap) (h : SpellAll docs ts) : SpellAll (d :: docs) ts :=
  apart hd.spellsApart h

lemma mark (hm : m ≠ .underscore) (h : SpellAll docs ts) :
    SpellAll (.text m.text :: docs) (.mark m :: ts) :=
  apart (spellsApart_mark hm) h

/-- What may run into the next document must be detached from it. -/
lemma word (hd : d.Spells ts) (he : e.Detached) (h : SpellAll (e :: docs) ts') :
    SpellAll (d :: e :: docs) (ts ++ ts') := by
  rintro css (_ | ⟨hcs, hdocs⟩)
  refine (hd _ hcs).append (h _ hdocs) ?_
  cases hdocs with
  | cons hes hdocs => exact (he _ hes).append _

end SpellAll

end Doc
end Clausal
