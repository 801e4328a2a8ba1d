import Clausal.Surface.Parser
import Mathlib.Data.List.Basic

/-!
# Reading on after a fault

Reading goes on at the next token that starts an item, but never at the token where the fault
was found.  If that token starts an item, the item is lost.
-/

namespace Clausal.Surface

open List

variable {taken left bad good tokens : List TokenAt} {t g : TokenAt} {eof : Nat} {e : ParseError}
  {after : Input}

/-- One round with a fault: reading goes on where recovery leaves off. -/
lemma items_of_error
    (hrun : (Parse.item (Parse.fuelFor tokens)).run.run ⟨tokens, eof⟩ = (.error e, after))
    (hless : (recover after.tokens).length < tokens.length) :
    items eof tokens = ⟨(items eof (recover after.tokens)).items,
      e :: (items eof (recover after.tokens)).errors⟩ := by
  rw [items, if_neg (by simp [length_pos_iff.1 (Nat.zero_lt_of_lt hless)]), hrun]
  simp only [dif_pos hless]

/-- An item has a fault, which is found when some of its tokens were taken and before the next
item starts.  If a token of it is left, that item and all after it are read; if none is left,
the first token of the next item is skipped, and with it all that belongs to it. -/
theorem items_after_fault (hbad : ∀ u ∈ bad, startsItem u.token = false)
    (hg : startsItem g.token = true) (hgood : (items eof (g :: good)).errors = [])
    (htaken : t :: bad = taken ++ left)
    (hfault : (Parse.item (Parse.fuelFor (t :: bad ++ g :: good))).run.run
      ⟨t :: bad ++ g :: good, eof⟩ = (.error e, ⟨left ++ g :: good, eof⟩)) :
    (left ≠ [] → items eof (t :: bad ++ g :: good) = ⟨(items eof (g :: good)).items, [e]⟩) ∧
    (left = [] → items eof (t :: bad ++ g :: good) =
      ⟨(items eof (recover (g :: good))).items,
        e :: (items eof (recover (g :: good))).errors⟩) := by
  have hless : (recover (left ++ g :: good)).length < (t :: bad ++ g :: good).length := by
    have hle := (dropWhile_suffix (l := (left ++ g :: good).drop 1) (!startsItem ·.token)).length_le
    rw [htaken]
    simp only [recover, length_drop, length_append, length_cons] at hle ⊢
    omega
  rw [items_of_error hfault hless]
  refine ⟨fun hleft => ?_, ?_⟩
  · obtain ⟨u, us, rfl⟩ := exists_cons_of_ne_nil hleft
    -- What is left after the skipped token lies behind the first one.
    have hus : ∀ v ∈ us, startsItem v.token = false := by
      intro v hv
      refine hbad v ?_
      cases taken with
      | nil => exact (cons.inj htaken).2 ▸ hv
      | cons => exact (cons.inj htaken).2 ▸ mem_append_right _ (mem_cons_of_mem _ hv)
    have hrecover : recover (u :: us ++ g :: good) = g :: good := by
      change dropWhile _ (us ++ g :: good) = _
      rw [dropWhile_append_of_pos fun v hv => by simp [hus v hv],
        dropWhile_cons_of_neg (by simp [hg])]
    rw [hrecover, hgood]
  · rintro rfl
    rfl

namespace Recovery

def keyword : TokenAt := ⟨.keyword .postulate, ⟨0, 1⟩⟩

def semicolon : TokenAt := ⟨.mark .semicolon, ⟨1, 2⟩⟩

/-- A name and its type. -/
def typed : List TokenAt :=
  [⟨.name "A", ⟨0, 1⟩⟩, ⟨.mark .colon, ⟨0, 1⟩⟩, ⟨.keyword .univ, ⟨0, 1⟩⟩]

/-- What follows the keyword in `axiom A : Type;`. -/
def rest : List TokenAt := typed ++ [semicolon]

lemma items_nil : items 2 [] = {} := by
  rw [items]
  rfl

lemma items_rest : items 2 (keyword :: rest) =
    ⟨[.postulate ⟨0, 2⟩ ⟨⟨0, 1⟩, "A"⟩ (.univ ⟨0, 1⟩)], []⟩ := by
  have hrun : (Parse.item (Parse.fuelFor (keyword :: rest))).run.run ⟨keyword :: rest, 2⟩ =
      (.ok (.postulate ⟨0, 2⟩ ⟨⟨0, 1⟩, "A"⟩ (.univ ⟨0, 1⟩)), ⟨[], 2⟩) := rfl
  rw [items, if_neg (by decide), hrun]
  simp only [items_nil, dite_eq_ite, ite_self]

/-- A semicolon in place of a name is skipped, and the next postulate is read. -/
theorem items_after_missing_name : items 2 (keyword :: [semicolon] ++ keyword :: rest) =
    ⟨[.postulate ⟨0, 2⟩ ⟨⟨0, 1⟩, "A"⟩ (.univ ⟨0, 1⟩)],
      [.unexpectedToken ⟨1, 2⟩ (Token.mark .semicolon).description ["name"]]⟩ := by
  have htaken : keyword :: [semicolon] = [keyword] ++ [semicolon] := rfl
  have hfault : (Parse.item (Parse.fuelFor (keyword :: [semicolon] ++ keyword :: rest))).run.run
      ⟨keyword :: [semicolon] ++ keyword :: rest, 2⟩ =
      (.error (.unexpectedToken ⟨1, 2⟩ (Token.mark .semicolon).description ["name"]),
        ⟨[semicolon] ++ keyword :: rest, 2⟩) := rfl
  rw [(items_after_fault (by decide) rfl (by rw [items_rest]) htaken hfault).1 (by simp),
    items_rest]

/-- In `axiom A : Type axiom A : Type;` the missing semicolon is found at the second keyword.
The postulate that starts there is not read, although it has no fault. -/
theorem items_after_missing_semicolon : items 2 (keyword :: typed ++ keyword :: rest) =
      ⟨[], [.unexpectedToken ⟨0, 1⟩ (Token.keyword .postulate).description
        [(Token.mark .semicolon).description]]⟩ ∧
    items 2 (keyword :: rest) = ⟨[.postulate ⟨0, 2⟩ ⟨⟨0, 1⟩, "A"⟩ (.univ ⟨0, 1⟩)], []⟩ := by
  refine ⟨?_, items_rest⟩
  rw [items_of_error rfl (by decide)]
  change Parsed.mk (items 2 []).items (_ :: (items 2 []).errors) = _
  rw [items_nil]
  rfl

end Recovery
end Clausal.Surface
