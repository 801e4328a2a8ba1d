/-!
# Edit distance

The least number of insertions, deletions and replacements of single
characters that turn one text into another, by the table of distances between
prefixes.  A row of the table belongs to a prefix of the first text and has
one entry for every prefix of the second.
-/

namespace Clausal.Text

/-- The rest of a row, from the entries above it and the entry to its left. -/
def distanceEntries (c : Char) : List Char → List Nat → Nat → List Nat
  | y :: ys, diagonal :: above :: row, left =>
      let entry := min (min (left + 1) (above + 1)) (diagonal + if c = y then 0 else 1)
      entry :: distanceEntries c ys (above :: row) entry
  | _, _, _ => []

/-- The row after `row` once the prefix of the first text is extended by `c`. -/
def distanceRow (ys : List Char) (row : List Nat) (c : Char) : List Nat :=
  let first := row.headD 0 + 1
  first :: distanceEntries c ys row first

/-- The edit distance of two texts, counted in characters. -/
def editDistance (a b : String) : Nat :=
  let ys := b.toList
  (a.toList.foldl (distanceRow ys) (List.range (ys.length + 1))).getLastD 0

/-- How far a misspelt name may be from the one it stands for. -/
def maxSuggestionDistance (name : String) : Nat :=
  max 2 (name.utf8ByteSize / 3)

/-- The first candidate nearest to `name`, if one is near enough. -/
def nearest (name : String) (candidates : List String) : Option String :=
  let scored := (candidates.map fun c => (editDistance name c, c)).filter
    fun (distance, _) => distance ≤ maxSuggestionDistance name
  match scored with
  | [] => none
  | first :: rest =>
      some (rest.foldl (fun best next => if next.1 < best.1 then next else best) first).2

end Clausal.Text
