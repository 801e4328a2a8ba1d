import Clausal.Text.ClusterBreak

/-!
# Clusters of characters

A reader sees a letter with its accents, a syllable or a flag as one sign.  Such
a sign is a cluster of characters.  Whether a character joins the cluster before
it depends on its class and on what has been read so far.
-/

namespace Clausal

/-- How far a conjunct of consonants has come. -/
inductive Conjunct where
  | none
  /-- A consonant, and no linker after it. -/
  | started
  | linked
deriving DecidableEq, Repr

/-- What has been read of the current cluster. -/
structure ClusterState where
  /-- The class of the last character. -/
  last : ClusterBreak := .control
  /-- Whether the last character is the first half of a flag. -/
  halfFlag : Bool := false
  /-- Whether only marks have followed a pictograph. -/
  pictograph : Bool := false
  conjunct : Conjunct := .none
deriving Repr

namespace ClusterState

/-- Whether a character of some class joins the cluster before it. -/
def joins (s : ClusterState) (c : ClusterBreak) : Bool :=
  match s.last, c with
  | .carriageReturn, .lineFeed => true
  | .carriageReturn, _ | .lineFeed, _ | .control, _ => false
  | _, .carriageReturn | _, .lineFeed | _, .control => false
  | _, .extend | _, .linker | _, .nonJoiner | _, .joiner | _, .spacingMark => true
  | .prepend, _ => true
  | .leading, .leading | .leading, .vowel | .leading, .openSyllable
  | .leading, .closedSyllable => true
  | .openSyllable, .vowel | .openSyllable, .trailing | .vowel, .vowel | .vowel, .trailing => true
  | .closedSyllable, .trailing | .trailing, .trailing => true
  | _, .consonant => s.conjunct = .linked
  | .joiner, .pictographic => s.pictograph
  | .regional, .regional => s.halfFlag
  | _, _ => false

/-- The state after a character of some class. -/
def next (s : ClusterState) (c : ClusterBreak) : ClusterState where
  last := c
  halfFlag := c = .regional && !s.halfFlag
  pictograph := match c with
    | .pictographic => true
    | .extend | .linker | .nonJoiner | .joiner => s.pictograph && s.last ≠ .joiner
    | _ => false
  conjunct := match c with
    | .consonant => .started
    | .linker => if s.conjunct = .none then .none else .linked
    | .extend | .joiner => s.conjunct
    | _ => .none

end ClusterState

/-- The number of clusters that characters begin after what has been read. -/
def clustersFrom (s : ClusterState) : List Char → Nat
  | [] => 0
  | c :: cs =>
      let k := ClusterBreak.ofCode c.toNat
      (if s.joins k then 0 else 1) + clustersFrom (s.next k) cs

/-- The number of clusters of a text. -/
def clusterCount (s : String) : Nat := clustersFrom {} s.toList

/-- The width of a text in columns.  A text of ASCII characters has a column for
each; in other texts every cluster has one. -/
def displayWidth (s : String) : Nat :=
  if s.toList.all (·.toNat < 128) then s.length else clusterCount s

end Clausal
