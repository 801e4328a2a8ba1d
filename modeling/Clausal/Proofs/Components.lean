import Clausal.Module.Order
import Mathlib.Data.List.Perm.Subperm
import Mathlib.Data.List.Perm.Lattice
import Mathlib.Logic.Relation

/-!
# Components of dependency graphs

At every moment the nodes whose visit has begun and not ended form a path.  All
nodes on the stack reach the path below them, and the path reaches what stands
above it on the stack.  A visit that knows of no way below its own node leaves
exactly one component on the stack above that node.
-/

namespace Clausal

open List

variable {j : Nat}

lemma getElem?_concat_cases {xs : List α} (h : (xs ++ [x])[k]? = some y) :
    xs[k]? = some y ∨ k = xs.length ∧ y = x := by
  rcases Nat.lt_or_ge k xs.length with hk | hk
  · exact .inl (by rwa [getElem?_append_left hk] at h)
  · have hlt := (List.getElem?_eq_some_iff.mp h).1
    obtain rfl : k = xs.length := by
      simp only [length_append, length_singleton] at hlt
      omega
    exact .inr ⟨rfl, by simpa using h.symm⟩

namespace DependencyGraph

/-- A node depends on another one, directly or through others, or is the same. -/
def Reaches (g : DependencyGraph) : Nat → Nat → Prop :=
  Relation.ReflTransGen fun i j => j ∈ g.uses i

/-- Two nodes depend on each other, or are the same. -/
def Linked (g : DependencyGraph) (i j : Nat) : Prop := g.Reaches i j ∧ g.Reaches j i

variable {g : DependencyGraph}

lemma Reaches.refl (i : Nat) : g.Reaches i i := Relation.ReflTransGen.refl

lemma Reaches.trans (h : g.Reaches i j) (h' : g.Reaches j k) : g.Reaches i k :=
  Relation.ReflTransGen.trans h h'

lemma Reaches.of_uses (h : j ∈ g.uses i) : g.Reaches i j :=
  Relation.ReflTransGen.single h

lemma lt_size_of_mem_uses (h : j ∈ g.uses i) : j < g.size := by
  rw [uses, getD_eq_getElem?_getD] at h
  cases hi : g.edges[i]? with
  | none => simp [hi] at h
  | some used =>
    have hused : used ∈ g.edges := mem_of_getElem? hi
    exact g.bounded used hused j (by simpa [hi] using h)

/-- Components that are strongly connected, and whose uses lie in themselves or
in components before them. -/
structure Finished (g : DependencyGraph) (components : List (List Nat)) : Prop where
  nonempty : ∀ c ∈ components, c ≠ []
  linked : ∀ c ∈ components, ∀ i ∈ c, ∀ j, j ∈ c ↔ g.Linked i j
  nodup : components.flatten.Nodup
  ordered : ∀ k c, components[k]? = some c → ∀ i ∈ c, ∀ j ∈ g.uses i,
    ∃ (k' : Nat) (d : List Nat), k' ≤ k ∧ components[k']? = some d ∧ j ∈ d

namespace Finished

variable {components : List (List Nat)}

lemma nil : Finished g [] := ⟨by simp, by simp, by simp, by simp⟩

variable (h : Finished g components)

include h

lemma mem_of_uses (hi : i ∈ components.flatten) (hj : j ∈ g.uses i) :
    j ∈ components.flatten := by
  obtain ⟨c, hc, hic⟩ := List.mem_flatten.mp hi
  obtain ⟨k, hk⟩ := getElem?_of_mem hc
  obtain ⟨k', d, -, hd, hjd⟩ := h.ordered k c hk i hic j hj
  exact List.mem_flatten.mpr ⟨d, mem_of_getElem? hd, hjd⟩

lemma mem_of_reaches (hi : i ∈ components.flatten)
    (hij : g.Reaches i j) : j ∈ components.flatten := by
  induction hij with
  | refl => exact hi
  | tail _ hjk ih => exact h.mem_of_uses ih hjk

/-- One more component, which uses itself and those before it. -/
lemma append (hne : c ≠ []) (hnodup : c.Nodup)
    (hnew : ∀ i ∈ c, i ∉ components.flatten) (hlinked : ∀ i ∈ c, ∀ j, j ∈ c ↔ g.Linked i j)
    (huses : ∀ i ∈ c, ∀ j ∈ g.uses i, j ∈ c ∨ j ∈ components.flatten) :
    Finished g (components ++ [c]) where
  nonempty := by
    intro d hd
    rcases mem_append.mp hd with hd | hd
    · exact h.nonempty d hd
    · rwa [mem_singleton.mp hd]
  linked := by
    intro d hd
    rcases mem_append.mp hd with hd | hd
    · exact h.linked d hd
    · rwa [mem_singleton.mp hd]
  nodup := by
    rw [flatten_append, flatten_singleton]
    refine nodup_append.mpr ⟨h.nodup, hnodup, ?_⟩
    intro i hi j hj hij
    exact hnew j hj (hij ▸ hi)
  ordered := by
    intro k d hd i hi j hj
    rcases getElem?_concat_cases hd with hd | ⟨rfl, rfl⟩
    · obtain ⟨k', e, hle, he, hje⟩ := h.ordered k d hd i hi j hj
      have hk' := (List.getElem?_eq_some_iff.mp he).1
      exact ⟨k', e, hle, by rwa [getElem?_append_left hk'], hje⟩
    · rcases huses i hi j hj with hjd | hjold
      · refine ⟨components.length, d, Nat.le_refl _, ?_, hjd⟩
        simp
      · obtain ⟨e, he, hje⟩ := List.mem_flatten.mp hjold
        obtain ⟨k', hk'⟩ := getElem?_of_mem he
        have hlt : k' < components.length := (List.getElem?_eq_some_iff.mp hk').1
        exact ⟨k', e, by omega, by rwa [getElem?_append_left hlt], hje⟩

end Finished

end DependencyGraph

open DependencyGraph

namespace Traversal

/-- The number of a node that was met. -/
def number (s : Traversal) (i : Nat) : Nat := s.met.idxOf i

variable {s t : Traversal}

lemma number?_eq_none : s.number? i = none ↔ i ∉ s.met :=
  idxOf?_eq_none_iff

lemma number_lt (h : i ∈ s.met) : s.number i < s.met.length :=
  idxOf_lt_length_iff.mpr h

lemma number?_eq_some (h : s.number? i = some n) : i ∈ s.met ∧ s.number i = n := by
  obtain ⟨hlt, heq⟩ := findIdx?_eq_some_iff_findIdx_eq.mp h
  have hnumber : s.number i = n := heq
  refine ⟨idxOf_lt_length_iff.mp ?_, hnumber⟩
  show s.number i < s.met.length
  omega

lemma number_of_prefix (h : s.met <+: t.met) (hi : i ∈ s.met) : t.number i = s.number i := by
  obtain ⟨more, hmore⟩ := h
  rw [number, number, ← hmore, idxOf_append_of_mem hi]

lemma number_next (hi : i ∉ s.met) (h : s.met ++ [i] <+: t.met) : t.number i = s.met.length := by
  obtain ⟨more, hmore⟩ := h
  rw [number, ← hmore, append_assoc, idxOf_append_of_notMem hi]
  simp

/-- What holds of a traversal at every moment; `path` are the nodes whose visit
has begun and not ended. -/
structure Sound (g : DependencyGraph) (path : List Nat) (s : Traversal) : Prop where
  met_lt : ∀ i ∈ s.met, i < g.size
  met_nodup : s.met.Nodup
  mem_met : ∀ i, i ∈ s.met ↔ i ∈ s.stack ∨ i ∈ s.components.flatten
  sorted : s.stack.Pairwise fun i j => s.number j < s.number i
  unfinished : ∀ i ∈ s.stack, i ∉ s.components.flatten
  path_stack : ∀ i ∈ path, i ∈ s.stack
  /-- A node whose visit has ended uses only nodes that were met. -/
  explored : ∀ i ∈ s.met, i ∉ path → ∀ j ∈ g.uses i, j ∈ s.met
  up : ∀ i ∈ path, ∀ j ∈ s.stack, s.number i ≤ s.number j → g.Reaches i j
  down : ∀ j ∈ s.stack, ∃ i ∈ path, s.number i ≤ s.number j ∧ g.Reaches j i
  finished : Finished g s.components
  places : ∀ (k : Nat) (c : List Nat), s.components[k]? = some c → ∀ i ∈ c, s.componentOf i = k

namespace Sound

variable {g : DependencyGraph} {s : Traversal}

lemma start : Sound g [] {} where
  met_lt := by simp
  met_nodup := by simp
  mem_met := by simp
  sorted := by simp
  unfinished := by simp
  path_stack := by simp
  explored := by simp
  up := by simp
  down := by simp
  finished := Finished.nil
  places := by simp

variable {i : Nat}

variable (h : Sound g path s)

include h

lemma stack_met (hi : i ∈ s.stack) : i ∈ s.met :=
  (h.mem_met i).mpr (.inl hi)

lemma length_lt (hi : i ∉ s.met) (hlt : i < g.size) :
    s.met.length < g.size := by
  have hnodup : (i :: s.met).Nodup := nodup_cons.mpr ⟨hi, h.met_nodup⟩
  have hsub : i :: s.met ⊆ range g.size := by
    intro j hj
    rcases mem_cons.mp hj with rfl | hj
    · exact mem_range.mpr hlt
    · exact mem_range.mpr (h.met_lt j hj)
  have hle := (subperm_of_subset hnodup hsub).length_le
  simp only [length_cons, length_range] at hle
  omega

/-- Nodes above a node on the stack have higher numbers, those below lower ones. -/
lemma above_below (hstack : s.stack = above ++ i :: below) :
    (∀ j ∈ above, s.number i < s.number j) ∧ (∀ j ∈ below, s.number j < s.number i) := by
  have hsorted := h.sorted
  rw [hstack, pairwise_append, pairwise_cons] at hsorted
  obtain ⟨-, ⟨hbelow, -⟩, habove⟩ := hsorted
  exact ⟨fun j hj => habove j hj i (by simp), hbelow⟩

/-- Meet a node that every node of the path reaches. -/
lemma enter (hi : i ∉ s.met) (hlt : i < g.size)
    (hreach : ∀ z ∈ path, g.Reaches z i) : Sound g (i :: path) (s.enter i) := by
  have hpre : s.met <+: (s.enter i).met := prefix_append _ _
  have hnumber : (s.enter i).number i = s.met.length := number_next hi (prefix_refl _)
  have hold : ∀ j ∈ s.stack, (s.enter i).number j = s.number j :=
    fun j hj => number_of_prefix hpre (h.stack_met hj)
  have hless : ∀ j ∈ s.stack, (s.enter i).number j < (s.enter i).number i := by
    intro j hj
    rw [hold j hj, hnumber]
    exact number_lt (h.stack_met hj)
  constructor
  case met_lt =>
    intro j hj
    rcases mem_append.mp hj with hj | hj
    · exact h.met_lt j hj
    · rwa [mem_singleton.mp hj]
  case met_nodup =>
    refine nodup_append.mpr ⟨h.met_nodup, nodup_singleton i, ?_⟩
    intro j hj k hk hjk
    rw [hjk, mem_singleton.mp hk] at hj
    exact hi hj
  case mem_met =>
    intro j
    have := h.mem_met j
    simp only [Traversal.enter, mem_append, mem_cons, not_mem_nil, or_false]
    tauto
  case sorted =>
    refine pairwise_cons.mpr ⟨hless, h.sorted.imp_of_mem ?_⟩
    intro j k hj hk hjk
    rwa [hold j hj, hold k hk]
  case unfinished =>
    intro j hj
    rcases mem_cons.mp hj with rfl | hj
    · exact fun hfin => hi ((h.mem_met j).mpr (.inr hfin))
    · exact h.unfinished j hj
  case path_stack =>
    intro j hj
    rcases mem_cons.mp hj with rfl | hj
    · exact mem_cons_self
    · exact mem_cons_of_mem _ (h.path_stack j hj)
  case explored =>
    intro j hj hpath k hk
    rcases mem_append.mp hj with hj | hj
    · exact hpre.subset (h.explored j hj (fun hjp => hpath (mem_cons_of_mem _ hjp)) k hk)
    · exact (hpath (by simp [mem_singleton.mp hj])).elim
  case up =>
    intro z hz j hj hle
    rcases mem_cons.mp hz with hzi | hz' <;> rcases mem_cons.mp hj with hji | hj'
    · rw [hzi, hji]
      exact Reaches.refl _
    · have := hless j hj'
      rw [hzi] at hle
      omega
    · rw [hji]
      exact hreach z hz'
    · rw [hold z (h.path_stack z hz'), hold j hj'] at hle
      exact h.up z hz' j hj' hle
  case down =>
    intro j hj
    rcases mem_cons.mp hj with rfl | hj
    · exact ⟨j, mem_cons_self, Nat.le_refl _, Reaches.refl _⟩
    · obtain ⟨z, hz, hle, hzj⟩ := h.down j hj
      refine ⟨z, mem_cons_of_mem _ hz, ?_, hzj⟩
      rwa [hold z (h.path_stack z hz), hold j hj]
  case finished => exact h.finished
  case places => exact h.places

end Sound

/-- What a visit of a node that was not met makes of a traversal. -/
structure Visited (g : DependencyGraph) (path : List Nat) (i : Nat) (s : Traversal)
    (found : Nat × Traversal) : Prop where
  sound : Sound g path found.2
  met : s.met <+: found.2.met
  mem : i ∈ found.2.met
  /-- Nodes left on the stack use no node below them with a number less than
  the one that was found. -/
  stack : ∃ above, found.2.stack = above ++ s.stack ∧
    ∀ u ∈ above, ∀ w ∈ g.uses u, w ∈ s.stack → found.1 ≤ s.number w
  low_le : found.1 ≤ s.met.length
  reaches : found.1 < s.met.length → ∃ w ∈ s.stack, s.number w = found.1 ∧ g.Reaches i w

/-- What following some uses of a node makes of the traversal in which the node
was met. -/
structure Followed (g : DependencyGraph) (path : List Nat) (i : Nat) (s : Traversal)
    (uses : List Nat) (found : Nat × Traversal) : Prop where
  sound : Sound g (i :: path) found.2
  met : s.met ++ [i] <+: found.2.met
  uses_met : ∀ j ∈ uses, j ∈ found.2.met
  stack : ∃ above, found.2.stack = above ++ i :: s.stack ∧
    ∀ u ∈ above, ∀ w ∈ g.uses u, w ∈ s.stack → found.1 ≤ s.number w
  uses_low : ∀ w ∈ uses, w ∈ s.stack → found.1 ≤ s.number w
  low_le : found.1 ≤ s.met.length
  reaches : found.1 < s.met.length → ∃ w ∈ s.stack, s.number w = found.1 ∧ g.Reaches i w

/-- What visits to some depth do. -/
def Visits (g : DependencyGraph) (visit : Nat → Traversal → Nat × Traversal) (depth : Nat) :
    Prop :=
  ∀ path i s, Sound g path s → i ∉ s.met → i < g.size → (∀ z ∈ path, g.Reaches z i) →
    g.size ≤ s.met.length + depth → Visited g path i s (visit i s)

namespace Followed

variable {g : DependencyGraph} {i : Nat} {s : Traversal} {uses : List Nat}

lemma start (hs : Sound g path s) (hi : i ∉ s.met) (hlt : i < g.size)
    (hreach : ∀ z ∈ path, g.Reaches z i) :
    Followed g path i s [] (s.met.length, s.enter i) where
  sound := hs.enter hi hlt hreach
  met := prefix_refl _
  uses_met := by simp
  stack := ⟨[], rfl, by simp⟩
  uses_low := by simp
  low_le := Nat.le_refl _
  reaches := fun h => absurd h (Nat.lt_irrefl _)

lemma met_old (h : Followed g path i s uses found) : s.met <+: found.2.met :=
  (prefix_append _ _).trans h.met

lemma number_old (hs : Sound g path s) (h : Followed g path i s uses found) (hw : w ∈ s.stack) :
    found.2.number w = s.number w :=
  number_of_prefix h.met_old (hs.stack_met hw)

/-- A node on the stack with a number less than that of the node followed stood
there before. -/
lemma mem_below (hs : Sound g path s) (hi : i ∉ s.met) (h : Followed g path i s uses found)
    (hw : w ∈ found.2.stack) (hlt : found.2.number w < s.met.length) :
    w ∈ s.stack ∧ s.number w = found.2.number w := by
  have hnumber : found.2.number i = s.met.length := number_next hi h.met
  obtain ⟨above, hstack, -⟩ := h.stack
  have habove := (h.sound.above_below hstack).1
  have hbelow : w ∈ s.stack := by
    rw [hstack] at hw
    rcases mem_append.mp hw with hwa | hw
    · have := habove w hwa
      omega
    · rcases mem_cons.mp hw with hwi | hw
      · rw [hwi] at hlt
        omega
      · exact hw
  exact ⟨hbelow, (h.number_old hs hbelow).symm⟩

lemma path_reaches (hs : Sound g path s) (hi : i ∉ s.met)
    (h : Followed g path i s uses found) : ∀ z ∈ i :: path, g.Reaches z i := by
  intro z hz
  obtain ⟨above, hstack, -⟩ := h.stack
  have hmem : i ∈ found.2.stack := by simp [hstack]
  refine h.sound.up z hz i hmem ?_
  rcases mem_cons.mp hz with rfl | hz
  · omega
  · exact Nat.le_of_lt ((h.sound.above_below hstack).2 z (hs.path_stack z hz))

/-- A use that was met counts as followed once its number is taken into account. -/
lemma use (h : Followed g path i s uses found) (hmet : j ∈ found.2.met)
    (hlow : j ∈ s.stack → found.1 ≤ s.number j) : Followed g path i s (uses ++ [j]) found where
  sound := h.sound
  met := h.met
  uses_met := by
    intro w hw
    rcases mem_append.mp hw with hw | hw
    · exact h.uses_met w hw
    · rwa [mem_singleton.mp hw]
  stack := h.stack
  uses_low := by
    intro w hw hws
    rcases mem_append.mp hw with hw | hw
    · exact h.uses_low w hw hws
    · rw [mem_singleton.mp hw] at hws ⊢
      exact hlow hws
  low_le := h.low_le
  reaches := h.reaches

variable {t : Traversal} {visit : Nat → Traversal → Nat × Traversal}

/-- Take a number into account that is reached. -/
lemma lower (h : Followed g path i s uses (low, t))
    (hn : n < s.met.length → ∃ w ∈ s.stack, s.number w = n ∧ g.Reaches i w) :
    Followed g path i s uses (min low n, t) where
  sound := h.sound
  met := h.met
  uses_met := h.uses_met
  stack := by
    obtain ⟨above, hstack, hescape⟩ := h.stack
    exact ⟨above, hstack, fun u hu w hw hws =>
      Nat.le_trans (Nat.min_le_left _ _) (hescape u hu w hw hws)⟩
  uses_low := fun w hw hws => Nat.le_trans (Nat.min_le_left _ _) (h.uses_low w hw hws)
  low_le := Nat.le_trans (Nat.min_le_left _ _) h.low_le
  reaches := by
    intro hlt
    rcases Nat.le_total low n with hle | hle
    · simp only [Nat.min_eq_left hle] at hlt ⊢
      exact h.reaches hlt
    · simp only [Nat.min_eq_right hle] at hlt ⊢
      exact hn hlt

/-- What the visit of a use leaves on the stack joins what is there. -/
lemma join (hs : Sound g path s) (hi : i ∉ s.met) (h : Followed g path i s uses (low, t))
    (hj : j ∈ g.uses i) (hnew : j ∉ t.met) (hv : Visited g (i :: path) j t (reached, t')) :
    Followed g path i s (uses ++ [j]) (min low reached, t') := by
  have hlength := h.met.length_le
  simp only [length_append, length_singleton] at hlength
  have hlowered : Followed g path i s uses (min low reached, t) := by
    refine h.lower fun hlt => ?_
    -- What the use reaches below `i` stood there when `i` was met.
    obtain ⟨w, hw, hwn, hjw⟩ := hv.reaches (by omega)
    obtain ⟨hws, heq⟩ := h.mem_below hs hi hw (by simp only [hwn]; exact hlt)
    exact ⟨w, hws, heq.trans hwn, (Reaches.of_uses hj).trans hjw⟩
  have hjoined : Followed g path i s uses (min low reached, t') := by
    refine ⟨hv.sound, h.met.trans hv.met, fun w hw => hv.met.subset (h.uses_met w hw), ?_,
      hlowered.uses_low, hlowered.low_le, hlowered.reaches⟩
    obtain ⟨above, hstack, hescape⟩ := hlowered.stack
    obtain ⟨above', hstack', hescape'⟩ := hv.stack
    simp only at hstack hstack' hescape hescape'
    refine ⟨above' ++ above, by simp [hstack', hstack], ?_⟩
    intro u hu w hw hws
    rcases mem_append.mp hu with hu | hu
    · have hle := hescape' u hu w hw (by simp [hstack, hws])
      rw [show t.number w = s.number w from h.number_old hs hws] at hle
      exact Nat.le_trans (Nat.min_le_right _ _) hle
    · exact hescape u hu w hw hws
  refine hjoined.use hv.mem fun hjs => ?_
  exact (hnew (h.met_old.subset (hs.stack_met hjs))).elim

/-- Follow one more use. -/
lemma step (hvisit : Visits g visit depth) (hs : Sound g path s) (hi : i ∉ s.met)
    (hdepth : g.size ≤ s.met.length + (depth + 1)) (hj : j ∈ g.uses i)
    (h : Followed g path i s uses found) :
    Followed g path i s (uses ++ [j]) (follow visit found j) := by
  obtain ⟨low, t⟩ := found
  rw [follow]
  cases hnumber : t.number? j with
  | none =>
    have hnew : j ∉ t.met := number?_eq_none.mp hnumber
    have hlength := h.met.length_le
    simp only [length_append, length_singleton] at hlength
    have hv : Visited g (i :: path) j t (visit j t) :=
      hvisit (i :: path) j t h.sound hnew (lt_size_of_mem_uses hj)
        (fun z hz => (h.path_reaches hs hi z hz).trans (.of_uses hj)) (by omega)
    exact h.join hs hi hj hnew hv
  | some n =>
    obtain ⟨hmet, hn⟩ := number?_eq_some hnumber
    -- A use that is off the stack is in a finished component and does not count.
    by_cases hopen : j ∈ t.stack
    · simp only [contains_iff_mem.mpr hopen, if_true]
      have hlowered : Followed g path i s uses (min low n, t) := by
        refine h.lower fun hlt => ?_
        obtain ⟨hjs, heq⟩ := h.mem_below hs hi hopen (by simp only [hn]; exact hlt)
        exact ⟨j, hjs, heq.trans hn, .of_uses hj⟩
      refine hlowered.use hmet fun hjs => ?_
      rw [← h.number_old hs hjs, show t.number j = n from hn]
      exact Nat.min_le_right _ _
    · have hclosed : t.stack.contains j = false := by simpa using hopen
      simp only [hclosed, Bool.false_eq_true, if_false]
      -- What stood on the stack before stands there still.
      refine h.use hmet fun hjs => ?_
      obtain ⟨above, hstack, -⟩ := h.stack
      simp only at hstack
      exact (hopen (by simp [hstack, hjs])).elim

/-- Follow further uses, one after another. -/
lemma run (hvisit : Visits g visit depth) (hs : Sound g path s) (hi : i ∉ s.met)
    (hdepth : g.size ≤ s.met.length + (depth + 1)) (hmore : ∀ j ∈ more, j ∈ g.uses i)
    (h : Followed g path i s uses found) :
    Followed g path i s (uses ++ more) (more.foldl (follow visit) found) := by
  induction more generalizing uses found with
  | nil => simpa using h
  | cons j more ih =>
    have hnext := h.step hvisit hs hi hdepth (hmore j (by simp))
    simpa using ih (fun k hk => hmore k (by simp [hk])) hnext

/-- Nodes other than `i` whose visit has ended, and `i` once all its uses were
followed, use only nodes that were met. -/
lemma explored (h : Followed g path i s (g.uses i) found) :
    ∀ j ∈ found.2.met, j ∉ path → ∀ k ∈ g.uses j, k ∈ found.2.met := by
  intro j hj hpath k hk
  by_cases hji : j = i
  · subst hji
    exact h.uses_met k hk
  · refine h.sound.explored j hj ?_ k hk
    simp [hji, hpath]

/-- A node that reaches a node below it stays on the stack. -/
lemma keep (hs : Sound g path s) (hi : i ∉ s.met) (h : Followed g path i s (g.uses i) (low, t))
    (hlow : low ≠ s.met.length) : Visited g path i s (low, t) := by
  have hlt : low < s.met.length := Nat.lt_of_le_of_ne h.low_le hlow
  have hnumber : t.number i = s.met.length := number_next hi h.met
  obtain ⟨above, hstack, hescape⟩ := h.stack
  simp only at hstack
  refine ⟨?_, h.met_old, h.met.subset (by simp), ⟨above ++ [i], by simp [hstack], ?_⟩, h.low_le,
    h.reaches⟩
  · have hsound := h.sound
    refine ⟨hsound.met_lt, hsound.met_nodup, hsound.mem_met, hsound.sorted, hsound.unfinished,
      fun z hz => hsound.path_stack z (mem_cons_of_mem _ hz), h.explored,
      fun z hz => hsound.up z (mem_cons_of_mem _ hz), ?_, hsound.finished, hsound.places⟩
    -- The only node that leaves the path reaches the path through the lower node.
    intro u hu
    obtain ⟨w, hw, hwn, hiw⟩ := h.reaches hlt
    have hwt : t.number w = low := (h.number_old hs hw).trans hwn
    obtain ⟨z, hz, hzw, hwz⟩ := hsound.down w (by simp [hstack, hw])
    simp only at hzw hsound
    have hzpath : z ∈ path := by
      rcases mem_cons.mp hz with hzi | hz
      · rw [hzi] at hzw
        omega
      · exact hz
    obtain ⟨y, hy, hyu, huy⟩ := hsound.down u hu
    rcases mem_cons.mp hy with hyi | hy
    · rw [hyi] at hyu huy
      exact ⟨z, hzpath, by simp only at hyu ⊢; omega, (huy.trans hiw).trans hwz⟩
    · exact ⟨y, hy, hyu, huy⟩
  · intro u hu w hw hws
    rcases mem_append.mp hu with hu | hu
    · exact hescape u hu w hw hws
    · rw [mem_singleton.mp hu] at hw
      exact h.uses_low w hw hws

section Finishing

variable {low : Nat} {t : Traversal}

section

variable (hs : Sound g path s) (h : Followed g path i s (g.uses i) (low, t))
  (hlow : low = s.met.length) (hstack : t.stack = above ++ i :: s.stack)
  (hescape : ∀ u ∈ above, ∀ w ∈ g.uses u, w ∈ s.stack → low ≤ s.number w)

include hs h hlow hstack hescape

/-- No way leads below a node that knows of none: what the nodes above it use is
above it or finished. -/
lemma uses_above :
    ∀ u ∈ above ++ [i], ∀ w ∈ g.uses u, w ∈ above ++ [i] ∨ w ∈ t.components.flatten := by
  intro u hu w hw
  have hum : u ∈ t.met := by
    refine h.sound.stack_met ?_
    rw [hstack, append_cons]
    exact mem_append_left _ hu
  have hout : w ∉ s.stack := by
    intro hws
    have hlt := number_lt (hs.stack_met hws)
    rcases mem_append.mp hu with hu | hu
    · have := hescape u hu w hw hws
      omega
    · rw [mem_singleton.mp hu] at hw
      have := h.uses_low w hw hws
      omega
  have hwm : w ∈ t.met := by
    by_cases hui : u = i
    · exact h.uses_met w (hui ▸ hw)
    · -- A node above `i` is not on the path, which stands below.
      refine h.sound.explored u hum ?_ w hw
      intro hup
      rcases mem_cons.mp hup with hup | hup
      · exact hui hup
      · have hua : u ∈ above := by simpa [hui] using hu
        have hlt := (h.sound.above_below hstack)
        have h1 := hlt.1 u hua
        have h2 := hlt.2 u (hs.path_stack u hup)
        omega
  rcases (h.sound.mem_met w).mp hwm with hw' | hw'
  · simp only [hstack] at hw'
    simp only [mem_append, mem_cons] at hw' ⊢
    tauto
  · exact .inr hw'

/-- A node that knows of no way below it and the nodes above it form a component. -/
lemma mem_above_iff_linked :
    ∀ u ∈ above ++ [i], ∀ v, v ∈ above ++ [i] ↔ g.Linked u v := by
  have hsound : Sound g (i :: path) t := h.sound
  have hon : ∀ u ∈ above ++ [i], u ∈ t.stack := by
    intro u hu
    rw [hstack, append_cons]
    exact mem_append_left _ hu
  have huses := h.uses_above hs hlow hstack hescape
  have hclosed : ∀ u ∈ above ++ [i], ∀ v, g.Reaches u v →
      v ∈ above ++ [i] ∨ v ∈ t.components.flatten := by
    intro u hu v huv
    induction huv with
    | refl => exact .inl hu
    | tail _ hvw ih =>
      rcases ih with hv | hv
      · exact huses _ hv _ hvw
      · exact .inr (hsound.finished.mem_of_uses hv hvw)
  have hbelow := hsound.above_below hstack
  have hfrom : ∀ u ∈ above ++ [i], g.Reaches i u := by
    intro u hu
    refine hsound.up i mem_cons_self u (hon u hu) ?_
    rcases mem_append.mp hu with hu | hu
    · exact Nat.le_of_lt (hbelow.1 u hu)
    · exact Nat.le_of_eq (by rw [mem_singleton.mp hu])
  have hto : ∀ u ∈ above ++ [i], g.Reaches u i := by
    intro u hu
    obtain ⟨z, hz, -, huz⟩ := hsound.down u (hon u hu)
    have hzmem : z ∈ above ++ [i] := by
      rcases hclosed u hu z huz with hzc | hzf
      · exact hzc
      · exact (hsound.unfinished z (hsound.path_stack z hz) hzf).elim
    -- Of the path only `i` stands that high.
    have hzi : z = i := by
      by_contra hne
      have hzabove : z ∈ above := by simpa [hne] using hzmem
      have hzpath : z ∈ path := by simpa [hne] using hz
      have h1 := hbelow.1 z hzabove
      have h2 := hbelow.2 z (hs.path_stack z hzpath)
      omega
    rwa [hzi] at huz
  intro u hu v
  constructor
  · intro hv
    exact ⟨(hto u hu).trans (hfrom v hv), (hto v hv).trans (hfrom u hu)⟩
  · intro huv
    rcases hclosed u hu v huv.1 with hv | hv
    · exact hv
    · exact (hsound.unfinished u (hon u hu) (hsound.finished.mem_of_reaches hv huv.2)).elim

end

lemma finish_eq (hstack : t.stack = above ++ i :: s.stack) (hi : i ∉ above) :
    t.finish i =
      { t with
        stack := s.stack
        components := t.components ++ [above ++ [i]]
        componentOf := fun j =>
          if (above ++ [i]).contains j then t.components.length else t.componentOf j } := by
  have hne : ∀ u ∈ above, (u != i) = true := by
    intro u hu
    simpa using fun h : u = i => hi (h ▸ hu)
  simp [finish, hstack, takeWhile_append_of_pos hne, dropWhile_append_of_pos hne]

/-- A node that reaches no node below it finishes its component. -/
lemma close (hs : Sound g path s)
    (h : Followed g path i s (g.uses i) (low, t)) (hlow : low = s.met.length) :
    Visited g path i s (low, t.finish i) := by
  have hsound : Sound g (i :: path) t := h.sound
  obtain ⟨above, hstack, hescape⟩ := h.stack
  simp only at hstack hescape
  obtain ⟨habove, hbelow⟩ := hsound.above_below hstack
  have hinew : i ∉ above := fun hmem => Nat.lt_irrefl _ (habove i hmem)
  have hnodup : t.stack.Nodup := hsound.sorted.imp fun hlt heq => by
    rw [heq] at hlt
    exact Nat.lt_irrefl _ hlt
  have hsplit : t.stack = (above ++ [i]) ++ s.stack := by simp [hstack]
  rw [hsplit, nodup_append] at hnodup
  obtain ⟨hcnodup, -, hdisjoint⟩ := hnodup
  have hlinked := h.mem_above_iff_linked hs hlow hstack hescape
  have huses := h.uses_above hs hlow hstack hescape
  rw [finish_eq hstack hinew]
  refine ⟨?_, h.met_old, h.met.subset (by simp), ⟨[], by simp, by simp⟩, h.low_le, ?_⟩
  · constructor
    case met_lt => exact hsound.met_lt
    case met_nodup => exact hsound.met_nodup
    case mem_met =>
      intro j
      have := hsound.mem_met j
      rw [hsplit] at this
      simp only [mem_append, flatten_append, flatten_singleton] at this ⊢
      tauto
    case sorted =>
      have := hsound.sorted
      rw [hsplit, pairwise_append] at this
      exact this.2.1
    case unfinished =>
      intro j hj
      rw [flatten_append, flatten_singleton, mem_append]
      rintro (hold | hnew)
      · exact hsound.unfinished j (by simp [hsplit, hj]) hold
      · exact hdisjoint j hnew j hj rfl
    case path_stack => exact hs.path_stack
    case explored => exact h.explored
    case up =>
      intro z hz j hj
      exact hsound.up z (mem_cons_of_mem _ hz) j (by simp [hsplit, hj])
    case down =>
      intro j hj
      obtain ⟨z, hz, hzj, hjz⟩ := hsound.down j (by simp [hsplit, hj])
      rcases mem_cons.mp hz with hzi | hz
      · have := hbelow j hj
        rw [hzi] at hzj
        omega
      · exact ⟨z, hz, hzj, hjz⟩
    case finished =>
      refine hsound.finished.append (by simp) hcnodup ?_ hlinked huses
      intro j hj
      exact hsound.unfinished j (by rw [hsplit]; exact mem_append_left _ hj)
    case places =>
      intro k c hk j hj
      rcases getElem?_concat_cases hk with hold | ⟨rfl, rfl⟩
      · have hnew : j ∉ above ++ [i] := fun hmem =>
          hsound.unfinished j (by rw [hsplit]; exact mem_append_left _ hmem)
            (mem_flatten.mpr ⟨c, mem_of_getElem? hold, hj⟩)
        exact (if_neg (by simpa using hnew)).trans (hsound.places k c hold j hj)
      · exact if_pos (contains_iff_mem.mpr hj)
  · intro hlt
    omega

end Finishing

end Followed

/-- A visit to a depth that suffices for all nodes that were not met. -/
lemma visits (g : DependencyGraph) (depth : Nat) : Visits g (g.visit depth) depth := by
  induction depth with
  | zero =>
    intro path i s hs hi hlt _ hdepth
    have := hs.length_lt hi hlt
    omega
  | succ depth ih =>
    intro path i s hs hi hlt hreach hdepth
    have hfollowed : Followed g path i s ([] ++ g.uses i) _ :=
      (Followed.start hs hi hlt hreach).run ih hs hi hdepth fun _ hj => hj
    rw [nil_append] at hfollowed
    rw [DependencyGraph.visit]
    revert hfollowed
    generalize (g.uses i).foldl (follow (g.visit depth)) (s.met.length, s.enter i) = found
    intro hfollowed
    obtain ⟨low, t⟩ := found
    by_cases hlow : low = s.met.length
    · simp only [hlow, if_true]
      exact hlow ▸ hfollowed.close hs hlow
    · simp only [hlow, if_false]
      exact hfollowed.keep hs hi hlow

lemma Sound.explore (hs : Sound g [] s) (hi : i < g.size) :
    Sound g [] (g.explore s i) ∧ s.met <+: (g.explore s i).met ∧ i ∈ (g.explore s i).met := by
  rw [DependencyGraph.explore]
  cases hnumber : s.number? i with
  | none =>
    have hv := visits g g.size [] i s hs (number?_eq_none.mp hnumber) hi (by simp) (by omega)
    exact ⟨hv.sound, hv.met, hv.mem⟩
  | some n => exact ⟨hs, prefix_refl _, (number?_eq_some hnumber).1⟩

/-- Exploring node after node keeps the traversal sound and meets them all. -/
lemma Sound.exploreAll (hs : Sound g [] s) (nodes : List Nat) (hnodes : ∀ i ∈ nodes, i < g.size) :
    Sound g [] (nodes.foldl g.explore s) ∧ s.met <+: (nodes.foldl g.explore s).met ∧
      ∀ i ∈ nodes, i ∈ (nodes.foldl g.explore s).met := by
  induction nodes generalizing s with
  | nil => exact ⟨hs, prefix_refl _, by simp⟩
  | cons i nodes ih =>
    obtain ⟨hone, hpre, hmem⟩ := hs.explore (hnodes i (by simp))
    obtain ⟨hall, hpre', hmem'⟩ := ih hone fun j hj => hnodes j (by simp [hj])
    refine ⟨hall, hpre.trans hpre', ?_⟩
    intro j hj
    rcases mem_cons.mp hj with rfl | hj
    · exact hpre'.subset hmem
    · exact hmem' j hj

end Traversal

namespace DependencyGraph

/-- The traversal is sound, and meets every node. -/
lemma traversal_sound (g : DependencyGraph) :
    Traversal.Sound g [] g.traversal ∧ ∀ i < g.size, i ∈ g.traversal.met := by
  obtain ⟨hsound, -, hmem⟩ := Traversal.Sound.start.exploreAll (g := g) (range g.size)
    fun _ hi => mem_range.mp hi
  exact ⟨hsound, fun i hi => hmem i (mem_range.mpr hi)⟩

/-- The components are strongly connected and come after those that they use. -/
lemma components_finished (g : DependencyGraph) : Finished g g.components :=
  g.traversal_sound.1.finished

/-- Every node is in a component. -/
lemma mem_components {g : DependencyGraph} : i ∈ g.components.flatten ↔ i < g.size := by
  obtain ⟨hsound, hmem⟩ := g.traversal_sound
  constructor
  · intro hi
    exact hsound.met_lt i ((hsound.mem_met i).mpr (.inr hi))
  · intro hi
    rcases (hsound.mem_met i).mp (hmem i hi) with hstack | hfin
    · -- Nothing is left on the stack, for the path is empty.
      obtain ⟨z, hz, -⟩ := hsound.down i hstack
      cases hz
    · exact hfin

end DependencyGraph
end Clausal
