import Clausal.Proofs.Components
import Mathlib.Data.List.Range
import Mathlib.Data.List.Sort
import Mathlib.Data.List.Nodup

/-!
# Levels of dependency graphs

A node stands as high as the longest chain of components below its own.
-/

namespace Clausal.DependencyGraph

open List

variable {i j l k : Nat} {c : List Nat}

lemma le_foldl_max {l : List Nat} (h : n ∈ l) : n ≤ l.foldl max a :=
  (List.max?_eq_some_iff.1 List.max?_cons').2 n (mem_cons_of_mem a h)

lemma foldl_max_mem (l : List Nat) (a : Nat) : l.foldl max a = a ∨ l.foldl max a ∈ l :=
  mem_cons.1 (List.max?_eq_some_iff.1 List.max?_cons').1

/-! ### Places of components -/

section Places

variable {components : List (List Nat)}

/-- The place of the component of a node. -/
def placeIn (components : List (List Nat)) (i : Nat) : Nat :=
  components.findIdx (·.contains i)

lemma placeIn_eq (hnodup : components.flatten.Nodup) (hk : components[k]? = some c) (hi : i ∈ c) :
    placeIn components i = k := by
  obtain ⟨hlt, hc⟩ := List.getElem?_eq_some_iff.mp hk
  refine (List.findIdx_eq hlt).mpr ⟨by simpa [hc] using hi, ?_⟩
  intro j hj
  have hdisjoint := List.pairwise_iff_getElem.mp (List.nodup_flatten.mp hnodup).2 j k
    (by omega) hlt hj
  simpa using fun hij => hdisjoint hij (hc ▸ hi)

lemma getElem?_placeIn (hi : i ∈ components.flatten) :
    ∃ c, components[placeIn components i]? = some c ∧ i ∈ c := by
  obtain ⟨c, hc, hic⟩ := mem_flatten.mp hi
  have hlt : placeIn components i < components.length :=
    findIdx_lt_length_of_exists ⟨c, hc, by simpa using hic⟩
  refine ⟨components[placeIn components i], List.getElem?_eq_getElem hlt, ?_⟩
  exact contains_iff_mem.mp (findIdx_getElem (w := hlt))

end Places

variable {g : DependencyGraph}

/-- The traversal keeps the place of every node. -/
lemma componentOf_eq (hi : i < g.size) : g.traversal.componentOf i = placeIn g.components i := by
  obtain ⟨c, hc, hic⟩ := getElem?_placeIn (mem_components.mpr hi)
  exact g.traversal_sound.1.places _ c hc i hic

lemma placeIn_components_eq_iff (hi : i < g.size) (hj : j < g.size) :
    placeIn g.components i = placeIn g.components j ↔ g.Linked i j := by
  obtain ⟨c, hc, hic⟩ := getElem?_placeIn (mem_components.mpr hi)
  obtain ⟨d, hd, hjd⟩ := getElem?_placeIn (mem_components.mpr hj)
  have hlinked := g.components_finished.linked c (mem_of_getElem? hc) i hic j
  rw [← hlinked]
  constructor
  · intro heq
    rw [heq, hd, Option.some_inj] at hc
    exact hc ▸ hjd
  · intro hjc
    exact (placeIn_eq g.components_finished.nodup hc hjc).symm

/-! ### Levels of components -/

lemma length_addToLevel (levels : List (List Nat)) (l : Nat) (nodes : List Nat) :
    (addToLevel levels l nodes).length = max levels.length (l + 1) := by
  simp only [addToLevel, length_modify, length_append, length_replicate]
  omega

lemma getD_addToLevel (levels : List (List Nat)) (l : Nat) (nodes : List Nat) (m : Nat) :
    (addToLevel levels l nodes).getD m [] = levels.getD m [] ++ if l = m then nodes else [] := by
  simp only [addToLevel, getD_eq_getElem?_getD, getElem?_modify, getElem?_append,
    getElem?_replicate]
  rcases lt_or_ge m levels.length with hlt | hge
  · rw [if_pos hlt, List.getElem?_eq_getElem hlt]
    split <;> simp
  · rw [if_neg (by omega), getElem?_eq_none hge]
    by_cases hm : l = m
    · rw [if_pos (by omega)]
      simp [hm]
    · simp only [if_neg hm]
      split <;> simp

lemma addToLevel_flatten (levels : List (List Nat)) (l : Nat) (nodes : List Nat) :
    (addToLevel levels l nodes).flatten.Perm (levels.flatten ++ nodes) := by
  have hflatten : (levels ++ replicate (l + 1 - levels.length) []).flatten = levels.flatten := by
    simp
  have hlt : l < (levels ++ replicate (l + 1 - levels.length) []).length := by
    simp only [length_append, length_replicate]
    omega
  rw [addToLevel, ← hflatten]
  generalize levels ++ replicate (l + 1 - levels.length) [] = all at hlt
  have hall : all.flatten = (all.take l).flatten ++ (all[l] ++ (all.drop (l + 1)).flatten) := by
    rw [← flatten_cons, ← drop_eq_getElem_cons, ← flatten_append, take_append_drop]
  rw [modify_eq_take_cons_drop hlt, hall, flatten_append, flatten_cons]
  simp only [append_assoc]
  exact .append_left _ (.append_left _ perm_append_comm)

/-- What is known once components were put on their levels. -/
structure Placed (g : DependencyGraph) (componentOf : Nat → Nat) (components : List (List Nat))
    (found : List Nat × List (List Nat)) : Prop where
  length : found.1.length = components.length
  level : ∀ (k : Nat) (c : List Nat), components[k]? = some c →
    found.1[k]? = some (g.nextLevel componentOf (found.1.take k) c)
  mem : ∀ i l, i ∈ found.2.getD l [] ↔
    ∃ (k : Nat) (c : List Nat), components[k]? = some c ∧ i ∈ c ∧ found.1[k]? = some l
  perm : found.2.flatten.Perm components.flatten
  /-- No level is added above the highest component. -/
  top : ∀ l < found.2.length, ∃ height ∈ found.1, l ≤ height

/-- One more component. -/
lemma Placed.step {cs : List (List Nat)} (h : Placed g f cs found) (c : List Nat) :
    Placed g f (cs ++ [c]) (g.place f found c) where
  length := by simp [place, h.length]
  level := by
    intro k d hk
    rcases getElem?_concat_cases hk with hold | ⟨rfl, rfl⟩
    · have hlevel := h.level k d hold
      have hlt := (List.getElem?_eq_some_iff.mp hlevel).1
      rw [place, getElem?_append_left hlt, hlevel, take_append_of_le_length (by omega)]
    · simp [place, ← h.length]
  mem := by
    intro i l
    rw [place, getD_addToLevel, mem_append, h.mem]
    constructor
    · rintro (⟨k, d, hd, hi, hk⟩ | hi)
      · refine ⟨k, d, ?_, hi, ?_⟩
        · rwa [getElem?_append_left (List.getElem?_eq_some_iff.mp hd).1]
        · rwa [getElem?_append_left (List.getElem?_eq_some_iff.mp hk).1]
      · split at hi
        · next hl => exact ⟨cs.length, c, by simp, hi, by simp [← h.length, hl]⟩
        · cases hi
    · rintro ⟨k, d, hd, hi, hk⟩
      rcases getElem?_concat_cases hd with hold | ⟨rfl, rfl⟩
      · have hlt := (List.getElem?_eq_some_iff.mp hold).1
        rw [← h.length] at hlt
        rw [getElem?_append_left hlt] at hk
        exact .inl ⟨k, d, hold, hi, hk⟩
      · rw [← h.length, getElem?_concat_length, Option.some_inj] at hk
        exact .inr (by rwa [if_pos hk])
  perm := by
    rw [flatten_append, flatten_singleton]
    exact (addToLevel_flatten _ _ _).trans (h.perm.append_right c)
  top := by
    intro l hl
    rw [place, length_addToLevel] at hl
    rcases lt_or_ge l found.2.length with hlt | hge
    · obtain ⟨height, hmem, hle⟩ := h.top l hlt
      exact ⟨height, mem_append_left _ hmem, hle⟩
    · exact ⟨_, mem_append_right _ (mem_singleton_self _), by omega⟩

/-- All components, one after another. -/
lemma Placed.run (g : DependencyGraph) (f : Nat → Nat) (components : List (List Nat)) :
    Placed g f components (components.foldl (g.place f) ([], [])) := by
  induction components using reverseRecOn with
  | nil => exact ⟨rfl, by simp, by simp, .refl _, by simp⟩
  | append_singleton components c ih =>
    rw [foldl_append]
    exact ih.step c

lemma placed_correct (g : DependencyGraph) :
    Placed g g.traversal.componentOf g.components g.placed := .run g _ _

/-- The level of a node: that of its component. -/
def levelOf (g : DependencyGraph) (i : Nat) : Nat := g.placed.1.getD (placeIn g.components i) 0

lemma levelOf_eq (hk : g.components[k]? = some c) (hi : i ∈ c) :
    g.levelOf i = g.nextLevel (placeIn g.components) (g.placed.1.take k) c := by
  have hplaces : (c.flatMap g.uses).map g.traversal.componentOf =
      (c.flatMap g.uses).map (placeIn g.components) := by
    refine map_congr_left fun j hj => ?_
    obtain ⟨i, -, hji⟩ := mem_flatMap.mp hj
    exact componentOf_eq (lt_size_of_mem_uses hji)
  rw [levelOf, placeIn_eq g.components_finished.nodup hk hi, List.getD_eq_getElem?_getD,
    g.placed_correct.level k c hk, nextLevel, hplaces]
  rfl

/-- What a component uses stands at its own place or before it. -/
lemma placeIn_uses_le (hk : g.components[k]? = some c) (hi : i ∈ c) (hj : j ∈ g.uses i) :
    placeIn g.components j ≤ k := by
  obtain ⟨k', d, hle, hd, hjd⟩ := g.components_finished.ordered k c hk i hi j hj
  rwa [placeIn_eq g.components_finished.nodup hd hjd]

lemma getD_take_levels (h : placeIn g.components j < k) :
    (g.placed.1.take k).getD (placeIn g.components j) 0 = g.levelOf j := by
  rw [levelOf, List.getD_eq_getElem?_getD, List.getD_eq_getElem?_getD, getElem?_take_of_lt h]

lemma length_take_levels (hk : g.components[k]? = some c) :
    (g.placed.1.take k).length = k := by
  have hlt := (List.getElem?_eq_some_iff.mp hk).1
  rw [List.length_take, g.placed_correct.length]
  omega

lemma lt_size_of_uses (h : j ∈ g.uses i) : i < g.size := by
  by_contra hge
  rw [uses, List.getD_eq_getElem?_getD, getElem?_eq_none (by simpa [size] using hge)] at h
  simp at h

/-- A node is above what it uses, apart from its own component. -/
lemma levelOf_uses (hj : j ∈ g.uses i) : g.Linked i j ∨ g.levelOf j < g.levelOf i := by
  have hi : i < g.size := lt_size_of_uses hj
  obtain ⟨c, hc, hic⟩ := getElem?_placeIn (mem_components.mpr hi)
  by_cases hplace : placeIn g.components i = placeIn g.components j
  · exact .inl ((placeIn_components_eq_iff hi (lt_size_of_mem_uses hj)).mp hplace)
  · have hlt : placeIn g.components j < placeIn g.components i := by
      have := placeIn_uses_le hc hic hj
      omega
    right
    rw [levelOf_eq hc hic, nextLevel, length_take_levels hc]
    refine Nat.lt_of_succ_le (le_foldl_max ?_)
    refine List.mem_map.mpr ⟨placeIn g.components j, mem_filter.mpr ⟨?_, ?_⟩, ?_⟩
    · exact mem_map_of_mem (mem_flatMap.mpr ⟨i, hic, hj⟩)
    · simpa using fun h => hplace h.symm
    · rw [getD_take_levels hlt]

/-- A node above the lowest level depends on a node one level below it. -/
lemma exists_levelOf (hi : i < g.size) (hl : g.levelOf i = l + 1) :
    ∃ j, j < g.size ∧ g.levelOf j = l ∧ g.Reaches i j ∧ ¬ g.Reaches j i := by
  obtain ⟨c, hc, hic⟩ := getElem?_placeIn (mem_components.mpr hi)
  rw [levelOf_eq hc hic, nextLevel, length_take_levels hc] at hl
  rcases foldl_max_mem _ _ with hzero | hmem
  · rw [hzero] at hl
    cases hl
  · rw [hl] at hmem
    obtain ⟨place, hplace, hlevel⟩ := List.mem_map.mp hmem
    obtain ⟨hused, hother⟩ := mem_filter.mp hplace
    obtain ⟨j, hj, rfl⟩ := List.mem_map.mp hused
    obtain ⟨u, huc, hju⟩ := mem_flatMap.mp hj
    have hne : placeIn g.components j ≠ placeIn g.components i := by simpa using hother
    have hle := placeIn_uses_le hc huc hju
    have hjlt : j < g.size := lt_size_of_mem_uses hju
    have hiu := (g.components_finished.linked c (mem_of_getElem? hc) i hic u).mp huc
    have hij : g.Reaches i j := hiu.1.trans (.of_uses hju)
    refine ⟨j, hjlt, ?_, hij, ?_⟩
    · rw [getD_take_levels (by omega)] at hlevel
      omega
    · intro hji
      exact hne ((placeIn_components_eq_iff hi hjlt).mpr ⟨hij, hji⟩).symm

/-! ### Chains of components -/

lemma eq_of_reaches_of_size_le (h : g.Reaches i j) (hi : g.size ≤ i) : j = i := by
  induction h with
  | refl => rfl
  | tail _ hjk ih =>
    subst ih
    have := lt_size_of_uses hjk
    omega

lemma levelOf_of_linked (h : g.Linked i j) : g.levelOf i = g.levelOf j := by
  rcases lt_or_ge i g.size with hi | hi
  · rcases lt_or_ge j g.size with hj | hj
    · rw [levelOf, levelOf, (placeIn_components_eq_iff hi hj).mpr h]
    · rw [eq_of_reaches_of_size_le h.2 hj]
  · rw [eq_of_reaches_of_size_le h.1 hi]

/-- No way leads up: a node reaches its own component or lower levels. -/
lemma levelOf_of_reaches (h : g.Reaches i j) : g.Linked i j ∨ g.levelOf j < g.levelOf i := by
  induction h with
  | refl => exact .inl ⟨.refl _, .refl _⟩
  | tail _ hjk ih =>
    rcases ih with hij | hij <;> rcases levelOf_uses hjk with hstep | hstep
    · exact .inl ⟨hij.1.trans hstep.1, hstep.2.trans hij.2⟩
    · exact .inr (by rwa [levelOf_of_linked hij])
    · exact .inr (by rwa [← levelOf_of_linked hstep])
    · exact .inr (by omega)

/-- A chain of components below that of a node: each node reaches the next one
and is not reached by it. -/
def ChainBelow (g : DependencyGraph) (i : Nat) (chain : List Nat) : Prop :=
  (i :: chain).IsChain fun a b => g.Reaches a b ∧ ¬ g.Reaches b a

lemma ChainBelow.length_le (h : g.ChainBelow i chain) : chain.length ≤ g.levelOf i := by
  induction chain generalizing i with
  | nil => exact Nat.zero_le _
  | cons j chain ih =>
    obtain ⟨⟨hij, hji⟩, hrest⟩ := isChain_cons_cons.mp h
    have hlength := ih hrest
    rcases levelOf_of_reaches hij with hlinked | hlt
    · exact (hji hlinked.2).elim
    · simp only [length_cons]
      omega

/-- One step down for each level gives a chain as long as the level. -/
lemma exists_chainBelow (hi : i < g.size) (hl : g.levelOf i = l) :
    ∃ chain, g.ChainBelow i chain ∧ chain.length = l := by
  induction l generalizing i with
  | zero => exact ⟨[], isChain_singleton _, rfl⟩
  | succ l ih =>
    obtain ⟨j, hj, hlevel, hbelow⟩ := exists_levelOf hi hl
    obtain ⟨chain, hchain, hlength⟩ := ih hj hlevel
    exact ⟨j :: chain, isChain_cons_cons.mpr ⟨hbelow, hchain⟩, by simp [hlength]⟩

/-! ### The nodes of a level -/

/-- A node is on a level. -/
def OnLevel (g : DependencyGraph) (i l : Nat) : Prop :=
  ∃ level, g.levels[l]? = some level ∧ i ∈ level

lemma insertNode_eq (i : Nat) (nodes : List Nat) :
    insertNode i nodes = nodes.orderedInsert (· ≤ ·) i := by
  induction nodes with
  | nil => rfl
  | cons j nodes ih => rw [insertNode, orderedInsert_cons, ih]

lemma levels_eq (g : DependencyGraph) : g.levels = g.placed.2.map (·.insertionSort (· ≤ ·)) := by
  rw [levels, funext fun i => funext (insertNode_eq i)]
  rfl

lemma onLevel_iff_mem : g.OnLevel i l ↔ i ∈ g.placed.2.getD l [] := by
  rw [OnLevel, levels_eq, getElem?_map, getD_eq_getElem?_getD]
  cases g.placed.2[l]? with
  | none => simp
  | some nodes => simp

/-- The nodes of a level are those whose component is on it. -/
lemma onLevel_iff : g.OnLevel i l ↔ i < g.size ∧ g.levelOf i = l := by
  rw [onLevel_iff_mem, g.placed_correct.mem]
  constructor
  · rintro ⟨k, c, hc, hi, hk⟩
    refine ⟨mem_components.mp (mem_flatten.mpr ⟨c, mem_of_getElem? hc, hi⟩), ?_⟩
    rw [levelOf, placeIn_eq g.components_finished.nodup hc hi, List.getD_eq_getElem?_getD, hk]
    rfl
  · rintro ⟨hi, rfl⟩
    obtain ⟨c, hc, hic⟩ := getElem?_placeIn (mem_components.mpr hi)
    refine ⟨_, c, hc, hic, ?_⟩
    rw [levelOf, List.getD_eq_getElem?_getD, g.placed_correct.level _ c hc]
    rfl

lemma exists_levelOf_eq (hi : i < g.size) (hl : l ≤ g.levelOf i) :
    ∃ j, j < g.size ∧ g.levelOf j = l := by
  generalize hm : g.levelOf i = m at hl
  induction m generalizing i with
  | zero => exact ⟨i, hi, by omega⟩
  | succ m ih =>
    rcases lt_or_ge m l with hlt | hge
    · exact ⟨i, hi, by omega⟩
    · obtain ⟨j, hj, hlevel, -⟩ := exists_levelOf hi hm
      exact ih hj hlevel hge

lemma level_ne_nil (hl : l < g.levels.length) : ∃ i, g.OnLevel i l := by
  rw [levels, List.length_map] at hl
  -- The highest level is that of a component, and below it no level is left out.
  obtain ⟨height, hheight, hle⟩ := g.placed_correct.top l hl
  obtain ⟨k, hk⟩ := List.getElem?_of_mem hheight
  have hklt := (List.getElem?_eq_some_iff.mp hk).1
  rw [g.placed_correct.length] at hklt
  have hc := List.getElem?_eq_getElem hklt
  obtain ⟨i, hi⟩ := exists_mem_of_ne_nil _
    (g.components_finished.nonempty _ (List.getElem_mem hklt))
  obtain ⟨hilt, hlevel⟩ := onLevel_iff.mp
    (onLevel_iff_mem.mpr ((g.placed_correct.mem i height).mpr ⟨k, _, hc, hi, hk⟩))
  obtain ⟨j, hj, hjl⟩ := exists_levelOf_eq (l := l) hilt (by omega)
  exact ⟨j, onLevel_iff.mpr ⟨hj, hjl⟩⟩

lemma components_flatten_perm (g : DependencyGraph) :
    g.components.flatten.Perm (range g.size) := by
  refine (perm_ext_iff_of_nodup g.components_finished.nodup nodup_range).mpr ?_
  intro i
  rw [mem_components, mem_range]

lemma levels_flatten_perm (g : DependencyGraph) : g.levels.flatten.Perm (range g.size) := by
  refine Perm.trans ?_ (g.placed_correct.perm.trans g.components_flatten_perm)
  rw [levels_eq]
  exact .flatten_congr (forall₂_map_left_iff.2 (forall₂_same.2 fun _ _ => perm_insertionSort _ _))

/-- The levels hold every node once, are not empty and are in ascending order.
The components are the strongly connected ones, and each stands after those it
uses, so the level of what it uses is known when its own is computed.  The level
of a node is the length of the longest chain of components below it; a node is
above what it uses, and on the same level if the two depend on each other. -/
theorem levels_correct (g : DependencyGraph) :
    (g.levels.flatten.Perm (range g.size) ∧
      ∀ level ∈ g.levels, level ≠ [] ∧ level.SortedLT) ∧
    (g.components.flatten.Perm (range g.size) ∧
      (∀ c ∈ g.components, c ≠ [] ∧ ∀ i ∈ c, ∀ j, j ∈ c ↔ g.Linked i j) ∧
      ∀ (k : Nat) (c : List Nat), g.components[k]? = some c → ∀ i ∈ c, ∀ j ∈ g.uses i,
        ∃ d, g.components[placeIn g.components j]? = some d ∧ j ∈ d ∧
          placeIn g.components j ≤ k) ∧
    (∀ i l, g.OnLevel i l →
      (∃ chain, g.ChainBelow i chain ∧ chain.length = l) ∧
        ∀ chain, g.ChainBelow i chain → chain.length ≤ l) ∧
    ∀ i j l m, j ∈ g.uses i → g.OnLevel i l → g.OnLevel j m →
      (g.Linked i j → m = l) ∧ (¬ g.Linked i j → m < l) := by
  refine ⟨⟨g.levels_flatten_perm, ?_⟩, ⟨g.components_flatten_perm, ?_, ?_⟩, ?_, ?_⟩
  · intro level hlevel
    obtain ⟨l, hl⟩ := List.getElem?_of_mem hlevel
    have hlt := (List.getElem?_eq_some_iff.mp hl).1
    constructor
    · obtain ⟨i, level', hlevel', hi⟩ := level_ne_nil hlt
      rw [hl, Option.some_inj] at hlevel'
      exact ne_nil_of_mem (hlevel' ▸ hi)
    · have hnodup := g.levels_flatten_perm.nodup_iff.mpr nodup_range
      have hone := (List.nodup_flatten.mp hnodup).1 level hlevel
      rw [levels_eq] at hlevel
      obtain ⟨nodes, -, rfl⟩ := List.mem_map.mp hlevel
      exact (pairwise_insertionSort _ nodes).sortedLE.sortedLT_of_nodup hone
  · intro c hc
    exact ⟨g.components_finished.nonempty c hc, g.components_finished.linked c hc⟩
  · intro k c hk i hi j hj
    obtain ⟨d, hd, hjd⟩ := getElem?_placeIn (mem_components.mpr (lt_size_of_mem_uses hj))
    exact ⟨d, hd, hjd, placeIn_uses_le hk hi hj⟩
  · intro i l hil
    obtain ⟨hi, hl⟩ := onLevel_iff.mp hil
    exact ⟨exists_chainBelow hi hl, fun chain hchain => hl ▸ hchain.length_le⟩
  · intro i j l m hj hil hjm
    obtain ⟨-, rfl⟩ := onLevel_iff.mp hil
    obtain ⟨-, rfl⟩ := onLevel_iff.mp hjm
    constructor
    · intro hlinked
      exact (levelOf_of_linked hlinked).symm
    · intro hnot
      exact (levelOf_uses hj).resolve_left hnot

end Clausal.DependencyGraph
