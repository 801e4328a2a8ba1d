import Clausal.Proofs.Interleaving

/-!
# What a compiled definition adds to a signature

A definition is committed with its auxiliaries, and with the equations and the
elimination principle of each of these, under names below its own.
-/

namespace Clausal

open List

variable {s : String} {name : Name} {fs : List Function} {job : Job}

/-! ### Dotted names -/

namespace Name

/-- A text without dots. -/
def Plain (s : String) : Prop := '.' ∉ s.toList

instance (s : String) : Decidable (Plain s) := inferInstanceAs (Decidable ('.' ∉ s.toList))

lemma toList_qualify (name : Name) (s : String) :
    (qualify name s).toList = name.toList ++ '.' :: s.toList := by
  simp [qualify]

/-- Two ways to read a name as a qualified one, the second with a plain last part:
they are the same, or the first has more of the name in its last part. -/
lemma qualify_eq_qualify (ht : Plain t) (h : qualify a s = qualify b t) :
    a = b ∧ s = t ∨ ∃ c, s = qualify c t ∧ b = qualify a c := by
  have hlist := congrArg String.toList h
  rw [toList_qualify, toList_qualify, append_eq_append_iff] at hlist
  rcases hlist with ⟨l, hb, hs⟩ | ⟨l, ha, ht'⟩
  · cases l with
    | nil =>
      refine .inl ⟨?_, ?_⟩
      · exact (String.toList_inj.1 (by simpa using hb)).symm
      · exact String.toList_inj.1 (cons.inj hs).2
    | cons c l =>
      obtain ⟨rfl, hrest⟩ := cons.inj hs
      refine .inr ⟨String.ofList l, String.toList_inj.1 ?_, String.toList_inj.1 ?_⟩
      · rw [toList_qualify, hrest, String.toList_ofList]
        rfl
      · rw [toList_qualify, hb, String.toList_ofList]
  · cases l with
    | nil =>
      refine .inl ⟨?_, ?_⟩
      · exact String.toList_inj.1 (by simpa using ha)
      · exact (String.toList_inj.1 (cons.inj ht').2).symm
    | cons c l =>
      -- The plain part would have a dot.
      obtain ⟨-, ht'⟩ := cons.inj ht'
      exact (ht (by simp [ht'])).elim

lemma qualify_inj (hs : Plain s) (ht : Plain t) (h : qualify a s = qualify b t) :
    a = b ∧ s = t := by
  rcases qualify_eq_qualify ht h with heq | ⟨c, rfl, -⟩
  · exact heq
  · exact (hs (by simp [toList_qualify])).elim

/-- The last parts of the names of equations and elimination principles. -/
inductive DerivedSuffix : String → Prop
  | elim : DerivedSuffix "elim"
  | equation (number : Nat) : DerivedSuffix s!"equation_{number}"

lemma isDigit_of_mem_toString {c : Char} {number : Nat} (h : c ∈ (toString number).toList) :
    c.isDigit = true := by
  rw [Nat.toString_eq_ofList_toDigits, String.toList_ofList] at h
  exact Nat.isDigit_of_mem_toDigits (by omega) (by omega) h

lemma toString_inj {i j : Nat} (h : toString i = toString j) : i = j := by
  rw [Nat.toString_eq_ofList_toDigits, Nat.toString_eq_ofList_toDigits, String.ofList_inj] at h
  calc
    i = Nat.ofDigitChars 10 (Nat.toDigits 10 i) 0 := Nat.ofDigitChars_ten_toDigits.symm
    _ = Nat.ofDigitChars 10 (Nat.toDigits 10 j) 0 := by rw [h]
    _ = j := Nat.ofDigitChars_ten_toDigits

lemma plain_toString (number : Nat) : Plain (toString number) := fun h =>
  nomatch isDigit_of_mem_toString h

lemma plain_append_toString (hs : Plain s) (number : Nat) : Plain (s ++ toString number) := by
  simp only [Plain, String.toList_append, mem_append, not_or]
  exact ⟨hs, plain_toString number⟩

lemma DerivedSuffix.plain (h : DerivedSuffix s) : Plain s := by
  cases h with
  | elim => decide
  | equation number => exact plain_append_toString (s := "equation_") (by decide) number

lemma plain_with (number : Nat) : Plain s!"with{number}" :=
  plain_append_toString (s := "with") (by decide) number

lemma DerivedSuffix.head (h : DerivedSuffix s) : s.toList.head? = some 'e' := by
  cases h with
  | elim => rfl
  | equation number =>
    change ("equation_" ++ toString number).toList.head? = some 'e'
    rw [String.toList_append]
    rfl

/-- The name is that of an equation or an elimination principle, perhaps below another name. -/
def Derived (name : Name) : Prop :=
  ∃ s, DerivedSuffix s ∧ (name = s ∨ ∃ before, name = qualify before s)

lemma DerivedSuffix.ne_toString (h : DerivedSuffix s) (number : Nat) : s ≠ toString number := by
  rintro rfl
  have hmem := mem_of_mem_head? (Option.mem_def.2 h.head)
  exact nomatch isDigit_of_mem_toString hmem

lemma DerivedSuffix.ne_with (h : DerivedSuffix s) (number : Nat) : s ≠ s!"with{number}" := by
  rintro rfl
  have hhead : ("with" ++ toString number).toList.head? = some 'e' := h.head
  rw [String.toList_append] at hhead
  exact nomatch hhead

end Name

/-! ### Names of auxiliaries -/

/-- No auxiliary has the name of an equation or an elimination principle, unless a
local definition is called so. -/
lemma Job.Generates.not_derived (hjob : ∀ other ∈ job.auxiliaries, ¬ Name.Derived other)
    (h : job.Generates name) (hs : Name.DerivedSuffix s) : name ≠ Name.qualify before s := by
  intro heq
  cases h with
  | @lifted other hmem =>
    refine hjob other hmem ⟨s, hs, ?_⟩
    rcases Name.qualify_eq_qualify hs.plain heq with ⟨-, rfl⟩ | ⟨c, hc, -⟩
    · exact .inl rfl
    · exact .inr ⟨c, hc⟩
  | copy number =>
    exact hs.ne_toString number (Name.qualify_inj (Name.plain_toString number) hs.plain heq).2.symm
  | inspection number =>
    exact hs.ne_with number (Name.qualify_inj (Name.plain_with number) hs.plain heq).2.symm

lemma Job.Generates.below (h : job.Generates name) : ∃ s, name = Name.qualify job.root s := by
  cases h with
  | @lifted other => exact ⟨other, rfl⟩
  | @copy other number =>
    exact ⟨other ++ "." ++ toString number, by simp only [Name.qualify, String.append_assoc]⟩
  | inspection number => exact ⟨_, rfl⟩

/-! ### What is committed -/

/-- The functions that are added to a signature with a compiled function. -/
def CompiledFunction.definitions (f : CompiledFunction) : List Function :=
  { name := f.name, type := f.type, body := some f.term, transparent := f.transparent,
    eliminator := some f.elimination.name } ::
  (f.equations.map (fun e => { name := e.name, type := e.type, body := some e.proof }) ++
    [{ name := f.elimination.name, type := f.elimination.type, body := some f.elimination.term }])

/-- The functions that are added to a signature with a definition, in this order. -/
def CompiledDefinition.definitions (d : CompiledDefinition) : List Function :=
  d.auxiliaries.flatMap (·.definitions) ++ d.main.definitions

namespace Signature

lemma commit_eq (sig : Signature) (f : CompiledFunction) :
    sig.commit f = f.definitions.foldl addFunction sig := by
  simp only [commit, CompiledFunction.definitions, foldl_cons, foldl_append, foldl_map, foldl_nil]

lemma commitDefinition_eq (sig : Signature) (d : CompiledDefinition) :
    sig.commitDefinition d = d.definitions.foldl addFunction sig := by
  have hauxiliaries : ∀ (fs : List CompiledFunction) (sig : Signature),
      fs.foldl commit sig = (fs.flatMap (·.definitions)).foldl addFunction sig := by
    intro fs
    induction fs with
    | nil => exact fun _ => rfl
    | cons f fs ih =>
      intro sig
      rw [foldl_cons, ih, commit_eq, flatMap_cons, foldl_append]
  rw [commitDefinition, hauxiliaries, commit_eq, CompiledDefinition.definitions, foldl_append]

variable {sig : Signature}

lemma get?_addFunctions_of_notMem (h : name ∉ fs.map (·.name)) :
    (fs.foldl addFunction sig).get? name = sig.get? name := by
  induction fs generalizing sig with
  | nil => rfl
  | cons f fs ih =>
    obtain ⟨hne, hfs⟩ := not_or.1 (fun hmem => h (mem_cons.2 hmem))
    rw [foldl_cons, ih hfs, addFunction, get?_insert, if_neg hne]

lemma get?_addFunctions (h : (fs.map (·.name)).Nodup) (hf : f ∈ fs) :
    (fs.foldl addFunction sig).get? f.name = some (.function f) := by
  induction fs generalizing sig with
  | nil => cases hf
  | cons g gs ih =>
    obtain ⟨hnot, hnodup⟩ := nodup_cons.1 h
    rw [foldl_cons]
    rcases mem_cons.1 hf with rfl | hf
    · rw [get?_addFunctions_of_notMem hnot, addFunction, get?_insert, if_pos rfl]
    · exact ih hnodup hf

end Signature

/-! ### Different names -/

namespace CompiledFunction

variable {f g : CompiledFunction}

lemma Derived.names_eq (h : f.Derived) : f.definitions.map (·.name) =
    f.name :: ((range' 0 f.tree.leaves.length).map
      (fun i => Name.qualify f.name s!"equation_{i + 1}") ++ [Name.qualify f.name "elim"]) := by
  obtain ⟨Γ, n, helimination⟩ := h.elimination
  have hname : f.elimination.name = Name.qualify f.name "elim" := by
    rw [helimination]
    rfl
  have hequations : f.equations.map (·.name) = (range' 0 f.tree.leaves.length).map
      fun i => Name.qualify f.name s!"equation_{i + 1}" := by
    rw [h.equations, Equation.ofTree, map_map, ← zipIdx_map_snd, map_map]
    rfl
  simp only [definitions, map_cons, map_append, map_map, map_nil, hname, ← hequations]
  rfl

lemma Derived.mem_names (h : f.Derived) (hmem : name ∈ f.definitions.map (·.name)) :
    name = f.name ∨ ∃ s, Name.DerivedSuffix s ∧ name = Name.qualify f.name s := by
  rw [h.names_eq, mem_cons, mem_append, mem_map, mem_singleton] at hmem
  rcases hmem with rfl | ⟨i, -, rfl⟩ | rfl
  · exact .inl rfl
  · exact .inr ⟨_, .equation _, rfl⟩
  · exact .inr ⟨_, .elim, rfl⟩

lemma Derived.names_nodup (h : f.Derived) : (f.definitions.map (·.name)).Nodup := by
  rw [h.names_eq, nodup_cons, nodup_append']
  refine ⟨fun hmem => ?_, ?_, nodup_singleton _, fun name hname helim => ?_⟩
  · rcases mem_append.1 hmem with hmem | hmem
    · obtain ⟨i, -, heq⟩ := mem_map.1 hmem
      exact Name.qualify_ne _ _ heq
    · exact Name.qualify_ne _ _ (mem_singleton.1 hmem).symm
  · refine (nodup_range' ..).map fun i j heq => ?_
    have hsuffix := (Name.qualify_inj (Name.DerivedSuffix.equation (i + 1)).plain
      (Name.DerivedSuffix.equation (j + 1)).plain heq).2
    have hnumber := String.append_right_inj "equation_" |>.1 hsuffix
    exact Nat.succ.inj (Name.toString_inj hnumber)
  · obtain ⟨i, -, rfl⟩ := mem_map.1 hname
    have hsuffix := (Name.qualify_inj (Name.DerivedSuffix.equation (i + 1)).plain
      Name.DerivedSuffix.elim.plain (mem_singleton.1 helim)).2
    have hlist := congrArg String.toList hsuffix
    rw [String.toList_append] at hlist
    exact nomatch hlist

/-- Two functions have no names in common, unless one has the name of an equation or
an elimination principle of the other. -/
lemma Derived.disjoint (hf : f.Derived) (hg : g.Derived) (hne : f.name ≠ g.name)
    (hfg : ∀ s, Name.DerivedSuffix s → f.name ≠ Name.qualify g.name s)
    (hgf : ∀ s, Name.DerivedSuffix s → g.name ≠ Name.qualify f.name s) :
    List.Disjoint (f.definitions.map (·.name)) (g.definitions.map (·.name)) := by
  intro name hname hname'
  rcases hf.mem_names hname with rfl | ⟨s, hs, rfl⟩
  · rcases hg.mem_names hname' with heq | ⟨t, ht, heq⟩
    · exact hne heq
    · exact hfg t ht heq
  · rcases hg.mem_names hname' with heq | ⟨t, ht, heq⟩
    · exact hgf s hs heq.symm
    · exact hne (Name.qualify_inj hs.plain ht.plain heq).1

end CompiledFunction

/-! ### Compiled definitions -/

section Compiled

variable {base base' : RuleBase} {sig : Signature} {decl : Declaration} {options : CompileOptions}
  {d : CompiledDefinition} {n m : Nat}

section

variable (h : Eval.Returns (compile base sig decl options) n (.ok d, base') m)

include h

/-- A definition compiles under its own name, and its auxiliaries under generated ones. -/
lemma compile_names :
    ∃ job : Job, job.root = decl.name ∧ Surface.auxiliaryNames decl.clauses = .ok job.auxiliaries ∧
      d.main.name = decl.name ∧ d.main.Derived ∧
      ∀ f ∈ d.auxiliaries, job.Generates f.name ∧ f.Derived := by
  obtain ⟨claimed, w, -, hrun, -⟩ := compile_yields h
  obtain ⟨job, hroot, haux, hname, -, hmain, hnew⟩ := Compile.definition_names rfl hrun
  exact ⟨job, hroot, haux, hname, hmain, hnew⟩

/-- The functions of a definition have different names, since each was claimed. -/
lemma compile_nodup : (d.functions.map (·.name)).Nodup := by
  obtain ⟨session, hsession⟩ := Session.exists_describes ⟨sig, decl, options, n⟩
  have hrun : session.run base = some (.ok d, base') := by
    rw [hsession.run_eq, CompileTask.compile]
    exact congrArg (Option.map (·.1)) h
  have hstart : Interleaves ⟨base, fun _ : Unit => session⟩ [] _ := .start
  obtain ⟨events, s, hinterleaves, -, hended⟩ := Interleaves.alone (i := ()) session hstart rfl hrun
  have hinv := SharedInvariant.of_interleaves (fun _ => hsession.accounts) hinterleaves
  have haccounts := hinv.accounts ()
  rw [hended, Function.update_self] at haccounts
  exact haccounts.2.2.1

/-- The names that a definition is committed with are different, if none of its local
definitions is called like an equation or an elimination principle. -/
lemma compile_definitions_nodup
    (hlocal : ∀ ident ∈ Surface.clausesIdents decl.clauses, ¬ Name.Derived ident.name) :
    (d.definitions.map (·.name)).Nodup := by
  obtain ⟨job, hroot, haux, hmain, hderived, hnew⟩ := compile_names h
  have hjob : ∀ name ∈ job.auxiliaries, ¬ Name.Derived name := by
    intro name hmem
    rw [Surface.auxiliaryNames_eq haux] at hmem
    obtain ⟨ident, hident, rfl⟩ := mem_map.1 hmem
    exact hlocal ident hident
  have hnodup := compile_nodup h
  rw [CompiledDefinition.functions, map_cons, nodup_cons] at hnodup
  obtain ⟨hroot', hnodup⟩ := hnodup
  -- The names of auxiliaries are longer than that of the definition.
  have hbelow : ∀ f ∈ d.auxiliaries, ∀ s, d.main.name ≠ Name.qualify f.name s := by
    intro f hf s heq
    obtain ⟨t, ht⟩ := (hnew f hf).1.below
    have hlength := congrArg String.length heq
    rw [hmain, ht, hroot] at hlength
    simp only [Name.qualify, String.length_append] at hlength
    have hdot : ".".length = 1 := rfl
    omega
  have hdisjoint : ∀ f ∈ d.auxiliaries,
      List.Disjoint (f.definitions.map (·.name)) (d.main.definitions.map (·.name)) := by
    intro f hf
    obtain ⟨hname, hf'⟩ := hnew f hf
    refine hf'.disjoint hderived ?_ (fun s hs => hname.not_derived hjob hs) fun s _ => hbelow f hf s
    exact fun heq => hroot' (heq ▸ mem_map_of_mem hf)
  rw [CompiledDefinition.definitions, map_append, nodup_append']
  refine ⟨?_, hderived.names_nodup, ?_⟩
  · rw [map_flatMap, nodup_flatMap]
    refine ⟨fun f hf => (hnew f hf).2.names_nodup, ?_⟩
    refine Pairwise.imp_of_mem ?_ (pairwise_map.1 hnodup)
    intro f g hf hg hne
    obtain ⟨hname, hf'⟩ := hnew f hf
    obtain ⟨hname', hg'⟩ := hnew g hg
    exact hf'.disjoint hg' hne (fun s hs => hname.not_derived hjob hs)
      fun s hs => hname'.not_derived hjob hs
  · intro name hmem
    rw [map_flatMap] at hmem
    obtain ⟨f, hf, hname⟩ := mem_flatMap.1 hmem
    exact hdisjoint f hf hname

/-- All names that a definition is committed with are its own or below it. -/
lemma compile_definitions_below (hmem : name ∈ d.definitions.map (·.name)) :
    name = decl.name ∨ ∃ s, name = Name.qualify decl.name s := by
  obtain ⟨job, hroot, -, hmain, hderived, hnew⟩ := compile_names h
  rw [CompiledDefinition.definitions, map_append, map_flatMap] at hmem
  rcases mem_append.1 hmem with hmem | hmem
  · obtain ⟨f, hf, hname⟩ := mem_flatMap.1 hmem
    obtain ⟨hgenerates, hf'⟩ := hnew f hf
    obtain ⟨s, hs⟩ := hgenerates.below
    rcases hf'.mem_names hname with rfl | ⟨t, -, rfl⟩
    · exact .inr ⟨s, hroot ▸ hs⟩
    · refine .inr ⟨s ++ "." ++ t, ?_⟩
      rw [hs, hroot]
      simp only [Name.qualify, String.append_assoc]
  · rcases hderived.mem_names hmem with rfl | ⟨t, -, rfl⟩
    · exact .inl hmain
    · exact .inr ⟨t, by rw [hmain]⟩

end

/-- A compiled definition is committed to a signature.  If no local definition is
called like an equation or an elimination principle, and the signature has no
global below the name of the definition, then the names of the definition, of
its auxiliaries and of the equations and elimination principles of all these are
different; none but the definition's own is in the signature; the commitment
leaves every other global as it was; and everything that belongs to the
definition is there afterwards. -/
theorem Signature.commit_adds
    (h : Eval.Returns (compile base sig decl options) n (.ok d, base') m)
    (hlocal : ∀ ident ∈ Surface.clausesIdents decl.clauses, ¬ Name.Derived ident.name)
    {target : Signature} (htarget : ∀ s, target.get? (Name.qualify decl.name s) = none) :
    (d.definitions.map (·.name)).Nodup ∧
      (∀ f ∈ d.definitions, f.name = decl.name ∨ target.get? f.name = none) ∧
      (∀ name entry, name ≠ decl.name → target.get? name = some entry →
        (target.commitDefinition d).get? name = some entry) ∧
      ∀ f ∈ d.definitions, (target.commitDefinition d).get? f.name = some (.function f) := by
  have hnodup := compile_definitions_nodup h hlocal
  refine ⟨hnodup, fun f hf => ?_, fun name entry hne hget => ?_, fun f hf => ?_⟩
  · rcases compile_definitions_below h (mem_map_of_mem hf) with heq | ⟨s, heq⟩
    · exact .inl heq
    · exact .inr (heq ▸ htarget s)
  · rw [commitDefinition_eq, get?_addFunctions_of_notMem, hget]
    intro hmem
    rcases compile_definitions_below h hmem with heq | ⟨s, rfl⟩
    · exact hne heq
    · rw [htarget s] at hget
      cases hget
  · rw [commitDefinition_eq]
    exact get?_addFunctions hnodup hf

end Compiled

/-! ### Instances -/

namespace Commit

lemma target_below (s : String) : target.get? (Name.qualify "f" s) = none := by
  have hlist := Name.toList_qualify "f" s
  have hrefl : ("refl" == Name.qualify "f" s) = false := by
    refine beq_eq_false_iff_ne.2 fun h => ?_
    rw [← h] at hlist
    exact nomatch hlist
  have heq : ("Eq" == Name.qualify "f" s) = false := by
    refine beq_eq_false_iff_ne.2 fun h => ?_
    rw [← h] at hlist
    exact nomatch hlist
  have hf : ("f" == Name.qualify "f" s) = false :=
    beq_eq_false_iff_ne.2 fun h => Name.qualify_ne "f" s h.symm
  have hentries : target.entries.map (·.1) = ["refl", "Eq", "f"] := by decide +kernel
  have hnone : target.entries.find? (fun e => e.1 == Name.qualify "f" s) = none := by
    refine find?_eq_none.2 fun e he => ?_
    have hmem : e.1 ∈ target.entries.map (·.1) := mem_map_of_mem he
    rw [hentries] at hmem
    simp only [mem_cons, not_mem_nil, or_false] at hmem
    rcases hmem with h | h | h
    · simp [h, hrefl]
    · simp [h, heq]
    · simp [h, hf]
  rw [Signature.get?, hnone]
  rfl

/-- A definition with a local definition `g` only adds to the signature. -/
theorem commit_adds_local : ∃ d base m,
    Eval.Returns (compile {} target (answeredBy "g") {}) 10 (.ok d, base) m ∧
      (∀ s, target.get? (Name.qualify (answeredBy "g").name s) = none) ∧
      (d.definitions.map (·.name)).Nodup ∧
      (∀ f ∈ d.definitions, f.name = "f" ∨ target.get? f.name = none) := by
  have hsome : (compiled? (compile {} target (answeredBy "g") {} 10)).isSome = true := by
    decide +kernel
  obtain ⟨d, hd⟩ := Option.isSome_iff_exists.1 hsome
  obtain ⟨base, m, h⟩ := returns_of_compiled? hd
  have hlocal : ∀ ident ∈ Surface.clausesIdents (answeredBy "g").clauses,
      ¬ Name.Derived ident.name := by
    intro ident hmem
    have hidents : Surface.clausesIdents (answeredBy "g").clauses = [⟨default, "g"⟩] := rfl
    rw [hidents, mem_singleton] at hmem
    subst hmem
    rintro ⟨s, hs, hname | ⟨before, hname⟩⟩
    · have hhead := hs.head
      rw [← hname] at hhead
      exact nomatch hhead
    · have hdot : '.' ∈ "g".toList := by
        have hlist := Name.toList_qualify before s
        rw [← hname] at hlist
        rw [hlist]
        simp
      exact absurd hdot (by decide)
  obtain ⟨hnodup, hnew, -, -⟩ := Signature.commit_adds h hlocal target_below
  exact ⟨d, base, m, h, target_below, hnodup, hnew⟩

/-- A local definition `elim` has the name of the elimination principle. -/
theorem commit_clash : ∃ d base m,
    Eval.Returns (compile {} target (answeredBy "elim") {}) 10 (.ok d, base) m ∧
      ¬ (d.definitions.map (·.name)).Nodup := by
  have hsome : (compiled? (compile {} target (answeredBy "elim") {} 10)).isSome = true := by
    decide +kernel
  obtain ⟨d, hd⟩ := Option.isSome_iff_exists.1 hsome
  obtain ⟨base, m, h⟩ := returns_of_compiled? hd
  refine ⟨d, base, m, h, ?_⟩
  have hclash : ((compiled? (compile {} target (answeredBy "elim") {} 10)).map
      fun d => decide (d.definitions.map (·.name)).Nodup) = some false := by decide +kernel
  rw [hd] at hclash
  simpa using hclash

end Commit
end Clausal
