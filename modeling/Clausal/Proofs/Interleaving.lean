import Clausal.Proofs.Naming
import Clausal.Proofs.Script

/-!
# Compilations that share a rule base

Each compilation is a session: it claims names, one after another; when it has
compiled everything it registers rules and elimination principles; and it releases
what it claimed.  Between any two of these steps the other sessions may take theirs,
and rules may be added from outside.
-/

namespace Clausal

open Compile List

variable {held : List Name} {result : Except CompileError CompiledDefinition}

/-- A definition to compile, with all that its compilation depends on apart from
the rule base. -/
structure CompileTask where
  sig : Signature
  decl : Declaration
  options : CompileOptions
  /-- The first variable that it takes.  Tasks take their variables from different stretches of
  the supply, so that no two of them share one. -/
  supply : Nat

/-- The compilation on its own, up to the supply that it leaves. -/
def CompileTask.compile (task : CompileTask) (base : RuleBase) :
    Option (Except CompileError CompiledDefinition × RuleBase) :=
  (Clausal.compile base task.sig task.decl task.options task.supply).map (·.1)

/-- What a compilation does to the rule base from some moment on. -/
inductive Session where
  /-- Nothing, and the compilation does not end. -/
  | stuck
  | ended (result : Except CompileError CompiledDefinition)
  | claim (name : Name) (granted refused : Session)
  | append (name : Name) (rules : List Rule) (rest : Session)
  | setEliminator (name : Name) (e : Eliminator) (rest : Session)
  | release (name : Name) (rest : Session)

/-- One access of a session to the rule base. -/
inductive Access where
  | claimed (name : Name)
  | refused (name : Name)
  | appended (name : Name) (rules : List Rule)
  | eliminated (name : Name) (e : Eliminator)
  | released (name : Name)

namespace Session

/-- The next access of a session, and what it leaves. -/
def step : Session → RuleBase → Option (Access × Session × RuleBase)
  | stuck, _ => none
  | ended _, _ => none
  | claim name granted refused, base =>
    match base.claim name with
    | .ok claimed => some (.claimed name, granted, claimed)
    | .error _ => some (.refused name, refused, base)
  | append name rules rest, base => some (.appended name rules, rest, base.append name rules)
  | setEliminator name e rest, base => some (.eliminated name e, rest, base.setEliminator name e)
  | release name rest, base => some (.released name, rest, base.release name)

/-- Take all steps, with nothing in between. -/
def run : Session → RuleBase → Option (Except CompileError CompiledDefinition × RuleBase)
  | stuck, _ => none
  | ended result, base => some (result, base)
  | claim name granted refused, base =>
    match base.claim name with
    | .ok claimed => granted.run claimed
    | .error _ => refused.run base
  | append name rules rest, base => rest.run (base.append name rules)
  | setEliminator name e rest, base => rest.run (base.setEliminator name e)
  | release name rest, base => rest.run (base.release name)

/-! ### Sessions of compilations -/

def releasing (names : List Name) (rest : Session) : Session := names.foldr release rest

def registering (fs : List CompiledFunction) (rest : Session) : Session :=
  fs.foldr (fun f rest => append f.name (f.equations.map (·.rule))
    (setEliminator f.name (f.elimination.eliminator f.name) rest)) rest

/-- What remains to do for a compilation that has its result.  Names are
released in the order in which they were claimed. -/
def closing (result : Except CompileError CompiledDefinition) (held : List Name) : Session :=
  match result with
  | .ok d => registering (d.functions.filter fun f => held.contains f.name)
      (releasing held.reverse (ended (.ok d)))
  | .error e => releasing held.reverse (ended (.error e))

def ofScript : Script CompiledDefinition → Session
  | .stuck => stuck
  | .ends result w _ => closing result w.held
  | .claim span name w _ rest =>
    claim name (ofScript rest) (closing (.error (.alreadyCompiling span name)) w.held)

/-- The session of a compilation: it claims the name of the definition, and goes on
as the script of the definition says. -/
def Describes (s : Session) (task : CompileTask) : Prop :=
  ∃ script : Script CompiledDefinition,
    Follows (definition task.decl task.options)
      { sig := task.sig, base := {}, held := [task.decl.name] } task.supply script ∧
    script.Holding [task.decl.name] ∧
    s = claim task.decl.name (ofScript script)
      (ended (.error (.alreadyCompiling task.decl.span task.decl.name)))

lemma exists_describes (task : CompileTask) : ∃ s : Session, s.Describes task := by
  obtain ⟨script, hfollows, hheld⟩ := definition_scripted task.decl task.options
    { sig := task.sig, base := {}, held := [task.decl.name] } task.supply
  exact ⟨_, script, hfollows, hheld, rfl⟩

lemma run_releasing (names : List Name) (rest : Session) (base : RuleBase) :
    (releasing names rest).run base = rest.run (base.releaseAll names) := by
  induction names generalizing base with
  | nil => rfl
  | cons name names ih => exact ih (base.release name)

lemma run_registering (fs : List CompiledFunction) (rest : Session) (base : RuleBase) :
    (registering fs rest).run base = rest.run (fs.foldl RuleBase.register base) := by
  induction fs generalizing base with
  | nil => rfl
  | cons f fs ih => exact ih (base.register f)

end Session

namespace RuleBase

lemma releaseAll_eq (base : RuleBase) (names : List Name) :
    base.releaseAll names =
      { base with claims := base.claims.filter fun c => !names.contains c } := by
  induction names generalizing base with
  | nil => simp [releaseAll]
  | cons name names ih =>
    change (base.release name).releaseAll names = _
    rw [ih]
    simp only [release, filter_filter]
    congr 2
    funext c
    by_cases hc : c = name <;> simp [hc]

lemma releaseAll_reverse (base : RuleBase) (names : List Name) :
    base.releaseAll names.reverse = base.releaseAll names := by
  simp only [releaseAll_eq, contains_reverse]

end RuleBase

namespace Session

lemma run_closing (result : Except CompileError CompiledDefinition) (held : List Name)
    (base : RuleBase) : (closing result held).run base = some (result,
      (match result with
        | .ok d => base.registerHeld held d
        | .error _ => base).releaseAll held) := by
  cases result with
  | ok d =>
    rw [closing, run_registering, run_releasing, RuleBase.releaseAll_reverse]
    rfl
  | error e =>
    rw [closing, run_releasing, RuleBase.releaseAll_reverse]
    rfl

lemma run_ofScript (s : Script CompiledDefinition) (base : RuleBase) :
    (ofScript s).run base = (s.play base).map fun r => (r.1.1,
      (match r.1.1 with
        | .ok d => r.1.2.base.registerHeld r.1.2.held d
        | .error _ => r.1.2.base).releaseAll r.1.2.held) := by
  induction s generalizing base with
  | stuck => rfl
  | ends result w n => exact run_closing result w.held base
  | claim span name w n rest ih =>
    simp only [ofScript, run, Script.play]
    cases base.claim name with
    | ok claimed => exact ih claimed
    | error e => exact run_closing _ w.held base

/-- A session run on its own is the compilation. -/
lemma Describes.run_eq {s : Session} (h : s.Describes task) (base : RuleBase) :
    s.run base = task.compile base := by
  obtain ⟨script, hfollows, -, rfl⟩ := h
  rw [run, CompileTask.compile, compile]
  split
  · next claimed hclaimed =>
      rw [hclaimed, run_ofScript, ← hfollows claimed]
      change _ = Option.map _ (((definition task.decl task.options).run.run
        { sig := task.sig, base := claimed, held := [task.decl.name] } task.supply).bind _)
      change Option.map _ ((definition task.decl task.options).run.run
        { sig := task.sig, base := claimed, held := [task.decl.name] } task.supply) = _
      cases (definition task.decl task.options).run.run
        { sig := task.sig, base := claimed, held := [task.decl.name] } task.supply <;> rfl
  · next e he =>
      rw [he]
      rfl

end Session

/-! ### Interleavings -/

/-- A rule base and the sessions that share it. -/
structure SharedBase (ι : Type) where
  base : RuleBase
  sessions : ι → Session

/-- What happens to a shared rule base: a session takes a step, or a rule is
added from outside. -/
inductive SharedEvent (ι : Type) where
  | access (i : ι) (a : Access)
  | extended (name : Name) (rule : Rule)

variable {ι : Type} [DecidableEq ι]

/-- Steps of the sessions in any order, with extensions in between. -/
inductive Interleaves (start : SharedBase ι) : List (SharedEvent ι) → SharedBase ι → Prop
  | start : Interleaves start [] start
  | step {events : List (SharedEvent ι)} {s : SharedBase ι} {i : ι} {a : Access} {next : Session}
      {base : RuleBase} : Interleaves start events s →
      (s.sessions i).step s.base = some (a, next, base) →
      Interleaves start (events ++ [.access i a]) ⟨base, Function.update s.sessions i next⟩
  | extend {events : List (SharedEvent ι)} {s : SharedBase ι} (name : Name) (rule : Rule) :
      Interleaves start events s →
      Interleaves start (events ++ [.extended name rule]) ⟨s.base.append name [rule], s.sessions⟩

/-- What a session has done so far. -/
structure Ledger where
  /-- The names that it holds. -/
  held : List Name := []
  claimed : List Name := []
  released : List Name := []
  appended : List (Name × List Rule) := []
  eliminated : List (Name × Eliminator) := []

def Ledger.record (ledger : Ledger) : Access → Ledger
  | .claimed name =>
    { ledger with held := name :: ledger.held, claimed := ledger.claimed ++ [name] }
  | .refused _ => ledger
  | .appended name rules => { ledger with appended := ledger.appended ++ [(name, rules)] }
  | .eliminated name e => { ledger with eliminated := ledger.eliminated ++ [(name, e)] }
  | .released name =>
    { ledger with
      held := ledger.held.filter (· != name), released := ledger.released ++ [name] }

/-- What a session has done in a sequence of events. -/
def ledger (i : ι) (events : List (SharedEvent ι)) : Ledger :=
  events.foldl (fun ledger event =>
    match event with
    | .access j a => if j = i then ledger.record a else ledger
    | .extended _ _ => ledger) {}

/-- The rules that an event adds for a function. -/
def SharedEvent.rulesOf (name : Name) : SharedEvent ι → List Rule
  | .access _ (.appended other rules) => if other = name then rules else []
  | .extended other rule => if other = name then [rule] else []
  | .access _ _ => []

/-- The elimination principle that an event sets for a function. -/
def SharedEvent.eliminator? (name : Name) : SharedEvent ι → Option Eliminator
  | .access _ (.eliminated other e) => if other = name then some e else none
  | _ => none

@[simp] lemma ledger_nil (i : ι) : ledger i [] = {} := rfl

@[simp] lemma ledger_extended (i : ι) (events : List (SharedEvent ι)) (name : Name) (rule : Rule) :
    ledger i (events ++ [.extended name rule]) = ledger i events := by
  simp [ledger]

lemma ledger_access (i j : ι) (events : List (SharedEvent ι)) (a : Access) :
    ledger i (events ++ [.access j a]) =
      if j = i then (ledger i events).record a else ledger i events := by
  simp [ledger]

/-! ### What sessions account for -/

namespace Session

/-- Whatever a session that has done what the ledger says does from here on: it
releases only what it holds; when it ends it holds nothing and has released
what it claimed, in that order; if it fails it has registered nothing; and if it
succeeds, what belongs to its functions, which have different names. -/
def Accounts : Session → Ledger → Prop
  | stuck, _ => True
  | ended (.error _), l =>
    l.held = [] ∧ l.released = l.claimed ∧ l.appended = [] ∧ l.eliminated = []
  | ended (.ok d), l =>
    l.held = [] ∧ l.released = l.claimed ∧ (d.functions.map (·.name)).Nodup ∧
      l.claimed.Perm (d.functions.map (·.name)) ∧
      l.appended = d.functions.map (fun f => (f.name, f.equations.map (·.rule))) ∧
      l.eliminated = d.functions.map fun f => (f.name, f.elimination.eliminator f.name)
  | claim name granted refused, l =>
    (name ∉ l.held → granted.Accounts (l.record (.claimed name))) ∧
      refused.Accounts (l.record (.refused name))
  | append name rules rest, l => rest.Accounts (l.record (.appended name rules))
  | setEliminator name e rest, l => rest.Accounts (l.record (.eliminated name e))
  | release name rest, l => name ∈ l.held ∧ rest.Accounts (l.record (.released name))

lemma accounts_releasing (names : List Name)
    (hheld : l.held.Perm names) (hnodup : names.Nodup)
    (hrest : rest.Accounts { l with held := [], released := l.released ++ names }) :
    (releasing names rest).Accounts l := by
  induction names generalizing l with
  | nil =>
    rw [append_nil, ← hheld.eq_nil] at hrest
    exact hrest
  | cons name names ih =>
    obtain ⟨hnot, hnodup⟩ := nodup_cons.1 hnodup
    refine ⟨hheld.mem_iff.2 mem_cons_self, ih ?_ hnodup ?_⟩
    · have hfilter := hheld.filter (· != name)
      have hkeep : names.filter (· != name) = names :=
        filter_eq_self.2 fun other hmem => by
          have hne : other ≠ name := fun h => hnot (h ▸ hmem)
          simpa using hne
      rwa [filter_cons_of_neg (by simp), hkeep] at hfilter
    · rw [append_cons] at hrest
      exact hrest

lemma accounts_registering (fs : List CompiledFunction)
    (hrest : rest.Accounts { l with
      appended := l.appended ++ fs.map fun f => (f.name, f.equations.map (·.rule))
      eliminated := l.eliminated ++
        fs.map fun f => (f.name, f.elimination.eliminator f.name) }) :
    (registering fs rest).Accounts l := by
  induction fs generalizing l with
  | nil =>
    simp only [map_nil, append_nil] at hrest
    exact hrest
  | cons f fs ih =>
    refine ih (l := (l.record (.appended f.name (f.equations.map (·.rule)))).record
      (.eliminated f.name (f.elimination.eliminator f.name))) ?_
    rw [map_cons, map_cons, append_cons l.appended, append_cons l.eliminated] at hrest
    exact hrest

end Session

/-- The ledger of a session that has claimed names and done nothing else. -/
def Ledger.ofHeld (held : List Name) : Ledger := { held, claimed := held.reverse }

namespace Session

/-- Closing gives back or registers exactly what is still held. -/
lemma accounts_closing (hnodup : held.Nodup)
    (hok : ∀ d, result = .ok d → (d.functions.map (·.name)).Perm held) :
    (closing result held).Accounts (.ofHeld held) := by
  have hreverse := nodup_reverse.2 hnodup
  cases result with
  | error e =>
    exact accounts_releasing held.reverse (reverse_perm held).symm hreverse ⟨rfl, rfl, rfl, rfl⟩
  | ok d =>
    have hperm := hok d rfl
    -- Every function was compiled under a name that is held, so all are registered.
    have hall : (d.functions.filter fun f => held.contains f.name) = d.functions := by
      refine filter_eq_self.2 fun f hf => ?_
      simpa using hperm.mem_iff.1 (mem_map_of_mem hf)
    rw [closing, hall]
    refine accounts_registering d.functions (accounts_releasing held.reverse
      (reverse_perm held).symm hreverse ?_)
    exact ⟨rfl, rfl, hperm.nodup_iff.2 hnodup, (reverse_perm held).trans hperm.symm, rfl, rfl⟩

/-- A script leads to sessions that account for what they did, if it succeeds only
with functions of the names that it holds. -/
lemma accounts_ofScript {s : Script CompiledDefinition} (hheld : s.Holding held)
    (hnodup : held.Nodup)
    (hok : ∀ base d w n, base.claims = held → s.play base = some ((.ok d, w), n) →
      (d.functions.map (·.name)).Perm w.held) :
    (ofScript s).Accounts (.ofHeld held) := by
  induction s generalizing held with
  | stuck => trivial
  | ends result w n =>
    obtain rfl := hheld
    refine accounts_closing hnodup fun d hd => ?_
    exact hok { claims := w.held } d (w.rebase { claims := w.held }) n rfl (by
      rw [Script.play, hd])
  | claim span name w n rest ih =>
    obtain ⟨rfl, hrest⟩ := hheld
    refine ⟨fun (hname : name ∉ w.held) => ?_, accounts_closing hnodup fun d hd => by cases hd⟩
    have haccounts := ih hrest (nodup_cons.2 ⟨hname, hnodup⟩) fun base d w' m hclaims hplay =>
      hok { base with claims := w.held } d w' m rfl (by
        have hclaim : ({ base with claims := w.held } : RuleBase).claim name = .ok base := by
          have hfree : ¬ w.held.contains name = true := by simpa using hname
          rw [RuleBase.claim, if_neg hfree, ← hclaims]
        rw [Script.play, hclaim]
        exact hplay)
    simpa [Ledger.ofHeld, Ledger.record] using haccounts

/-- The session of a compilation accounts for all that it does. -/
lemma Describes.accounts {s : Session} (h : s.Describes task) : s.Accounts {} := by
  obtain ⟨script, hfollows, hheld, rfl⟩ := h
  refine ⟨fun _ => ?_, rfl, rfl, rfl, rfl⟩
  refine accounts_ofScript hheld (nodup_singleton _) fun base d w n _ hplay => ?_
  rw [← hfollows base] at hplay
  obtain ⟨job, -, -, hname, hperm, -, -⟩ := definition_names rfl hplay
  refine Perm.trans ?_ hperm.symm
  rw [CompiledDefinition.functions, map_cons, hname]
  exact (perm_append_singleton _ _).symm

end Session

/-! ### What holds at every moment -/

namespace RuleBase

lemma rulesOf_append (base : RuleBase) (name other : Name) (rules : List Rule) :
    (base.append name rules).rulesOf other =
      base.rulesOf other ++ if name = other then rules else [] := by
  unfold append
  split
  · next hany =>
      -- The entry of the name is there, and it is the one that grows.
      have hkeys : ((fun e : Name × List Rule => e.1 == other) ∘
          fun e => if e.1 == name then (name, e.2 ++ rules) else e) = fun e => e.1 == other := by
        funext e
        by_cases he : e.1 = name <;> simp [he]
      rw [rulesOf, find?_map, hkeys, rulesOf]
      cases hfind : base.rules.find? fun e => e.1 == other with
      | none =>
        have hne : name ≠ other := by
          rintro rfl
          obtain ⟨e, hmem, hname⟩ := any_eq_true.1 hany
          exact find?_eq_none.1 hfind e hmem hname
        simp [hne]
      | some e =>
        have hkey : e.1 = other := by simpa using find?_some hfind
        by_cases hname : name = other
        · simp [hkey, hname]
        · have hne : ¬ other = name := fun h => hname h.symm
          simp [hkey, hname, hne]
  · next hnone =>
      rw [rulesOf, find?_append, rulesOf]
      cases hfind : base.rules.find? fun e => e.1 == other with
      | none => by_cases hname : name = other <;> simp [hname]
      | some e =>
        have hne : name ≠ other := by
          rintro rfl
          have hkey : e.1 = name := by simpa using find?_some hfind
          exact hnone (any_eq_true.2 ⟨e, mem_of_find?_eq_some hfind, by simpa using hkey⟩)
        simp [hne]

@[simp] lemma append_claims (base : RuleBase) (name : Name) (rules : List Rule) :
    (base.append name rules).claims = base.claims := by
  unfold append
  split <;> rfl

@[simp] lemma eliminator?_append (base : RuleBase) (name other : Name) (rules : List Rule) :
    (base.append name rules).eliminator? other = base.eliminator? other := by
  unfold append
  split <;> rfl

lemma eliminator?_setEliminator (base : RuleBase) (name other : Name) (e : Eliminator) :
    (base.setEliminator name e).eliminator? other =
      if name = other then some e else base.eliminator? other := by
  have hfind : (base.eliminators.filter fun entry => entry.1 != name).find?
      (fun entry => entry.1 == other) =
        if name = other then none else base.eliminators.find? fun entry => entry.1 == other := by
    rw [find?_filter]
    split
    · next h => simp [h]
    · next h =>
        congr 1
        funext entry
        by_cases hentry : entry.1 = other
        · simp [hentry, Ne.symm h]
        · simp [hentry]
  simp only [setEliminator, eliminator?, find?_append, hfind]
  by_cases h : name = other <;> simp [h]

end RuleBase

/-- How claims are shared at some moment: what is claimed was claimed at the
start or is held by one of the sessions, and by no other. -/
structure SharedClaims (start base : RuleBase) (ledgers : ι → Ledger) : Prop where
  claims : ∀ name, name ∈ base.claims ↔ name ∈ start.claims ∨ ∃ i, name ∈ (ledgers i).held
  fresh : ∀ i, ∀ name ∈ (ledgers i).held, name ∉ start.claims
  exclusive : ∀ i j name, name ∈ (ledgers i).held → name ∈ (ledgers j).held → i = j

namespace SharedClaims

variable {start base : RuleBase} {events : List (SharedEvent ι)}

lemma congr {base' : RuleBase} (h : SharedClaims start base (ledger · events))
    (hclaims : base'.claims = base.claims)
    (hheld : ∀ j, (ledger j events').held = (ledger j events).held) :
    SharedClaims start base' (ledger · events') := by
  refine ⟨fun name => ?_, fun j => ?_, fun j k name => ?_⟩
  · simp only [hclaims, hheld]
    exact h.claims name
  · rw [hheld]
    exact h.fresh j
  · rw [hheld, hheld]
    exact h.exclusive j k name

variable {name : Name}

variable (h : SharedClaims start base (ledger · events))

include h

lemma claimed (i : ι)
    (hname : name ∉ base.claims) :
    SharedClaims start { base with claims := name :: base.claims }
      (ledger · (events ++ [.access i (.claimed name)])) := by
  have hstart : name ∉ start.claims := fun hmem => hname ((h.claims name).2 (.inl hmem))
  have hfree : ∀ j, name ∉ (ledger j events).held := fun j hmem =>
    hname ((h.claims name).2 (.inr ⟨j, hmem⟩))
  have hheld : ∀ j other, other ∈ (ledger j (events ++ [.access i (.claimed name)])).held ↔
      (j = i ∧ other = name) ∨ other ∈ (ledger j events).held := by
    intro j other
    rw [ledger_access]
    by_cases hj : i = j
    · simp [hj, Ledger.record]
    · have hj' : ¬ j = i := fun h => hj h.symm
      simp [hj, hj']
  refine ⟨fun other => ?_, fun j other hmem => ?_, fun j k other hj hk => ?_⟩
  · simp only [mem_cons, hheld, h.claims other]
    constructor
    · rintro (rfl | hstart | ⟨j, hmem⟩)
      · exact .inr ⟨i, .inl ⟨rfl, rfl⟩⟩
      · exact .inl hstart
      · exact .inr ⟨j, .inr hmem⟩
    · rintro (hstart | ⟨j, ⟨-, rfl⟩ | hmem⟩)
      · exact .inr (.inl hstart)
      · exact .inl rfl
      · exact .inr (.inr ⟨j, hmem⟩)
  · rcases (hheld j other).1 hmem with ⟨-, rfl⟩ | hmem
    · exact hstart
    · exact h.fresh j other hmem
  · rcases (hheld j other).1 hj with ⟨hji, hname⟩ | hbefore
    · rcases (hheld k other).1 hk with ⟨hki, -⟩ | hbefore
      · exact hji.trans hki.symm
      · exact (hfree k (hname ▸ hbefore)).elim
    · rcases (hheld k other).1 hk with ⟨-, hname⟩ | hbefore'
      · exact (hfree j (hname ▸ hbefore)).elim
      · exact h.exclusive j k other hbefore hbefore'

lemma released
    (hname : name ∈ (ledger i events).held) :
    SharedClaims start (base.release name) (ledger · (events ++ [.access i (.released name)])) := by
  have hheld : ∀ j other, other ∈ (ledger j (events ++ [.access i (.released name)])).held ↔
      other ∈ (ledger j events).held ∧ other ≠ name := by
    intro j other
    rw [ledger_access]
    by_cases hj : i = j
    · simp [hj, Ledger.record]
    · simp only [hj, if_false]
      exact ⟨fun hmem => ⟨hmem, fun heq => hj (h.exclusive i j name hname (heq ▸ hmem))⟩,
        fun hmem => hmem.1⟩
  refine ⟨fun other => ?_, fun j other hmem => ?_, fun j k other hj hk => ?_⟩
  · have hrelease : other ∈ (base.release name).claims ↔ other ∈ base.claims ∧ other ≠ name := by
      simp [RuleBase.release]
    rw [hrelease, h.claims other]
    simp only [hheld]
    constructor
    · rintro ⟨hstart | ⟨j, hmem⟩, hne⟩
      · exact .inl hstart
      · exact .inr ⟨j, hmem, hne⟩
    · rintro (hstart | ⟨j, hmem, hne⟩)
      · exact ⟨.inl hstart, fun heq => h.fresh i name hname (heq ▸ hstart)⟩
      · exact ⟨.inr ⟨j, hmem⟩, hne⟩
  · exact h.fresh j other ((hheld j other).1 hmem).1
  · exact h.exclusive j k other ((hheld j other).1 hj).1 ((hheld k other).1 hk).1

end SharedClaims

/-- What holds of a shared rule base after a sequence of events. -/
structure SharedInvariant (start : RuleBase) (events : List (SharedEvent ι)) (s : SharedBase ι) :
    Prop where
  shared : SharedClaims start s.base (ledger · events)
  accounts : ∀ i, (s.sessions i).Accounts (ledger i events)
  rules : ∀ name, s.base.rulesOf name =
    start.rulesOf name ++ events.flatMap (SharedEvent.rulesOf name)
  eliminators : ∀ name, s.base.eliminator? name =
    (events.reverse.findSome? (SharedEvent.eliminator? name)).or (start.eliminator? name)

namespace SharedInvariant

variable {start : RuleBase} {events : List (SharedEvent ι)} {s : SharedBase ι}

/-- One step of a session keeps the invariant. -/
lemma step {next : Session} (h : SharedInvariant start events s)
    (hstep : (s.sessions i).step s.base = some (a, next, base)) :
    SharedInvariant start (events ++ [.access i a]) ⟨base, Function.update s.sessions i next⟩ := by
  have haccounts := h.accounts i
  -- It is enough to say what the step does to the rule base and what the session has left to do.
  have hparts : SharedClaims start base (ledger · (events ++ [.access i a])) ∧
      next.Accounts ((ledger i events).record a) ∧
      (∀ name, base.rulesOf name = s.base.rulesOf name ++ (SharedEvent.access i a).rulesOf name) ∧
      ∀ name, base.eliminator? name =
        ((SharedEvent.access i a).eliminator? name).or (s.base.eliminator? name) := by
    cases hsession : s.sessions i with
    | stuck | ended result => rw [hsession] at hstep; cases hstep
    | claim name granted refused =>
      rw [hsession, Session.step] at hstep
      rw [hsession] at haccounts
      cases hclaim : s.base.claim name with
      | ok claimed =>
        rw [hclaim] at hstep
        cases hstep
        obtain ⟨hname, rfl⟩ := RuleBase.claim_eq_ok hclaim
        have hfree : name ∉ (ledger i events).held := fun hmem =>
          hname ((h.shared.claims name).2 (.inr ⟨i, hmem⟩))
        exact ⟨h.shared.claimed i hname, haccounts.1 hfree, fun _ => (append_nil _).symm,
          fun _ => rfl⟩
      | error e =>
        rw [hclaim] at hstep
        cases hstep
        refine ⟨h.shared.congr rfl fun j => ?_, haccounts.2, fun _ => (append_nil _).symm,
          fun _ => rfl⟩
        rw [ledger_access]
        split <;> rfl
    | append name rules rest =>
      rw [hsession] at hstep haccounts
      cases hstep
      refine ⟨h.shared.congr (RuleBase.append_claims _ _ _) fun j => ?_, haccounts,
        fun other => RuleBase.rulesOf_append _ _ _ _, fun other => ?_⟩
      rotate_left
      · exact RuleBase.eliminator?_append _ _ _ _
      rw [ledger_access]
      split <;> rfl
    | setEliminator name e rest =>
      rw [hsession] at hstep haccounts
      cases hstep
      refine ⟨h.shared.congr rfl fun j => ?_, haccounts, fun _ => (append_nil _).symm,
        fun other => ?_⟩
      · rw [ledger_access]
        split <;> rfl
      · rw [RuleBase.eliminator?_setEliminator]
        simp only [SharedEvent.eliminator?]
        split <;> rfl
    | release name rest =>
      rw [hsession] at hstep haccounts
      cases hstep
      exact ⟨h.shared.released haccounts.1, haccounts.2, fun _ => (append_nil _).symm, fun _ => rfl⟩
  obtain ⟨hshared, hnext, hrules, heliminators⟩ := hparts
  refine ⟨hshared, fun j => ?_, fun name => ?_, fun name => ?_⟩
  · rw [ledger_access]
    by_cases hj : i = j
    · subst hj
      simpa using hnext
    · have hj' : j ≠ i := fun h => hj h.symm
      simpa [hj, hj'] using h.accounts j
  · change base.rulesOf name = _
    rw [hrules name, h.rules name, flatMap_append, append_assoc]
    simp
  · change base.eliminator? name = _
    rw [heliminators name, h.eliminators name, reverse_append, reverse_singleton, singleton_append,
      findSome?_cons]
    split <;> simp_all

lemma extend (h : SharedInvariant start events s) (name : Name) (rule : Rule) :
    SharedInvariant start (events ++ [.extended name rule])
      ⟨s.base.append name [rule], s.sessions⟩ := by
  refine ⟨h.shared.congr (RuleBase.append_claims _ _ _) fun j => ?_, fun j => ?_, fun other => ?_,
    fun other => ?_⟩
  · rw [ledger_extended]
  · rw [ledger_extended]
    exact h.accounts j
  · change (s.base.append name [rule]).rulesOf other = _
    rw [RuleBase.rulesOf_append, h.rules other, flatMap_append, append_assoc]
    simp [SharedEvent.rulesOf]
  · change (s.base.append name [rule]).eliminator? other = _
    rw [RuleBase.eliminator?_append, h.eliminators other, reverse_append, reverse_singleton,
      singleton_append, findSome?_cons]
    rfl

/-- The invariant holds after any sequence of events. -/
lemma of_interleaves {start : SharedBase ι} (hstart : ∀ i, (start.sessions i).Accounts {})
    (h : Interleaves start events s) : SharedInvariant start.base events s := by
  induction h with
  | start =>
    refine ⟨⟨fun name => ?_, ?_, ?_⟩, hstart, fun name => ?_, fun name => ?_⟩ <;> simp
  | step _ hstep ih => exact ih.step hstep
  | extend name rule _ ih => exact ih.extend name rule

end SharedInvariant

/-- A session may take all its steps while the others wait. -/
lemma Interleaves.alone {start : SharedBase ι} (session : Session) :
    ∀ {events : List (SharedEvent ι)} {s : SharedBase ι}, Interleaves start events s →
      s.sessions i = session → session.run s.base = some (result, final) →
      ∃ events s', Interleaves start events s' ∧ s'.base = final ∧
        s'.sessions = Function.update s.sessions i (.ended result) := by
  -- After a step the session of `i` is the one that is left to run.
  have hstep : ∀ {events : List (SharedEvent ι)} {s : SharedBase ι} {a : Access} {next : Session}
      {base : RuleBase}, Interleaves start events s →
      (s.sessions i).step s.base = some (a, next, base) →
      (∀ {events : List (SharedEvent ι)} {s : SharedBase ι}, Interleaves start events s →
        s.sessions i = next → next.run s.base = some (result, final) →
        ∃ events s', Interleaves start events s' ∧ s'.base = final ∧
          s'.sessions = Function.update s.sessions i (.ended result)) →
      next.run base = some (result, final) →
      ∃ events s', Interleaves start events s' ∧ s'.base = final ∧
        s'.sessions = Function.update s.sessions i (.ended result) := by
    intro events s a next base h hs ih hrun
    obtain ⟨events', s', h', hbase, hsessions⟩ := ih (h.step hs) (Function.update_self _ _ _) hrun
    exact ⟨events', s', h', hbase, hsessions.trans (Function.update_idem _ _ _)⟩
  induction session with
  | stuck => exact fun _ _ hrun => nomatch hrun
  | ended r =>
    intro events s h hsession hrun
    cases hrun
    exact ⟨events, s, h, rfl, by rw [← hsession, Function.update_eq_self]⟩
  | claim name granted refused ihGranted ihRefused =>
    intro events s h hsession hrun
    rw [Session.run] at hrun
    cases hclaim : s.base.claim name with
    | ok claimed =>
      rw [hclaim] at hrun
      exact hstep h (by rw [hsession, Session.step, hclaim]) ihGranted hrun
    | error e =>
      rw [hclaim] at hrun
      exact hstep h (by rw [hsession, Session.step, hclaim]) ihRefused hrun
  | append name rules rest ih | setEliminator name e rest ih | release name rest ih =>
    intro events s h hsession hrun
    exact hstep h (by rw [hsession, Session.step]) ih hrun

/-- Every compilation is a session, which follows it on every rule base.  In every
interleaving of any number of such sessions on one rule base, with rules added from
outside at any moment:

* each session run on its own is the compilation, and may be run so;
* a name is held by at most one session at a time, and what is claimed beyond
  the claims at the start is what the sessions hold;
* a session that ended with an error has registered nothing, and released what
  it claimed;
* a session that ended with a definition has released what it claimed, and has
  registered the equations of each function of the definition, under its name
  and in order, and its elimination principle, once for each of them;
* the rules of a function are those at the start followed by those that were
  added since, in the order in which they were added;
* the elimination principle of a function is the one that was set last, or the one at
  the start if none was set since. -/
theorem Session.interleaved :
    (∀ task, ∃ s : Session, s.Describes task) ∧
    ∀ (tasks : ι → CompileTask) (sessions : ι → Session) (base : RuleBase),
      (∀ i, (sessions i).Describes (tasks i)) →
      (∀ i base, (sessions i).run base = (tasks i).compile base) ∧
      (∀ i result final, (tasks i).compile base = some (result, final) →
        ∃ events s, Interleaves ⟨base, sessions⟩ events s ∧ s.base = final ∧
          s.sessions = Function.update sessions i (ended result)) ∧
      ∀ events s, Interleaves ⟨base, sessions⟩ events s →
        (∀ i j name, name ∈ (ledger i events).held → name ∈ (ledger j events).held → i = j) ∧
        (∀ name, name ∈ s.base.claims ↔
          name ∈ base.claims ∨ ∃ i, name ∈ (ledger i events).held) ∧
        (∀ i e, s.sessions i = ended (.error e) →
          (ledger i events).appended = [] ∧ (ledger i events).eliminated = [] ∧
            (ledger i events).held = [] ∧
            (ledger i events).released = (ledger i events).claimed) ∧
        (∀ i d, s.sessions i = ended (.ok d) →
          (ledger i events).held = [] ∧
            (ledger i events).released = (ledger i events).claimed ∧
            (d.functions.map (·.name)).Nodup ∧
            (ledger i events).appended =
              d.functions.map (fun f => (f.name, f.equations.map (·.rule))) ∧
            (ledger i events).eliminated =
              d.functions.map fun f => (f.name, f.elimination.eliminator f.name)) ∧
        (∀ name, s.base.rulesOf name =
          base.rulesOf name ++ events.flatMap (SharedEvent.rulesOf name)) ∧
        ∀ name, s.base.eliminator? name =
          (events.reverse.findSome? (SharedEvent.eliminator? name)).or (base.eliminator? name) := by
  refine ⟨exists_describes, fun tasks sessions base hsessions =>
    ⟨fun i => (hsessions i).run_eq, fun i result final hcompile =>
      Interleaves.alone (sessions i) .start rfl (((hsessions i).run_eq base).trans hcompile),
      fun events s h => ?_⟩⟩
  have hinv := SharedInvariant.of_interleaves (fun i => (hsessions i).accounts) h
  refine ⟨hinv.shared.exclusive, hinv.shared.claims, fun i e hended => ?_, fun i d hended => ?_,
    hinv.rules, hinv.eliminators⟩
  · have haccounts := hinv.accounts i
    rw [hended] at haccounts
    obtain ⟨hheld, hreleased, happended, heliminated⟩ := haccounts
    exact ⟨happended, heliminated, hheld, hreleased⟩
  · have haccounts := hinv.accounts i
    rw [hended] at haccounts
    obtain ⟨hheld, hreleased, hnodup, -, happended, heliminated⟩ := haccounts
    exact ⟨hheld, hreleased, hnodup, happended, heliminated⟩

/-! ### An instance -/

namespace Commit

/-- A definition that is answered by a local definition of the given name. -/
def answeredBy (name : Name) : Declaration where
  name := "f"
  span := default
  type := .univ
  transparent := false
  clauses := [.mk default [] (.term (.name default name))
    [.mk default ⟨default, name⟩ false [] (.univ default)
      [.mk default [] (.term (.univ default)) []]]]

/-- Equality, and the declared type of the definition. -/
def target : Signature := (Signature.prelude.value 0).addFunction { name := "f", type := .univ }

/-- The definition that a compilation ended with. -/
def compiled? (r : Option ((Except CompileError CompiledDefinition × RuleBase) × Nat)) :
    Option CompiledDefinition :=
  match r with
  | some ((.ok d, _), _) => some d
  | _ => none

lemma returns_of_compiled? (h : compiled? (x n) = some d) :
    ∃ base m, Eval.Returns x n (.ok d, base) m := by
  unfold compiled? at h
  split at h
  · next d' base m hx => exact ⟨base, m, Option.some.inj h ▸ hx⟩
  · cases h

/-- A definition with a local one, to be compiled by whoever claims it first. -/
def task : CompileTask := ⟨target, answeredBy "g", {}, 10⟩

/-- Two compilations of one definition.  The second one asks for the name while the first
one has it, and fails; the first one goes on and registers both functions. -/
theorem interleaved_twice : ∃ (sessions : Bool → Session) (d : CompiledDefinition)
    (events : List (SharedEvent Bool)) (s : SharedBase Bool),
    (∀ i, (sessions i).Describes task) ∧ Interleaves ⟨{}, sessions⟩ events s ∧
      s.sessions true = .ended (.ok d) ∧
      s.sessions false = .ended (.error (.alreadyCompiling default "f")) ∧
      (ledger false events).claimed = (ledger false events).released ∧
      (ledger false events).eliminated = [] ∧
      (ledger true events).appended.map (·.1) = ["f", "f.g"] ∧ s.base.claims = [] ∧
      (s.base.eliminator? "f.g").isSome := by
  obtain ⟨hexists, hall⟩ := Session.interleaved (ι := Bool)
  obtain ⟨session, hsession⟩ := hexists task
  obtain ⟨script, hfollows, hheld, rfl⟩ := id hsession
  have hfacts : ((compile {} target (answeredBy "g") {} 10).map fun r =>
      ((compiled? (some r)).map fun d => d.functions.map (·.name)) == some ["f", "f.g"] &&
        r.1.2.claims == [] && (r.1.2.eliminator? "f.g").isSome) = some true := by
    decide +kernel
  obtain ⟨⟨⟨result, final⟩, m⟩, hcompile, hfacts⟩ := Option.map_eq_some_iff.1 hfacts
  simp only [Bool.and_eq_true, beq_iff_eq] at hfacts
  obtain ⟨⟨hnames, hclaims⟩, heliminator⟩ := hfacts
  obtain ⟨d, hd, hnames⟩ := Option.map_eq_some_iff.1 hnames
  cases result with
  | error e => cases hd
  | ok d' =>
    obtain rfl := Option.some.inj hd
    have hrun : task.compile {} = some (.ok d', final) := by
      change (compile {} target (answeredBy "g") {} 10).map (·.1) = _
      rw [hcompile]
      rfl
    rw [← hsession.run_eq] at hrun
    let sessions : Bool → Session := fun _ => .claim "f" (.ofScript script)
      (.ended (.error (.alreadyCompiling default "f")))
    -- The first session has the name, and the second one is refused.
    have hclaimed : Interleaves ⟨{}, sessions⟩ [.access true (.claimed "f")]
        ⟨{ claims := ["f"] }, Function.update sessions true (.ofScript script)⟩ := .step .start rfl
    have hrefused : Interleaves ⟨{}, sessions⟩
        [.access true (.claimed "f"), .access false (.refused "f")]
        ⟨{ claims := ["f"] },
          Function.update (Function.update sessions true (.ofScript script)) false
          (.ended (.error (.alreadyCompiling default "f")))⟩ := hclaimed.step rfl
    obtain ⟨events, s, h, hbase, hsessions⟩ :=
      hrefused.alone (i := true) (.ofScript script) rfl hrun
    obtain ⟨-, -, hinv⟩ := hall (fun _ => task) sessions {} fun _ => hsession
    obtain ⟨-, -, herror, hok, -, -⟩ := hinv events s h
    have htrue : s.sessions true = .ended (.ok d') := by rw [hsessions, Function.update_self]
    have hfalse : s.sessions false = .ended (.error (.alreadyCompiling default "f")) := by
      rw [hsessions]
      rfl
    obtain ⟨-, heliminated, -, hreleased⟩ := herror false _ hfalse
    obtain ⟨-, -, -, happended, -⟩ := hok true _ htrue
    refine ⟨_, d', events, s, fun _ => hsession, h, htrue, hfalse, hreleased.symm, heliminated, ?_,
      hbase ▸ hclaims, hbase ▸ heliminator⟩
    rw [happended, map_map]
    exact hnames

end Commit

end Clausal
