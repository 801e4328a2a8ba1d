import Clausal.Surface.Parser
import Mathlib.Data.List.Basic

/-!
# Readers and the tokens that they take

`Reads p ts next post` says that a reader takes exactly the tokens `ts` and
returns something that meets `post`, whatever follows, as long as the token
after `ts` meets `next`.  Readers in sequence take their tokens in sequence; what
the first wants to see next must be what the second takes first.
-/

namespace Clausal.Surface.Parse

open List

variable {after : Input}

/-- The next token of some tokens, or of what follows them. -/
def first (ts : List Token) (next : Option Token) : Option Token := ts.head?.or next

@[simp] lemma first_nil (next : Option Token) : first [] next = next := rfl

@[simp] lemma first_cons (t : Token) (ts : List Token) (next : Option Token) :
    first (t :: ts) next = some t := rfl

lemma first_append (ts ts' : List Token) (next : Option Token) :
    first (ts ++ ts') next = first ts (first ts' next) := by
  cases ts <;> rfl

lemma head?_append_map (taken rest : List TokenAt) :
    (taken ++ rest).head?.map (·.token) =
      first (taken.map (·.token)) (rest.head?.map (·.token)) := by
  cases taken <;> rfl

section

variable {α β : Type} {next : Option Token → Prop}

/-- What comes of a reader at the tokens, if what follows them has a property. -/
def Meets (p : Parse α) (ts : List Token) (next : Option Token → Prop)
    (result : List TokenAt → Nat → Except ParseError α × Input → Prop) : Prop :=
  ∀ (taken rest : List TokenAt) (eof : Nat), taken.map (·.token) = ts →
    next (rest.head?.map (·.token)) → result rest eof (p.run.run ⟨taken ++ rest, eof⟩)

/-- The reader takes the tokens and returns a value with a property. -/
def Reads (p : Parse α) (ts : List Token) (next : Option Token → Prop) (post : α → Prop) : Prop :=
  Meets p ts next fun rest eof r => ∃ a, r = (.ok a, ⟨rest, eof⟩) ∧ post a

/-- The reader returns a value and leaves the tokens where they are. -/
def Looks (p : Parse α) (ts : List Token) (next : Option Token → Prop) (a : α) : Prop :=
  ∀ (taken rest : List TokenAt) (eof : Nat), taken.map (·.token) = ts →
    next (rest.head?.map (·.token)) →
    p.run.run ⟨taken ++ rest, eof⟩ = (.ok a, ⟨taken ++ rest, eof⟩)

/-- The reader fails at the tokens, perhaps only after it has taken some. -/
def Fails (p : Parse α) (ts : List Token) (next : Option Token → Prop) : Prop :=
  Meets p ts next fun _ _ r => ∃ e after, r = (.error e, after)

/-- The reader fails, or it stops before a token with a property. -/
def Stops (p : Parse α) (ts : List Token) (next stop : Option Token → Prop) : Prop :=
  Meets p ts next fun _ _ r => ∃ result after, r = (result, after) ∧
    (result.isOk = true → stop (after.tokens.head?.map (·.token)))

lemma run_bind (p : Parse α) (f : α → Parse β) (input : Input) :
    (p >>= f).run.run input =
      match p.run.run input with
      | (.ok a, after) => (f a).run.run after
      | (.error e, after) => (.error e, after) := by
  change (match p.run.run input with
    | (result, after) => StateT.run (ExceptT.bindCont f result) after) = _
  rcases p.run.run input with ⟨_ | _, _⟩ <;> rfl

variable {p : Parse α}

lemma run_bind_ok (h : p.run.run input = (.ok a, after)) :
    (p >>= f).run.run input = (f a).run.run after := by
  rw [run_bind, h]

lemma run_bind_error (f : α → Parse β) (h : p.run.run input = (.error e, after)) :
    (p >>= f).run.run input = (.error e, after) := by
  rw [run_bind, h]

namespace Meets

/-- What a reader does whatever follows, if that is seen in the result alone. -/
lemma append {result : Except ParseError α × Input → Prop}
    (hp : Meets p ts (fun _ => True) fun _ _ => result) (ts' : List Token)
    (next : Option Token → Prop) : Meets p (ts ++ ts') next fun _ _ => result := by
  intro taken rest eof htaken _
  obtain ⟨taken₁, taken₂, rfl, h₁, -⟩ := map_eq_append_iff.mp htaken
  rw [append_assoc]
  exact hp taken₁ (taken₂ ++ rest) eof h₁ trivial

end Meets

namespace Reads

lemma pure (ha : post a) (next : Option Token → Prop) : Reads (pure a) [] next post := by
  intro taken rest eof htaken _
  obtain rfl : taken = [] := by simpa using htaken
  exact ⟨a, rfl, ha⟩

variable {p : Parse α}

lemma imp {post' : α → Prop} (h : Reads p ts next post) (hnext : ∀ o, next' o → next o)
    (hpost : ∀ a, post a → post' a) : Reads p ts next' post' := by
  intro taken rest eof htaken hrest
  obtain ⟨a, hrun, ha⟩ := h taken rest eof htaken (hnext _ hrest)
  exact ⟨a, hrun, hpost a ha⟩

lemma bind (hp : Reads p ts next post) (hf : ∀ a, post a → Meets (f a) ts' next' result)
    (hnext : ∀ o, next' o → next (first ts' o)) : Meets (p >>= f) (ts ++ ts') next' result := by
  intro taken rest eof htaken hrest
  obtain ⟨taken₁, taken₂, rfl, h₁, h₂⟩ := map_eq_append_iff.mp htaken
  have hlook : next ((taken₂ ++ rest).head?.map (·.token)) := by
    rw [head?_append_map, h₂]
    exact hnext _ hrest
  obtain ⟨a, hrun, ha⟩ := hp taken₁ (taken₂ ++ rest) eof h₁ hlook
  rw [append_assoc, run_bind_ok hrun]
  exact hf a ha taken₂ rest eof h₂ hrest

lemma bind_nil (hp : Reads p [] next post) (hf : ∀ a, post a → Meets (f a) ts next' result)
    (hnext : ∀ o, next' o → next (first ts o)) : Meets (p >>= f) ts next' result :=
  hp.bind hf hnext

/-- After a reader that does not look ahead. -/
lemma bind_any (hp : Reads p ts (fun _ => True) post)
    (hf : ∀ a, post a → Meets (f a) ts' next' result) : Meets (p >>= f) (ts ++ ts') next' result :=
  hp.bind hf fun _ _ => trivial

lemma map {f : α → β} (hp : Reads p ts next post) (hf : ∀ a, post a → post' (f a)) :
    Reads (p >>= fun a => Pure.pure (f a)) ts next post' := by
  intro taken rest eof htaken hrest
  obtain ⟨a, hrun, ha⟩ := hp taken rest eof htaken hrest
  exact ⟨f a, run_bind_ok hrun, hf a ha⟩

/-- A reader after one that only looks. -/
lemma look (hp : Looks p ts next a) (hf : Reads (f a) ts next post') :
    Reads (p >>= f) ts next post' := by
  intro taken rest eof htaken hrest
  obtain ⟨b, hrun, hb⟩ := hf taken rest eof htaken hrest
  exact ⟨b, by rw [run_bind_ok (hp taken rest eof htaken hrest), hrun], hb⟩

end Reads

namespace Fails

variable {p : Parse α}

lemma bind (hp : Fails p ts next) (f : α → Parse β) : Fails (p >>= f) ts next := by
  intro taken rest eof htaken hrest
  obtain ⟨e, after, hrun⟩ := hp taken rest eof htaken hrest
  exact ⟨e, after, run_bind_error f hrun⟩

/-- What fails at the next token fails wherever that token stands first. -/
lemma of_first (hp : Fails p [] next) (ts : List Token) (hnext : ∀ o, next' o → next (first ts o))
      : Fails p ts next' := by
  intro taken rest eof htaken hrest
  refine hp [] (taken ++ rest) eof rfl ?_
  rw [head?_append_map, htaken]
  exact hnext _ hrest

end Fails

namespace Stops

variable {p : Parse α}

lemma of_fails (hp : Fails p ts next) : Stops p ts next stop := by
  intro taken rest eof htaken hrest
  obtain ⟨e, after, hrun⟩ := hp taken rest eof htaken hrest
  exact ⟨_, _, hrun, by rintro ⟨⟩⟩

lemma of_reads (hp : Reads p ts next post) (hstop : ∀ o, next o → stop o) :
    Stops p ts next stop := by
  intro taken rest eof htaken hrest
  obtain ⟨a, hrun, -⟩ := hp taken rest eof htaken hrest
  exact ⟨_, _, hrun, fun _ => hstop _ hrest⟩

lemma pure (a : α) (hstop : ∀ o, next o → stop (first ts o)) : Stops (pure a) ts next stop := by
  intro taken rest eof htaken hrest
  refine ⟨_, _, rfl, fun _ => ?_⟩
  rw [head?_append_map, htaken]
  exact hstop _ hrest

lemma bind_nil (hp : Reads p [] next post) (hf : ∀ a, post a → Stops (f a) ts next' stop)
    (hnext : ∀ o, next' o → next (first ts o)) : Stops (p >>= f) ts next' stop :=
  hp.bind_nil hf hnext

lemma map (hp : Stops p ts next stop) (f : α → β) :
    Stops (p >>= fun a => Pure.pure (f a)) ts next stop := by
  intro taken rest eof htaken hrest
  obtain ⟨result, after, hrun, hstop⟩ := hp taken rest eof htaken hrest
  cases result with
  | error e => exact ⟨_, _, run_bind_error _ hrun, by rintro ⟨⟩⟩
  | ok a => exact ⟨_, _, run_bind_ok hrun, fun _ => hstop rfl⟩

end Stops

end

/-! ### Single tokens -/

lemma run_get (input : Input) :
    (get : Parse Input).run.run input = (.ok input, input) := rfl

lemma run_set (input after : Input) :
    (set after : Parse PUnit).run.run input = (.ok ⟨⟩, after) := rfl

lemma run_peek? (input : Input) :
    peek?.run.run input = (.ok (input.tokens.head?.map (·.token)), input) := rfl

/-- The next token is what the tokens begin with. -/
lemma peek?_reads (P : Option Token → Prop) : Reads peek? [] P P := by
  intro taken rest eof htaken hrest
  obtain rfl : taken = [] := by simpa using htaken
  exact ⟨_, rfl, hrest⟩

lemma next?_reads (t : Token) : Reads next? [t] (fun _ => True) (fun _ => True) := by
  intro taken rest eof htaken _
  obtain ⟨u, rfl, -⟩ := map_eq_singleton_iff.mp htaken
  exact ⟨some u, rfl, trivial⟩

lemma run_eat? (t : Token) (input : Input) :
    (eat? t).run.run input =
      if input.tokens.head?.map (·.token) = some t then
        (.ok (input.tokens.head?.map (·.span)), { input with tokens := input.tokens.tail })
      else (.ok none, input) := by
  rw [eat?, run_bind_ok (run_peek? input)]
  split
  · obtain ⟨tokens, eof⟩ := input
    cases tokens <;> rfl
  · rfl

lemma eat?_reads (t : Token) : Reads (eat? t) [t] (fun _ => True) (fun o => o.isSome) := by
  intro taken rest eof htaken _
  obtain ⟨u, rfl, hu⟩ := map_eq_singleton_iff.mp htaken
  refine ⟨some u.span, ?_, rfl⟩
  rw [run_eat?]
  simp [hu]

lemma eat?_misses (t : Token) : Reads (eat? t) [] (· ≠ some t) (· = none) := by
  intro taken rest eof htaken hrest
  obtain rfl : taken = [] := by simpa using htaken
  refine ⟨none, ?_, rfl⟩
  rw [run_eat?]
  exact if_neg hrest

lemma expect_reads (t : Token) : Reads (expect t) [t] (fun _ => True) (fun _ => True) := by
  rw [expect]
  refine (eat?_reads t).bind_any fun o ho => ?_
  obtain ⟨span, rfl⟩ := Option.isSome_iff_exists.mp ho
  exact Reads.pure trivial _

lemma expect_fails (t : Token) : Fails (expect t) [] (· ≠ some t) := by
  intro taken rest eof htaken hrest
  obtain rfl : taken = [] := by simpa using htaken
  obtain ⟨o, hmiss, rfl⟩ := eat?_misses t [] rest eof rfl hrest
  rw [expect, run_bind_ok hmiss]
  cases rest with
  | nil | cons u rest => exact ⟨_, _, rfl⟩

lemma atMark_reads (m : Mark) : Reads (atMark m) [] (· = some (.mark m)) (· = true) := by
  rw [atMark]
  refine (peek?_reads (· = some (.mark m))).bind_nil (fun o ho => ?_) (fun _ h => h)
  exact Reads.pure (by simp [ho]) _

lemma atMark_misses (m : Mark) : Reads (atMark m) [] (· ≠ some (.mark m)) (· = false) := by
  rw [atMark]
  refine (peek?_reads (· ≠ some (.mark m))).bind_nil (fun o ho => ?_) (fun _ h => h)
  exact Reads.pure (by simp [ho]) _

/-- The next token is a name. -/
def IsName (o : Option Token) : Prop := ∃ n, o = some (.name n)

lemma atName_reads : Reads atName [] IsName (· = true) := by
  rw [atName]
  refine (peek?_reads IsName).bind_nil (fun o ho => ?_) (fun _ h => h)
  obtain ⟨n, rfl⟩ := ho
  exact Reads.pure (by rfl) _

lemma atName_misses : Reads atName [] (fun o => ¬ IsName o) (· = false) := by
  rw [atName]
  refine (peek?_reads fun o => ¬ IsName o).bind_nil (fun o ho => ?_) (fun _ h => h)
  split
  · next n => exact (ho ⟨n, rfl⟩).elim
  · exact Reads.pure (by rfl) _

lemma offset_reads : Reads offset [] (fun _ => True) (fun _ => True) := by
  intro taken rest eof htaken _
  obtain rfl : taken = [] := by simpa using htaken
  cases rest with
  | nil | cons u rest => exact ⟨_, rfl, trivial⟩

lemma ident_reads (n : Name) : Reads ident [.name n] (fun _ => True) (·.name = n) := by
  intro taken rest eof htaken _
  obtain ⟨⟨token, span⟩, rfl, hu⟩ := map_eq_singleton_iff.mp htaken
  obtain rfl : token = .name n := hu
  exact ⟨⟨span, n⟩, rfl, rfl⟩

lemma ident_fails : Fails ident [] (fun o => ¬ IsName o) := by
  intro taken rest eof htaken hrest
  obtain rfl : taken = [] := by simpa using htaken
  cases rest with
  | nil => exact ⟨_, _, rfl⟩
  | cons u rest =>
    obtain ⟨token, span⟩ := u
    cases token with
    | name n => exact (hrest ⟨n, rfl⟩).elim
    | keyword k | mark m => exact ⟨_, _, rfl⟩

/-! ### A token, and then the rest -/

namespace Reads

variable {α : Type} {next : Option Token → Prop}

lemma bind_peek (h : Reads (f (some t)) (t :: ts) next post) :
    Reads (peek? >>= f) (t :: ts) next post := by
  refine (peek?_reads (· = some t)).bind_nil (fun o ho => ?_) (fun _ _ => rfl)
  subst ho
  exact h

lemma bind_eat (h : ∀ span, Reads (f (some span)) ts next post) :
    Reads (eat? t >>= f) (t :: ts) next post := by
  refine (eat?_reads t).bind_any fun o ho => ?_
  obtain ⟨span, rfl⟩ := Option.isSome_iff_exists.mp ho
  exact h span

lemma bind_eat_miss (hnext : ∀ o, next o → first ts o ≠ some t) (h : Reads (f none) ts next post)
      : Reads (eat? t >>= f) ts next post := by
  refine (eat?_misses t).bind_nil (fun o ho => ?_) hnext
  subst ho
  exact h

lemma bind_expect (h : ∀ span, Reads (f span) ts next post) :
    Reads (expect t >>= f) (t :: ts) next post :=
  (expect_reads t).bind_any fun span _ => h span

lemma bind_ident (h : ∀ i : Ident, i.name = n → Reads (f i) ts next post) :
    Reads (ident >>= f) (.name n :: ts) next post :=
  (ident_reads n).bind_any h

lemma bind_atMark (h : Reads (f true) (.mark m :: ts) next post) :
    Reads (atMark m >>= f) (.mark m :: ts) next post := by
  refine (atMark_reads m).bind_nil (fun b hb => ?_) (fun _ _ => rfl)
  subst hb
  exact h

lemma bind_atMark_miss (hnext : ∀ o, next o → first ts o ≠ some (.mark m))
    (h : Reads (f false) ts next post) : Reads (atMark m >>= f) ts next post := by
  refine (atMark_misses m).bind_nil (fun b hb => ?_) hnext
  subst hb
  exact h

lemma bind_atName (h : Reads (f true) (.name n :: ts) next post) :
    Reads (atName >>= f) (.name n :: ts) next post := by
  refine atName_reads.bind_nil (fun b hb => ?_) (fun _ _ => ⟨n, rfl⟩)
  subst hb
  exact h

lemma bind_atName_miss (hnext : ∀ o, next o → ¬ IsName (first ts o))
    (h : Reads (f false) ts next post) : Reads (atName >>= f) ts next post := by
  refine atName_misses.bind_nil (fun b hb => ?_) hnext
  subst hb
  exact h

end Reads

lemma idents_reads (names : List Name) (hfuel : names.length ≤ fuel) :
    Reads (idents fuel) (names.map .name) (fun o => ¬ IsName o) (·.map (·.name) = names) := by
  induction names generalizing fuel with
  | nil =>
    cases fuel with
    | zero => exact Reads.pure (by rfl) _
    | succ fuel =>
      rw [idents]
      exact Reads.bind_atName_miss (fun _ h => h) (Reads.pure (by rfl) _)
  | cons n names ih =>
    cases fuel with
    | zero => simp at hfuel
    | succ fuel =>
      rw [idents, map_cons]
      refine Reads.bind_atName (Reads.bind_ident fun i hi => ?_)
      exact (ih (Nat.le_of_succ_le_succ hfuel)).map fun is his => by simp [hi, his]

end Clausal.Surface.Parse
