import YamlSieve.Proofs.Meaning
import YamlSieve.Proofs.StepLimit

/-!
# Evaluations perform items

Whatever the events are, an evaluation performs some items on its cursor, and the cursor has no say
in which ones these are, nor in anything else (`State.transitions_uniform`). So a filter fails on
all documents with one error, or there are items that say what it finds on each of them
(`Filter.apply_cases`); this holds of any events and any step limit, while the grammar of
expressions tells which items these are under the events of the tokens.
-/

namespace YamlSieve

namespace State

/-! ### Cursors of states -/

/-- The state at another cursor. -/
def withCursor (c : Cursor) : State → State
  | start _             => start c
  | pipe _              => pipe c
  | path _              => path c
  | call _ name pending => call c name pending
  | done _              => done c
  | failed error        => failed error

@[simp] lemma withCursor_withCursor (c d : Cursor) (s : State) :
    (s.withCursor c).withCursor d = s.withCursor d := by
  cases s <;> rfl

lemma eq_of_result_withCursor {c d : Cursor} {s : State} (h : (s.withCursor c).result = .ok d) :
    d = c := by
  cases s with
  | failed error => cases h
  | _ => exact (Except.ok.inj h).symm

/-- A function of cursors performs the same items on all of them, and all else is the same. -/
def Uniform (f : Cursor → State × List Token) : Prop :=
  ∃ is, ∀ c d, f d = ((f c).1.withCursor (Item.applyAll is d), (f c).2)

/-! ### Single steps -/

lemma failed_uniform (error : FilterError) (ts : List Token) :
    Uniform fun _ => (failed error, ts) :=
  ⟨[], fun _ _ => rfl⟩

lemma opening_uniform (ts : List Token) : Uniform (opening · ts) := by
  unfold opening
  match ts with
  | [] | [_] => exact failed_uniform _ _
  | first :: second :: rest =>
    refine ⟨[], fun c d => ?_⟩
    simp only
    split_ifs <;> rfl

lemma follow_uniform (ts : List Token) : Uniform (follow · ts) := by
  unfold follow
  split
  · exact failed_uniform _ _
  · exact ⟨[.path (PathStep.readRun _).1], fun _ _ => rfl⟩
  · exact failed_uniform _ _

lemma invoke_uniform (ts : List Token) : Uniform (invoke · ts) := by
  unfold invoke
  split
  · next name t ts =>
    rcases Function.apply_cases name (t :: ts) with ⟨error, h⟩ | ⟨predicate, rest, h⟩
    · simp only [h]
      exact failed_uniform _ _
    · simp only [h]
      exact ⟨[.select predicate], fun _ _ => rfl⟩
  · exact failed_uniform _ _
  · exact failed_uniform _ _

lemma separate_uniform (ts : List Token) : Uniform (separate · ts) := by
  unfold separate
  split
  · exact ⟨[], fun _ _ => rfl⟩
  · exact failed_uniform _ _

lemma closing_uniform (ts : List Token) : Uniform (closing · ts) := by
  unfold closing
  split
  · exact ⟨[], fun _ _ => rfl⟩
  · exact failed_uniform _ _
  · exact failed_uniform _ _

lemma afterCall_uniform (name : String) (pending : Bool) (ts : List Token) :
    Uniform (afterCall · name pending ts) := by
  unfold afterCall
  split
  · split_ifs
    · exact ⟨[], fun _ _ => rfl⟩
    · exact failed_uniform _ _
  · exact invoke_uniform ts

theorem transition_uniform (e : Event) (s : State) (ts : List Token) :
    Uniform fun c => (s.withCursor c).transition e ts := by
  cases s with
  | start _ =>
    cases e with
    | boundary => exact opening_uniform ts
    | _ => exact failed_uniform _ _
  | pipe _ =>
    cases e with
    | path => exact follow_uniform ts
    | call => exact invoke_uniform ts
    | _ => exact failed_uniform _ _
  | path _ =>
    cases e with
    | call => exact invoke_uniform ts
    | boundary => exact separate_uniform ts
    | close => exact closing_uniform ts
    | path => exact failed_uniform _ _
  | call _ name pending =>
    cases e with
    | path => exact follow_uniform ts
    | call => exact afterCall_uniform name pending ts
    | boundary => exact separate_uniform ts
    | close => exact closing_uniform ts
  | done _ => exact ⟨[], fun _ _ => rfl⟩
  | failed error => exact failed_uniform error ts

/-! ### Whole evaluations -/

/-- The items of an evaluation are those of its steps, one after the other. -/
theorem transitions_uniform (es : List Event) (s : State) (ts : List Token) :
    Uniform fun c => transitions es (s.withCursor c) ts := by
  induction es generalizing s ts with
  | nil => exact ⟨[], fun c d => by simp [Item.applyAll]⟩
  | cons e es ih =>
    obtain ⟨is, hstep⟩ := transition_uniform e s ts
    obtain ⟨js, hrest⟩ := ih ((s.withCursor .absent).transition e ts).1
      ((s.withCursor .absent).transition e ts).2
    refine ⟨is ++ js, fun c d => ?_⟩
    have hitems : Item.applyAll (is ++ js) d = Item.applyAll js (Item.applyAll is d) :=
      List.foldl_append
    simp only [transitions_cons, hstep .absent d, hstep .absent c, hitems]
    exact hrest _ _

end State

/--
A filter with any tokens, events and step limit fails on all documents with one error, or there are
items that mean on every document what the filter finds there.
-/
theorem Filter.apply_cases (filter : Filter) :
    (∃ error, ∀ root, filter.apply root = .error error) ∨
      ∃ is, ∀ root, filter.apply root = .ok (Item.evalAll is root) := by
  cases hnull : filter.apply .null with
  | error error =>
    refine Or.inl ⟨error, fun root => ?_⟩
    exact ((filter.apply_sameOutcome .null root).error_iff error).mp hnull
  | ok r =>
    obtain ⟨is, huniform⟩ := State.transitions_uniform filter.events (.start .absent) filter.tokens
    refine Or.inr ⟨is, fun root => ?_⟩
    obtain ⟨r, hr⟩ := (filter.apply_sameOutcome .null root).ok_iff.mp ⟨r, hnull⟩
    rw [apply] at hr ⊢
    cases hrun : State.run filter.tokens filter.events root filter.stepLimit with
    | error error =>
      rw [hrun] at hr
      cases hr
    | ok c =>
      -- the step limit was not reached, so the evaluation went through all events
      have hlast := State.run_none_of_run hrun
      have hnext : State.transitions filter.events (.start (.borrow root)) filter.tokens = _ :=
        huniform .absent (.borrow root)
      rw [State.run, State.runFrom_none, hnext] at hlast
      obtain rfl := State.eq_of_result_withCursor hlast
      exact congrArg Except.ok (Item.node_applyAll is (.borrow root))

end YamlSieve
