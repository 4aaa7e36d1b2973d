import Mathlib.Tactic.Common
import YamlSieve.Filter.State

/-!
# Runs of an evaluation

An evaluation that stops at the first terminal state gives the same as one that goes through all
events (`State.runFrom_none`). Two evaluations of the same tokens under the same events go through
states that differ in nothing but their cursors, and have the same tokens left
(`SameShape.transitions`): the document decides what is found, but never what happens.
-/

namespace YamlSieve

/-! ### All events -/

namespace State

@[simp] lemma transitions_nil (s : State) (ts : List Token) : transitions [] s ts = (s, ts) := rfl

@[simp] lemma transitions_cons (e : Event) (es : List Event) (s : State) (ts : List Token) :
    transitions (e :: es) s ts = transitions es (s.transition e ts).1 (s.transition e ts).2 := rfl

lemma transitions_append (es fs : List Event) (s : State) (ts : List Token) :
    transitions (es ++ fs) s ts = transitions fs (transitions es s ts).1 (transitions es s ts).2 :=
  List.foldl_append

/-- No event changes a terminal state. -/
lemma transitions_of_isTerminal {s : State} (hs : s.isTerminal = true) (es : List Event)
    (ts : List Token) :
    transitions es s ts = (s, ts) := by
  induction es with
  | nil => rfl
  | cons e es ih => cases s <;> simp_all [isTerminal, transition]

/-- Stopping at the first terminal state gives the result of going through all events. -/
theorem runFrom_none (n : Nat) (es : List Event) (s : State) (ts : List Token) :
    runFrom none n es s ts = (transitions es s ts).1.result := by
  induction es generalizing n s ts with
  | nil => rfl
  | cons e es ih =>
    rw [runFrom]
    split_ifs with hs
    · rw [transitions_of_isTerminal hs]
    · rw [transitions_cons]
      exact ih (n + 1) _ _

end State

/-! ### All documents -/

/-- A call of a function fails for all cursors alike, or succeeds for all with one predicate. -/
lemma Function.apply_cases (name : String) (ts : List Token) :
    (∃ error, ∀ c, Function.apply name c ts = .error error) ∨
      ∃ predicate rest, ∀ c, Function.apply name c ts = .ok (c.select predicate, rest) := by
  unfold Function.apply
  cases ofName name with
  | invalid => exact Or.inl ⟨_, fun _ => rfl⟩
  | select =>
    cases splitAtClose? ts with
    | none => exact Or.inl ⟨_, fun _ => rfl⟩
    | some split =>
      obtain ⟨argument, rest⟩ := split
      cases hread : (Predicate.read argument).1 with
      | error error => exact Or.inl ⟨error, fun _ => by simp only [hread]⟩
      | ok predicate => exact Or.inr ⟨predicate, rest, fun _ => by simp only [hread]⟩

namespace State

/-- The states differ in nothing but their cursors. -/
inductive SameShape : State → State → Prop
  | start (c d : Cursor) : SameShape (start c) (start d)
  | pipe (c d : Cursor) : SameShape (pipe c) (pipe d)
  | path (c d : Cursor) : SameShape (path c) (path d)
  | call (c d : Cursor) (name : String) (pending : Bool) :
      SameShape (call c name pending) (call d name pending)
  | done (c d : Cursor) : SameShape (done c) (done d)
  | failed (error : FilterError) : SameShape (failed error) (failed error)

/-- States of the same shape with the same tokens left. -/
def Alike (next next' : State × List Token) : Prop :=
  SameShape next.1 next'.1 ∧ next.2 = next'.2

/-! ### Single steps -/

lemma alike_failed (error : FilterError) (ts : List Token) :
    Alike (failed error, ts) (failed error, ts) := ⟨.failed error, rfl⟩

lemma opening_alike (c d : Cursor) (ts : List Token) : Alike (opening c ts) (opening d ts) := by
  unfold opening
  match ts with
  | [] | [_] => exact alike_failed _ _
  | first :: second :: rest =>
    simp only
    split_ifs
    · exact ⟨.done c d, rfl⟩
    · exact ⟨.pipe c d, rfl⟩
    · exact alike_failed _ _

lemma follow_alike (c d : Cursor) (ts : List Token) : Alike (follow c ts) (follow d ts) := by
  unfold follow
  split
  · exact alike_failed _ _
  · exact ⟨.path _ _, rfl⟩
  · exact alike_failed _ _

lemma invoke_alike (c d : Cursor) (ts : List Token) : Alike (invoke c ts) (invoke d ts) := by
  unfold invoke
  split
  · next name t ts =>
    rcases Function.apply_cases name (t :: ts) with ⟨error, h⟩ | ⟨predicate, rest, h⟩
    · rw [h c, h d]
      exact alike_failed _ _
    · rw [h c, h d]
      exact ⟨.call _ _ name true, rfl⟩
  · exact alike_failed _ _
  · exact alike_failed _ _

lemma separate_alike (c d : Cursor) (ts : List Token) :
    Alike (separate c ts) (separate d ts) := by
  unfold separate
  split
  · exact ⟨.pipe c d, rfl⟩
  · exact alike_failed _ _

lemma closing_alike (c d : Cursor) (ts : List Token) : Alike (closing c ts) (closing d ts) := by
  unfold closing
  split
  · exact ⟨.done c d, rfl⟩
  · exact alike_failed _ _
  · exact alike_failed _ _

lemma afterCall_alike (c d : Cursor) (name : String) (pending : Bool) (ts : List Token) :
    Alike (afterCall c name pending ts) (afterCall d name pending ts) := by
  unfold afterCall
  split
  · split_ifs
    · exact ⟨.call c d name false, rfl⟩
    · exact alike_failed _ _
  · exact invoke_alike c d ts

namespace SameShape

variable {s t : State}

theorem transition (h : SameShape s t) (e : Event) (ts : List Token) :
    Alike (s.transition e ts) (t.transition e ts) := by
  cases h with
  | start c d =>
    cases e with
    | boundary => exact opening_alike c d ts
    | _ => exact alike_failed _ _
  | pipe c d =>
    cases e with
    | path => exact follow_alike c d ts
    | call => exact invoke_alike c d ts
    | _ => exact alike_failed _ _
  | path c d =>
    cases e with
    | call => exact invoke_alike c d ts
    | boundary => exact separate_alike c d ts
    | close => exact closing_alike c d ts
    | path => exact alike_failed _ _
  | call c d name pending =>
    cases e with
    | path => exact follow_alike c d ts
    | call => exact afterCall_alike c d name pending ts
    | boundary => exact separate_alike c d ts
    | close => exact closing_alike c d ts
  | done c d => exact ⟨.done c d, rfl⟩
  | failed error => exact alike_failed error ts

/-- Whole evaluations from states of the same shape stay alike. -/
theorem transitions (h : SameShape s t) (es : List Event) (ts : List Token) :
    Alike (State.transitions es s ts) (State.transitions es t ts) := by
  induction es generalizing s t ts with
  | nil => exact ⟨h, rfl⟩
  | cons e es ih =>
    obtain ⟨hnext, htokens⟩ := h.transition e ts
    rw [transitions_cons, transitions_cons, htokens]
    exact ih hnext _

lemma phase_eq (h : SameShape s t) : s.phase = t.phase := by
  cases h <;> rfl

end SameShape
end State
end YamlSieve
