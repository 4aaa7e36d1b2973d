import YamlSieve.Filter.Expression
import YamlSieve.Proofs.Run

/-!
# Filters and their documents

No document has a say in whether a filter is accepted. States of the same shape have outcomes of
the same kind, under every step limit (`State.SameShape.runFrom`), and so a filter is accepted on
all documents or fails with one error on all of them (`Filter.apply_sameOutcome`).
-/

namespace YamlSieve

/-- Both succeed, or both fail with the same error. -/
inductive SameOutcome {ε α : Type} : Except ε α → Except ε α → Prop
  | ok (a b : α) : SameOutcome (.ok a) (.ok b)
  | error (e : ε) : SameOutcome (.error e) (.error e)

namespace SameOutcome

variable {ε α β : Type} {x y : Except ε α}

lemma map (h : SameOutcome x y) (f : α → β) : SameOutcome (x.map f) (y.map f) := by
  cases h with
  | ok a b => exact ok (f a) (f b)
  | error e => exact error e

lemma ok_iff (h : SameOutcome x y) : (∃ a, x = .ok a) ↔ ∃ b, y = .ok b := by
  cases h <;> simp

lemma error_iff (h : SameOutcome x y) (e : ε) : x = .error e ↔ y = .error e := by
  cases h <;> simp

end SameOutcome

namespace State.SameShape

variable {s t : State}

lemma isTerminal_eq (h : SameShape s t) : s.isTerminal = t.isTerminal := by
  cases h <;> rfl

lemma result (h : SameShape s t) : SameOutcome s.result t.result := by
  cases h with
  | failed error => exact .error error
  | _ => exact .ok _ _

/-- Evaluations from states of the same shape stop at the same step, for the same reason. -/
theorem runFrom (h : SameShape s t) (limit : Option Nat) (n : Nat) (es : List Event)
    (ts : List Token) :
    SameOutcome (State.runFrom limit n es s ts) (State.runFrom limit n es t ts) := by
  induction es generalizing n s t ts with
  | nil => exact h.result
  | cons e es ih =>
    -- the limit is checked before a step is made, so both stop here or both make the step
    rw [State.runFrom, State.runFrom, ← h.isTerminal_eq]
    split_ifs
    · exact h.result
    · cases limit.filter (· ≤ n) with
      | some limit => exact .error _
      | none =>
        obtain ⟨hnext, htokens⟩ := h.transition e ts
        simp only [← htokens]
        exact ih hnext (n + 1) _

end State.SameShape

namespace Filter

lemma apply_sameOutcome (filter : Filter) (d₁ d₂ : Node) :
    SameOutcome (filter.apply d₁) (filter.apply d₂) := by
  have hstart : State.SameShape (.start (.borrow d₁)) (.start (.borrow d₂)) := .start _ _
  exact (hstart.runFrom filter.stepLimit 0 filter.events filter.tokens).map Cursor.node

/--
A filter succeeds on both of two documents or fails with the same error on both. Under any events,
evaluations of the same tokens go through the same phases, differ in their cursors alone, and have
the same tokens left.
-/
theorem apply_independent (filter : Filter) (d₁ d₂ : Node) :
    ((∃ r, filter.apply d₁ = .ok r) ↔ ∃ r, filter.apply d₂ = .ok r) ∧
      (∀ error, filter.apply d₁ = .error error ↔ filter.apply d₂ = .error error) ∧
      ∀ (es : List Event) (ts : List Token) (n : Nat),
        let next₁ := State.transitions (es.take n) (.start (.borrow d₁)) ts
        let next₂ := State.transitions (es.take n) (.start (.borrow d₂)) ts
        next₁.1.phase = next₂.1.phase ∧ State.SameShape next₁.1 next₂.1 ∧ next₁.2 = next₂.2 := by
  have houtcome := filter.apply_sameOutcome d₁ d₂
  refine ⟨houtcome.ok_iff, houtcome.error_iff, fun es ts n => ?_⟩
  have hstart : State.SameShape (.start (.borrow d₁)) (.start (.borrow d₂)) := .start _ _
  obtain ⟨hshape, htokens⟩ := hstart.transitions (es.take n) ts
  exact ⟨hshape.phase_eq, hshape, htokens⟩

end Filter
end YamlSieve
