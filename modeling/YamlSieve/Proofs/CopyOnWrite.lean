import YamlSieve.Proofs.StepLimit

/-!
# Borrowed and owned cursors

A cursor that is still borrowed stands at the place in the document that is reached by the keys of
all steps so far. An owned one stands on nothing or on a sequence, so that no child is ever taken
out of an owned mapping. Path steps and selections keep this, and keep that a cursor is owned; and
whatever they keep, a whole evaluation keeps as well (`Cursor.Kept.transitions`).
-/

namespace YamlSieve

/-! ### Keys of a path -/

/-- The subtree to which keys lead, looked up one after the other; none of them may be missing. -/
def Node.getAll? : List String → Node → Option Node
  | [],          node => some node
  | key :: keys, node => (node.get? key).bind (getAll? keys)

lemma Node.getAll?_append (keys keys' : List String) (node : Node) :
    node.getAll? (keys ++ keys') = (node.getAll? keys).bind (getAll? keys') := by
  induction keys generalizing node with
  | nil => rfl
  | cons key keys ih =>
    rw [List.cons_append, getAll?, getAll?]
    cases node.get? key with
    | none => rfl
    | some child => exact ih child

/-- The key that a step looks up in a mapping. -/
def PathStep.key? : PathStep → Option String
  | key k        => some k
  | flattenKey k => some k
  | flatten      => none

def PathStep.keys (steps : List PathStep) : List String := steps.filterMap key?

lemma PathStep.keys_concat (steps : List PathStep) (step : PathStep) :
    keys (steps ++ [step]) = keys steps ++ step.key?.toList := by
  cases step <;> simp [keys, key?]

/-! ### What steps and selections do to a cursor -/

/-- A step builds a sequence, ends on nothing, stays, or goes to the child under its key. -/
lemma PathStep.apply_cases (step : PathStep) (c : Cursor) :
    (∃ items, step.apply c = .own (.sequence items)) ∨ step.apply c = .absent ∨
      (step.key? = none ∧ step.apply c = c) ∨
      ∃ key, step.key? = some key ∧ c.node.isSequence = false ∧
        step.apply c = c.descend key := by
  cases step with
  | key k =>
    simp only [apply, Cursor.collectKey]
    cases hnode : c.node with
    | sequence items => exact Or.inl ⟨_, rfl⟩
    | _ => exact Or.inr (Or.inr (Or.inr ⟨k, rfl, rfl, rfl⟩))
  | flattenKey k =>
    simp only [apply, Cursor.flattenKey]
    cases hnode : c.node with
    | sequence items => exact Or.inl ⟨_, rfl⟩
    | _ => exact Or.inr (Or.inr (Or.inr ⟨k, rfl, rfl, rfl⟩))
  | flatten =>
    simp only [apply, Cursor.flatten]
    split_ifs
    · exact Or.inr (Or.inr (Or.inl ⟨rfl, rfl⟩))
    · exact Or.inr (Or.inl rfl)

/-- A selection builds a sequence, stays, or ends on nothing. -/
lemma Cursor.select_cases (predicate : Predicate) (c : Cursor) :
    (∃ items, c.select predicate = .own (.sequence items)) ∨ c.select predicate = c ∨
      c.select predicate = .absent := by
  rw [select]
  split
  · exact Or.inl ⟨_, rfl⟩
  · split_ifs
    · exact Or.inr (Or.inl rfl)
    · exact Or.inr (Or.inr rfl)

/-! ### Evaluations and cursors -/

namespace State

/-- The path steps that are executed in a state under an event. -/
def executed (e : Event) : State → List Token → List PathStep
  | pipe _,     ts => if e = .path then (PathStep.readRun ts).1 else []
  | call _ _ _, ts => if e = .path then (PathStep.readRun ts).1 else []
  | _,          _  => []

/-- The path steps that are executed under a list of events. -/
def executedAll : List Event → State → List Token → List PathStep
  | [],      _, _  => []
  | e :: es, s, ts =>
    s.executed e ts ++ executedAll es (s.transition e ts).1 (s.transition e ts).2

lemma executed_of_isTerminal {s : State} (hs : s.isTerminal = true) (e : Event)
    (ts : List Token) : s.executed e ts = [] := by
  cases s <;> simp [isTerminal, executed] at hs ⊢

end State

/-- A move applies the path steps that it executes to the cursor, or a selection and no steps. -/
lemma Move.result_cases {s s' : State} {ts ts' : List Token} {e : Event}
    (h : Move s ts e s' ts') : ∃ c, s.result = .ok c ∧
      (s'.result = .ok (PathStep.applyAll c (s.executed e ts)) ∨
        s.executed e ts = [] ∧ ∃ predicate, s'.result = .ok (c.select predicate)) := by
  cases h with
  | empty c => exact ⟨c, rfl, Or.inl rfl⟩
  | opening c hlast hts => exact ⟨c, rfl, Or.inl rfl⟩
  | @run _ c ts hs => cases hs <;> exact ⟨c, rfl, Or.inl rfl⟩
  | @select _ c predicate argument ts hs hspelled =>
    cases hs <;> exact ⟨c, rfl, Or.inr ⟨rfl, predicate, rfl⟩⟩
  | leave c name ts => exact ⟨c, rfl, Or.inl rfl⟩
  | @separate _ c ts hs => cases hs <;> exact ⟨c, rfl, Or.inl rfl⟩
  | @close _ c hs => cases hs <;> exact ⟨c, rfl, Or.inl rfl⟩

/-- Path steps and selections keep a property of cursors, which may refer to the steps so far. -/
structure Cursor.Kept (P : List PathStep → Cursor → Prop) : Prop where
  step : ∀ {steps c} (step : PathStep), P steps c → P (steps ++ [step]) (step.apply c)
  select : ∀ {steps c} (predicate : Predicate), P steps c → P steps (c.select predicate)

namespace Cursor.Kept

open State

variable {P : List PathStep → Cursor → Prop} {steps : List PathStep} {c : Cursor} {s : State}
  {ts : List Token}

lemma applyAll (hP : Kept P) (path : List PathStep) (h : P steps c) :
    P (steps ++ path) (PathStep.applyAll c path) := by
  induction path generalizing steps c with
  | nil =>
    rw [List.append_nil]
    exact h
  | cons step path ih =>
    rw [List.append_cons]
    exact ih (hP.step step h)

lemma transition (hP : Kept P) (hsound : s.Sound ts) (h : ∀ c, s.result = .ok c → P steps c)
    (e : Event) (c : Cursor) (hc : (s.transition e ts).1.result = .ok c) :
    P (steps ++ s.executed e ts) c := by
  by_cases hs : s.isTerminal = true
  · rw [transition_of_isTerminal hs] at hc
    rw [executed_of_isTerminal hs, List.append_nil]
    exact h c hc
  · rcases transition_outcome hsound (by simpa using hs) e with hmove | ⟨error, hfailed, -⟩
    · obtain ⟨c₀, hc₀, hnext | ⟨hnone, predicate, hnext⟩⟩ := hmove.result_cases
      · obtain rfl := Except.ok.inj (hnext.symm.trans hc)
        exact hP.applyAll _ (h c₀ hc₀)
      · obtain rfl := Except.ok.inj (hnext.symm.trans hc)
        rw [hnone, List.append_nil]
        exact hP.select predicate (h c₀ hc₀)
    · rw [hfailed] at hc
      cases hc

/-- What path steps and selections keep holds of the cursors of all states of an evaluation. -/
theorem transitions (hP : Kept P) (hsound : s.Sound ts) (h : ∀ c, s.result = .ok c → P steps c)
    (es : List Event) (c : Cursor) (hc : (State.transitions es s ts).1.result = .ok c) :
    P (steps ++ executedAll es s ts) c := by
  induction es generalizing s ts steps with
  | nil =>
    rw [executedAll, List.append_nil]
    exact h c hc
  | cons e es ih =>
    rw [executedAll, ← List.append_assoc]
    exact ih (hsound.transition e) (hP.transition hsound h e) hc

end Cursor.Kept

/-! ### Borrowed cursors -/

/-- What is known of a cursor after the given steps from the root of a document. -/
structure Cursor.Tracked (root : Node) (steps : List PathStep) (c : Cursor) : Prop where
  borrowed : c.borrowed = true → root.getAll? (PathStep.keys steps) = some c.node
  owned : c.borrowed = false → c.node = .absent ∨ c.node.isSequence = true

namespace Cursor.Tracked

variable {root : Node} {steps : List PathStep} {c : Cursor}

lemma borrow (root : Node) : Tracked root [] (.borrow root) :=
  ⟨fun _ => rfl, by simp [Cursor.borrow]⟩

lemma sequence (items : List Node) : Tracked root steps (.own (.sequence items)) :=
  ⟨by simp [Cursor.own], fun _ => Or.inr rfl⟩

lemma absent : Tracked root steps .absent :=
  ⟨by simp [Cursor.absent, Cursor.own], fun _ => Or.inl rfl⟩

/-- An owned cursor that is to go to a child stands on nothing, since sequences are collected. -/
lemma descend (h : Tracked root steps c) (hc : c.node.isSequence = false) {step : PathStep}
    {key : String} (hkey : step.key? = some key) :
    Tracked root (steps ++ [step]) (c.descend key) := by
  cases hborrowed : c.borrowed with
  | true =>
    simp only [Cursor.descend, hborrowed, if_true]
    cases hchild : c.node.get? key with
    | none => exact absent
    | some child =>
      refine ⟨fun _ => ?_, by simp [Cursor.borrow]⟩
      rw [PathStep.keys_concat, hkey, Node.getAll?_append, h.borrowed hborrowed]
      simp [Node.getAll?, hchild, Cursor.borrow]
  | false =>
    have hnode : c.node = .absent := by simpa [hc] using h.owned hborrowed
    have hdescend : c.descend key = .absent := by
      simp [Cursor.descend, hborrowed, hnode, Node.intoChild?]
    rw [hdescend]
    exact absent

lemma step (h : Tracked root steps c) (step : PathStep) :
    Tracked root (steps ++ [step]) (step.apply c) := by
  rcases step.apply_cases c with ⟨items, heq⟩ | heq | ⟨hkey, heq⟩ | ⟨key, hkey, hc, heq⟩
  · rw [heq]
    exact sequence items
  · rw [heq]
    exact absent
  · rw [heq]
    refine ⟨?_, h.owned⟩
    rw [PathStep.keys_concat, hkey, Option.toList_none, List.append_nil]
    exact h.borrowed
  · rw [heq]
    exact h.descend hc hkey

/-- A selection keeps the place of what it keeps, whatever the path of its predicate is. -/
lemma select (h : Tracked root steps c) (predicate : Predicate) :
    Tracked root steps (c.select predicate) := by
  rcases c.select_cases predicate with ⟨items, heq⟩ | heq | heq
  · rw [heq]
    exact sequence items
  · rw [heq]
    exact h
  · rw [heq]
    exact absent

theorem kept (root : Node) : Kept (Tracked root) :=
  ⟨fun step h => h.step step, fun predicate h => h.select predicate⟩

end Cursor.Tracked

/-! ### Owned cursors -/

namespace Cursor

variable {c : Cursor}

lemma descend_owned (hc : c.borrowed = false) (key : String) :
    (c.descend key).borrowed = false := by
  simp only [descend, hc, Bool.false_eq_true, if_false]
  cases c.node.intoChild? key <;> rfl

lemma apply_owned (hc : c.borrowed = false) (step : PathStep) :
    (step.apply c).borrowed = false := by
  rcases step.apply_cases c with ⟨items, heq⟩ | heq | ⟨-, heq⟩ | ⟨key, -, -, heq⟩
  · rw [heq]
    rfl
  · rw [heq]
    rfl
  · rw [heq]
    exact hc
  · rw [heq]
    exact descend_owned hc key

lemma select_owned (hc : c.borrowed = false) (predicate : Predicate) :
    (c.select predicate).borrowed = false := by
  rcases c.select_cases predicate with ⟨items, heq⟩ | heq | heq
  · rw [heq]
    rfl
  · rw [heq]
    exact hc
  · rw [heq]
    rfl

theorem kept_owned : Kept fun _ c => c.borrowed = false :=
  ⟨fun step hc => apply_owned hc step, fun predicate hc => select_owned hc predicate⟩

end Cursor

/-! ### Whole evaluations -/

/--
Under any events, and so in every state of an accepted evaluation: a borrowed cursor stands on the
subtree of the document that is found by looking up the keys of all path steps executed so far, one
in the other, and an owned one on nothing or on a sequence. The cursor that is found at last is that
of the last state. Once it is owned, it is not borrowed again.
-/
theorem State.transitions_copyOnWrite (ts : List Token) (root : Node) (es : List Event) :
    let next := transitions es (start (.borrow root)) ts
    let keys := PathStep.keys (executedAll es (start (.borrow root)) ts)
    (∀ c, next.1.result = .ok c →
        (c.borrowed = true → root.getAll? keys = some c.node) ∧
          (c.borrowed = false → c.node = .absent ∨ c.node.isSequence = true)) ∧
      (∀ limit c, run ts es root limit = .ok c → next.1.result = .ok c) ∧
      ∀ fs c d, next.1.result = .ok c → (transitions fs next.1 next.2).1.result = .ok d →
        c.borrowed = false → d.borrowed = false := by
  intro next keys
  have hstart : (start (.borrow root)).Sound ts := trivial
  refine ⟨fun c hc => ?_, fun limit c hrun => ?_, fun fs c d hc hd howned => ?_⟩
  · have hroot : ∀ c, (start (.borrow root)).result = .ok c → c.Tracked root [] := by
      rintro _ ⟨⟩
      exact .borrow root
    have htracked := (Cursor.Tracked.kept root).transitions hstart hroot es c hc
    exact ⟨htracked.borrowed, htracked.owned⟩
  · rw [← runFrom_none 0]
    exact run_none_of_run hrun
  · have hnext : ∀ c', next.1.result = .ok c' → c'.borrowed = false := by
      intro c' hc'
      exact Except.ok.inj (hc.symm.trans hc') ▸ howned
    exact @Cursor.Kept.transitions _ [] _ _ Cursor.kept_owned (hstart.transitions es) hnext fs d hd

/-- In `'.a select(.b == x) .[].c'` the path of the predicate is not executed on the cursor. -/
example :
    let ts : List Token := [.delim '\'', .delim '.', .word "a", .word "select", .delim '(',
      .delim '.', .word "b", .delim '=', .delim '=', .word "x", .delim ')', .delim '.',
      .delim '[', .delim ']', .delim '.', .word "c", .delim '\'']
    State.executedAll (Event.ofTokens ts) (.start (.borrow .null)) ts =
      [.key "a", .flatten, .key "c"] := rfl

end YamlSieve
