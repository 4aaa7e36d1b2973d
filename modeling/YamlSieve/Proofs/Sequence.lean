import YamlSieve.Proofs.Result

/-!
# Filters on sequences

A step, a predicate and therefore a whole filter look at the items of a sequence one by one: what
they make of the sequence is what they make of each item, joined in order
(`Item.evalAll_itemwise`). A filter takes the concatenation of two sequences to that of its
results (`Filter.apply_sequence_append`).
-/

namespace YamlSieve

/-! ### Functions that work item by item -/

/-- On a sequence the function joins, in order, what it makes of each item. -/
def Node.Itemwise (f : Node → Node) : Prop :=
  ∃ g : Node → List Node, ∀ items, f (.sequence items) = .sequence (items.flatMap g)

namespace Node.Itemwise

variable {f f' : Node → Node}

lemma id : Itemwise fun node => node := by
  refine ⟨fun item => [item], fun items => ?_⟩
  rw [List.flatMap_singleton']

lemma comp (hf' : Itemwise f') (hf : Itemwise f) : Itemwise fun node => f' (f node) := by
  obtain ⟨g, hg⟩ := hf
  obtain ⟨g', hg'⟩ := hf'
  refine ⟨fun item => (g item).flatMap g', fun items => ?_⟩
  show f' (f (.sequence items)) = _
  rw [hg, hg', List.flatMap_assoc]

lemma foldl {α : Type} {f : α → Node → Node} (hf : ∀ a, Itemwise (f a)) (as : List α) :
    Itemwise fun node => as.foldl (fun node a => f a node) node := by
  induction as with
  | nil => exact id
  | cons a as ih => exact comp ih (hf a)

/-- A function that works item by item is a homomorphism on sequences. -/
lemma append (hf : Itemwise f) (xs ys : List Node) :
    ∃ us vs, f (.sequence xs) = .sequence us ∧ f (.sequence ys) = .sequence vs ∧
      f (.sequence (xs ++ ys)) = .sequence (us ++ vs) := by
  obtain ⟨g, hg⟩ := hf
  refine ⟨xs.flatMap g, ys.flatMap g, hg xs, hg ys, ?_⟩
  rw [hg, List.flatMap_append]

lemma sequence_nil (hf : Itemwise f) : f (.sequence []) = .sequence [] := by
  obtain ⟨g, hg⟩ := hf
  rw [hg, List.flatMap_nil]

end Node.Itemwise

/-! ### Steps and items -/

lemma PathStep.eval_itemwise (step : PathStep) : Node.Itemwise step.eval := by
  cases step with
  | key k => exact ⟨Node.collected k, fun _ => rfl⟩
  | flattenKey k => exact ⟨Node.flattened k, fun _ => rfl⟩
  | flatten =>
    refine ⟨fun item => [item], fun items => ?_⟩
    rw [List.flatMap_singleton', eval]

lemma PathStep.evalAll_itemwise (steps : List PathStep) : Node.Itemwise (evalAll steps) :=
  Node.Itemwise.foldl PathStep.eval_itemwise steps

lemma Item.eval_itemwise (item : Item) : Node.Itemwise item.eval := by
  cases item with
  | path steps => exact PathStep.evalAll_itemwise steps
  | select predicate =>
    refine ⟨fun node => [node].filter predicate.accepts, fun items => ?_⟩
    rw [← List.filter_flatMap, List.flatMap_singleton', eval]

theorem Item.evalAll_itemwise (is : List Item) : Node.Itemwise (Item.evalAll is) :=
  Node.Itemwise.foldl Item.eval_itemwise is

/-! ### Nothing -/

lemma PathStep.evalAll_absent (steps : List PathStep) : evalAll steps .absent = .absent := by
  apply List.foldl_fixed'
  intro step
  cases step <;> rfl

lemma Predicate.accepts_absent (predicate : Predicate) : predicate.accepts .absent = false := by
  simp [accepts, PathStep.evalAll_absent, Node.scalarText?]

theorem Item.evalAll_absent (is : List Item) : Item.evalAll is .absent = .absent := by
  apply List.foldl_fixed'
  intro item
  cases item with
  | path steps => exact PathStep.evalAll_absent steps
  | select predicate => simp [eval, Predicate.accepts_absent]

/-! ### Filters -/

namespace Filter

variable {text : String} {filter : Filter} {root₀ r₀ : Node}

/--
An accepted filter finds on two sequences, one behind the other, what it finds on the first and
then what it finds on the second. It keeps the empty sequence, and finds nothing in nothing.
-/
theorem apply_sequence_append (hparse : parse text = .ok filter)
    (haccept : filter.apply root₀ = .ok r₀) :
    (∀ xs ys, ∃ us vs, filter.apply (.sequence xs) = .ok (.sequence us) ∧
        filter.apply (.sequence ys) = .ok (.sequence vs) ∧
        filter.apply (.sequence (xs ++ ys)) = .ok (.sequence (us ++ vs))) ∧
      filter.apply (.sequence []) = .ok (.sequence []) ∧
      filter.apply .absent = .ok .absent := by
  obtain ⟨is, happly⟩ := exists_apply_eq_evalAll hparse haccept
  have hitemwise := Item.evalAll_itemwise is
  refine ⟨fun xs ys => ?_, ?_, ?_⟩
  · obtain ⟨us, vs, hxs, hys, happend⟩ := hitemwise.append xs ys
    exact ⟨us, vs, by rw [happly, hxs], by rw [happly, hys], by rw [happly, happend]⟩
  · rw [happly, hitemwise.sequence_nil]
  · rw [happly, Item.evalAll_absent]

/-- Two sequences under `'.a[] | select(.b == x)'`, which leaves out items of both. -/
theorem apply_append_select :
    let ts : List Token := [.delim '\'', .delim '.', .word "a", .delim '[', .delim ']', .delim '|',
      .word "select", .delim '(', .delim '.', .word "b", .delim '=', .delim '=', .word "x",
      .delim ')', .delim '\'']
    let filter : Filter := ⟨"'.a[] | select(.b == x)'", ts, Event.ofTokens ts, none⟩
    let x : Node := .mapping [("b", .string "x")]
    let y : Node := .mapping [("b", .string "y")]
    let xs : List Node := [.mapping [("a", .sequence [x, y, x])], .null]
    let ys : List Node := [.sequence [x], .mapping [("a", .sequence [y, x])], .mapping [("a", x)]]
    parse "'.a[] | select(.b == x)'" = .ok filter ∧ filter.apply .null = .ok .absent ∧
      filter.apply (.sequence (xs ++ ys)) = .ok (.sequence [x, x, x]) ∧
      ∃ us vs, filter.apply (.sequence xs) = .ok (.sequence us) ∧
        filter.apply (.sequence ys) = .ok (.sequence vs) ∧
        filter.apply (.sequence (xs ++ ys)) = .ok (.sequence (us ++ vs)) := by
  intro ts filter x y xs ys
  have hparse : parse "'.a[] | select(.b == x)'" = .ok filter := rfl
  have haccept : filter.apply .null = .ok .absent := rfl
  exact ⟨hparse, haccept, rfl, (apply_sequence_append hparse haccept).1 xs ys⟩

end Filter
end YamlSieve
