import Mathlib.Data.List.Forall2
import YamlSieve.Proofs.Matching
import YamlSieve.Proofs.Operand

/-!
# Spellings of scalars

Filters look at scalars through comparisons alone, so they keep every relation of nodes under which
scalars compare equal (`Node.Similarity.evalAll`). Documents that differ in the spelling of scalars
are such a relation (`Node.Respelled`). The laws of comparison are put together in
`Comparison.holds_coherent`.
-/

namespace YamlSieve

open List (Forall₂)

/-! ### Relations that filters keep -/

/--
A relation of nodes that neither keys, items nor comparisons tell apart, and that sequences inherit
from their items.
-/
structure Node.Similarity (R : Node → Node → Prop) : Prop where
  scalarText? : ∀ {x y}, R x y →
    Option.Rel (fun s t => Comparison.equal.holds s t = true) x.scalarText? y.scalarText?
  get? : ∀ {x y}, R x y → ∀ key, Option.Rel R (x.get? key) (y.get? key)
  items? : ∀ {x y}, R x y → Option.Rel (Forall₂ R) x.items? y.items?
  sequence : ∀ {xs ys}, Forall₂ R xs ys → R (.sequence xs) (.sequence ys)
  absent : R .absent .absent

namespace Node.Similarity

variable {R : Node → Node → Prop} {x y : Node}

/-- Related nodes are two sequences with related items, or both are no sequence. -/
lemma sequence_cases (hR : Similarity R) (h : R x y) :
    (∃ xs ys, x = .sequence xs ∧ y = .sequence ys ∧ Forall₂ R xs ys) ∨
      x.isSequence = false ∧ y.isSequence = false := by
  have hitems := hR.items? h
  cases x with
  | sequence xs =>
    cases y with
    | sequence ys =>
      obtain ⟨h⟩ := hitems
      exact Or.inl ⟨xs, ys, rfl, rfl, h⟩
    | _ => cases hitems
  | _ =>
    cases y with
    | sequence ys => cases hitems
    | _ => exact Or.inr ⟨rfl, rfl⟩

lemma isSequence_eq (hR : Similarity R) (h : R x y) : x.isSequence = y.isSequence := by
  rcases hR.sequence_cases h with ⟨xs, ys, rfl, rfl, -⟩ | ⟨hx, hy⟩
  · rfl
  · rw [hx, hy]

lemma child (hR : Similarity R) (h : R x y) (key : String) :
    R ((x.get? key).getD .absent) ((y.get? key).getD .absent) := by
  have hchild := hR.get? h key
  generalize x.get? key = u, y.get? key = v at hchild ⊢
  cases hchild with
  | some h => exact h
  | none => exact hR.absent

lemma collected (hR : Similarity R) (key : String) (h : R x y) :
    Forall₂ R (x.collected key) (y.collected key) := by
  have hchild := hR.get? h key
  rw [Node.collected, Node.collected]
  refine List.rel_filter (fun u v huv => ?_) ?_
  · show (!u.isSequence) = true ↔ (!v.isSequence) = true
    rw [hR.isSequence_eq huv]
  · generalize x.get? key = u, y.get? key = v at hchild ⊢
    cases hchild with
    | some h => exact .cons h .nil
    | none => exact .nil

lemma flattened (hR : Similarity R) (key : String) (h : R x y) :
    Forall₂ R (x.flattened key) (y.flattened key) := by
  have hchild := hR.get? h key
  rw [Node.flattened, Node.flattened]
  generalize x.get? key = u, y.get? key = v at hchild ⊢
  cases hchild with
  | none => exact .nil
  | @some u v h =>
    have hitems := hR.items? h
    rw [Option.bind_some, Option.bind_some]
    generalize u.items? = us, v.items? = vs at hitems ⊢
    cases hitems with
    | some h => exact h
    | none => exact .nil

/-- A step leads from related nodes to related ones. -/
lemma step (hR : Similarity R) (step : PathStep) (h : R x y) : R (step.eval x) (step.eval y) := by
  rcases hR.sequence_cases h with ⟨xs, ys, rfl, rfl, hitems⟩ | ⟨hx, hy⟩
  · cases step with
    | key k => exact hR.sequence (List.rel_flatMap hitems fun _ _ => hR.collected k)
    | flattenKey k => exact hR.sequence (List.rel_flatMap hitems fun _ _ => hR.flattened k)
    | flatten => exact h
  · rcases step.eval_cases x with ⟨hx', -⟩ | ⟨rfl, hx'⟩ | ⟨key, hkey, hx'⟩
    · simp [hx] at hx'
    · rcases PathStep.flatten.eval_cases y with ⟨hy', -⟩ | ⟨-, hy'⟩ | ⟨key, hkey, -⟩
      · simp [hy] at hy'
      · rw [hx', hy']
        exact hR.absent
      · cases hkey
    · rcases step.eval_cases y with ⟨hy', -⟩ | ⟨rfl, -⟩ | ⟨key', hkey', hy'⟩
      · simp [hy] at hy'
      · cases hkey
      · obtain rfl := Option.some.inj (hkey.symm.trans hkey')
        rw [hx', hy']
        exact hR.child h key

lemma steps (hR : Similarity R) (steps : List PathStep) (h : R x y) :
    R (PathStep.evalAll steps x) (PathStep.evalAll steps y) := by
  induction steps generalizing x y with
  | nil => exact h
  | cons step steps ih => exact ih (hR.step step h)

/-- A predicate matches both of two related nodes or neither. -/
theorem accepts_eq (hR : Similarity R) (predicate : Predicate) (h : R x y) :
    predicate.accepts x = predicate.accepts y := by
  have htext := hR.scalarText? (hR.steps predicate.path h)
  rw [Predicate.accepts, Predicate.accepts]
  generalize (PathStep.evalAll predicate.path x).scalarText? = s,
    (PathStep.evalAll predicate.path y).scalarText? = t at htext ⊢
  cases htext with
  | none => rfl
  | some h => exact (Comparison.holds_congr h predicate.operator predicate.literal).2

lemma item (hR : Similarity R) (item : Item) (h : R x y) : R (item.eval x) (item.eval y) := by
  cases item with
  | path steps => exact hR.steps steps h
  | select predicate =>
    rcases hR.sequence_cases h with ⟨xs, ys, rfl, rfl, hitems⟩ | ⟨hx, hy⟩
    · refine hR.sequence (List.rel_filter (fun u v huv => ?_) hitems)
      show predicate.accepts u = true ↔ predicate.accepts v = true
      rw [hR.accepts_eq predicate huv]
    · have heval : ∀ {node : Node}, node.isSequence = false → (Item.select predicate).eval node =
          if predicate.accepts node then node else .absent := by
        intro node hnode
        cases node <;> simp_all [Item.eval, isSequence]
      rw [heval hx, heval hy, hR.accepts_eq predicate h]
      split_ifs
      · exact h
      · exact hR.absent

/-- An expression makes related nodes of related documents. -/
theorem evalAll (hR : Similarity R) (is : List Item) (h : R x y) :
    R (Item.evalAll is x) (Item.evalAll is y) := by
  induction is generalizing x y with
  | nil => exact h
  | cons i is ih => exact ih (hR.item i h)

end Node.Similarity

/-! ### Respelled documents -/

/--
The nodes differ at most in the order of entries and in the spelling of scalars, and the scalars at
each place compare equal.
-/
inductive Node.Respelled : Node → Node → Prop
  | scalar {x y : Node} {s t : String} (hx : x.scalarText? = some s) (hy : y.scalarText? = some t)
      (h : Comparison.equal.holds s t = true) : Respelled x y
  | sequence {xs ys : List Node} (h : Forall₂ Respelled xs ys) :
      Respelled (.sequence xs) (.sequence ys)
  | mapping {es fs : List (String × Node)}
      (h : ∀ key, Option.Rel Respelled (es.lookup key) (fs.lookup key)) :
      Respelled (.mapping es) (.mapping fs)
  | absent : Respelled .absent .absent

/-- A scalar has neither keys nor items. -/
lemma Node.get?_items?_of_scalarText? {x : Node} {s : String} (h : x.scalarText? = some s) :
    (∀ key, x.get? key = none) ∧ x.items? = none := by
  cases x <;> simp_all [Node.scalarText?, Node.get?, Node.items?]

theorem Node.Respelled.similarity : Node.Similarity Node.Respelled where
  scalarText? h := by
    cases h with
    | scalar hx hy h =>
      rw [hx, hy]
      exact .some h
    | sequence | mapping | absent => exact .none
  get? h key := by
    cases h with
    | scalar hx hy =>
      rw [(get?_items?_of_scalarText? hx).1, (get?_items?_of_scalarText? hy).1]
      exact .none
    | mapping h => exact h key
    | sequence | absent => exact .none
  items? h := by
    cases h with
    | scalar hx hy =>
      rw [(get?_items?_of_scalarText? hx).2, (get?_items?_of_scalarText? hy).2]
      exact .none
    | sequence h => exact .some h
    | mapping | absent => exact .none
  sequence := .sequence
  absent := .absent

/-- An expression that is accepted on a document is accepted on any respelling of it. -/
theorem Filter.evaluate_respelled {x y r : Node} (h : x.Respelled y) {text : String}
    (hr : evaluate text x = .ok r) : ∃ s, evaluate text y = .ok s ∧ r.Respelled s := by
  obtain ⟨ts, is, hts, hexpression, rfl⟩ := evaluate_eq_ok_iff.mp hr
  refine ⟨Item.evalAll is y, ?_, Node.Respelled.similarity.evalAll is h⟩
  exact evaluate_eq_ok_iff.mpr ⟨ts, is, hts, hexpression, rfl⟩

/-! ### Laws of comparison -/

/-- A predicate does not depend on the spelling of its literal. -/
lemma Predicate.holds_congr_literal {a b : String} (h : Comparison.equal.holds a b = true)
    (path : List PathStep) (operator : Comparison) :
    holds ⟨path, operator, a⟩ = holds ⟨path, operator, b⟩ := by
  funext node
  simp only [holds]
  cases (PathStep.applyAll (.borrow node) path).node.scalarText? with
  | none => rfl
  | some text => exact (Comparison.holds_congr h operator text).1

namespace Comparison

/--
Comparison is coherent over all texts. Equality is an equivalence relation and no operator tells
equal texts apart, whether they stand in a document or in a predicate. The orderings are one strict
order of numbers and its variants, which no text that is not a number takes part in.
-/
theorem holds_coherent :
    (Equivalence fun a b => equal.holds a b = true) ∧
      (∀ a b, notEqual.holds a b = !equal.holds a b) ∧
      (∀ a b, greater.holds a b = less.holds b a ∧
        greaterOrEqual.holds a b = lessOrEqual.holds b a) ∧
      (∀ a b, ¬(less.holds a b = true ∧ equal.holds a b = true) ∧
        ¬(less.holds a b = true ∧ greater.holds a b = true) ∧
        ¬(greater.holds a b = true ∧ equal.holds a b = true)) ∧
      (∀ a b, (number? a).isSome = true → (number? b).isSome = true →
        (less.holds a b = true ∨ equal.holds a b = true ∨ greater.holds a b = true) ∧
          greaterOrEqual.holds a b = (greater.holds a b || equal.holds a b)) ∧
      (∀ a b, number? a = none ∨ number? b = none →
        less.holds a b = false ∧ lessOrEqual.holds a b = false ∧
          greater.holds a b = false ∧ greaterOrEqual.holds a b = false) ∧
      (∀ a b c, less.holds a b = true → less.holds b c = true → less.holds a c = true) ∧
      (∀ a b, equal.holds a b = true →
        (∀ (operator : Comparison) (c : String), operator.holds c a = operator.holds c b ∧
          operator.holds a c = operator.holds b c) ∧
        ∀ path operator c,
          Cursor.select ⟨path, operator, a⟩ c = Cursor.select ⟨path, operator, b⟩ c) ∧
      (∀ x y : Node, x.Respelled y →
        (∀ predicate : Predicate, predicate.holds x = predicate.holds y) ∧
          ∀ text r, Filter.evaluate text x = .ok r →
            ∃ s, Filter.evaluate text y = .ok s ∧ r.Respelled s) ∧
      ∀ a b, invalid.holds a b = false := by
  refine ⟨equivalence_holds_equal, holds_notEqual,
    fun a b => ⟨holds_greater a b, holds_greaterOrEqual a b⟩, fun a b => ?_,
    fun a b => holds_of_numbers, fun a b htext => ?_, fun a b c => holds_less_trans,
    fun a b hequal => ⟨holds_congr hequal, fun path operator c => ?_⟩,
    fun x y h => ⟨fun predicate => ?_, fun text r => Filter.evaluate_respelled h⟩, holds_invalid⟩
  · refine ⟨fun h => ?_, fun h => ?_, fun h => ?_⟩
    · simpa [h.2] using holds_less_exclusive h.1
    · simpa [h.2] using holds_less_exclusive h.1
    · rw [holds_greater] at h
      -- equality is symmetric, so this is the first of the three with the sides exchanged
      have hsymm := equivalence_holds_equal.symm h.2
      simpa [hsymm] using holds_less_exclusive h.1
  · have hnone : ∀ {operator : Comparison}, operator.IsOrdering → operator.holds a b = false :=
      fun hoperator => holds_ordering_of_text hoperator htext
    refine ⟨hnone ?_, hnone ?_, hnone ?_, hnone ?_⟩ <;> simp [IsOrdering]
  · rw [Cursor.select, Cursor.select, Predicate.holds_congr_literal hequal]
  · rw [Predicate.holds_eq_accepts]
    exact Node.Respelled.similarity.accepts_eq predicate h

/-- Numbers are compared by value, blank characters aside; a word is no number and has no order. -/
example :
    equal.holds "1" " 1.0" = true ∧ less.holds "9" "10" = true ∧ less.holds "9" "x" = false ∧
      notEqual.holds "9" "x" = true := by decide +kernel

end Comparison
end YamlSieve
