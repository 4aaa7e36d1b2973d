import YamlSieve.Proofs.CopyOnWrite
import YamlSieve.Proofs.Sequence

/-!
# What a predicate matches

The path of a predicate is made of the same steps as any other path, which collect from sequences,
flatten them and end on nothing. But no path leads from a sequence or from nothing back to a scalar.
So the scalar at its end, if there is one, is found by looking up the keys of the path in mappings
(`PathStep.scalarText?_evalAll`), and a predicate matches through mappings only
(`Predicate.holds_iff_getAll?`).
-/

namespace YamlSieve

/-! ### Scalars under keys -/

namespace Node

lemma isScalar_of_scalarText? {node : Node} {text : String} (h : node.scalarText? = some text) :
    node.isScalar = true := by
  cases node <;> simp_all [isScalar, scalarText?]

/-- A sequence has no keys, and neither has nothing; without a key to look up they stay there. -/
lemma scalarText?_getAll? {node : Node} (h : node.isSequence = true ∨ node.isAbsent = true)
    (keys : List String) : (node.getAll? keys).bind scalarText? = none := by
  cases keys <;> cases node <;>
    simp_all [isSequence, isAbsent, getAll?, get?, scalarText?]

end Node

/-! ### The end of a path -/

namespace PathStep

/-- A step stays on sequences; `.[]` ends on nothing otherwise, and the others look up their key. -/
lemma eval_cases (step : PathStep) (node : Node) :
    (node.isSequence = true ∧ ∃ items, step.eval node = .sequence items) ∨
      (step = flatten ∧ step.eval node = .absent) ∨
      ∃ key, step.key? = some key ∧ step.eval node = (node.get? key).getD .absent := by
  cases node with
  | sequence items => exact Or.inl ⟨rfl, by cases step <;> exact ⟨_, rfl⟩⟩
  | _ =>
    cases step with
    | key k | flattenKey k => exact Or.inr (Or.inr ⟨k, rfl, rfl⟩)
    | flatten => exact Or.inr (Or.inl ⟨rfl, rfl⟩)

/-- No path leads from a sequence to a scalar. -/
lemma scalarText?_evalAll_sequence (steps : List PathStep) (items : List Node) :
    (evalAll steps (.sequence items)).scalarText? = none := by
  obtain ⟨g, hg⟩ := evalAll_itemwise steps
  rw [hg]
  rfl

/-- The scalar at the end of a path is the one under its keys, unless a `.[]` is among them. -/
theorem scalarText?_evalAll (steps : List PathStep) (node : Node) :
    (evalAll steps node).scalarText? =
      if flatten ∈ steps then none else (node.getAll? (keys steps)).bind Node.scalarText? := by
  induction steps generalizing node with
  | nil => rfl
  | cons step steps ih =>
    show (evalAll steps (step.eval node)).scalarText? = _
    rcases step.eval_cases node with ⟨hnode, items, heval⟩ | ⟨rfl, heval⟩ | ⟨key, hkey, heval⟩
    · rw [heval, scalarText?_evalAll_sequence, Node.scalarText?_getAll? (Or.inl hnode), ite_self]
    · rw [heval, evalAll_absent, if_pos List.mem_cons_self]
      rfl
    · have hkeys : keys (step :: steps) = key :: keys steps := List.filterMap_cons_some hkey
      have hflatten : flatten ∈ step :: steps ↔ flatten ∈ steps := by
        cases step <;> simp_all [key?]
      rw [heval, hkeys, Node.getAll?]
      simp only [hflatten]
      cases node.get? key with
      | none =>
        rw [Option.getD_none, evalAll_absent]
        simp [Node.scalarText?]
      | some child => exact ih child

end PathStep

/-! ### Predicates -/

/-- What is kept of a sequence matches the predicate. -/
lemma Cursor.holds_of_mem_select {predicate : Predicate} {c : Cursor} {items : List Node}
    (hc : (c.select predicate).node = .sequence items) {item : Node} (hitem : item ∈ items) :
    predicate.holds item = true := by
  rw [select] at hc
  split at hc
  · obtain rfl := Node.sequence.inj hc
    exact (List.mem_filter.mp hitem).2
  · next hnode =>
    split_ifs at hc
    · exact absurd hc (hnode items)
    · cases hc

namespace Predicate

lemma holds_iff (predicate : Predicate) (node : Node) :
    predicate.holds node = true ↔ .flatten ∉ predicate.path ∧
      ∃ field text, node.getAll? (PathStep.keys predicate.path) = some field ∧
        field.scalarText? = some text ∧ predicate.operator.holds text predicate.literal = true := by
  rw [holds_eq_accepts, accepts, PathStep.scalarText?_evalAll]
  split_ifs with hflatten
  · simp [hflatten]
  · cases hfield : node.getAll? (PathStep.keys predicate.path) with
    | none => simp
    | some field => cases htext : field.scalarText? <;> simp [hflatten, htext]

/--
A predicate matches a node if its path has no step `.[]`, its keys, looked up one in the other, lead
from the node to a scalar, and the text of this compares true with the literal. It matches neither a
sequence nor nothing, so that no selection keeps these as items, and it matches no node in which its
path meets a sequence or misses a key.
-/
theorem holds_iff_getAll? (predicate : Predicate) :
    (∀ node, predicate.holds node = true ↔ .flatten ∉ predicate.path ∧
        ∃ field text, node.getAll? (PathStep.keys predicate.path) = some field ∧
          field.isScalar = true ∧ field.scalarText? = some text ∧
          predicate.operator.holds text predicate.literal = true) ∧
      (∀ node, node.isSequence = true ∨ node.isAbsent = true → predicate.holds node = false) ∧
      (∀ c items, (Cursor.select predicate c).node = .sequence items →
        ∀ item ∈ items, item.isSequence = false ∧ item.isAbsent = false) ∧
      ∀ node steps, steps <+: predicate.path →
        (∀ reached, node.getAll? (PathStep.keys steps) = some reached →
          reached.isSequence = true) →
        predicate.holds node = false := by
  have hnever : ∀ node, node.isSequence = true ∨ node.isAbsent = true →
      predicate.holds node = false := by
    intro node hnode
    rw [← Bool.not_eq_true, holds_iff]
    rintro ⟨-, field, text, hfield, htext, -⟩
    -- from a sequence or from nothing, no chain of keys leads to a scalar
    have hnone := Node.scalarText?_getAll? hnode (PathStep.keys predicate.path)
    rw [hfield, Option.bind_some, htext] at hnone
    cases hnone
  refine ⟨fun node => ?_, hnever, fun c items hc item hitem => ?_,
    fun node steps hsteps hmeets => ?_⟩
  · rw [holds_iff]
    refine and_congr_right fun _ => exists_congr fun field => exists_congr fun text => ?_
    refine and_congr_right fun _ => ⟨fun h => ?_, fun h => h.2⟩
    exact ⟨Node.isScalar_of_scalarText? h.1, h⟩
  · have hnot : ¬(item.isSequence = true ∨ item.isAbsent = true) := by
      intro hitem'
      have hholds := Cursor.holds_of_mem_select hc hitem
      rw [hnever item hitem'] at hholds
      cases hholds
    simpa using hnot
  · rw [← Bool.not_eq_true, holds_iff]
    rintro ⟨-, field, text, hfield, htext, -⟩
    obtain ⟨more, hmore⟩ := hsteps
    rw [← hmore, PathStep.keys, List.filterMap_append, Node.getAll?_append] at hfield
    obtain ⟨reached, hreached, hrest⟩ := Option.bind_eq_some_iff.mp hfield
    have hnone := Node.scalarText?_getAll? (Or.inl (hmeets reached hreached))
      (more.filterMap PathStep.key?)
    rw [hrest, Option.bind_some, htext] at hnone
    cases hnone

/-- The predicate `.a.b != x` on three nodes: a scalar, a sequence on the way, and a missing key. -/
example :
    let predicate : Predicate := ⟨[.key "a", .key "b"], .notEqual, "x"⟩
    let y : Node := .mapping [("b", .string "y")]
    predicate.holds (.mapping [("a", y)]) = true ∧
      predicate.holds (.mapping [("a", .sequence [y])]) = false ∧
      predicate.holds (.mapping [("a", .mapping [])]) = false := by decide

end Predicate
end YamlSieve
