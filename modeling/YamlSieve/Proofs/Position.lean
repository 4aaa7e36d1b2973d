import Mathlib.Tactic.Common
import YamlSieve.Node

/-!
# Positions in a document

A position leads from the root of a document to one of its subtrees and names the place of a child
on every level. Document order is the lexicographic order of positions; a position that extends
another one lies inside the subtree there.
-/

namespace YamlSieve

namespace Node

/-- The subtree at a position. -/
def at? : Node → List Nat → Option Node
  | node, []     => some node
  | node, i :: p => (node.children[i]?).bind fun (_, child) => child.at? p

@[simp] lemma at?_nil (node : Node) : node.at? [] = some node := rfl

@[simp] lemma at?_sequence_cons (items : List Node) (i : Nat) (p : List Nat) :
    (sequence items).at? (i :: p) = items[i]?.bind (·.at? p) := by
  rw [at?, children, List.getElem?_map, Option.bind_map]
  rfl

@[simp] lemma at?_absent_cons (i : Nat) (p : List Nat) : absent.at? (i :: p) = none := rfl

lemma at?_append (node : Node) (p q : List Nat) :
    node.at? (p ++ q) = (node.at? p).bind (·.at? q) := by
  induction p generalizing node with
  | nil => rfl
  | cons i p ih =>
    rw [List.cons_append, at?, at?]
    cases node.children[i]? with
    | none => rfl
    | some entry => exact ih entry.2

/-- The child under a key is one of the children of the node. -/
lemma exists_at?_of_get? {key : String} {node child : Node} (h : node.get? key = some child) :
    ∃ i, node.at? [i] = some child := by
  cases node with
  | mapping entries =>
    obtain ⟨before, after, rfl, -⟩ := List.lookup_eq_some_iff.mp h
    exact ⟨before.length, by simp [at?, children]⟩
  | _ => cases h

end Node

/-! ### Document order -/

/-- The first position comes before the second, and none of them lies inside the other. -/
inductive Precedes : List Nat → List Nat → Prop
  | head {i j : Nat} (h : i < j) (p q : List Nat) : Precedes (i :: p) (j :: q)
  | tail (i : Nat) {p q : List Nat} (h : Precedes p q) : Precedes (i :: p) (i :: q)

namespace Precedes

variable {p q : List Nat}

lemma append_left (h : Precedes p q) (r : List Nat) : Precedes (r ++ p) (r ++ q) := by
  induction r with
  | nil => exact h
  | cons i r ih => exact tail i ih

/-- Whatever lies inside two such positions is in the same order. -/
lemma append (h : Precedes p q) (r s : List Nat) : Precedes (p ++ r) (q ++ s) := by
  induction h with
  | head h p q => exact head h (p ++ r) (q ++ s)
  | tail i h ih => exact tail i ih

theorem lt_and_not_prefix (h : Precedes p q) : p < q ∧ ¬p <+: q ∧ ¬q <+: p := by
  induction h with
  | head h p q =>
    have hne := Nat.ne_of_lt h
    refine ⟨List.cons_lt_cons_iff.mpr (Or.inl h), ?_, ?_⟩
    · simp [List.cons_prefix_cons, hne]
    · simp [List.cons_prefix_cons, hne.symm]
  | tail i h ih =>
    obtain ⟨hlt, hpq, hqp⟩ := ih
    refine ⟨List.cons_lt_cons_iff.mpr (Or.inr ⟨rfl, hlt⟩), ?_, ?_⟩
    · simpa [List.cons_prefix_cons] using hpq
    · simpa [List.cons_prefix_cons] using hqp

end Precedes
end YamlSieve
