import YamlSieve.Proofs.Meaning

/-!
# Borrowing is not seen

Every operation finds the same node under a cursor whether it is borrowed or owned: what it makes of
the node is said without the cursor (`Cursor.Operation.eval`). So two runs of the same operations
from the same node, the one borrowed and the other owned, show the same nodes all along, and taking
a child out of an owned mapping is no different from looking it up (`Cursor.trace_borrow_eq_own`).
-/

namespace YamlSieve

/-- An operation on cursors. -/
inductive Cursor.Operation where
  | descend (key : String)
  | collectKey (key : String)
  | flattenKey (key : String)
  | flatten
  | follow (steps : List PathStep)
  | select (predicate : Predicate)
deriving DecidableEq, Repr

namespace Cursor

/-- The cursor that an operation makes of a cursor. -/
def Operation.apply (c : Cursor) : Operation → Cursor
  | descend key      => c.descend key
  | collectKey key   => c.collectKey key
  | flattenKey key   => c.flattenKey key
  | flatten          => c.flatten
  | follow steps     => PathStep.applyAll c steps
  | select predicate => c.select predicate

/-- The node that an operation makes of a node. -/
def Operation.eval (node : Node) : Operation → Node
  | descend key      => node.child key
  | collectKey key   => (PathStep.key key).eval node
  | flattenKey key   => (PathStep.flattenKey key).eval node
  | flatten          => PathStep.flatten.eval node
  | follow steps     => PathStep.evalAll steps node
  | select predicate => (Item.select predicate).eval node

/-- The cursors before, between and after the operations. -/
def trace : List Operation → Cursor → List Cursor
  | [],        c => [c]
  | op :: ops, c => c :: trace ops (op.apply c)

lemma Operation.node_apply (op : Operation) (c : Cursor) : (op.apply c).node = op.eval c.node := by
  cases op with
  | descend key => exact node_descend key c
  | collectKey key => exact node_collectKey key c
  | flattenKey key => exact node_flattenKey key c
  | flatten => exact node_flatten c
  | follow steps => exact PathStep.node_applyAll c steps
  | select predicate => exact node_select predicate c

/-- Cursors on the same node show the same nodes under all operations. -/
lemma map_node_trace (ops : List Operation) {c d : Cursor} (h : c.node = d.node) :
    (trace ops c).map node = (trace ops d).map node := by
  induction ops generalizing c d with
  | nil => rw [trace, trace, List.map_singleton, List.map_singleton, h]
  | cons op ops ih =>
    have hnext : (op.apply c).node = (op.apply d).node := by
      rw [op.node_apply, op.node_apply, h]
    rw [trace, trace, List.map_cons, List.map_cons, h, ih hnext]

/--
The same operations from a borrowed and from an owned cursor on the same node lead through the same
nodes. In particular a child that is taken out of its mapping is the one that is found there.
-/
theorem trace_borrow_eq_own (root : Node) (ops : List Operation) :
    (trace ops (.borrow root)).map node = (trace ops (.own root)).map node ∧
      ∀ key (node : Node), node.intoChild? key = node.get? key :=
  ⟨map_node_trace ops rfl, Node.intoChild?_eq_get?⟩

end Cursor
end YamlSieve
