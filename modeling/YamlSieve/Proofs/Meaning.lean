import YamlSieve.Proofs.Grammar

/-!
# The meaning of items

What a path step, a predicate and an item do to a node, said without cursors. A cursor computes
the same, whether it is borrowed or owned: `Item.node_applyAll`.
-/

namespace YamlSieve

/-! ### Nodes -/

namespace Node

/-- The child under a key of a mapping, and nothing for a missing key or another node. -/
def child (key : String) : Node → Node
  | mapping entries => (entries.lookup key).getD absent
  | _               => absent

/-- What an item of a sequence adds to the step `.key`: its child, unless that is a sequence. -/
def collected (key : String) (item : Node) : List Node :=
  (item.get? key).toList.filter fun child => !child.isSequence

/-- What an item of a sequence adds to the step `.key[]`: the items of its child. -/
def flattened (key : String) (item : Node) : List Node :=
  ((item.get? key).bind items?).getD []

lemma getD_get? (key : String) (node : Node) : (node.get? key).getD absent = node.child key := by
  cases node <;> rfl

end Node

/-! ### Steps, predicates and items -/

/-- The node to which a step leads. -/
def PathStep.eval : PathStep → Node → Node
  | key k,        .sequence items => .sequence (items.flatMap (Node.collected k))
  | key k,        node            => node.child k
  | flattenKey k, .sequence items => .sequence (items.flatMap (Node.flattened k))
  | flattenKey k, node            => node.child k
  | flatten,      .sequence items => .sequence items
  | flatten,      _               => .absent

/-- The node to which a path leads. -/
def PathStep.evalAll (steps : List PathStep) (node : Node) : Node :=
  steps.foldl (fun node step => step.eval node) node

/-- Whether the path leads to a scalar that compares true with the literal. -/
def Predicate.accepts (predicate : Predicate) (node : Node) : Bool :=
  match (PathStep.evalAll predicate.path node).scalarText? with
  | some text => predicate.operator.holds text predicate.literal
  | none      => false

/-- The node that an item makes of a node. -/
def Item.eval : Item → Node → Node
  | path steps, node                  => PathStep.evalAll steps node
  | select predicate, .sequence items => .sequence (items.filter predicate.accepts)
  | select predicate, node            => if predicate.accepts node then node else .absent

/-- The node that the items of an expression make of a document, one after the other. -/
def Item.evalAll (items : List Item) (root : Node) : Node :=
  items.foldl (fun node item => item.eval node) root

lemma Item.evalAll_append (is js : List Item) (root : Node) :
    Item.evalAll (is ++ js) root = Item.evalAll js (Item.evalAll is root) :=
  List.foldl_append

/-- The cursor that an item makes of a cursor. -/
def Item.apply (cursor : Cursor) : Item → Cursor
  | path steps       => PathStep.applyAll cursor steps
  | select predicate => cursor.select predicate

/-- The cursor that the items of an expression make of a cursor, one after the other. -/
def Item.applyAll (items : List Item) (cursor : Cursor) : Cursor :=
  items.foldl Item.apply cursor

/-! ### Cursors -/

/-- Taking a child out of its mapping finds the same child as looking it up. -/
lemma Node.intoChild?_eq_get? (key : String) (node : Node) :
    node.intoChild? key = node.get? key := by
  cases node with
  | mapping entries =>
    simp only [intoChild?, get?]
    induction entries with
    | nil => rfl
    | cons entry entries ih =>
      obtain ⟨k, v⟩ := entry
      by_cases hk : k = key
      · simp [detach, hk]
      · have hne : (key == k) = false := beq_false_of_ne (Ne.symm hk)
        rw [List.lookup_cons, hne, ← ih, detach, if_neg hk, Option.map_map]
        rfl
  | _ => rfl

lemma Node.flatMap_collected (key : String) (items : List Node) :
    items.flatMap (collected key) =
      (items.filterMap (get? key)).filter fun child => !child.isSequence := by
  induction items with
  | nil => rfl
  | cons item items ih =>
    rw [List.flatMap_cons, ih, collected]
    cases hchild : item.get? key with
    | none => simp [hchild]
    | some child => by_cases hsequence : child.isSequence <;> simp [hchild, hsequence]

lemma Node.flatMap_flattened (key : String) (items : List Node) :
    items.flatMap (flattened key) =
      ((items.filterMap (get? key)).filterMap Node.items?).flatten := by
  induction items with
  | nil => rfl
  | cons item items ih =>
    rw [List.flatMap_cons, ih, flattened]
    cases hchild : item.get? key with
    | none => simp [hchild]
    | some child => cases hitems : child.items? <;> simp [hchild, hitems]

namespace Cursor

lemma node_descend (key : String) (cursor : Cursor) :
    (cursor.descend key).node = cursor.node.child key := by
  rw [← Node.getD_get?]
  rw [descend]
  split_ifs
  · cases cursor.node.get? key <;> rfl
  · rw [Node.intoChild?_eq_get?]
    cases cursor.node.get? key <;> rfl

lemma node_collectKey (key : String) (cursor : Cursor) :
    (cursor.collectKey key).node = (PathStep.key key).eval cursor.node := by
  rw [collectKey]
  split
  · next items hnode =>
    rw [hnode, PathStep.eval, Node.flatMap_collected]
    rfl
  · next hnode =>
    rw [node_descend, PathStep.eval]
    exact hnode

lemma node_flattenKey (key : String) (cursor : Cursor) :
    (cursor.flattenKey key).node = (PathStep.flattenKey key).eval cursor.node := by
  rw [flattenKey]
  split
  · next items hnode =>
    rw [hnode, PathStep.eval, Node.flatMap_flattened]
    rfl
  · next hnode =>
    rw [node_descend, PathStep.eval]
    exact hnode

lemma node_flatten (cursor : Cursor) : cursor.flatten.node = PathStep.flatten.eval cursor.node := by
  rw [flatten]
  cases hnode : cursor.node <;> simp [Node.isSequence, PathStep.eval, hnode, absent, own]

end Cursor

lemma PathStep.node_apply (cursor : Cursor) (step : PathStep) :
    (PathStep.apply cursor step).node = step.eval cursor.node := by
  cases step with
  | key k => exact Cursor.node_collectKey k cursor
  | flattenKey k => exact Cursor.node_flattenKey k cursor
  | flatten => exact Cursor.node_flatten cursor

lemma PathStep.node_applyAll (cursor : Cursor) (steps : List PathStep) :
    (PathStep.applyAll cursor steps).node = PathStep.evalAll steps cursor.node := by
  rw [applyAll, evalAll]
  induction steps generalizing cursor with
  | nil => rfl
  | cons step steps ih => rw [List.foldl_cons, List.foldl_cons, ih, node_apply]

lemma Predicate.holds_eq_accepts (predicate : Predicate) : predicate.holds = predicate.accepts := by
  funext node
  rw [holds, accepts]
  rw [PathStep.node_applyAll]
  rfl

lemma Cursor.node_select (predicate : Predicate) (cursor : Cursor) :
    (cursor.select predicate).node = (Item.select predicate).eval cursor.node := by
  rw [Cursor.select]
  rw [Predicate.holds_eq_accepts]
  split
  · next items hnode =>
    rw [hnode]
    rfl
  · next hnode =>
    rw [Item.eval]
    · split_ifs
      · rfl
      · rfl
    · exact hnode

lemma Item.node_apply (cursor : Cursor) (item : Item) :
    (item.apply cursor).node = item.eval cursor.node := by
  cases item with
  | path steps => exact PathStep.node_applyAll cursor steps
  | select predicate => exact Cursor.node_select predicate cursor

/-- Items do to a cursor what they mean for its node. -/
theorem Item.node_applyAll (items : List Item) (cursor : Cursor) :
    (Item.applyAll items cursor).node = Item.evalAll items cursor.node := by
  rw [applyAll, evalAll]
  induction items generalizing cursor with
  | nil => rfl
  | cons item items ih => rw [List.foldl_cons, List.foldl_cons, ih, node_apply]

end YamlSieve
