import YamlSieve.Node

/-!
# Cursors

A cursor is the node that an evaluation has reached, with the knowledge whether it is still a part
of the source document. Looking up children keeps it one; building a new node ends that.
-/

namespace YamlSieve

/-- The entry of a key, taken out of the list of entries. -/
def Node.detach (key : String) :
    List (String × Node) → Option (Node × List (String × Node))
  | []              => none
  | (k, v) :: entries =>
    if k = key then
      some (v, entries)
    else
      (detach key entries).map fun (child, rest) => (child, (k, v) :: rest)

/-- The child under a key of a mapping that is given up for it. -/
def Node.intoChild? (key : String) : Node → Option Node
  | mapping entries => (detach key entries).map (·.1)
  | _               => none

/-- The node reached by an evaluation, borrowed from the source document or owned. -/
structure Cursor where
  node     : Node
  borrowed : Bool

namespace Cursor

def borrow (node : Node) : Cursor := ⟨node, true⟩

def own (node : Node) : Cursor := ⟨node, false⟩

def absent : Cursor := own .absent

/-- Goes to the child under a key, or to nothing. -/
def descend (key : String) (cursor : Cursor) : Cursor :=
  let child :=
    if cursor.borrowed then (cursor.node.get? key).map borrow
    else (cursor.node.intoChild? key).map own
  child.getD absent

/--
The step `.key`: on a sequence, the children under the key of all items, without those that are
sequences themselves; on any other node, the child under the key.
-/
def collectKey (key : String) (cursor : Cursor) : Cursor :=
  match cursor.node with
  | .sequence items =>
    own (.sequence ((items.filterMap (Node.get? key)).filter fun child => !child.isSequence))
  | _               => cursor.descend key

/--
The step `.key[]`: on a sequence, the items of all sequences that are children under the key of
its items; on any other node, the child under the key.
-/
def flattenKey (key : String) (cursor : Cursor) : Cursor :=
  match cursor.node with
  | .sequence items =>
    own (.sequence ((items.filterMap (Node.get? key)).filterMap Node.items?).flatten)
  | _               => cursor.descend key

/-- The step `.[]`: keeps a sequence and goes from any other node to nothing. -/
def flatten (cursor : Cursor) : Cursor :=
  if cursor.node.isSequence then cursor else absent

end Cursor
end YamlSieve
