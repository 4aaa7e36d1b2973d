import YamlSieve.Number.Integer
import YamlSieve.Number.Layout

/-!
# Document nodes

The tree of a document. Mappings keep the order of their entries, and `absent` stands for nothing
at all: it is what a step yields that finds nothing.
-/

namespace YamlSieve

/-- A node of a document tree. -/
inductive Node where
  | mapping (entries : List (String × Node))
  | sequence (items : List Node)
  | string (text : String)
  | integer (value : Int64)
  | float (value : Binary64)
  | boolean (value : Bool)
  | null
  | absent
deriving Inhabited

namespace Node

/-! ### Kinds of nodes -/

def typeName : Node → String
  | mapping _  => "mapping"
  | sequence _ => "sequence"
  | string _   => "string"
  | integer _  => "number"
  | float _    => "number"
  | boolean _  => "boolean"
  | null       => "null"
  | absent     => "absent"

def isSequence : Node → Bool
  | sequence _ => true
  | _          => false

def isMapping : Node → Bool
  | mapping _ => true
  | _         => false

def isAbsent : Node → Bool
  | absent => true
  | _      => false

/-- Strings, numbers, booleans and null are scalars. -/
def isScalar : Node → Bool
  | string _ | integer _ | float _ | boolean _ | null => true
  | mapping _ | sequence _ | absent                   => false

def items? : Node → Option (List Node)
  | sequence items => some items
  | _              => none

/-! ### Induction -/

/-- A property holds of all trees if it is handed on from the children of a node to the node. -/
@[elab_as_elim]
theorem induction {P : Node → Prop}
    (mapping : ∀ es : List (String × Node), (∀ e ∈ es, P e.2) → P (.mapping es))
    (sequence : ∀ xs : List Node, (∀ x ∈ xs, P x) → P (.sequence xs))
    (leaf : ∀ x : Node, x.isMapping = false → x.isSequence = false → P x) : ∀ x, P x
  | .mapping es  => mapping es fun e _ => induction mapping sequence leaf e.2
  | .sequence xs => sequence xs fun x _ => induction mapping sequence leaf x
  | .string _ | .integer _ | .float _ | .boolean _ | .null | .absent => leaf _ rfl rfl
termination_by x => sizeOf x
decreasing_by
  · next he =>
    have hentry := List.sizeOf_lt_of_mem he
    have hvalue : sizeOf e = 1 + sizeOf e.1 + sizeOf e.2 := by cases e; simp
    simp only [Node.mapping.sizeOf_spec]
    omega
  · next hx =>
    have hitem := List.sizeOf_lt_of_mem hx
    simp only [Node.sequence.sizeOf_spec]
    omega

/-! ### Children -/

/-- The child stored under a key of a mapping; other nodes have no keyed children. -/
def get? (key : String) : Node → Option Node
  | mapping entries => entries.lookup key
  | _               => none

/-- The children in document order; those of a mapping carry their key. -/
def children : Node → List (Option String × Node)
  | mapping entries => entries.map fun (key, child) => (some key, child)
  | sequence items  => items.map fun item => (none, item)
  | _               => []

/-- Binds a key in a list of entries: a known key keeps its place and takes the new value. -/
def bind (key : String) (value : Node) : List (String × Node) → List (String × Node)
  | []                  => [(key, value)]
  | (k, v) :: entries =>
    if k = key then (k, value) :: entries else (k, v) :: bind key value entries

def ofEntries (entries : List (String × Node)) : Node :=
  mapping (entries.foldl (fun bound (key, value) => bind key value bound) [])

/--
Appends an item. Absent and null become a sequence of this one item; any other node than these
and a sequence refuses.
-/
def push? (node item : Node) : Option Node :=
  match node with
  | sequence items => some (sequence (items ++ [item]))
  | absent | null  => some (sequence [item])
  | _              => none

/-! ### Scalar texts -/

/-- The text of a scalar. -/
def scalarText? : Node → Option String
  | string text   => some text
  | integer value => some (Integer.text value)
  | float value   => some (Layout.plain.text value)
  | boolean value => some (if value then "true" else "false")
  | null          => some "null"
  | mapping _ | sequence _ | absent => none

/-- The text of a scalar, or those of the scalars among the items of a sequence. -/
def scalarTexts : Node → List String
  | sequence items => items.filterMap scalarText?
  | node           => node.scalarText?.toList

/-! ### Equality -/

mutual

/--
Equality of nodes. Mappings are equal when they have as many entries and each entry of the one is
equal to the entry of the other with the same key; integers and floats are never equal.
-/
def same : Node → Node → Bool
  | mapping es, mapping fs   => es.length == fs.length && sameEntries es fs
  | sequence xs, sequence ys => sameItems xs ys
  | string s, string t       => s == t
  | integer i, integer j     => i == j
  | float x, float y         => x.same y
  | boolean b, boolean c     => b == c
  | null, null               => true
  | absent, absent           => true
  | _, _                     => false

/-- Whether every entry of the first list has an equal one in the second. -/
def sameEntries : List (String × Node) → List (String × Node) → Bool
  | [], _            => true
  | (k, v) :: es, fs =>
    (match fs.lookup k with
     | some w => same v w
     | none   => false) && sameEntries es fs

def sameItems : List Node → List Node → Bool
  | [], []           => true
  | x :: xs, y :: ys => same x y && sameItems xs ys
  | _, _             => false

end

/-! ### Identity

Identity of trees is finer than equality: it minds the order of entries and the sign of zero, and
NaN is identical to itself. -/

mutual

/-- Whether two nodes are the same tree. -/
def beq : Node → Node → Bool
  | mapping es, mapping fs   => beqEntries es fs
  | sequence xs, sequence ys => beqItems xs ys
  | string s, string t       => s = t
  | integer i, integer j     => i = j
  | float x, float y         => x = y
  | boolean b, boolean c     => b = c
  | null, null               => true
  | absent, absent           => true
  | _, _                     => false

def beqEntries : List (String × Node) → List (String × Node) → Bool
  | [], []                     => true
  | (k, v) :: es, (l, w) :: fs => k = l && beq v w && beqEntries es fs
  | _, _                       => false

def beqItems : List Node → List Node → Bool
  | [], []           => true
  | x :: xs, y :: ys => beq x y && beqItems xs ys
  | _, _             => false

end

mutual

theorem beq_iff : (x y : Node) → (beq x y = true ↔ x = y)
  | mapping es, y  => by cases y <;> simp [beq, beqEntries_iff es]
  | sequence xs, y => by cases y <;> simp [beq, beqItems_iff xs]
  | string _, y    => by cases y <;> simp [beq]
  | integer _, y   => by cases y <;> simp [beq]
  | float _, y     => by cases y <;> simp [beq]
  | boolean _, y   => by cases y <;> simp [beq]
  | null, y        => by cases y <;> simp [beq]
  | absent, y      => by cases y <;> simp [beq]

theorem beqEntries_iff : (es fs : List (String × Node)) → (beqEntries es fs = true ↔ es = fs)
  | [], fs           => by cases fs <;> simp [beqEntries]
  | (k, v) :: es, fs => by
    cases fs <;> simp [beqEntries, beq_iff v, beqEntries_iff es, Prod.ext_iff]

theorem beqItems_iff : (xs ys : List Node) → (beqItems xs ys = true ↔ xs = ys)
  | [], ys      => by cases ys <;> simp [beqItems]
  | x :: xs, ys => by cases ys <;> simp [beqItems, beq_iff x, beqItems_iff xs]

end

instance : DecidableEq Node := fun x y => decidable_of_iff _ (beq_iff x y)

/-! ### Numbers -/

/-- Whether a node is an integer, for numbers only. -/
def isInteger? : Node → Option Bool
  | integer _ => some true
  | float _   => some false
  | _         => none

/-- The binary64 value nearest to a number node. -/
def binary64? : Node → Option Binary64
  | integer value => some (.ofRatio (value.toInt < 0) value.toInt.natAbs 1)
  | float value   => some value
  | _             => none

end Node
end YamlSieve
