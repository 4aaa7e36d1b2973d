import YamlSieve.Number.Decimal
import YamlSieve.Number.Integer
import YamlSieve.Yaml.Tag

/-!
# Values

The values that the nodes of a stream stand for. Any value can be the key of a mapping, and a
floating point number keeps its spelling.
-/

namespace YamlSieve.Yaml

/-- A value of a stream. -/
inductive Value where
  | string (text : String)
  /-- A floating point number, as it is spelled. -/
  | real (text : String)
  | integer (value : Int64)
  | boolean (value : Bool)
  | null
  | sequence (items : List Value)
  | mapping (entries : List (Value × Value))
  /-- An alias that was not replaced by what its anchor stands for. -/
  | aliasOf (anchor : Nat)
  /-- A scalar that its tag does not admit, or an alias inside of what it stands for. -/
  | invalid
deriving Inhabited

namespace Value

/-! ### Induction -/

/--
A property holds of all values if it is handed on from the items of a sequence, and from what the
keys of a mapping are bound to.
-/
@[elab_as_elim]
theorem induction {P : Value → Prop}
    (mapping : ∀ es : List (Value × Value), (∀ e ∈ es, P e.2) → P (.mapping es))
    (sequence : ∀ xs : List Value, (∀ x ∈ xs, P x) → P (.sequence xs))
    (leaf : ∀ x : Value, (∀ es, x ≠ .mapping es) → (∀ xs, x ≠ .sequence xs) → P x) : ∀ x, P x
  | .mapping es  => mapping es fun e _ => induction mapping sequence leaf e.2
  | .sequence xs => sequence xs fun x _ => induction mapping sequence leaf x
  | .string _ | .real _ | .integer _ | .boolean _ | .null | .aliasOf _ | .invalid =>
    leaf _ (fun _ h => by cases h) fun _ h => by cases h
termination_by x => sizeOf x
decreasing_by
  · next he =>
    have hentry := List.sizeOf_lt_of_mem he
    have hvalue : sizeOf e = 1 + sizeOf e.1 + sizeOf e.2 := by cases e; simp
    simp only [Value.mapping.sizeOf_spec]
    omega
  · next hx =>
    have hitem := List.sizeOf_lt_of_mem hx
    simp only [Value.sequence.sizeOf_spec]
    omega

/-! ### Equality -/

mutual

/-- Equality of values; mappings have to agree in the order of their entries. -/
def same : Value → Value → Bool
  | string s, string t       => s == t
  | real s, real t           => s == t
  | integer i, integer j     => i == j
  | boolean b, boolean c     => b == c
  | null, null               => true
  | sequence xs, sequence ys => sameItems xs ys
  | mapping es, mapping fs   => sameEntries es fs
  | aliasOf i, aliasOf j     => i == j
  | invalid, invalid         => true
  | _, _                     => false

def sameItems : List Value → List Value → Bool
  | [], []           => true
  | x :: xs, y :: ys => same x y && sameItems xs ys
  | _, _             => false

def sameEntries : List (Value × Value) → List (Value × Value) → Bool
  | [], []                     => true
  | (k, v) :: es, (l, w) :: fs => same k l && same v w && sameEntries es fs
  | _, _                       => false

end

/-! ### Scalars -/

/-- Reads a floating point number: a numeral with a digit, or a spelling of infinity or NaN. -/
def readReal? (text : String) : Option Binary64 :=
  if text ∈ [".inf", ".Inf", ".INF", "+.inf", "+.Inf", "+.INF"] then some (.infinity false)
  else if text ∈ ["-.inf", "-.Inf", "-.INF"] then some (.infinity true)
  else if text ∈ [".nan", ".NaN", ".NAN"] then some .nan
  else if text.toList.any Char.isDigit then Binary64.read? text.toList
  else none

def readBoolean? (text : String) : Option Bool :=
  if text ∈ ["true", "True", "TRUE"] then some true
  else if text ∈ ["false", "False", "FALSE"] then some false
  else none

/-- Reads an integer: hexadecimal after `0x`, octal after `0o`, and else decimal. -/
def readInteger? (text : String) : Option Int64 :=
  match text.toList with
  | '0' :: 'x' :: cs => Integer.readInt64? 16 cs
  | '0' :: 'o' :: cs => Integer.readInt64? 8 cs
  | '+' :: cs        => Integer.readInt64? 10 cs
  | cs               => Integer.readInt64? 10 cs

/-- The value of a plain scalar without a tag. -/
def ofPlain (text : String) : Value :=
  match readInteger? text with
  | some i => integer i
  | none   =>
    if text ∈ ["", "~", "null"] then
      null
    else
      match readBoolean? text with
      | some b => boolean b
      | none   => if (readReal? text).isSome then real text else string text

/-- What the handle `!!` stands for unless a directive says otherwise. -/
def coreHandle : String := "tag:yaml.org,2002:"

/-- The value of a plain scalar with a tag of the core schema, or with any other tag. -/
def ofTagged (tag : Tag) (text : String) : Value :=
  if tag.handle ≠ coreHandle then
    string text
  else if tag.suffix = "bool" then
    ((readBoolean? text).map boolean).getD invalid
  else if tag.suffix = "int" then
    ((Integer.readInt64? 10 text.toList).map integer).getD invalid
  else if tag.suffix = "float" then
    if (readReal? text).isSome then real text else invalid
  else if tag.suffix = "null" then
    if text = "~" || text = "null" then null else invalid
  else
    string text

/-- The value of a scalar; only a plain one can be anything else than a string. -/
def ofScalar (tag : Option Tag) (plain : Bool) (text : String) : Value :=
  match plain, tag with
  | false, _       => string text
  | true, some tag => ofTagged tag text
  | true, none     => ofPlain text

/-! ### Mappings -/

def isInvalid : Value → Bool
  | invalid => true
  | _       => false

/--
The entries that a row of keys and values stands for, after a key that was read already. An
invalid value is no key: the next value takes its place.
-/
def pairUp : Option Value → List Value → List (Value × Value)
  | _, []           => []
  | some k, v :: vs => (k, v) :: pairUp none vs
  | none, k :: vs   => if k.isInvalid then pairUp none vs else pairUp (some k) vs

/-- Whether no key occurs twice. -/
def keysDiffer : List (Value × Value) → Bool
  | []           => true
  | (k, _) :: es => !es.any (fun e => same k e.1) && keysDiffer es

/-- The mapping of a row of keys and values, unless a key occurs twice. -/
def mapping? (row : List Value) : Option Value :=
  let entries := pairUp none row
  if keysDiffer entries then some (mapping entries) else none

end Value
end YamlSieve.Yaml
