import YamlSieve.Proofs.Yaml.Ambiguity
import YamlSieve.Proofs.Yaml.LiteralScalar
import YamlSieve.Yaml.Printer

/-!
# Tokens of a written node

The tokens that a node is written with (`nodeTokens`), and the value that they are read as.
-/

namespace YamlSieve.Yaml

/-! ### Written strings -/

namespace Style

/-- The token of a string in its style. -/
def token (text : String) : TokenKind := .scalar (ofText text = plain) text

/--
Whether separators are written only at the ends of lines, behind other characters, and not on the
last line. There the writer adds no indentation behind them.
-/
def separatorsEndLines (cs : List Char) : Bool :=
  !hasNeighbours (· = '\n') isUnicodeBreak ('\n' :: cs) &&
    !hasNeighbours isUnicodeBreak (!isLineBreak ·) cs && !cs.getLast?.any isUnicodeBreak

/-- Whether the style of a string keeps its separators. -/
def keepsSeparators (text : String) : Bool :=
  match ofText text with
  | plain | doubleQuoted => true
  | singleQuoted         => !text.toList.any isUnicodeBreak
  | literal              => separatorsEndLines text.toList

end Style

/-! ### Portable nodes -/

mutual

/--
Whether a node can be told from its text: the keys of a mapping are distinct and read as these keys,
no node is absent or NaN, and every string is written in a style that keeps it. Beyond that, the
strings are put to a test.
-/
def isPortableIf (test : String → Bool) : Node → Bool
  | .mapping es  => (es.map Prod.fst).Nodup && arePortableEntriesIf test es
  | .sequence xs => arePortableItemsIf test xs
  | .string text => Style.keepsSeparators text && test text
  | .float value => value ≠ .nan
  | .absent      => false
  | _            => true

def arePortableEntriesIf (test : String → Bool) : List (String × Node) → Bool
  | []                 => true
  | (key, value) :: es =>
    Style.keepsSeparators key && Style.staysKey key && isPortableIf test value &&
      arePortableEntriesIf test es

def arePortableItemsIf (test : String → Bool) : List Node → Bool
  | []      => true
  | x :: xs => isPortableIf test x && arePortableItemsIf test xs

end

/-- Whether a node is read back as it was. -/
def isPortable (node : Node) : Bool := isPortableIf Style.staysString node

/-- A separator in front of a line break comes back, and so does a key that overflows. -/
example : isPortable (.mapping [("1e400", .string "a\u2028\nb")]) := by decide +kernel

/-! ### Tokens -/

mutual

/-- The tokens of a written node; those of a sequence may be its items alone. -/
def nodeTokens (indentless : Bool) : Node → List TokenKind
  | .mapping []         => [.flowMappingStart, .flowMappingEnd]
  | .mapping (e :: es)  => .blockMappingStart :: entryTokens (e :: es) ++ [.blockEnd]
  | .sequence []        => [.flowSequenceStart, .flowSequenceEnd]
  | .sequence (x :: xs) =>
    if indentless then itemTokens (x :: xs)
    else .blockSequenceStart :: itemTokens (x :: xs) ++ [.blockEnd]
  | .string text        => [Style.token text]
  | .integer value      => [.scalar true (Integer.text value)]
  | .float value        => [.scalar true (Layout.yaml.text value)]
  | .boolean value      => [.scalar true (if value then "true" else "false")]
  | .null               => [.scalar true "null"]
  | .absent             => [.scalar true "null"]

def entryTokens : List (String × Node) → List TokenKind
  | []                 => []
  | (key, value) :: es =>
    .key :: Style.token key :: .value :: nodeTokens (isSimpleKey key) value ++ entryTokens es

def itemTokens : List Node → List TokenKind
  | []      => []
  | x :: xs => .blockEntry :: nodeTokens false x ++ itemTokens xs

end

/-! ### Values -/

mutual

/-- The value that a written node is read as. -/
def readBack : Node → Value
  | .mapping es    => .mapping (entriesBack es)
  | .sequence xs   => .sequence (itemsBack xs)
  | .string text   => Style.readValue text
  | .integer value => .integer value
  | .float value   => .real (Layout.yaml.text value)
  | .boolean value => .boolean value
  | .null          => .null
  | .absent        => .null

def entriesBack : List (String × Node) → List (Value × Value)
  | []                 => []
  | (key, value) :: es => (Style.readValue key, readBack value) :: entriesBack es

def itemsBack : List Node → List Value
  | []      => []
  | x :: xs => readBack x :: itemsBack xs

end

/-! ### Readers of tokens -/

namespace Composer

/-- A reader passes the first of the given tokens down to the others, and yields a result. -/
def Reads {α : Type} (reader : Reader α) (before : List TokenKind) (result : α)
    (after : List TokenKind) : Prop :=
  ∀ c : Composer, c.tokens = before → ∃ c', reader c = .ok (result, c') ∧ c'.tokens = after

variable {α β : Type} {k : TokenKind} {ks ks' ks'' : List TokenKind}

lemma Reads.bind {reader : Reader α} {next : α → Reader β} {a : α} {b : β}
    (h : Reads reader ks a ks') (hnext : Reads (next a) ks' b ks'') :
    Reads (reader >>= next) ks b ks'' := by
  intro c hc
  obtain ⟨c', hread, hc'⟩ := h c hc
  show ∃ c'', StateT.bind reader next c = _ ∧ _
  rw [StateT.bind, hread]
  exact hnext c' hc'

lemma Reads.pure (a : α) (ks : List TokenKind) : Reads (pure a) ks a ks :=
  fun c hc => ⟨c, rfl, hc⟩

lemma reads_peek (k : TokenKind) (ks : List TokenKind) : Reads peek (k :: ks) k (k :: ks) := by
  rintro ⟨_, _, _, _, _⟩ rfl
  exact ⟨_, rfl, rfl⟩

lemma reads_skip (k : TokenKind) (ks : List TokenKind) : Reads skip (k :: ks) () ks := by
  rintro ⟨_, _, _, _, _⟩ rfl
  exact ⟨_, rfl, rfl⟩

lemma reads_accept (k : TokenKind) (ks : List TokenKind) :
    Reads (accept k) (k :: ks) true ks := by
  refine (reads_peek k ks).bind ?_
  rw [if_pos rfl]
  exact (reads_skip k ks).bind (Reads.pure true ks)

lemma reads_accept_of_ne {k' : TokenKind} (h : k ≠ k') (ks : List TokenKind) :
    Reads (accept k') (k :: ks) false (k :: ks) := by
  refine (reads_peek k ks).bind ?_
  rw [if_neg h]
  exact Reads.pure false (k :: ks)

lemma reads_expect (k : TokenKind) (ks : List TokenKind) : Reads (expect k) (k :: ks) () ks := by
  refine (reads_peek k ks).bind ?_
  rw [if_pos rfl]
  exact reads_skip k ks

/-- The kinds of tokens that a node without properties starts with. -/
def startsNode : TokenKind → Bool
  | .scalar _ _ | .flowSequenceStart | .flowMappingStart => true
  | .blockSequenceStart | .blockMappingStart | .blockEntry => true
  | _ => false

lemma reads_setAnchor (value : Value) (ks : List TokenKind) :
    Reads (setAnchor none value) ks value ks := by
  rintro ⟨_, _, _, _, _⟩ rfl
  exact ⟨_, rfl, rfl⟩

lemma reads_node_of_content {block indentless : Bool} {fuel : Nat} {value : Value}
    (hk : startsNode k) (h : Reads (content block indentless false none fuel) (k :: ks) value ks') :
    Reads (node block indentless (fuel + 1)) (k :: ks) value ks' := by
  rw [node]
  refine (reads_peek k ks).bind ?_
  have hproperties : Reads properties (k :: ks) (none, none) (k :: ks) := by
    refine (reads_peek k ks).bind ?_
    cases k <;> first | exact absurd hk Bool.false_ne_true | exact Reads.pure _ _
  have hbody : Reads (do
      let found ← properties
      let value ← content block indentless (found.1.isSome || found.2.isSome) found.2 fuel
      setAnchor found.1 value) (k :: ks) value ks' :=
    hproperties.bind (h.bind (reads_setAnchor value ks'))
  cases k <;> first | exact absurd hk Bool.false_ne_true | exact hbody

lemma reads_scalar (block indentless plain : Bool) (text : String) (ks : List TokenKind)
    {fuel : Nat} (hfuel : 2 ≤ fuel) :
    Reads (node block indentless fuel) (.scalar plain text :: ks)
      (.ofScalar none plain text) ks := by
  obtain ⟨fuel, rfl⟩ := Nat.exists_eq_add_of_le' hfuel
  refine reads_node_of_content rfl ?_
  rw [content]
  exact (reads_peek _ _).bind ((reads_skip _ _).bind (Reads.pure _ _))

def row (es : List (Value × Value)) : List Value := es.flatMap fun e => [e.1, e.2]

lemma reads_blockMapping {indentless : Bool} {fuel : Nat} {es : List (Value × Value)}
    (hkeys : Value.mapping? (row es) = some (.mapping es))
    (h : Reads (blockEntries fuel) ks (row es) ks') :
    Reads (node true indentless (fuel + 2)) (.blockMappingStart :: ks) (.mapping es) ks' := by
  refine reads_node_of_content rfl ?_
  rw [content]
  refine (reads_peek _ _).bind ((reads_skip _ _).bind (h.bind ?_))
  rw [mappingOf, hkeys]
  exact Reads.pure _ _

lemma reads_blockSequence {indentless : Bool} {fuel : Nat} {xs : List Value}
    (h : Reads (blockItems fuel) ks xs ks') :
    Reads (node true indentless (fuel + 2)) (.blockSequenceStart :: ks) (.sequence xs) ks' := by
  refine reads_node_of_content rfl ?_
  rw [content]
  exact (reads_peek _ _).bind ((reads_skip _ _).bind (h.bind (Reads.pure _ _)))

lemma reads_indentlessSequence {fuel : Nat} {xs : List Value}
    (h : Reads (indentlessEntries fuel) (.blockEntry :: ks) xs ks') :
    Reads (node true true (fuel + 2)) (.blockEntry :: ks) (.sequence xs) ks' := by
  refine reads_node_of_content rfl ?_
  rw [content]
  exact (reads_peek _ _).bind (h.bind (Reads.pure _ _))

lemma reads_flowMapping (block indentless : Bool) (ks : List TokenKind) {fuel : Nat}
    (hfuel : 3 ≤ fuel) :
    Reads (node block indentless fuel) (.flowMappingStart :: .flowMappingEnd :: ks)
      (.mapping []) ks := by
  obtain ⟨fuel, rfl⟩ := Nat.exists_eq_add_of_le' hfuel
  refine reads_node_of_content rfl ?_
  rw [content]
  refine (reads_peek _ _).bind ((reads_skip _ _).bind ?_)
  have : Reads (flowEntries true (fuel + 1)) (.flowMappingEnd :: ks) [] ks := by
    rw [flowEntries]
    exact (reads_accept _ _).bind (Reads.pure _ _)
  exact this.bind (Reads.pure _ _)

lemma reads_flowSequence (block indentless : Bool) (ks : List TokenKind) {fuel : Nat}
    (hfuel : 3 ≤ fuel) :
    Reads (node block indentless fuel) (.flowSequenceStart :: .flowSequenceEnd :: ks)
      (.sequence []) ks := by
  obtain ⟨fuel, rfl⟩ := Nat.exists_eq_add_of_le' hfuel
  refine reads_node_of_content rfl ?_
  rw [content]
  refine (reads_peek _ _).bind ((reads_skip _ _).bind ?_)
  have : Reads (flowItems true (fuel + 1)) (.flowSequenceEnd :: ks) [] ks := by
    rw [flowItems]
    exact (reads_accept _ _).bind (Reads.pure _ _)
  exact this.bind (Reads.pure _ _)

lemma reads_blockField {fuel : Nat} {value : Value} (hk : startsNode k)
    (h : Reads (node true true fuel) (k :: ks) value ks') :
    Reads (blockField (fuel + 1)) (k :: ks) value ks' := by
  rw [blockField]
  refine (reads_peek _ _).bind ?_
  cases k <;> first | exact absurd hk Bool.false_ne_true | exact h

lemma reads_blockEntries_nil (ks : List TokenKind) (fuel : Nat) :
    Reads (blockEntries (fuel + 1)) (.blockEnd :: ks) [] ks := by
  rw [blockEntries]
  exact (reads_accept _ _).bind (Reads.pure _ _)

lemma reads_blockEntries_cons {fuel : Nat} {key value : Value} {row : List Value} {k' : TokenKind}
    {ks₁ ks₂ ks₃ ks₄ : List TokenKind} (hk : startsNode k) (hk' : startsNode k')
    (hkey : Reads (node true true fuel) (k :: ks₁) key (.value :: k' :: ks₂))
    (hvalue : Reads (node true true fuel) (k' :: ks₂) value ks₃)
    (hrow : Reads (blockEntries (fuel + 1)) ks₃ row ks₄) :
    Reads (blockEntries (fuel + 2)) (.key :: k :: ks₁) (key :: value :: row) ks₄ := by
  rw [blockEntries]
  refine (reads_accept_of_ne (by decide) _).bind ?_
  refine (reads_accept _ _).bind ?_
  refine (reads_peek _ _).bind ?_
  refine (reads_blockField hk hkey).bind ?_
  refine (reads_accept _ _).bind ?_
  refine (reads_blockField hk' hvalue).bind ?_
  exact hrow.bind (Reads.pure _ _)

lemma reads_blockItems_nil (ks : List TokenKind) (fuel : Nat) :
    Reads (blockItems (fuel + 1)) (.blockEnd :: ks) [] ks := by
  rw [blockItems]
  exact (reads_accept _ _).bind (Reads.pure _ _)

lemma reads_blockItems_cons {fuel : Nat} {value : Value} {values : List Value}
    (hk : startsNode k) (hne : k ≠ .blockEntry)
    (hitem : Reads (node true false fuel) (k :: ks) value ks')
    (hitems : Reads (blockItems fuel) ks' values ks'') :
    Reads (blockItems (fuel + 1)) (.blockEntry :: k :: ks) (value :: values) ks'' := by
  rw [blockItems]
  refine (reads_accept_of_ne (by decide) _).bind ?_
  refine (reads_expect _ _).bind ?_
  refine (reads_peek _ _).bind ?_
  cases k <;> first
    | exact absurd hk Bool.false_ne_true
    | exact absurd rfl hne
    | exact hitem.bind (hitems.bind (Reads.pure _ _))

lemma reads_indentlessEntries_nil (h : k ≠ .blockEntry) (ks : List TokenKind) (fuel : Nat) :
    Reads (indentlessEntries (fuel + 1)) (k :: ks) [] (k :: ks) := by
  rw [indentlessEntries]
  exact (reads_accept_of_ne h _).bind (Reads.pure _ _)

lemma reads_indentlessEntries_cons {fuel : Nat} {value : Value} {values : List Value}
    (hk : startsNode k) (hne : k ≠ .blockEntry)
    (hitem : Reads (node true false fuel) (k :: ks) value ks')
    (hitems : Reads (indentlessEntries fuel) ks' values ks'') :
    Reads (indentlessEntries (fuel + 1)) (.blockEntry :: k :: ks) (value :: values) ks'' := by
  rw [indentlessEntries]
  refine (reads_accept _ _).bind ?_
  refine (reads_peek _ _).bind ?_
  cases k <;> first
    | exact absurd hk Bool.false_ne_true
    | exact absurd rfl hne
    | exact hitem.bind (hitems.bind (Reads.pure _ _))

end Composer

/-! ### Values of written nodes -/

section

open Composer

variable {test : String → Bool}

lemma mapping?_row {es : List (Value × Value)} (hkeys : Value.keysDiffer es)
    (hvalid : ∀ e ∈ es, e.1.isInvalid = false) :
    Value.mapping? (row es) = some (.mapping es) := by
  have hpairs : Value.pairUp none (row es) = es := by
    clear hkeys
    induction es with
    | nil => rfl
    | cons e es ih =>
      have he := hvalid e List.mem_cons_self
      rw [row, List.flatMap_cons, ← row, List.cons_append, List.singleton_append, Value.pairUp, he]
      rw [if_neg (by decide), Value.pairUp, ih fun e h => hvalid e (List.mem_cons_of_mem _ h)]
  rw [Value.mapping?, hpairs]
  simp only [hkeys, if_true]

lemma keyText?_of_same {v w : Value} {text : String} (h : v.same w)
    (hv : v.keyText? = some text) : w.keyText? = some text := by
  cases v <;> cases w <;> simp_all [Value.same, Value.keyText?]

lemma isInvalid_of_keyText? {v : Value} {text : String} (h : v.keyText? = some text) :
    v.isInvalid = false := by
  cases v <;> first | rfl | cases h

lemma keyText?_of_mem {es : List (String × Node)} (h : arePortableEntriesIf test es)
    {e : Value × Value} (he : e ∈ entriesBack es) :
    ∃ key ∈ es.map Prod.fst, e.1.keyText? = some key := by
  induction es with
  | nil => nomatch he
  | cons entry es ih =>
    obtain ⟨key, value⟩ := entry
    simp only [arePortableEntriesIf, Bool.and_eq_true] at h
    rcases List.mem_cons.mp he with rfl | he
    · exact ⟨key, List.mem_cons_self, Style.staysKey_iff.mp h.1.1.2⟩
    · obtain ⟨key', hmem, hkey'⟩ := ih h.2 he
      exact ⟨key', List.mem_cons_of_mem _ hmem, hkey'⟩

/-- Distinct keys are read as distinct values. -/
lemma keysDiffer_entriesBack {es : List (String × Node)} (h : arePortableEntriesIf test es)
    (hkeys : (es.map Prod.fst).Nodup) : Value.keysDiffer (entriesBack es) := by
  induction es with
  | nil => rfl
  | cons entry es ih =>
    obtain ⟨key, value⟩ := entry
    simp only [arePortableEntriesIf, Bool.and_eq_true] at h
    obtain ⟨hnot, hkeys⟩ := List.nodup_cons.mp hkeys
    rw [entriesBack, Value.keysDiffer, ih h.2 hkeys, Bool.and_true, Bool.not_eq_true']
    rw [List.any_eq_false]
    intro e he hsame
    obtain ⟨key', hmem, hkey'⟩ := keyText?_of_mem h.2 he
    rw [keyText?_of_same hsame (Style.staysKey_iff.mp h.1.1.2)] at hkey'
    cases hkey'
    exact hnot hmem

/-- The first token of a written node. -/
lemma exists_tokens (indentless : Bool) (node : Node) :
    ∃ k ks, nodeTokens indentless node = k :: ks ∧ startsNode k ∧
      (indentless = false → k ≠ .blockEntry) := by
  cases node with
  | mapping es =>
    cases es with
    | nil => exact ⟨_, _, rfl, rfl, fun _ => nofun⟩
    | cons e es => exact ⟨_, _, rfl, rfl, fun _ => nofun⟩
  | sequence xs =>
    cases xs with
    | nil => exact ⟨_, _, rfl, rfl, fun _ => nofun⟩
    | cons x xs =>
      cases indentless with
      | true => exact ⟨_, _, rfl, rfl, nofun⟩
      | false => exact ⟨_, _, rfl, rfl, fun _ => nofun⟩
  | _ => exact ⟨_, _, rfl, rfl, fun _ => nofun⟩

mutual

/-- The tokens of a written node are read as its value. -/
lemma reads_tokens {node : Node} (h : isPortableIf test node) (indentless allowed : Bool)
    (hallowed : indentless → allowed) {k : TokenKind} (hk : indentless → k ≠ .blockEntry)
    (ks : List TokenKind) {fuel : Nat} (hfuel : 4 * (nodeTokens indentless node).length ≤ fuel) :
    Reads (Composer.node true allowed fuel) (nodeTokens indentless node ++ k :: ks) (readBack node)
      (k :: ks) := by
  -- four units of fuel stand against each token, and a node has one token at least
  have hfour : 4 ≤ fuel := by
    obtain ⟨k, ks, htokens, -⟩ := exists_tokens indentless node
    rw [htokens, List.length_cons] at hfuel
    omega
  have htwo : 2 ≤ fuel := by omega
  match node with
  | .mapping [] => exact reads_flowMapping _ _ _ (by omega)
  | .mapping (e :: es) =>
    simp only [isPortableIf, Bool.and_eq_true, decide_eq_true_eq] at h
    have hlength : (nodeTokens indentless (.mapping (e :: es))).length =
        (entryTokens (e :: es)).length + 2 := by simp [nodeTokens]
    obtain ⟨fuel, rfl⟩ := Nat.exists_eq_add_of_le' htwo
    have hsize : 4 * (entryTokens (e :: es)).length + 1 ≤ fuel := by omega
    have hrow : Value.mapping? (row (entriesBack (e :: es))) =
        some (.mapping (entriesBack (e :: es))) := by
      refine mapping?_row (keysDiffer_entriesBack h.2 h.1) fun e he => ?_
      obtain ⟨_, _, hkey⟩ := keyText?_of_mem h.2 he
      exact isInvalid_of_keyText? hkey
    rw [nodeTokens, List.append_assoc, List.singleton_append, readBack]
    exact reads_blockMapping hrow (reads_entryTokens h.2 (k :: ks) hsize)
  | .sequence [] => exact reads_flowSequence _ _ _ (by omega)
  | .sequence (x :: xs) =>
    obtain ⟨fuel, rfl⟩ := Nat.exists_eq_add_of_le' htwo
    cases indentless with
    | true =>
      -- no start and no end are written here: the items end in front of `k`
      obtain rfl := hallowed rfl
      rw [nodeTokens, if_pos rfl] at hfuel ⊢
      exact reads_indentlessSequence (reads_indentlessTokens h (hk rfl) ks (by omega) (by omega))
    | false =>
      have hlength : (nodeTokens false (.sequence (x :: xs))).length =
          (itemTokens (x :: xs)).length + 2 := by simp [nodeTokens]
      have hsize : 4 * (itemTokens (x :: xs)).length + 1 ≤ fuel := by omega
      rw [nodeTokens, if_neg (by decide), List.append_assoc, List.singleton_append, readBack]
      exact reads_blockSequence (reads_itemTokens h (k :: ks) hsize)
  | .string text => exact reads_scalar _ _ _ _ _ htwo
  | .integer value =>
    have hread := reads_scalar true allowed true (Integer.text value) (k :: ks) htwo
    rwa [Value.ofScalar, Value.ofPlain_integer] at hread
  | .float value =>
    have hread := reads_scalar true allowed true (Layout.yaml.text value) (k :: ks) htwo
    rwa [Value.ofScalar, Value.ofPlain_float (of_decide_eq_true h)] at hread
  | .boolean value => cases value <;> exact reads_scalar _ _ _ _ _ htwo
  | .null => exact reads_scalar _ _ _ _ _ htwo

lemma reads_entryTokens {es : List (String × Node)} (h : arePortableEntriesIf test es)
    (ks : List TokenKind) {fuel : Nat} (hfuel : 4 * (entryTokens es).length + 1 ≤ fuel) :
    Reads (blockEntries fuel) (entryTokens es ++ .blockEnd :: ks) (row (entriesBack es)) ks := by
  match es with
  | [] =>
    obtain ⟨fuel, rfl⟩ : ∃ f, fuel = f + 1 := ⟨fuel - 1, by omega⟩
    exact reads_blockEntries_nil ks fuel
  | (key, value) :: es =>
    simp only [arePortableEntriesIf, Bool.and_eq_true] at h
    obtain ⟨⟨-, hvalue⟩, hes⟩ := h
    have hlength : (entryTokens ((key, value) :: es)).length =
        (nodeTokens (isSimpleKey key) value).length + (entryTokens es).length + 3 := by
      simp [entryTokens]
    obtain ⟨k, ks', htokens, hk, -⟩ := exists_tokens (isSimpleKey key) value
    -- an indentless value ends in front of the next key, which is no item
    obtain ⟨k', ks'', hrest, hk'⟩ : ∃ k' ks'', entryTokens es ++ .blockEnd :: ks = k' :: ks'' ∧
        k' ≠ .blockEntry := by
      cases es with
      | nil => exact ⟨_, _, rfl, nofun⟩
      | cons e es => exact ⟨_, _, rfl, nofun⟩
    obtain ⟨fuel, rfl⟩ : ∃ f, fuel = f + 4 := ⟨fuel - 4, by omega⟩
    have hsize : 4 * (nodeTokens (isSimpleKey key) value).length ≤ fuel + 2 := by omega
    have hsizes : 4 * (entryTokens es).length + 1 ≤ fuel + 3 := by omega
    have hkey := reads_scalar true true (Style.ofText key = .plain) key
      (.value :: (nodeTokens (isSimpleKey key) value ++ k' :: ks'')) (Nat.le_add_left 2 fuel)
    have hnode :=
      reads_tokens hvalue (isSimpleKey key) true (fun _ => rfl) (fun _ => hk') ks'' hsize
    have hentries := reads_entryTokens hes ks hsizes
    rw [← hrest, htokens] at hkey hnode
    rw [entryTokens, htokens]
    simp only [List.cons_append, List.append_assoc]
    exact reads_blockEntries_cons rfl hk hkey hnode hentries

lemma reads_itemTokens {xs : List Node} (h : arePortableItemsIf test xs)
    (ks : List TokenKind) {fuel : Nat} (hfuel : 4 * (itemTokens xs).length + 1 ≤ fuel) :
    Reads (blockItems fuel) (itemTokens xs ++ .blockEnd :: ks) (itemsBack xs) ks := by
  match xs with
  | [] =>
    obtain ⟨fuel, rfl⟩ : ∃ f, fuel = f + 1 := ⟨fuel - 1, by omega⟩
    exact reads_blockItems_nil ks fuel
  | x :: xs =>
    simp only [arePortableItemsIf, Bool.and_eq_true] at h
    have hlength : (itemTokens (x :: xs)).length =
        (nodeTokens false x).length + (itemTokens xs).length + 1 := by
      simp [itemTokens]
    obtain ⟨k, ks', htokens, hk, hne⟩ := exists_tokens false x
    obtain ⟨k', ks'', hrest⟩ : ∃ k' ks'', itemTokens xs ++ .blockEnd :: ks = k' :: ks'' := by
      cases xs <;> exact ⟨_, _, rfl⟩
    obtain ⟨fuel, rfl⟩ : ∃ f, fuel = f + 1 := ⟨fuel - 1, by omega⟩
    have hsize : 4 * (nodeTokens false x).length ≤ fuel := by omega
    have hsizes : 4 * (itemTokens xs).length + 1 ≤ fuel := by omega
    have hnode := reads_tokens h.1 false false nofun (k := k') nofun ks'' hsize
    have hitems := reads_itemTokens h.2 ks hsizes
    rw [← hrest, htokens] at hnode
    rw [itemTokens, htokens]
    simp only [List.cons_append, List.append_assoc]
    exact reads_blockItems_cons hk (hne rfl) hnode hitems

lemma reads_indentlessTokens {xs : List Node} (h : arePortableItemsIf test xs) {k : TokenKind}
    (hk : k ≠ .blockEntry) (ks : List TokenKind) {fuel : Nat}
    (hpos : 0 < fuel) (hfuel : 4 * (itemTokens xs).length ≤ fuel + 2) :
    Reads (indentlessEntries fuel) (itemTokens xs ++ k :: ks) (itemsBack xs) (k :: ks) := by
  match xs with
  | [] =>
    obtain ⟨fuel, rfl⟩ : ∃ f, fuel = f + 1 := ⟨fuel - 1, by omega⟩
    exact reads_indentlessEntries_nil hk ks fuel
  | x :: xs =>
    simp only [arePortableItemsIf, Bool.and_eq_true] at h
    have hlength : (itemTokens (x :: xs)).length =
        (nodeTokens false x).length + (itemTokens xs).length + 1 := by
      simp [itemTokens]
    obtain ⟨k₁, ks₁, htokens, hk₁, hne⟩ := exists_tokens false x
    obtain ⟨k', ks'', hrest⟩ : ∃ k' ks'', itemTokens xs ++ k :: ks = k' :: ks'' := by
      cases xs <;> exact ⟨_, _, rfl⟩
    obtain ⟨fuel, rfl⟩ : ∃ f, fuel = f + 1 := ⟨fuel - 1, by omega⟩
    have hsize : 4 * (nodeTokens false x).length ≤ fuel := by omega
    have hpos' : 0 < (nodeTokens false x).length := by rw [htokens]; exact Nat.zero_lt_succ _
    -- four units of fuel stand against the dash, and only one is spent on it
    have hsizes : 4 * (itemTokens xs).length ≤ fuel + 2 := by omega
    have hnode := reads_tokens h.1 false false nofun (k := k') nofun ks'' hsize
    have hitems := reads_indentlessTokens h.2 hk ks (by omega) hsizes
    rw [← hrest, htokens] at hnode
    rw [itemTokens, htokens]
    simp only [List.cons_append, List.append_assoc]
    exact reads_indentlessEntries_cons hk₁ (hne rfl) hnode hitems

end

lemma reads_skipDocumentEnds (hk : k ≠ .documentEnd) (ks : List TokenKind) (fuel : Nat) :
    Reads (skipDocumentEnds fuel) (k :: ks) () (k :: ks) := by
  cases fuel with
  | zero => exact Reads.pure () _
  | succ fuel =>
    rw [skipDocumentEnds]
    exact (reads_accept_of_ne hk ks).bind (Reads.pure () _)

lemma reads_documentEnd : Reads documentEnd [.streamEnd] false [.streamEnd] := by
  rintro ⟨_, _, _, _, _⟩ rfl
  exact ⟨_, rfl, rfl⟩

/-- The tokens of a written node are those of one document. -/
theorem reads_documents {node : Node} (h : isPortableIf test node) {bound : Nat}
    (hbound : 4 * (nodeTokens false node).length ≤ bound) (fuel : Nat) :
    Reads (documents bound true (fuel + 2)) (nodeTokens false node ++ [.streamEnd]) [readBack node]
      [.streamEnd] := by
  obtain ⟨k, ks, htokens, hk, -⟩ := exists_tokens false node
  have hnode := reads_tokens h false false nofun (k := .streamEnd) nofun [] hbound
  rw [htokens] at hnode ⊢
  -- a second round only finds the end of the stream
  have hend : Reads (documents bound false (fuel + 1)) [.streamEnd] [] [.streamEnd] := by
    rw [documents]
    refine (reads_skipDocumentEnds (k := .streamEnd) nofun [] bound).bind ?_
    exact (reads_peek _ _).bind (Reads.pure _ _)
  rw [documents]
  refine (reads_skipDocumentEnds (by rintro rfl; exact absurd hk Bool.false_ne_true) _ _).bind ?_
  refine (reads_peek _ _).bind ?_
  have hbody : Reads (do
      let value ← Composer.node true false bound
      let marked ← documentEnd
      return value :: (← documents bound marked (fuel + 1))) (k :: (ks ++ [.streamEnd]))
      [readBack node] [.streamEnd] :=
    hnode.bind (reads_documentEnd.bind (hend.bind (Reads.pure _ _)))
  cases k <;> first | exact absurd hk Bool.false_ne_true | exact hbody

/-! ### Nodes of values -/

/-- A new key is bound behind the others. -/
lemma bind_of_notMem {key : String} {bound : List (String × Node)} (h : key ∉ bound.map Prod.fst)
    (value : Node) : Node.bind key value bound = bound ++ [(key, value)] := by
  induction bound with
  | nil => rfl
  | cons entry bound ih =>
    obtain ⟨k, v⟩ := entry
    rw [List.map_cons, List.mem_cons, not_or] at h
    rw [Node.bind, if_neg (Ne.symm h.1), ih h.2, List.cons_append]

/-- A string becomes a node in any case, but the string only if it is read as one. -/
lemma toNode_readValue (text : String) :
    ∃ back, (Style.readValue text).toNode = .ok back ∧
      (back = .string text ↔ Style.staysString text) := by
  rw [Style.staysString_iff]
  by_cases hplain : Style.ofText text = .plain
  · have hreal := Style.isSome_readReal? (Style.isAmbiguous_of_plain hplain)
    rw [Style.readValue_of_plain hplain]
    cases Value.readInteger? text with
    | some i => exact ⟨.integer i, rfl, by simp⟩
    | none =>
      cases hover : Style.isOverflowing text.toList with
      | false => exact ⟨.string text, rfl, by simp⟩
      | true =>
        rw [hover, Option.isSome_iff_exists] at hreal
        obtain ⟨value, hvalue⟩ := hreal
        exact ⟨.float value, by simp [Value.toNode, hvalue], by simp⟩
  · rw [Style.readValue_of_ne_plain hplain]
    exact ⟨.string text, rfl, by simp⟩

mutual

/-- The value of a written node is turned into a node: into this one only if all strings in it are
read as strings. -/
lemma toNode_readBack {node : Node} (h : isPortableIf test node) :
    ∃ back, (readBack node).toNode = .ok back ∧ (back = node ↔ isPortable node) := by
  match node with
  | .mapping es =>
    simp only [isPortableIf, Bool.and_eq_true, decide_eq_true_eq] at h
    obtain ⟨back, hback, hiff⟩ := entryNodes_entriesBack h.2 [] h.1
    refine ⟨.mapping back, by rw [readBack, Value.toNode, hback]; rfl, ?_⟩
    rw [Node.mapping.injEq, hiff, isPortable, isPortableIf, decide_eq_true h.1, Bool.true_and]
  | .sequence xs =>
    obtain ⟨back, hback, hiff⟩ := itemNodes_itemsBack h
    refine ⟨.sequence back, by rw [readBack, Value.toNode, hback], ?_⟩
    rw [Node.sequence.injEq, hiff]
    rfl
  | .string text =>
    simp only [isPortableIf, Bool.and_eq_true] at h
    obtain ⟨back, hback, hiff⟩ := toNode_readValue text
    refine ⟨back, hback, ?_⟩
    rw [hiff, isPortable, isPortableIf, h.1, Bool.true_and]
  | .integer value => exact ⟨_, rfl, by simp [isPortable, isPortableIf]⟩
  | .float value =>
    cases value with
    | nan =>
      -- a portable float is a number, and its text is read as the same rank
      have hne : Binary64.nan ≠ .nan := of_decide_eq_true h
      exact absurd rfl hne
    | number negative rank =>
      refine ⟨.float (.number negative rank), ?_, by simp [isPortable, isPortableIf]⟩
      rw [readBack, Value.toNode, Value.readReal?_text]
  | .boolean value => exact ⟨_, rfl, by simp [isPortable, isPortableIf]⟩
  | .null => exact ⟨_, rfl, by simp [isPortable, isPortableIf]⟩

lemma itemNodes_itemsBack {xs : List Node} (h : arePortableItemsIf test xs) :
    ∃ back, Value.itemNodes (itemsBack xs) = .ok back ∧
      (back = xs ↔ arePortableItemsIf Style.staysString xs) := by
  match xs with
  | [] => exact ⟨[], rfl, by simp [arePortableItemsIf]⟩
  | x :: xs =>
    simp only [arePortableItemsIf, Bool.and_eq_true] at h
    obtain ⟨y, hy, hx⟩ := toNode_readBack h.1
    obtain ⟨ys, hys, hxs⟩ := itemNodes_itemsBack h.2
    refine ⟨y :: ys, by rw [itemsBack, Value.itemNodes, hy]; simp only [hys], ?_⟩
    rw [List.cons.injEq, hx, hxs, arePortableItemsIf, Bool.and_eq_true]
    rfl

lemma entryNodes_entriesBack {es : List (String × Node)} (h : arePortableEntriesIf test es)
    (bound : List (String × Node)) (hkeys : ((bound ++ es).map Prod.fst).Nodup) :
    ∃ back, Value.entryNodes bound (entriesBack es) = .ok (bound ++ back) ∧
      (back = es ↔ arePortableEntriesIf Style.staysString es) := by
  match es with
  | [] => exact ⟨[], by rw [List.append_nil]; rfl, by simp [arePortableEntriesIf]⟩
  | (key, value) :: es =>
    simp only [arePortableEntriesIf, Bool.and_eq_true] at h
    obtain ⟨⟨⟨hkeeps, hkey⟩, hvalue⟩, hes⟩ := h
    have hnew : key ∉ bound.map Prod.fst := by
      rw [List.map_append, List.map_cons] at hkeys
      exact fun hmem => (List.nodup_append.mp hkeys).2.2 key hmem key List.mem_cons_self rfl
    obtain ⟨y, hy, hyiff⟩ := toNode_readBack hvalue
    have hkeys' : ((bound ++ [(key, y)] ++ es).map Prod.fst).Nodup := by simpa using hkeys
    obtain ⟨back, hback, hiff⟩ := entryNodes_entriesBack hes _ hkeys'
    refine ⟨(key, y) :: back, ?_, ?_⟩
    · rw [entriesBack, Value.entryNodes, Style.staysKey_iff.mp hkey, hy]
      simp only [bind_of_notMem hnew y, hback, List.append_assoc, List.singleton_append]
    · rw [List.cons.injEq, Prod.mk.injEq, hyiff, hiff, arePortableEntriesIf, hkeeps, hkey]
      simp [isPortable]

end

end

end YamlSieve.Yaml
