import YamlSieve.Proofs.Yaml.EmptySteps
import YamlSieve.Proofs.Yaml.WrittenScalar

/-!
# Steps over nodes

A written node is read in steps, one for each of its tokens.
-/

namespace YamlSieve.Yaml

open Style (padding)

/-! ### Places -/

namespace Place

/-- The column of the collection that a node stands in, -1 outside of all. -/
def column : Place → Int
  | top                   => -1
  | afterKey indent       => indent
  | afterIndicator indent => indent

/-- Whether the items of a sequence may stand in the column of the key. -/
def isAfterKey : Place → Bool
  | afterKey _ => true
  | _          => false

/-- The column of a node that is written as a block collection. -/
def blockColumn? (place : Place) : Node → Option Nat
  | .mapping (_ :: _)  => some place.keyIndent
  | .sequence (_ :: _) => some place.itemIndent
  | _                  => none

/-- What stands in front of a node, given the column of a block collection. -/
def lead : Place → Option Nat → List Char
  | top, _                    => []
  | afterKey _, some column   => '\n' :: padding column
  | afterKey _, none          => [' ']
  | afterIndicator _, _       => [' ']

lemma scalarIndent_eq (place : Place) : place.scalarIndent = (max place.column 0).toNat + 2 := by
  cases place <;> simp [scalarIndent, column]

lemma column_lt_keyIndent (place : Place) : place.column < place.keyIndent := by
  cases place <;> simp only [column, keyIndent] <;> omega

end Place

/-! ### Texts of nodes -/

/-- Lines of which all but the first stand in the given column. -/
def block (column : Nat) : List (List Char) → List Char
  | []            => []
  | line :: lines => line ++ (lines.map (padding column ++ ·)).flatten

lemma block_cons {column : Nat} {line : List Char} {lines : List (List Char)} (h : lines ≠ []) :
    block column (line :: lines) = line ++ (padding column ++ block column lines) := by
  obtain ⟨line', lines, rfl⟩ := List.exists_cons_of_ne_nil h
  simp [block]

/-- A node without what stands in front of it. -/
def body (place : Place) : Node → List Char
  | .mapping []         => ['\x7b', '\x7d', '\n']
  | .mapping (e :: es)  => block place.keyIndent (writeEntries place.keyIndent (e :: es))
  | .sequence []        => ['[', ']', '\n']
  | .sequence (x :: xs) => block place.itemIndent (writeItems place.itemIndent (x :: xs))
  | .string text        => endLine (Style.write place.scalarIndent text)
  | .integer value      => (Integer.text value).toList ++ ['\n']
  | .float value        => (Layout.yaml.text value).toList ++ ['\n']
  | .boolean value      => (if value then "true" else "false").toList ++ ['\n']
  | .null               => "null".toList ++ ['\n']
  | .absent             => "null".toList ++ ['\n']

lemma inLine_eq (place : Place) (cs : List Char) : place.inLine cs = place.lead none ++ cs := by
  cases place <;> rfl

lemma entries_eq (place : Place) {column : Nat} (htop : place = .top → column = 0)
    {lines : List (List Char)} (hne : lines ≠ []) :
    place.entries column lines = place.lead (some column) ++ block column lines := by
  obtain ⟨line, lines, rfl⟩ := List.exists_cons_of_ne_nil hne
  cases place with
  | top =>
    rw [htop rfl]
    simp [Place.entries, Place.lead, block, padding]
  | afterKey indent => simp [Place.entries, Place.lead, block]
  | afterIndicator indent =>
    have : ((line :: lines).map (padding column ++ ·)).flatten =
        padding column ++ block column (line :: lines) := by simp [block]
    rw [Place.entries, this]
    simp only [Place.lead, List.singleton_append, List.cons.injEq, true_and]
    exact List.drop_left' (by simp [padding])

lemma write_eq (place : Place) (node : Node) :
    write place node = place.lead (place.blockColumn? node) ++ body place node := by
  cases node with
  | mapping es =>
    cases es with
    | nil => rw [write, inLine_eq]; rfl
    | cons e es =>
      rw [write, entries_eq place (by rintro rfl; rfl) (by simp [writeEntries])]
      rfl
  | sequence xs =>
    cases xs with
    | nil => rw [write, inLine_eq]; rfl
    | cons x xs =>
      rw [write, entries_eq place (by rintro rfl; rfl) (by simp [writeItems])]
      rfl
  | _ => rw [write, inLine_eq]; rfl

namespace Nesting

open Relation (ReflTransGen)

variable {test : String → Bool} {s u : Nesting} {input : Input} {ks : List TokenKind}
  {allowed : Bool} {key : Option PossibleKey} {i k : Int} {L M N : List Level} {j : Nat}
  {isNew : Bool}

/-! ### What is read in steps -/

/-- What is known where the text of a node starts. -/
structure Starts (place : Place) (node : Node) (column : Nat) (allowed : Bool) : Prop where
  block  : ∀ j ∈ place.blockColumn? node, column = j ∧ allowed = true
  inLine : place.blockColumn? node = none → place.column < column

/-- Behind an indicator and a space any node may start. -/
lemma starts_afterIndicator (indent : Nat) (node : Node) :
    Starts (.afterIndicator indent) node (indent + 2) true := by
  refine ⟨fun j hj => ⟨?_, rfl⟩, fun _ => ?_⟩
  · cases node with
    | mapping es => cases es <;> cases hj; rfl
    | sequence xs => cases xs <;> cases hj; rfl
    | _ => cases hj
  · simp only [Place.column]
    omega

/-- The text of a node at a place is read in steps as the tokens of the node. -/
structure IsReadable (place : Place) (node : Node) : Prop where
  atToken (rest : List Char) : AtToken (body place node ++ rest)
  bare : ∀ kind ∈ nodeTokens place.isAfterKey node, isBare kind
  run {u : Nesting} {input : Input} {ks : List TokenKind} {allowed : Bool} {i : Int}
    {L M : List Level} {c : Int} {more : List Char} :
    u.Is input ks allowed none i M → Inside place.column L i M → Outer L →
    (place.isAfterKey → L ≠ []) → i ≤ input.column → Starts place node input.column allowed →
    (∀ kind ∈ ks, isBare kind) → input.rest = body place node ++ (padding c.toNat ++ more) →
    Tail place.column c more → input.rest.length ≤ input.size →
    ∃ t, ReflTransGen Steps u t ∧
      Done t place.column L (ks ++ nodeTokens place.isAfterKey node) c more

/--
The text of an entry in a column is read in steps as its tokens, and the entry opens a collection
there unless that is open.
-/
structure IsEntry (j : Nat) (start : TokenKind) (line : List Char) (kinds : List TokenKind) :
    Prop where
  atToken (rest : List Char) : AtToken (line ++ rest)
  ne_nil : line ≠ []
  bare : ∀ kind ∈ kinds, isBare kind
  run {u : Nesting} {input : Input} {ks : List TokenKind} {i k : Int} {L M N : List Level}
    {isNew : Bool} {c : Int} {more : List Char} :
    u.Is input ks true none i M → Inside k L i M → Outer L → Opens j N k L isNew →
    i ≤ input.column → input.column = j → (∀ kind ∈ ks, isBare kind) →
    input.rest = line ++ (padding c.toNat ++ more) → Tail j c more →
    input.rest.length ≤ input.size →
    ∃ t, ReflTransGen Steps u t ∧ Done t j N (ks ++ startOf isNew start ++ kinds) c more

lemma isBare_startOf {start : TokenKind} (h : isBare start) :
    ∀ kind ∈ startOf isNew start, isBare kind := by
  intro kind hkind
  rw [startOf] at hkind
  split at hkind
  · rwa [List.mem_singleton.mp hkind]
  · exact absurd hkind List.not_mem_nil

/-- Entries in a column are read one after the other. -/
lemma isEntry_block {α : Type} {start : TokenKind} (hstart : isBare start) {line : α → List Char}
    {kinds : α → List TokenKind} {as : List α} (hne : as ≠ [])
    (h : ∀ a ∈ as, IsEntry j start (line a) (kinds a)) :
    IsEntry j start (block j (as.map line)) (as.flatMap kinds) := by
  -- only the first entry opens the collection: for the others `startOf` adds no token
  induction as with
  | nil => exact absurd rfl hne
  | cons a as ih =>
    have ha := h a List.mem_cons_self
    by_cases has : as = []
    · subst has
      rw [List.map_singleton, List.flatMap_singleton, block, List.map_nil, List.flatten_nil,
        List.append_nil]
      exact ha
    · have has' := ih has fun b hb => h b (List.mem_cons_of_mem a hb)
      rw [List.map_cons, List.flatMap_cons, block_cons (by simpa using has)]
      refine ⟨fun rest => ?_, ?_, ?_, ?_⟩
      · rw [List.append_assoc]
        exact ha.atToken _
      · exact fun hnil => ha.ne_nil (List.append_eq_nil_iff.mp hnil).1
      · exact List.forall_mem_append.mpr ⟨ha.bare, has'.bare⟩
      · intro u input ks i k L M N isNew c more his hin hL hopen hle hcolumn hks hrest htail hsize
        -- what follows the first entry stands in the same column, so its last scalar ends there
        have htail' : Tail j j (block j (as.map line) ++ (padding c.toNat ++ more)) := by
          refine ⟨has'.atToken _, Int.le_refl _, fun _ => Int.natCast_nonneg j, fun hnil => ?_⟩
          exact absurd (List.append_eq_nil_iff.mp hnil).1 has'.ne_nil
        rw [List.append_assoc, List.append_assoc] at hrest
        obtain ⟨t, hrun, hdone⟩ := ha.run his hin hL hopen hle hcolumn hks hrest htail' hsize
        obtain ⟨input', ht, hrest', hcolumn', hsize'⟩ := hdone.same
        have hks' : ∀ kind ∈ ks ++ startOf isNew start ++ kinds a, isBare kind :=
          List.forall_mem_append.mpr
            ⟨List.forall_mem_append.mpr ⟨hks, isBare_startOf hstart⟩, ha.bare⟩
        obtain ⟨t', hrun', hdone'⟩ := has'.run ht .tight (hopen.outer hL) (.same hopen.ne_nil)
          (Int.le_of_eq (by rw [hcolumn'])) hcolumn' hks' hrest' htail hsize'
        refine ⟨t', hrun.trans hrun', ?_⟩
        simpa only [startOf, Bool.false_eq_true, if_false, List.append_nil, List.append_assoc] using
          hdone'

/-! ### Entries of collections -/

/-- An item is read in steps if its node is. -/
lemma isEntry_item {x : Node} (hx : IsReadable (.afterIndicator j) x) :
    IsEntry j .blockSequenceStart ('-' :: write (.afterIndicator j) x)
      (.blockEntry :: nodeTokens false x) := by
  have hlead : write (.afterIndicator j) x = ' ' :: body (.afterIndicator j) x := by
    rw [write_eq]
    rfl
  rw [hlead]
  refine ⟨fun rest => atToken_cons rfl (by decide), List.cons_ne_nil _ _, ?_, ?_⟩
  · exact List.forall_mem_cons.mpr ⟨rfl, hx.bare⟩
  · intro u input ks i k L M N isNew c more his hin hL hopen hle hcolumn hks hrest htail hsize
    have hrest' : input.rest =
        '-' :: ' ' :: (body (.afterIndicator j) x ++ (padding c.toNat ++ more)) := hrest
    have hnext := hx.atToken (padding c.toNat ++ more)
    obtain ⟨s, i₁, M₁, hleads, hin₁, hs⟩ :=
      his.leads_item hin hL hopen hle hcolumn hks hrest' hnext
    have hrest₂ : (input.skip 2).rest =
        body (.afterIndicator j) x ++ (padding c.toNat ++ more) := by
      rw [Input.rest_skip, hrest']
      rfl
    have hcolumn₂ : (input.skip 2).column = j + 2 := by rw [Input.column_skip, hcolumn]
    have hi₁ : i₁ ≤ (input.skip 2).column := by
      rw [hcolumn₂]
      -- both shapes of the stack stay left of the node, which starts at `j + 2`
      cases hin₁ <;> omega
    obtain ⟨u', hnext', hu'⟩ := hs.next_passed (skips_here (hrest₂ ▸ hnext) true) nofun
      (closed_of_le hi₁ M₁ _)
    have hrun := hleads.next hnext' (Nat.le_of_eq (by rw [hu'.input, hs.input]))
    have hstarts := hcolumn₂ ▸ starts_afterIndicator j x
    have hks' : ∀ kind ∈ ks ++ startOf isNew .blockSequenceStart ++ [.blockEntry], isBare kind :=
      List.forall_mem_append.mpr ⟨List.forall_mem_append.mpr ⟨hks, isBare_startOf rfl⟩,
        List.forall_mem_singleton.mpr rfl⟩
    obtain ⟨t, hrun', hdone⟩ := hx.run hu' hin₁ (hopen.outer hL) nofun hi₁ hstarts hks' hrest₂ htail
      (Nat.le_trans (Input.length_rest_skip_le 2) hsize)
    refine ⟨t, hrun.trans hrun', ?_⟩
    rw [List.append_assoc _ [_]] at hdone
    exact hdone

lemma closed_loose {column : Nat} (hle : j ≤ column) (hN : N ≠ []) (ks : List TokenKind) :
    ∃ i M, closed column (j + 1) (⟨j, false⟩ :: N) ks = (i, M, ks) ∧ Inside j N i M ∧
      i ≤ column := by
  -- the loose level survives exactly if the value stands to the right of the key
  by_cases hlt : j < column
  · exact ⟨_, _, closed_of_le (by omega) _ ks, .loose hN, by omega⟩
  · refine ⟨j, N, ?_, .tight, by omega⟩
    rw [closed, if_neg (by omega)]
    exact closed_of_le (Int.ofNat_le.mpr hle) N ks

/-- What stands in front of a value is passed, and where its text starts is known. -/
lemma exists_skips {place : Place} (hplace : place.column = j) {value : Node} {rest : List Char}
    (hcolumn : j + 1 ≤ input.column)
    (hindicator : place.isAfterKey = false → input.column = j + 1 ∧ allowed = true)
    (hrest : input.rest = place.lead (place.blockColumn? value) ++ rest) (hnext : AtToken rest)
    (hsize : input.rest.length ≤ input.size) :
    ∃ final allowed', Skips input allowed final allowed' ∧ final.rest = rest ∧
      final.size = input.size ∧ j ≤ final.column ∧ Starts place value final.column allowed' := by
  have hspace (hlead : place.lead (place.blockColumn? value) = [' ']) :
      Skips input allowed input.skipWhite allowed ∧ input.skipWhite.rest = rest := by
    rw [hlead] at hrest
    refine ⟨skips_space hrest hnext allowed, ?_⟩
    show input.rest.drop 1 = rest
    rw [hrest]
    rfl
  have hwhite : input.skipWhite.column = input.column + 1 := rfl
  -- after a key a block starts on the next line; anything else stands behind one space
  cases place with
  | top => exact absurd hplace (by simp [Place.column])
  | afterKey indent =>
    obtain rfl : indent = j := by simpa [Place.column] using hplace
    cases hblock : (Place.afterKey indent).blockColumn? value with
    | none =>
      obtain ⟨hskip, hfinal⟩ := hspace (by rw [hblock]; rfl)
      refine ⟨_, _, hskip, hfinal, rfl, by omega, fun j' hj' => ?_, fun _ => ?_⟩
      · rw [hblock] at hj'
        nomatch hj'
      · simp only [Place.column]
        omega
    | some column =>
      rw [hblock] at hrest
      have hle : indent ≤ column := by
        cases value with
        | mapping es => cases es <;> cases hblock; exact Nat.le_add_right _ _
        | sequence xs => cases xs <;> cases hblock; exact Nat.le_refl _
        | _ => cases hblock
      refine ⟨_, _, skips_nextLine hrest hnext hsize allowed, Input.rest_nextLine hrest, rfl, ?_,
        fun j' hj' => ?_, fun hnone => ?_⟩
      · rw [Input.column_nextLine]
        exact hle
      · rw [hblock] at hj'
        cases hj'
        exact ⟨Input.column_nextLine _, rfl⟩
      · rw [hblock] at hnone
        nomatch hnone
  | afterIndicator indent =>
    obtain rfl : indent = j := by simpa [Place.column] using hplace
    obtain ⟨hskip, hfinal⟩ := hspace (by simp [Place.lead])
    obtain ⟨hcolumn', rfl⟩ := hindicator rfl
    refine ⟨_, _, hskip, hfinal, rfl, by omega, ?_⟩
    rw [hwhite, hcolumn']
    exact starts_afterIndicator indent value

/-- The value after a colon is read in steps. -/
lemma Is.run_value {place : Place} {value : Node}
    (h : s.Is input ks allowed none (j + 1) (⟨j, false⟩ :: N)) (hN : Outer N) (hne : N ≠ [])
    (hplace : place.column = j) (hvalue : IsReadable place value) (hcolumn : j + 1 ≤ input.column)
    (hindicator : place.isAfterKey = false → input.column = j + 1 ∧ allowed = true)
    (hks : ∀ kind ∈ ks, isBare kind) {c : Int} {more : List Char}
    (hrest : input.rest = write place value ++ (padding c.toNat ++ more)) (htail : Tail j c more)
    (hsize : input.rest.length ≤ input.size) (hleads : Leads u s) :
    ∃ t, ReflTransGen Steps u t ∧ Done t j N (ks ++ nodeTokens place.isAfterKey value) c more := by
  rw [write_eq, List.append_assoc] at hrest
  obtain ⟨final, allowed', hskip, hfinal, hsame, hle, hstarts⟩ :=
    exists_skips hplace hcolumn hindicator hrest (hvalue.atToken _) hsize
  obtain ⟨i, M, hclosed, hin, hi⟩ := closed_loose hle hne ks
  obtain ⟨u', hnext, hu'⟩ := h.next_passed hskip nofun hclosed
  have hlength : final.rest.length ≤ input.rest.length := by
    rw [hfinal, hrest]
    exact (List.suffix_append _ _).length_le
  have hrun := hleads.next hnext (by rw [hu'.input, h.input]; exact hlength)
  rw [← hplace] at hin htail ⊢
  obtain ⟨t, hrun', hdone⟩ := hvalue.run hu' hin hN (fun _ => hne) hi hstarts hks hfinal htail
    (by rw [hsame]; exact Nat.le_trans hlength hsize)
  exact ⟨t, hrun.trans hrun', hdone⟩

lemma afterColon_write {place : Place} (hplace : place ≠ .top) (value : Node) (rest : List Char) :
    AfterColon (write place value ++ rest) := by
  rw [write_eq, List.append_assoc]
  cases place with
  | top => exact absurd rfl hplace
  | afterKey indent =>
    cases (Place.afterKey indent).blockColumn? value with
    | none => exact ⟨' ', _, rfl, Or.inl rfl⟩
    | some column => exact ⟨'\n', _, rfl, Or.inr rfl⟩
  | afterIndicator indent => exact ⟨' ', _, rfl, Or.inl rfl⟩

/-- The tokens of a key are no properties. -/
lemma isBare_key (name : String) (isNew : Bool) (hks : ∀ kind ∈ ks, isBare kind) :
    ∀ kind ∈ ks ++ startOf isNew .blockMappingStart ++ [.key, Style.token name, .value],
      isBare kind := by
  refine List.forall_mem_append.mpr ⟨List.forall_mem_append.mpr ⟨hks, isBare_startOf rfl⟩, ?_⟩
  exact List.forall_mem_cons.mpr ⟨rfl, List.forall_mem_cons.mpr ⟨rfl,
    List.forall_mem_singleton.mpr rfl⟩⟩

/-- An entry whose key is written on the line of its value. -/
lemma isEntry_simpleKey {name : String} {value : Node} (hname : Style.keepsSeparators name)
    (hsimple : isSimpleKey name) (hvalue : IsReadable (.afterKey j) value) :
    IsEntry j .blockMappingStart
      (Style.write (j + 2) name ++ ':' :: write (.afterKey j) value)
      (.key :: Style.token name :: .value :: nodeTokens true value) := by
  obtain ⟨hline, hshort⟩ := (styled hname).simpleKey hsimple (j + 2)
  obtain ⟨d, ds, hcs, hends, hhash, -⟩ := hline.exists_cons
  refine ⟨fun rest => ?_, ?_, ?_, ?_⟩
  · rw [hcs]
    exact atToken_cons hends hhash
  · rw [hcs]
    exact List.cons_ne_nil _ _
  · exact List.forall_mem_cons.mpr ⟨rfl, List.forall_mem_cons.mpr ⟨rfl,
      List.forall_mem_cons.mpr ⟨rfl, hvalue.bare⟩⟩⟩
  · intro u input ks i k L M N isNew c more his hin hL hopen hle hcolumn hks hrest htail hsize
    rw [List.append_assoc, List.cons_append] at hrest
    -- the key is queued before its colon is seen: `leads_key` puts its tokens in front
    obtain ⟨s, hleads, hs⟩ := his.leads_key hin hL hopen hle hcolumn hline hshort hrest
      (afterColon_write Place.noConfusion value _) hsize
    have hrest' : (input.skip ((Style.write (j + 2) name).length + 1)).rest =
        write (.afterKey j) value ++ (padding c.toNat ++ more) := by
      rw [← Input.skip_skip, Input.rest_skip, Input.rest_skip_append hrest]
      rfl
    have hcolumn' : j + 1 ≤ (input.skip ((Style.write (j + 2) name).length + 1)).column := by
      rw [Input.column_skip, hcolumn]
      omega
    obtain ⟨t, hrun, hdone⟩ := hs.run_value (hopen.outer hL) hopen.ne_nil rfl hvalue hcolumn' nofun
      (isBare_key name isNew hks) hrest' htail
      (Nat.le_trans (Input.length_rest_skip_le _) hsize) hleads
    refine ⟨t, hrun, ?_⟩
    rwa [List.append_assoc _ [_, _, _]] at hdone

/-- An entry whose key is written on lines of its own. -/
lemma isEntry_explicitKey {name : String} {value : Node} (hname : Style.keepsSeparators name)
    (hvalue : IsReadable (.afterIndicator j) value) :
    IsEntry j .blockMappingStart
      ('?' :: ' ' :: (endLine (Style.write (j + 2) name) ++
        (padding j ++ ':' :: write (.afterIndicator j) value)))
      (.key :: Style.token name :: .value :: nodeTokens false value) := by
  have hwritten := (styled hname).written (j + 2)
  refine ⟨fun rest => atToken_cons rfl (by decide), List.cons_ne_nil _ _, ?_, ?_⟩
  · exact List.forall_mem_cons.mpr ⟨rfl, List.forall_mem_cons.mpr ⟨rfl,
      List.forall_mem_cons.mpr ⟨rfl, hvalue.bare⟩⟩⟩
  · intro u input ks i k L M N isNew c more his hin hL hopen hle hcolumn hks hrest htail hsize
    simp only [List.cons_append, List.append_assoc] at hrest
    obtain ⟨s, input', hleads, hrest', hcolumn', hsize', hs⟩ :=
      his.leads_explicitKey hin hL hopen hle hcolumn hwritten hrest
        (afterColon_write Place.noConfusion value _) hsize
    obtain ⟨t, hrun, hdone⟩ := hs.run_value (hopen.outer hL) hopen.ne_nil rfl hvalue
      (Nat.le_of_eq hcolumn'.symm) (fun _ => ⟨hcolumn', rfl⟩) (isBare_key name isNew hks) hrest'
      htail hsize' hleads
    refine ⟨t, hrun, ?_⟩
    rwa [List.append_assoc _ [_, _, _]] at hdone

/-- An entry of a mapping is read in steps if its value is. -/
lemma isEntry_key {name : String} {value : Node} (hname : Style.keepsSeparators name)
    (hvalue : IsReadable (writeKey j name).2 value) :
    IsEntry j .blockMappingStart ((writeKey j name).1 ++ write (writeKey j name).2 value)
      (.key :: Style.token name :: .value :: nodeTokens (isSimpleKey name) value) := by
  by_cases hsimple : isSimpleKey name
  · have hkey : writeKey j name = (Style.write (j + 2) name ++ [':'], .afterKey j) := by
      simp only [writeKey, hsimple, if_true]
    rw [hkey] at hvalue ⊢
    rw [hsimple, List.append_assoc]
    exact isEntry_simpleKey hname hsimple hvalue
  · rw [Bool.not_eq_true] at hsimple
    have hkey : writeKey j name =
        ('?' :: ' ' :: endLine (Style.write (j + 2) name) ++ padding j ++ [':'],
          .afterIndicator j) := by
      simp only [writeKey, hsimple, Bool.false_eq_true, if_false]
    rw [hkey] at hvalue ⊢
    rw [hsimple]
    simp only [List.cons_append, List.append_assoc, List.nil_append]
    exact isEntry_explicitKey hname hvalue

/-! ### Nodes -/

lemma isReadable_scalar {place : Place} {node : Node} {token : TokenKind}
    (hblock : place.blockColumn? node = none)
    (htoken : ∀ indentless, nodeTokens indentless node = [token])
    (hbare : isBare token) (h : Written place.scalarIndent token (body place node)) :
    IsReadable place node := by
  refine ⟨h.atToken, ?_, ?_⟩
  · rw [htoken]
    exact List.forall_mem_singleton.mpr hbare
  · intro u input ks allowed i L M c more his hin hL _ _ hstarts _ hrest htail hsize
    rw [place.scalarIndent_eq] at h
    obtain ⟨t, hstep, hdone⟩ :=
      his.steps_written hin hL (hstarts.inLine hblock) h hrest htail hsize
    exact ⟨t, .single hstep, by rwa [htoken]⟩

lemma isReadable_brackets {place : Place} {node : Node} (b : Brackets)
    (hblock : place.blockColumn? node = none)
    (htokens : ∀ indentless, nodeTokens indentless node = [b.start, b.stop])
    (hbody : body place node = [b.left, b.right, '\n']) : IsReadable place node := by
  refine ⟨fun rest => ?_, ?_, ?_⟩
  · rw [hbody]
    cases b <;> exact atToken_cons rfl (by decide)
  · rw [htokens]
    cases b <;> decide
  · intro u input ks allowed i L M c more his hin hL _ _ hstarts _ hrest htail hsize
    rw [hbody] at hrest
    rw [htokens]
    exact his.run_brackets hin hL (hstarts.inLine hblock) b hrest htail hsize

lemma Tail.mono {c : Int} {more : List Char} (h : Tail k c more) {k' : Int} (hle : k ≤ k') :
    Tail k' c more := ⟨h.token, Int.le_trans h.le hle, h.column, h.atEnd⟩

/-- A collection that is opened by its entries. -/
lemma isReadable_block {place : Place} {node : Node} {start : TokenKind} {kinds : List TokenKind}
    (hblock : place.blockColumn? node = some j) (hlt : place.column < j) (hstart : isBare start)
    (htokens : nodeTokens place.isAfterKey node = start :: kinds ++ [.blockEnd])
    (h : IsEntry j start (body place node) kinds) : IsReadable place node := by
  refine ⟨h.atToken, ?_, ?_⟩
  · rw [htokens]
    exact List.forall_mem_append.mpr ⟨List.forall_mem_cons.mpr ⟨hstart, h.bare⟩,
      List.forall_mem_singleton.mpr rfl⟩
  · intro u input ks allowed i L M c more his hin hL _ hle hstarts hks hrest htail hsize
    obtain ⟨hcolumn, rfl⟩ := hstarts.block j hblock
    obtain ⟨t, hrun, hdone⟩ := h.run his hin hL (.new hlt rfl) hle hcolumn hks hrest
      (htail.mono (Int.le_of_lt hlt)) hsize
    refine ⟨t, hrun, ?_⟩
    have hleave := hdone.leave (Int.lt_of_le_of_lt htail.le hlt)
    rw [htokens]
    simpa only [startOf, if_true, List.append_assoc, List.cons_append, List.nil_append] using hleave

/-- The items of a sequence in the column of the key. -/
lemma isReadable_indentless {x : Node} {xs : List Node}
    (h : IsEntry j .blockSequenceStart (body (.afterKey j) (.sequence (x :: xs)))
      (itemTokens (x :: xs))) : IsReadable (.afterKey j) (.sequence (x :: xs)) := by
  refine ⟨h.atToken, h.bare, ?_⟩
  intro u input ks allowed i L M c more his hin hL hne hle hstarts hks hrest htail hsize
  obtain ⟨hcolumn, rfl⟩ := hstarts.block j rfl
  obtain ⟨t, hrun, hdone⟩ :=
    h.run his hin hL (.same (hne rfl)) hle hcolumn hks hrest htail hsize
  refine ⟨t, hrun, ?_⟩
  rwa [startOf, if_neg Bool.false_ne_true, List.append_nil] at hdone

lemma writeEntries_eq (es : List (String × Node)) :
    writeEntries j es = es.map fun e => (writeKey j e.1).1 ++ write (writeKey j e.1).2 e.2 := by
  induction es with
  | nil => rfl
  | cons e es ih => rw [writeEntries, ih]; rfl

lemma entryTokens_eq (es : List (String × Node)) : entryTokens es =
    es.flatMap fun e => .key :: Style.token e.1 :: .value :: nodeTokens (isSimpleKey e.1) e.2 := by
  induction es with
  | nil => rfl
  | cons e es ih => rw [entryTokens, ih]; rfl

lemma writeItems_eq (xs : List Node) :
    writeItems j xs = xs.map fun x => '-' :: write (.afterIndicator j) x := by
  induction xs with
  | nil => rfl
  | cons x xs ih => rw [writeItems, ih]; rfl

lemma itemTokens_eq (xs : List Node) :
    itemTokens xs = xs.flatMap fun x => .blockEntry :: nodeTokens false x := by
  induction xs with
  | nil => rfl
  | cons x xs ih => rw [itemTokens, ih]; rfl

mutual

/-- A portable node is read in steps wherever it is written. -/
theorem isReadable {node : Node} (h : isPortableIf test node) (place : Place) :
    IsReadable place node := by
  match node with
  | .mapping [] => exact isReadable_brackets .curly rfl (fun _ => rfl) rfl
  | .mapping (e :: es) =>
    simp only [isPortableIf, Bool.and_eq_true] at h
    have hentries := isEntry_entries h.2 place.keyIndent
    have hblock := isEntry_block rfl (List.cons_ne_nil e es) hentries
    rw [← writeEntries_eq, ← entryTokens_eq] at hblock
    exact isReadable_block rfl (place.column_lt_keyIndent) rfl rfl hblock
  | .sequence [] => exact isReadable_brackets .square rfl (fun _ => rfl) rfl
  | .sequence (x :: xs) =>
    have hitems := isEntry_items h place.itemIndent
    have hblock := isEntry_block rfl (List.cons_ne_nil x xs) hitems
    rw [← writeItems_eq, ← itemTokens_eq] at hblock
    -- only after a key is a sequence written without a level of its own
    cases place with
    | top => exact isReadable_block rfl (by decide) rfl rfl hblock
    | afterKey indent => exact isReadable_indentless hblock
    | afterIndicator indent =>
      exact isReadable_block rfl (Place.column_lt_keyIndent (.afterIndicator indent)) rfl rfl hblock
  | .string text =>
    simp only [isPortableIf, Bool.and_eq_true] at h
    exact isReadable_scalar rfl (fun _ => rfl) rfl ((styled h.1).written _)
  | .integer value =>
    exact isReadable_scalar rfl (fun _ => rfl) rfl (.inLine (inLine_integer value))
  | .float value =>
    exact isReadable_scalar rfl (fun _ => rfl) rfl (.inLine (inLine_float (of_decide_eq_true h)))
  | .boolean value =>
    refine isReadable_scalar rfl (fun _ => rfl) rfl (.inLine ?_)
    cases value <;> exact inLine_of_allowsPlain (by decide) (by decide)
  | .null =>
    refine isReadable_scalar rfl (fun _ => rfl) rfl (.inLine ?_)
    exact inLine_of_allowsPlain (by decide) (by decide)
  | .absent => exact absurd h Bool.false_ne_true

lemma isEntry_entries {es : List (String × Node)} (h : arePortableEntriesIf test es) (j : Nat) :
    ∀ e ∈ es, IsEntry j .blockMappingStart
      ((writeKey j e.1).1 ++ write (writeKey j e.1).2 e.2)
      (.key :: Style.token e.1 :: .value :: nodeTokens (isSimpleKey e.1) e.2) := by
  match es with
  | [] => exact nofun
  | (name, value) :: es =>
    simp only [arePortableEntriesIf, Bool.and_eq_true] at h
    exact List.forall_mem_cons.mpr
      ⟨isEntry_key h.1.1.1 (isReadable h.1.2 _), isEntry_entries h.2 j⟩

lemma isEntry_items {xs : List Node} (h : arePortableItemsIf test xs) (j : Nat) :
    ∀ x ∈ xs, IsEntry j .blockSequenceStart ('-' :: write (.afterIndicator j) x)
      (.blockEntry :: nodeTokens false x) := by
  match xs with
  | [] => exact nofun
  | x :: xs =>
    simp only [arePortableItemsIf, Bool.and_eq_true] at h
    exact List.forall_mem_cons.mpr ⟨isEntry_item (isReadable h.1 _), isEntry_items h.2 j⟩

end

end Nesting

end YamlSieve.Yaml
