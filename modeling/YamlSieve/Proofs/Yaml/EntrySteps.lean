import YamlSieve.Proofs.Yaml.ScalarSteps

/-!
# Steps over entries

The steps over what a written entry starts with: the indicator of an item, or a key and the colon
of its value.
-/

namespace YamlSieve.Yaml.Nesting

open Style (padding)

variable {s u : Nesting} {input : Input} {ks : List TokenKind} {allowed : Bool}
  {key : Option PossibleKey} {i k : Int} {L M N : List Level} {j : Nat} {isNew : Bool}

/-! ### Values -/

lemma Is.openLoose_of_ne_nil (h : s.Is input ks allowed key i M) (hin : Inside k L i M)
    (hL : Outer L) (hne : L ≠ []) :
    s.openLoose.Is input ks allowed key (k + 1) (⟨k, false⟩ :: L) := by
  obtain ⟨i', M', -, hloose, his⟩ := h.openLoose hin hL
  obtain ⟨rfl, rfl⟩ := hloose hne
  exact his

/-- A key is put in front of the token that was read for it. -/
lemma Is.insertKey {token : TokenKind} {p : PossibleKey}
    (h : s.Is input (ks ++ [token]) allowed key i M) (hin : Inside k L i M) (hL : Outer L)
    (hopen : Opens j N k L isNew)
    (hcount : p.tokenCount = ks.length) (hcolumn : p.position.column = j) :
    (s.insertKey p false).Is input (ks ++ startOf isNew .blockMappingStart ++ [.key, token]) false
      none (j + 1) (⟨j, false⟩ :: N) := by
  have hkey := h.insert hcount .key p.position
  obtain ⟨i', M', hin', hblock⟩ :=
    hkey.openBlock hin hL hopen hcount .blockMappingStart p.position
  have hloose := hblock.openLoose_of_ne_nil hin' (hopen.outer hL) hopen.ne_nil
  rw [Nesting.insertKey, hcolumn]
  exact (hloose.withKey none).withAllowed false

/-- The colon after an explicit key opens the value. -/
lemma Is.openValue (h : s.Is input ks true key i M) (hin : Inside j N i M) (hN : Outer N)
    (hne : N ≠ []) {start : Position} (hcolumn : start.column = j) :
    ∃ s', s.openValue false start = .ok s' ∧ s'.Is input ks true key (j + 1) (⟨j, false⟩ :: N) := by
  have hkinds : ks ++ startOf false .blockMappingStart ++ [] = ks := by
    rw [startOf, if_neg Bool.false_ne_true, List.append_nil, List.append_nil]
  have h' : s.Is input (ks ++ []) true key i M := by rwa [List.append_nil]
  obtain ⟨i', M', hin', hblock⟩ :=
    h'.openBlock hin hN (.same hne) h.size_tokens .blockMappingStart start
  rw [hkinds] at hblock
  have hloose := (hblock.openLoose_of_ne_nil hin' hN hne).withAllowed true
  refine ⟨_, ?_, hloose⟩
  rw [Nesting.openValue]
  simp only [h.inFlow, h.keyAllowed, hcolumn, Bool.not_true, Bool.false_eq_true, if_false]

lemma readAt_value {rest : List Char} (hrest : u.input.rest = ':' :: rest)
    (hends : endsWord rest.head?) : u.readAt ':' = u.readValue := by
  have hpeek : u.input.peekNth? 1 = rest.head? := by
    rw [Input.peekNth?, hrest, List.getElem?_cons_succ, List.head?_eq_getElem?]
  simp [readAt, hpeek, hends]

lemma Is.skipColon {rest : List Char} (h : s.Is input ks allowed key i M)
    (hrest : input.rest = ':' :: rest) (htab : rest.head? ≠ some '\t') :
    ∃ s', s.skipColon = .ok s' ∧ s'.Is (input.skip 1) ks allowed key i M := by
  have hpeek : (input.skip 1).peek? = rest.head? := by
    rw [Input.peek?, Input.rest_skip, hrest]
    rfl
  refine ⟨_, ?_, h.withInput _⟩
  simp only [Nesting.skipColon, h.input, hpeek, htab, if_false]

/-- The colon after a key of one line is read; now the key is one. -/
lemma Is.readValue_key {token : TokenKind} {p : PossibleKey} {rest : List Char}
    (h : s.Is input (ks ++ [token]) allowed (some p) i M) (hin : Inside k L i M) (hL : Outer L)
    (hopen : Opens j N k L isNew) (hcount : p.tokenCount = ks.length)
    (hcolumn : p.position.column = j) (hrest : input.rest = ':' :: rest)
    (htab : rest.head? ≠ some '\t') :
    ∃ s', s.readValue = .ok s' ∧
      s'.Is (input.skip 1) (ks ++ startOf isNew .blockMappingStart ++ [.key, token] ++ [.value])
        false none (j + 1) (⟨j, false⟩ :: N) := by
  obtain ⟨s', hs', his⟩ := h.skipColon hrest htab
  have hinsert := his.insertKey hin hL hopen hcount hcolumn
  refine ⟨_, ?_, hinsert.emit .value s.position⟩
  have hkey : s'.key? = some p := by rw [key?, his.keys]; rfl
  simp only [Nesting.readValue, h.implicitMappings, List.isEmpty_nil, Bool.not_true, Bool.false_and,
    Bool.false_eq_true, if_false, hs', hkey]
  rfl

/-- The colon after an explicit key is read. -/
lemma Is.readValue_none {rest : List Char} (h : s.Is input ks true none i M) (hin : Inside j N i M)
    (hN : Outer N) (hne : N ≠ []) (hcolumn : input.column = j) (hrest : input.rest = ':' :: rest)
    (htab : rest.head? ≠ some '\t') :
    ∃ s', s.readValue = .ok s' ∧
      s'.Is (input.skip 1) (ks ++ [.value]) true none (j + 1) (⟨j, false⟩ :: N) := by
  obtain ⟨s₁, hs₁, his₁⟩ := h.skipColon hrest htab
  have hposition : s.position.column = j := by rw [Nesting.position, h.input]; exact hcolumn
  obtain ⟨s₂, hs₂, his₂⟩ := his₁.openValue hin hN hne hposition
  refine ⟨_, ?_, his₂.emit .value s.position⟩
  have hkey : s₁.key? = none := by rw [key?, his₁.keys]; rfl
  simp only [Nesting.readValue, h.implicitMappings, List.isEmpty_nil, Bool.not_true, Bool.false_and,
    Bool.false_eq_true, if_false, hs₁, hkey, hs₂]
  rfl

/-! ### Keys -/

lemma atToken_cons {c : Char} {rest : List Char} (hc : endsWord (some c) = false)
    (hhash : c ≠ '#') : AtToken (c :: rest) := by
  intro d hd
  cases hd
  exact ⟨hc, hhash⟩

/-- What stands after the colon of a value. -/
def AfterColon (rest : List Char) : Prop := ∃ c rest', rest = c :: rest' ∧ (c = ' ' ∨ c = '\n')

lemma AfterColon.endsWord {rest : List Char} (h : AfterColon rest) : endsWord rest.head? := by
  obtain ⟨c, rest', rfl, rfl | rfl⟩ := h <;> rfl

lemma AfterColon.not_tab {rest : List Char} (h : AfterColon rest) : rest.head? ≠ some '\t' := by
  obtain ⟨c, rest', rfl, rfl | rfl⟩ := h <;>
    exact fun heq => absurd (Option.some.inj heq) (by decide)

/-- A key on one line with the colon of its value. -/
lemma Is.leads_key (h : u.Is input ks true none i M) (hin : Inside k L i M) (hL : Outer L)
    (hopen : Opens j N k L isNew) (hle : i ≤ input.column) (hcolumn : input.column = j)
    {token : TokenKind} {cs rest : List Char} (htoken : InLine token cs) (hshort : cs.length ≤ 1024)
    (hrest : input.rest = cs ++ ':' :: rest) (hafter : AfterColon rest)
    (hsize : input.rest.length ≤ input.size) :
    ∃ s, Leads u s ∧
      s.Is (input.skip (cs.length + 1))
        (ks ++ startOf isNew .blockMappingStart ++ [.key, token, .value]) false none (j + 1)
        (⟨j, false⟩ :: N) := by
  obtain ⟨t, required, i', M', hstep, hin', hle', ht⟩ :=
    h.steps_inLine hin hL hle htoken hrest hafter.endsWord hshort hsize
  have hcolon : (input.skip cs.length).rest = ':' :: rest := Input.rest_skip_append hrest
  obtain ⟨s, hread, hs⟩ := ht.readValue_key hin' hL hopen rfl hcolumn hcolon hafter.not_tab
  rw [Input.skip_skip, List.append_assoc _ [_, _]] at hs
  refine ⟨s, ⟨t, .single hstep, ?_, ?_⟩, hs⟩
  · refine ht.readHere_eq hcolon (by decide) (atDocumentMarker_of_not hcolon (by decide)) ?_ ?_
    · rw [Input.column_skip]
      omega
    · rw [readAt_value (ht.input ▸ hcolon) hafter.endsWord, hread]
  · rw [hs.input, ht.input, ← Input.skip_skip, Input.rest_skip, hcolon]
    exact Nat.lt_succ_self _

lemma Is.skipSpaces_space {n : Nat} {rest : List Char} (h : s.Is (input.skip n) ks allowed key i M)
    (hrest : (input.skip n).rest = ' ' :: rest) (hnext : AtToken rest) (fuel : Nat) :
    ∃ s', s.skipSpaces false (fuel + 2) = .ok s' ∧
      s'.Is (input.skip (n + 1)) ks allowed key i M := by
  have hrest' : (input.skip (n + 1)).rest = rest := by
    rw [← Input.skip_skip, Input.rest_skip, hrest]
    rfl
  refine ⟨{ s with input := input.skip (n + 1) }, ?_, h.withInput _⟩
  have hpeek : s.input.peek? = some ' ' := by rw [h.input, Input.peek?, hrest]; rfl
  have hskip : s.skipSpaces false (fuel + 2) =
      { s with input := input.skip (n + 1) }.skipSpaces true (fuel + 1) := by
    rw [skipSpaces]
    simp only [hpeek, if_true]
    rw [h.input, Input.skipWhite_skip]
  -- the second round stops at the token: the loop needs two units of fuel, not more
  rw [hskip, skipSpaces]
  cases rest with
  | nil =>
    have hpeek' : (input.skip (n + 1)).peek? = none := by rw [Input.peek?, hrest']; rfl
    simp only [hpeek', if_true]
  | cons c rest =>
    have hpeek' : (input.skip (n + 1)).peek? = some c := by rw [Input.peek?, hrest']; rfl
    obtain ⟨hends, hhash⟩ := hnext c rfl
    simp only [endsWord, isWhite, Bool.or_eq_false_iff, decide_eq_false_iff_not] at hends
    simp only [hpeek', hends, hhash, Bool.not_true, Bool.false_eq_true, if_false]

lemma readAt_key {rest : List Char} (hrest : u.input.rest = '?' :: ' ' :: rest) :
    u.readAt '?' = u.readKey := by
  have hpeek : u.input.peekNth? 1 = some ' ' := by rw [Input.peekNth?, hrest]; rfl
  simp [readAt, hpeek, endsWord, isWhite]

lemma Is.dropKey (h : s.Is input ks allowed none i M) :
    s.dropKey = .ok (s.withKey none) ∧ (s.withKey none).Is input ks allowed none i M := by
  have hkey : s.key? = none := by rw [key?, h.keys]; rfl
  exact ⟨by simp only [Nesting.dropKey, hkey], h.withKey none⟩

/-- The indicator of an explicit key, and the space after it. -/
lemma Is.readKey (h : s.Is input ks true none i M) (hin : Inside k L i M) (hL : Outer L)
    (hopen : Opens j N k L isNew) (hcolumn : input.column = j) {rest : List Char}
    (hrest : input.rest = '?' :: ' ' :: rest) (hnext : AtToken rest)
    (hsize : input.rest.length ≤ input.size) :
    ∃ s' i' M', s.readKey = .ok s' ∧ Inside j N i' M' ∧
      s'.Is (input.skip 2) (ks ++ startOf isNew .blockMappingStart ++ [.key]) true none i' M' := by
  have h' : s.Is input (ks ++ []) true none i M := by rwa [List.append_nil]
  obtain ⟨i', M', hin', hblock⟩ :=
    h'.openBlock hin hL hopen h.size_tokens .blockMappingStart s.position
  rw [List.append_nil] at hblock
  have hposition : s.position.column = j := by rw [Nesting.position, h.input]; exact hcolumn
  rw [Nesting.readKey]
  simp only [h.inFlow, h.keyAllowed, hposition, Bool.not_true, Bool.and_false, Bool.false_eq_true,
    if_false]
  generalize s.openBlock j s.tokens.size .blockMappingStart s.position = b at hblock
  obtain ⟨hdrop, hblock'⟩ := hblock.dropKey
  obtain ⟨fuel, hfuel⟩ : ∃ f, input.size + 1 = f + 2 := by
    rw [hrest] at hsize
    exact ⟨input.size - 1, by simp only [List.length_cons] at hsize; omega⟩
  have hspace : (input.skip 1).rest = ' ' :: rest := by
    rw [Input.rest_skip, hrest]
    rfl
  have hskip := (hblock'.withAllowed true).withInput (input.skip 1)
  obtain ⟨s₂, hs₂, his₂⟩ := hskip.skipSpaces_space hspace hnext fuel
  refine ⟨_, i', M', ?_, hin', his₂.emit .key s.position⟩
  simp only [hdrop, hblock'.inFlow, hblock'.input, Input.size_skip, hfuel, Bool.not_false, hs₂]
  rfl

lemma Written.atToken {indent : Nat} {token : TokenKind} {cs : List Char}
    (h : Written indent token cs) (rest : List Char) : AtToken (cs ++ rest) := by
  cases h with
  | inLine h =>
    obtain ⟨c, cs, rfl, hends, hhash, -⟩ := h.exists_cons
    exact atToken_cons hends hhash
  | literal => exact atToken_cons rfl (by decide)

lemma atToken_colon (rest : List Char) : AtToken (':' :: rest) := atToken_cons rfl (by decide)

/-- An explicit key on lines of its own, and the colon of its value. -/
lemma Is.leads_explicitKey (h : u.Is input ks true none i M) (hin : Inside k L i M) (hL : Outer L)
    (hopen : Opens j N k L isNew) (hle : i ≤ input.column) (hcolumn : input.column = j)
    {token : TokenKind} {cs rest : List Char} (htoken : Written (j + 2) token cs)
    (hrest : input.rest = '?' :: ' ' :: (cs ++ (padding j ++ ':' :: rest)))
    (hafter : AfterColon rest) (hsize : input.rest.length ≤ input.size) :
    ∃ s input', Leads u s ∧ input'.rest = rest ∧ input'.column = j + 1 ∧
      input'.rest.length ≤ input'.size ∧
      s.Is input' (ks ++ startOf isNew .blockMappingStart ++ [.key, token, .value]) true none
        (j + 1) (⟨j, false⟩ :: N) := by
  have hN := hopen.outer hL
  have hne := hopen.ne_nil
  -- the indicator
  have hkey : AtToken (cs ++ (padding j ++ ':' :: rest)) := htoken.atToken _
  obtain ⟨s₁, i₁, M₁, hread₁, hin₁, his₁⟩ := h.readKey hin hL hopen hcolumn hrest hkey hsize
  have hrest₁ : (input.skip 2).rest = cs ++ (padding j ++ ':' :: rest) := by
    rw [Input.rest_skip, hrest]
    rfl
  have hroom₁ : (input.skip 2).rest.length < input.rest.length := by
    rw [hrest₁, hrest]
    simp only [List.length_cons]
    omega
  have hi₁ : i₁ ≤ (input.skip 2).column := by
    rw [Input.column_skip, hcolumn]
    cases hin₁ <;> omega
  obtain ⟨t₁, hnext₁, ht₁⟩ := his₁.next_passed (skips_here (hrest₁ ▸ hkey) true) nofun
    (closed_of_le hi₁ M₁ _)
  have hstep₁ : Steps u t₁ := by
    refine ⟨s₁, h.readHere_eq hrest (by decide) (atDocumentMarker_of_not hrest (by decide)) hle ?_,
      hnext₁, by rw [ht₁.input, h.input]; exact hroom₁⟩
    rw [readAt_key (h.input ▸ hrest), hread₁]
  -- the key
  have htail : Tail j j (':' :: rest) :=
    ⟨atToken_colon rest, Int.le_refl _, fun _ => Int.natCast_nonneg j, nofun⟩
  have hindent : (max (j : Int) 0).toNat + 2 = j + 2 := by omega
  obtain ⟨t₂, hstep₂, hdone⟩ := ht₁.steps_written hin₁ hN
    (by rw [Input.column_skip, hcolumn]; omega) (hindent.symm ▸ htoken) hrest₁ htail
    (Nat.le_trans (Nat.le_of_lt hroom₁) hsize)
  obtain ⟨input₂, ht₂, hrest₂, hcolumn₂, hroom₂⟩ := hdone.same
  -- the colon
  obtain ⟨s, hread, hs⟩ := ht₂.readValue_none .tight hN hne hcolumn₂ hrest₂ hafter.not_tab
  have hrest' : (input₂.skip 1).rest = rest := by
    rw [Input.rest_skip, hrest₂]
    rfl
  have hlt : (input₂.skip 1).rest.length < input₂.rest.length := by
    rw [hrest', hrest₂]
    exact Nat.lt_succ_self _
  refine ⟨s, input₂.skip 1, ⟨t₂, (Relation.ReflTransGen.single hstep₁).tail hstep₂, ?_, ?_⟩, hrest',
    by rw [Input.column_skip, hcolumn₂], Nat.le_trans (Nat.le_of_lt hlt) hroom₂, ?_⟩
  · refine ht₂.readHere_eq hrest₂ (by decide) (atDocumentMarker_of_not hrest₂ (by decide))
      (Int.le_of_eq (by rw [hcolumn₂])) ?_
    rw [readAt_value (ht₂.input ▸ hrest₂) hafter.endsWord, hread]
  · rw [hs.input, ht₂.input]
    exact hlt
  · simpa only [List.append_assoc, List.cons_append, List.nil_append] using hs

/-! ### Items -/

/-- Whether a token is no property of a node. -/
def isBare : TokenKind → Bool
  | .anchor _ => false
  | .tag _    => false
  | _         => true

lemma Is.followsMarginProperty (h : s.Is input ks allowed key i M)
    (hks : ∀ kind ∈ ks, isBare kind) : s.followsMarginProperty = false := by
  have hback : ∀ token ∈ s.tokens.back?, isBare token.kind := by
    intro token htoken
    refine hks _ ?_
    rw [← h.kinds, Nesting.kinds]
    refine List.mem_map_of_mem ?_
    rw [Array.mem_toList_iff]
    exact Array.mem_of_back? htoken
  rw [Nesting.followsMarginProperty]
  split
  · rename_i htoken
    exact absurd (hback _ htoken) Bool.false_ne_true
  · rename_i htoken
    exact absurd (hback _ htoken) Bool.false_ne_true
  · rfl

lemma skipGap_space {rest : List Char} (hrest : input.rest = ' ' :: rest) (hnext : AtToken rest) :
    input.skipGap true = .ok (⟨false, true⟩, input.skipWhite) := by
  have hrow : rest.takeWhile (fun c => c = ' ' || (true && c = '\t')) = [] := by
    cases rest with
    | nil => rfl
    | cons c rest =>
      have hends := (hnext c rfl).1
      rw [endsWord, Bool.or_eq_false_iff] at hends
      exact Input.takeWhile_eq_nil_of_endsWord hends.2 fun c hc => by simpa [isWhite] using hc
  have htake : input.rest.takeWhile (fun c => c = ' ' || (true && c = '\t')) = [' '] := by
    rw [hrest, List.takeWhile_cons_of_pos (by decide), hrow]
  have hpeek : (input.passed 1 (input.rest.drop 1)).peek? ≠ some '#' := by
    show (input.rest.drop 1).head? ≠ _
    rw [hrest]
    exact fun hhash => (hnext _ hhash).2 rfl
  have hnot : ¬ (input.passed 1 (input.rest.drop 1)).peek? = some '#' := hpeek
  simp only [Input.skipGap, htake, List.length_singleton, hnot, if_false]
  rfl

lemma readAt_blockEntry {rest : List Char} (hrest : u.input.rest = '-' :: ' ' :: rest) :
    u.readAt '-' = u.readBlockEntry := by
  have hpeek : u.input.peekNth? 1 = some ' ' := by rw [Input.peekNth?, hrest]; rfl
  simp [readAt, hpeek, endsWord, isWhite]

/-- The indicator of an item, and the space after it. -/
lemma Is.readBlockEntry (h : s.Is input ks true none i M) (hin : Inside k L i M) (hL : Outer L)
    (hopen : Opens j N k L isNew) (hcolumn : input.column = j) (hks : ∀ kind ∈ ks, isBare kind)
    {rest : List Char} (hrest : input.rest = '-' :: ' ' :: rest) (hnext : AtToken rest) :
    ∃ s' i' M', s.readBlockEntry = .ok s' ∧ Inside j N i' M' ∧
      s'.Is (input.skip 2) (ks ++ startOf isNew .blockSequenceStart ++ [.blockEntry]) true none
        i' M' := by
  have h' : Is { s with input := input.skip 1 } (input.skip 1) (ks ++ []) true none i M := by
    rw [List.append_nil]
    exact h.withInput _
  obtain ⟨i₁, M₁, hin₁, hblock⟩ :=
    h'.openBlock hin hL hopen h.size_tokens .blockSequenceStart s.position
  rw [List.append_nil] at hblock
  have hposition : s.position.column = j := by rw [Nesting.position, h.input]; exact hcolumn
  have hgap : (input.skip 1).skipGap true = .ok (⟨false, true⟩, input.skip 2) := by
    rw [skipGap_space (by rw [Input.rest_skip, hrest]; rfl) hnext, Input.skipWhite_skip]
  have hallowed : (s.inFlow || !s.keyAllowed) = false := by rw [h.inFlow, h.keyAllowed]; rfl
  rw [Nesting.readBlockEntry]
  simp only [hallowed, h.followsMarginProperty hks, h.input, hposition, Bool.false_eq_true,
    if_false]
  -- from here on only what is known of the opened stack counts, not how it was opened
  generalize Nesting.openBlock _ j s.tokens.size .blockSequenceStart s.position = b at hblock
  simp only [hblock.input, hgap, Bool.false_and, Bool.false_eq_true, if_false]
  have hb := hblock.withInput (input.skip 2)
  generalize ({ b with input := input.skip 2 } : Nesting) = b' at hb
  -- a loose level is pushed if the node does not stand on the line; both shapes are inside
  have hopened : ∃ i' M', Inside j N i' M' ∧
      (if (input.skip 2).peek?.any fun c => isBreak c || isFlowIndicator c then b'.openLoose
        else b').Is (input.skip 2) (ks ++ startOf isNew .blockSequenceStart) true none i' M' := by
    split
    · obtain ⟨i', M', hin', -, his⟩ := hb.openLoose hin₁ (hopen.outer hL)
      exact ⟨i', M', hin', his⟩
    · exact ⟨i₁, M₁, hin₁, hb⟩
  obtain ⟨i', M', hin', his⟩ := hopened
  obtain ⟨hdrop, his'⟩ := his.dropKey
  refine ⟨_, i', M', ?_, hin', (his'.withAllowed true).emit .blockEntry s.position⟩
  rw [hdrop]
  rfl

/-- The indicator of an item. -/
lemma Is.leads_item (h : u.Is input ks true none i M) (hin : Inside k L i M) (hL : Outer L)
    (hopen : Opens j N k L isNew) (hle : i ≤ input.column) (hcolumn : input.column = j)
    (hks : ∀ kind ∈ ks, isBare kind) {rest : List Char} (hrest : input.rest = '-' :: ' ' :: rest)
    (hnext : AtToken rest) :
    ∃ s i' M', Leads u s ∧ Inside j N i' M' ∧
      s.Is (input.skip 2) (ks ++ startOf isNew .blockSequenceStart ++ [.blockEntry]) true none
        i' M' := by
  obtain ⟨s, i', M', hread, hin', his⟩ := h.readBlockEntry hin hL hopen hcolumn hks hrest hnext
  have hmarker : input.atDocumentMarker = false := by
    have hnot : ∀ d, input.isMarker d = false := by
      intro d
      rw [← Bool.not_eq_true, isMarker_iff]
      rintro ⟨rest', hrest', -⟩
      rw [hrest] at hrest'
      cases hrest'
    rw [Input.atDocumentMarker, hnot, hnot, Bool.or_self, Bool.and_false]
  refine ⟨s, i', M', ⟨u, .refl, h.readHere_eq hrest (by decide) hmarker hle ?_, ?_⟩, hin', his⟩
  · rw [readAt_blockEntry (h.input ▸ hrest), hread]
  · rw [his.input, h.input, Input.rest_skip, hrest]
    simp only [List.drop_succ_cons, List.drop_zero, List.length_cons]
    omega

end YamlSieve.Yaml.Nesting
