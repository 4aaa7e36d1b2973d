import YamlSieve.Proofs.Yaml.EntrySteps

/-!
# Steps over empty collections

An empty collection is written in flow style, and is read by two steps.
-/

namespace YamlSieve.Yaml.Nesting

open Style (padding)

variable {s u : Nesting} {input : Input} {ks : List TokenKind} {allowed : Bool}
  {key : Option PossibleKey} {i k : Int} {L M N : List Level}

/-! ### Inside of the brackets -/

/-- The two kinds of empty collections. -/
inductive Brackets where
  | square
  | curly
deriving DecidableEq

namespace Brackets

def left : Brackets → Char
  | square => '['
  | curly  => '\x7b'

def right : Brackets → Char
  | square => ']'
  | curly  => '\x7d'

def start : Brackets → TokenKind
  | square => .flowSequenceStart
  | curly  => .flowMappingStart

def stop : Brackets → TokenKind
  | square => .flowSequenceEnd
  | curly  => .flowMappingEnd

/-- The implicit mappings that may be open between the brackets. -/
def implicit : Brackets → List (Option Nat)
  | square => [none]
  | curly  => []

end Brackets

/-- The state of a reader after the left bracket of a collection that stands in no other one. -/
structure IsBetween (s : Nesting) (b : Brackets) (input : Input) (kinds : List TokenKind)
    (key : Option PossibleKey) (indent : Int) (levels : List Level) : Prop where
  input            : s.input = input
  kinds            : s.kinds = kinds
  keys             : s.keys = [none, key]
  indent           : s.indent = indent
  levels           : s.levels = levels
  flowLevel        : s.flowLevel = 1
  implicitMappings : s.implicitMappings = b.implicit

lemma IsBetween.inFlow {b : Brackets} (h : s.IsBetween b input ks key i M) : s.inFlow = true := by
  simp [Nesting.inFlow, h.flowLevel]

lemma IsBetween.withInput {b : Brackets} (h : s.IsBetween b input ks key i M) (input' : Input) :
    IsBetween { s with input := input' } b input' ks key i M :=
  ⟨rfl, h.kinds, h.keys, h.indent, h.levels, h.flowLevel, h.implicitMappings⟩

lemma IsBetween.emit {b : Brackets} (h : s.IsBetween b input ks key i M) (kind : TokenKind)
    (position : Position) : (s.emit kind position).IsBetween b input (ks ++ [kind]) key i M := by
  refine ⟨h.input, ?_, h.keys, h.indent, h.levels, h.flowLevel, h.implicitMappings⟩
  rw [← h.kinds]
  simp [Nesting.kinds, Nesting.emit]

/-- In flow collections nothing is given up or closed. -/
lemma IsBetween.next {b : Brackets} (h : s.IsBetween b input ks key i M)
    (hnext : AtToken input.rest) : s.next = .ok s := by
  have hdrop : s.dropStaleKeys = .ok s := by rw [dropStaleKeys, h.inFlow, if_pos rfl]
  rw [Nesting.next, skipToToken_here (h.input ▸ hnext)]
  show s.settle = .ok s
  rw [settle, hdrop]
  show Except.ok (s.closeBlocks s.input.column) = _
  rw [closeBlocks, h.inFlow, if_pos rfl]

lemma skipIndicator_eq {c d : Char} {rest : List Char} (hrest : s.input.rest = c :: d :: rest)
    (hwhite : isWhite d = false) (hhash : d ≠ '#') :
    s.skipIndicator = .ok { s with input := s.input.skip 1 } := by
  have hrest' : (s.input.skip 1).rest = d :: rest := by
    rw [Input.rest_skip, hrest]
    rfl
  rw [Nesting.skipIndicator, Input.skipToToken_eq hrest' hwhite hhash]
  rfl

lemma Brackets.isWhite_right (b : Brackets) : isWhite b.right = false ∧ b.right ≠ '#' := by
  cases b <;> decide

lemma Is.between (h : s.Is input ks allowed key i M) (b : Brackets) :
    IsBetween
      (if b.start = .flowMappingStart then
        { s with
          flowLevel := 1, keys := [none, key], keyAllowed := true
          flowMappingStarted := true }
      else
        { s with
          flowLevel := 1, keys := [none, key], keyAllowed := true
          implicitMappings := none :: s.implicitMappings })
      b input ks key i M := by
  cases b with
  | square =>
    rw [if_neg (by decide)]
    exact ⟨h.input, h.kinds, rfl, h.indent, h.levels, rfl, congrArg (none :: ·) h.implicitMappings⟩
  | curly =>
    rw [if_pos (by decide)]
    exact ⟨h.input, h.kinds, rfl, h.indent, h.levels, rfl, h.implicitMappings⟩

lemma Is.readFlowStart {b : Brackets} (h : s.Is input ks allowed none i M) (hin : Inside k L i M)
    (hL : Outer L) {rest : List Char} (hrest : input.rest = b.left :: b.right :: rest) :
    ∃ s' required i' M', s.readFlowStart b.start = .ok s' ∧ Inside k L i' M' ∧
      s'.IsBetween b (input.skip 1) (ks ++ [b.start]) (marked allowed input ks required) i' M' ∧
      (k < input.column → required = false) := by
  obtain ⟨required, hmark, hrequired⟩ := h.markKey hin
  obtain ⟨i', M', hin', -, hopen⟩ := hmark.openLoose hin hL
  have hflow : s.markKey.openLoose.openFlow = .ok { s.markKey.openLoose with
      flowLevel := 0 + 1, keys := none :: [marked allowed input ks required] } := by
    rw [openFlow, hopen.flowLevel, if_neg (by decide), hopen.keys]
  obtain ⟨hwhite, hhash⟩ := b.isWhite_right
  have hskip {s' : Nesting} {kind : TokenKind}
      (hs' : s'.IsBetween b input ks (marked allowed input ks required) i' M') :
      ∃ s'', s'.skipIndicator.map (fun s' => s'.emit kind s.position) = .ok s'' ∧
        s''.IsBetween b (input.skip 1) (ks ++ [kind]) (marked allowed input ks required) i' M' := by
    refine ⟨_, ?_, (hs'.withInput (input.skip 1)).emit kind s.position⟩
    rw [skipIndicator_eq (hs'.input ▸ hrest) hwhite hhash, hs'.input]
    rfl
  rw [Nesting.readFlowStart]
  simp only [hflow]
  generalize s.markKey.openLoose = opened at hopen
  obtain ⟨s', hs', his'⟩ := hskip (hopen.between b)
  exact ⟨s', required, i', M', hs', hin', his', hrequired⟩

/-- The state at the end of a flow collection, where the bracket itself is still to be passed. -/
def leaveFlow (s : Nesting) (kind : TokenKind) : Nesting :=
  let s :=
    if kind = .flowSequenceEnd then
      let s := s.endImplicitMapping
      { s with implicitMappings := s.implicitMappings.drop 1 }
    else
      s
  { s.closeFlow with keyAllowed := false }

lemma readFlowEnd_eq {u : Nesting} (h : s.dropKey = .ok u) (kind : TokenKind) :
    s.readFlowEnd kind = (u.leaveFlow kind).skipIndicator.map fun v =>
      let adjacent := if v.inFlow then v.position.index else v.adjacentValueAt
      { v with adjacentValueAt := adjacent }.emit kind s.position := by
  rw [readFlowEnd, h]
  rfl

lemma IsBetween.closeFlow {b : Brackets} (h : s.IsBetween b input ks key i M)
    (himplicit : s.implicitMappings = []) :
    Is { s.closeFlow with keyAllowed := false } input ks false key i M := by
  rw [Nesting.closeFlow, h.inFlow, if_pos rfl, h.flowLevel, h.keys]
  exact ⟨h.input, h.kinds, rfl, rfl, h.indent, h.levels, rfl, himplicit⟩

lemma IsBetween.leaveFlow {b : Brackets} (h : s.IsBetween b input ks key i M) :
    (s.leaveFlow b.stop).Is input ks false key i M := by
  cases b with
  | square =>
    have hend : s.endImplicitMapping = s := by
      rw [endImplicitMapping]
      split
      · rename_i heq
        exact absurd (h.implicitMappings.symm.trans heq) (by simp [Brackets.implicit])
      · rfl
    have hdrop : s.implicitMappings.drop 1 = [] := by rw [h.implicitMappings]; rfl
    have h' : IsBetween { s with implicitMappings := s.implicitMappings.drop 1 } .curly input ks key
        i M := ⟨h.input, h.kinds, h.keys, h.indent, h.levels, h.flowLevel, hdrop⟩
    simp only [Nesting.leaveFlow, Brackets.stop, if_true, hend]
    exact h'.closeFlow hdrop
  | curly => exact h.closeFlow h.implicitMappings

lemma IsBetween.readFlowEnd {b : Brackets} (h : s.IsBetween b input ks key i M) {rest : List Char}
    (hrest : input.rest = b.right :: '\n' :: rest) :
    ∃ s', s.readFlowEnd b.stop = .ok s' ∧ s'.Is (input.skip 1) (ks ++ [b.stop]) false key i M := by
  have hdrop : s.dropKey = .ok (s.withKey none) := by
    have hkey : s.key? = none := by rw [key?, h.keys]; rfl
    simp only [Nesting.dropKey, hkey]
  have h' : (s.withKey none).IsBetween b input ks key i M :=
    ⟨h.input, h.kinds, by simp [withKey, h.keys], h.indent, h.levels, h.flowLevel,
      h.implicitMappings⟩
  have hleave := h'.leaveFlow
  rw [readFlowEnd_eq hdrop, skipIndicator_eq (by rw [hleave.input]; exact hrest) rfl (by decide),
    hleave.input]
  exact ⟨_, rfl, ((hleave.withInput (input.skip 1)).withAdjacent _).emit b.stop s.position⟩

/-! ### Both brackets -/

lemma readAt_left (b : Brackets) (u : Nesting) : u.readAt b.left = u.readFlowStart b.start := by
  cases b <;> simp [readAt, Brackets.left, Brackets.start]

lemma readAt_right (b : Brackets) (u : Nesting) : u.readAt b.right = u.readFlowEnd b.stop := by
  cases b <;> simp [readAt, Brackets.right, Brackets.stop]

/-- Behind the first column, nothing is a directive or a marker. -/
lemma IsBetween.readHere_eq {b : Brackets} {c : Char} {rest : List Char}
    (h : u.IsBetween b input ks key i M) (hrest : input.rest = c :: rest)
    (hcolumn : 0 < input.column) (hle : i ≤ input.column) (hread : u.readAt c = .ok s) :
    u.readHere = .ok (s, true) := by
  have hpeek : u.input.peek? = some c := by rw [h.input, Input.peek?, hrest]; rfl
  have hzero : ¬ u.input.column = 0 := by rw [h.input]; exact Nat.ne_of_gt hcolumn
  have hunder : u.isUnderIndented c = false := by
    rw [isUnderIndented, h.input, h.indent, decide_eq_false (by omega), Bool.false_and]
  simp only [readHere, hpeek, hzero, hunder, hread, decide_false, Bool.false_and,
    Bool.false_eq_true, if_false]
  rfl

/-- An empty collection is read by two steps, and what follows it is reached. -/
lemma Is.run_brackets (h : u.Is input ks allowed none i M) (hin : Inside k L i M) (hL : Outer L)
    (hk : k < input.column) (b : Brackets) {c : Int} {more : List Char}
    (hrest : input.rest = b.left :: b.right :: '\n' :: padding c.toNat ++ more)
    (htail : Tail k c more) (hsize : input.rest.length ≤ input.size) :
    ∃ t, Relation.ReflTransGen Steps u t ∧ Done t k L (ks ++ [b.start, b.stop]) c more := by
  have hle : i ≤ input.column := by
    cases hin with
    | tight => exact Int.le_of_lt hk
    | loose => exact hk
  have hrest₁ : (input.skip 1).rest = b.right :: '\n' :: (padding c.toNat ++ more) := by
    rw [Input.rest_skip, hrest]
    rfl
  have hrest₂ : (input.skip 2).rest = '\n' :: padding c.toNat ++ more := by
    rw [Input.rest_skip, hrest]
    rfl
  -- the left bracket
  obtain ⟨s₁, required, i', M', hread₁, hin', his₁, hrequired⟩ := h.readFlowStart hin hL hrest
  have hnext₁ := his₁.next (by
    rw [hrest₁]
    exact atToken_cons (by cases b <;> decide) b.isWhite_right.2)
  have hstep₁ : Steps u s₁ := by
    refine ⟨s₁, h.readHere_eq hrest (by cases b <;> decide) (atDocumentMarker_of_not hrest
      (by cases b <;> decide)) hle ((readAt_left b u).trans hread₁), hnext₁, ?_⟩
    rw [his₁.input, h.input, hrest₁, hrest]
    exact Nat.lt_succ_self _
  -- the right bracket
  obtain ⟨s₂, hread₂, his₂⟩ := his₁.readFlowEnd hrest₁
  rw [Input.skip_skip] at his₂
  have hroom₂ : (input.skip 2).rest.length ≤ (input.skip 2).size :=
    Nat.le_trans (Input.length_rest_skip_le 2) hsize
  have hfinal : ((input.skip 2).nextLine c.toNat).rest = more := Input.rest_nextLine hrest₂
  have hlength : more.length < (input.skip 1).rest.length := by
    rw [hrest₁]
    simp only [List.length_cons, List.length_append]
    omega
  obtain ⟨t, hnext₂, hdone⟩ := his₂.next_done hin' (skips_nextLine hrest₂ htail.token hroom₂ false)
    htail hfinal (Input.column_nextLine _) (by
      rw [hfinal]
      exact Nat.le_trans (Nat.le_of_lt hlength) (Nat.le_trans (Input.length_rest_skip_le 1) hsize))
    (passed_marked (hrequired hk) (Nat.lt_succ_self _))
  have hi' : i' ≤ (input.skip 1).column := by
    rw [Input.column_skip]
    cases hin' <;> omega
  have hstep₂ : Steps s₁ t := by
    refine ⟨s₂, his₁.readHere_eq hrest₁ ?_ hi' ((readAt_right b s₁).trans hread₂), hnext₂, ?_⟩
    · rw [Input.column_skip]
      exact Nat.succ_pos _
    · rw [hdone.rest, his₁.input]
      exact hlength
  refine ⟨t, (Relation.ReflTransGen.single hstep₁).tail hstep₂, ?_⟩
  rwa [List.append_assoc] at hdone

/-! ### The end -/

/-- At the end of a text everything that is open is closed. -/
lemma Done.readHere (h : Done u (-1) [] ks (-1) []) :
    ∃ s, u.readHere = .ok (s, false) ∧ s.kinds = ks ++ [.streamEnd] := by
  obtain ⟨input, i, M, ks', h⟩ := h
  have hpeek : u.input.peek? = none := by rw [h.is.input, Input.peek?, h.rest]; rfl
  have hrequired : (u.keys.any fun key => key.any PossibleKey.required) = false := by
    rw [h.is.keys]
    rfl
  have hkeys : Is { u with keys := u.keys.map fun _ => none } input ks' true none i M :=
    ⟨h.is.input, h.is.kinds, h.is.keyAllowed, by rw [h.is.keys]; rfl, h.is.indent, h.is.levels,
      h.is.flowLevel, h.is.implicitMappings⟩
  have hclosed := hkeys.closeBlocks (-1) h.closed
  generalize hs : Nesting.closeBlocks { u with keys := u.keys.map fun _ => none } (-1) = s
    at hclosed
  have hread : u.readHere = .ok (s.emit .streamEnd s.position, false) := by
    simp only [Nesting.readHere, hpeek, readStreamEnd, hrequired, Bool.false_eq_true, if_false]
    rw [← hs]
    rfl
  exact ⟨_, hread, (hclosed.emit .streamEnd _).kinds⟩

end YamlSieve.Yaml.Nesting
