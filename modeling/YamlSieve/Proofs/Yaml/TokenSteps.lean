import YamlSieve.Proofs.Yaml.Levels
import Mathlib.Logic.Relation

/-!
# Steps of a reader

A step reads one token and passes what separates it from the next one. The keys that lie too far
back are given up, and the block collections that end in front of the next token are closed.
-/

namespace YamlSieve.Yaml.Nesting

variable {s u : Nesting} {input : Input} {ks : List TokenKind} {allowed : Bool}
  {key : Option PossibleKey} {i k : Int} {L M N : List Level}

/-! ### Between two tokens -/

/-- Gives up the keys that lie too far back, and closes the collections that end here. -/
def settle (s : Nesting) : Step := s.dropStaleKeys.map fun s => s.closeBlocks s.input.column

/-- Passes what stands in front of the next token. -/
def next (s : Nesting) : Step :=
  match s.skipToToken (s.input.size + 1) with
  | .error e => .error e
  | .ok s    => s.settle

/-- Reads the token that stands here, and tells whether the stream goes on. -/
def readHere (s : Nesting) : Except SyntaxError (Nesting × Bool) :=
  match s.input.peek? with
  | none   => s.readStreamEnd.map (·, false)
  | some c =>
    let step : Step :=
      if s.input.column = 0 && c = '%' then s.readDirective
      else if s.input.column = 0 && s.input.isMarker '-' then s.readMarker .documentStart
      else if s.input.column = 0 && s.input.isMarker '.' then s.readDocumentEnd
      else if s.isUnderIndented c then .error .invalidIndentation
      else s.readAt c
    step.map (·, true)

lemma readToken_eq (s : Nesting) : s.readToken =
    match s.next with
    | .error e => .error e
    | .ok u    => u.readHere := by
  rw [readToken, next]
  cases s.skipToToken (s.input.size + 1) with
  | error e => rfl
  | ok s =>
    simp only [settle]
    cases s.dropStaleKeys <;> rfl

/-- A token is read here, and the next one stands elsewhere. -/
def Steps (u u' : Nesting) : Prop :=
  ∃ s, u.readHere = .ok (s, true) ∧ s.next = .ok u' ∧ u'.input.rest.length < u.input.rest.length

/-- The tokens from here on are read by as many steps. -/
lemma readTokens_of_steps {u u' final : Nesting} (hrun : Relation.ReflTransGen Steps u u')
    (hend : u'.readHere = .ok (final, false)) {s : Nesting} (hs : s.next = .ok u) {fuel : Nat}
    (hfuel : u.input.rest.length < fuel) : s.readTokens fuel = .ok final.tokens := by
  induction hrun using Relation.ReflTransGen.head_induction_on generalizing s fuel with
  | refl =>
    obtain ⟨fuel, rfl⟩ : ∃ f, fuel = f + 1 := ⟨fuel - 1, by omega⟩
    simp only [readTokens, readToken_eq, hs, hend]
  | head hstep _ ih =>
    obtain ⟨s', hread, hnext, hlt⟩ := hstep
    obtain ⟨fuel, rfl⟩ : ∃ f, fuel = f + 1 := ⟨fuel - 1, by omega⟩
    simp only [readTokens, readToken_eq, hs, hread]
    exact ih hnext (by omega)

/-! ### Passing what separates tokens -/

lemma skipToToken_here (h : AtToken s.input.rest) (fuel : Nat) : s.skipToToken fuel = .ok s := by
  cases fuel with
  | zero => rfl
  | succ fuel =>
    rw [skipToToken]
    cases hrest : s.input.rest with
    | nil =>
      have hpeek : s.input.peek? = none := by rw [Input.peek?, hrest]; rfl
      simp only [hpeek]
    | cons c rest =>
      have hpeek : s.input.peek? = some c := by rw [Input.peek?, hrest]; rfl
      obtain ⟨hends, hhash⟩ := h c (by rw [hrest]; rfl)
      rw [endsWord, Bool.or_eq_false_iff] at hends
      have htab : c ≠ '\t' := by
        rintro rfl
        exact absurd hends.2 (by decide)
      simp only [hpeek, htab, hends.1, hends.2, hhash, decide_false, Bool.false_and,
        Bool.false_eq_true, if_false]

lemma skipToToken_white {rest : List Char} (hrest : s.input.rest = ' ' :: rest) (fuel : Nat) :
    s.skipToToken (fuel + 1) = { s with input := s.input.skipWhite }.skipToToken fuel := by
  have hpeek : s.input.peek? = some ' ' := by rw [Input.peek?, hrest]; rfl
  have hwhite : isWhite ' ' = true := rfl
  have htab : ¬ ' ' = '\t' := by decide
  simp only [skipToToken, hpeek, htab, hwhite, decide_false, Bool.false_and, Bool.false_eq_true,
    if_false, if_true]

lemma Is.skipToToken_indentation {j n : Nat} {rest : List Char}
    (h : s.Is (input.nextLine j) ks allowed key i M)
    (hrest : (input.nextLine j).rest = Style.padding n ++ rest) (hnext : AtToken rest) {fuel : Nat}
    (hfuel : n ≤ fuel) :
    ∃ s', s.skipToToken fuel = .ok s' ∧ s'.Is (input.nextLine (j + n)) ks allowed key i M := by
  induction n generalizing s j fuel with
  | zero => exact ⟨s, skipToToken_here (by rw [h.input, hrest]; exact hnext) fuel, h⟩
  | succ n ih =>
    obtain ⟨fuel, rfl⟩ : ∃ f, fuel = f + 1 := ⟨fuel - 1, by omega⟩
    have hrest' : (input.nextLine (j + 1)).rest = Style.padding n ++ rest := by
      rw [← Input.skipWhite_nextLine]
      show (input.nextLine j).rest.drop 1 = _
      rw [hrest]
      rfl
    rw [skipToToken_white (h.input ▸ hrest), h.input, Input.skipWhite_nextLine]
    have := ih (h.withInput (input.nextLine (j + 1))) hrest' (Nat.le_of_succ_le_succ hfuel)
    rwa [Nat.add_right_comm, Nat.add_assoc] at this

/-- A line break and the indentation after it are passed; then a key may start. -/
lemma Is.skipToToken_nextLine {n : Nat} {rest : List Char} (h : s.Is input ks allowed key i M)
    (hrest : input.rest = '\n' :: Style.padding n ++ rest) (hnext : AtToken rest) {fuel : Nat}
    (hfuel : n < fuel) :
    ∃ s', s.skipToToken fuel = .ok s' ∧ s'.Is (input.nextLine n) ks true key i M := by
  obtain ⟨fuel, rfl⟩ : ∃ f, fuel = f + 1 := ⟨fuel - 1, by omega⟩
  have hpeek : s.input.peek? = some '\n' := by rw [h.input, Input.peek?, hrest]; rfl
  have hwhite : isWhite '\n' = false := rfl
  have hbreak : isBreak '\n' = true := rfl
  have htab : ¬ '\n' = '\t' := by decide
  -- outside flow collections a key may start on every line
  have hallowed : (s.keyAllowed || !s.inFlow) = true := by
    rw [h.inFlow, Bool.not_false, Bool.or_true]
  have hrest' : (input.nextLine 0).rest = Style.padding n ++ rest := Input.rest_nextLine hrest
  have hskip : s.skipToToken (fuel + 1) =
      { s with input := input.nextLine 0, keyAllowed := true }.skipToToken fuel := by
    simp only [skipToToken, hpeek, htab, hwhite, hbreak, hallowed, decide_false, Bool.false_and,
      Bool.false_eq_true, if_false, if_true]
    rw [h.input]
    rfl
  rw [hskip, ← Nat.zero_add n]
  exact ((h.withInput (input.nextLine 0)).withAllowed true).skipToToken_indentation hrest' hnext
    (Nat.le_of_lt_succ hfuel)

/-- One space within a line is passed. -/
lemma Is.skipToToken_space {rest : List Char} (h : s.Is input ks allowed key i M)
    (hrest : input.rest = ' ' :: rest) (hnext : AtToken rest) {fuel : Nat} (hfuel : 0 < fuel) :
    ∃ s', s.skipToToken fuel = .ok s' ∧ s'.Is input.skipWhite ks allowed key i M := by
  obtain ⟨fuel, rfl⟩ : ∃ f, fuel = f + 1 := ⟨fuel - 1, by omega⟩
  rw [skipToToken_white (h.input ▸ hrest), h.input]
  refine ⟨_, skipToToken_here ?_ fuel, h.withInput _⟩
  show AtToken (input.rest.drop 1)
  rw [hrest]
  exact hnext

/-- What separates two tokens is passed, whatever was read before it. -/
def Skips (input : Input) (allowed : Bool) (final : Input) (allowed' : Bool) : Prop :=
  ∀ ⦃s : Nesting⦄ ⦃ks : List TokenKind⦄ ⦃key : Option PossibleKey⦄ ⦃i : Int⦄ ⦃M : List Level⦄,
    s.Is input ks allowed key i M →
      ∃ s', s.skipToToken (input.size + 1) = .ok s' ∧ s'.Is final ks allowed' key i M

lemma skips_here (h : AtToken input.rest) (allowed : Bool) : Skips input allowed input allowed :=
  fun s _ _ _ _ hs => ⟨s, skipToToken_here (hs.input ▸ h) _, hs⟩

lemma skips_nextLine {n : Nat} {rest : List Char}
    (hrest : input.rest = '\n' :: Style.padding n ++ rest) (hnext : AtToken rest)
    (hsize : input.rest.length ≤ input.size) (allowed : Bool) :
    Skips input allowed (input.nextLine n) true := by
  intro s ks key i M hs
  refine hs.skipToToken_nextLine hrest hnext ?_
  rw [hrest] at hsize
  simp only [List.cons_append, List.length_cons, List.length_append, Style.padding,
    List.length_replicate] at hsize
  omega

lemma skips_space {rest : List Char} (hrest : input.rest = ' ' :: rest) (hnext : AtToken rest)
    (allowed : Bool) : Skips input allowed input.skipWhite allowed :=
  fun _ _ _ _ _ hs => hs.skipToToken_space hrest hnext (Nat.succ_pos _)

/-! ### Giving up keys and closing collections -/

/-- A possible key is none any more: it need not be one, and its line has ended. -/
def Passed (key : Option PossibleKey) (input : Input) : Prop :=
  ∀ p ∈ key, p.required = false ∧ p.position.line < input.position.line

/-- A possible key may still be one. -/
def Near (key : Option PossibleKey) (input : Input) : Prop :=
  ∀ p ∈ key, p.position.line = input.position.line ∧ input.position.index ≤ p.position.index + 1024

lemma Is.dropStaleKeys_passed (h : s.Is input ks allowed key i M) (hkey : Passed key input) :
    ∃ s', s.dropStaleKeys = .ok s' ∧ s'.Is input ks allowed none i M := by
  have hstale : ∀ p ∈ key, s.isStale p = true ∧ p.required = false := by
    intro p hp
    obtain ⟨hrequired, hline⟩ := hkey p hp
    refine ⟨?_, hrequired⟩
    rw [isStale, Nesting.position, h.input, decide_eq_true hline, Bool.true_or]
  have hrequired :
      (s.keys.any fun key => key.any s.isStale && key.any PossibleKey.required) = false := by
    rw [h.keys]
    cases key with
    | none => rfl
    | some p => simp [hstale p rfl]
  have hkeys : (s.keys.map fun key => if key.any s.isStale then none else key) = [none] := by
    rw [h.keys]
    cases key with
    | none => rfl
    | some p => simp [hstale p rfl]
  refine ⟨{ s with keys := s.keys.map fun key => if key.any s.isStale then none else key }, ?_,
    ⟨h.input, h.kinds, h.keyAllowed, hkeys, h.indent, h.levels, h.flowLevel, h.implicitMappings⟩⟩
  rw [dropStaleKeys, h.inFlow]
  simp only [Bool.false_eq_true, if_false, hrequired]

lemma Is.dropStaleKeys_near (h : s.Is input ks allowed key i M) (hkey : Near key input) :
    s.dropStaleKeys = .ok s := by
  have hstale : ∀ p ∈ key, s.isStale p = false := by
    intro p hp
    obtain ⟨hline, hindex⟩ := hkey p hp
    rw [isStale, Nesting.position, h.input, decide_eq_false (by omega), decide_eq_false (by omega)]
    rfl
  have hrequired :
      (s.keys.any fun key => key.any s.isStale && key.any PossibleKey.required) = false := by
    rw [h.keys]
    cases key with
    | none => rfl
    | some p => simp [hstale p rfl]
  have hkeys : (s.keys.map fun key => if key.any s.isStale then none else key) = s.keys := by
    rw [h.keys]
    cases key with
    | none => rfl
    | some p => simp [hstale p rfl]
  rw [dropStaleKeys, h.inFlow]
  simp only [Bool.false_eq_true, if_false, hrequired, hkeys]

lemma Is.settle_passed (h : s.Is input ks allowed key i M) (hkey : Passed key input)
    {i' : Int} {M' : List Level} {ks' : List TokenKind}
    (hclosed : closed input.column i M ks = (i', M', ks')) :
    ∃ u, s.settle = .ok u ∧ u.Is input ks' allowed none i' M' := by
  obtain ⟨s', hs', his⟩ := h.dropStaleKeys_passed hkey
  refine ⟨s'.closeBlocks s'.input.column, by rw [settle, hs']; rfl, ?_⟩
  rw [his.input]
  exact his.closeBlocks _ hclosed

lemma Is.settle_near (h : s.Is input ks allowed key i M) (hkey : Near key input)
    (hle : i ≤ input.column) : ∃ u, s.settle = .ok u ∧ u.Is input ks allowed key i M := by
  refine ⟨s.closeBlocks s.input.column, by rw [settle, h.dropStaleKeys_near hkey]; rfl, ?_⟩
  rw [h.input]
  exact h.closeBlocks _ (closed_of_le hle M ks)

/-! ### Arriving at the next token -/

lemma Is.next_passed (h : s.Is input ks allowed key i M) {final : Input} {allowed' : Bool}
    (hskip : Skips input allowed final allowed') (hkey : Passed key final)
    {i' : Int} {M' : List Level} {ks' : List TokenKind}
    (hclosed : closed final.column i M ks = (i', M', ks')) :
    ∃ u, s.next = .ok u ∧ u.Is final ks' allowed' none i' M' := by
  obtain ⟨s', hs', his⟩ := hskip h
  obtain ⟨u, hu, hu'⟩ := his.settle_passed hkey hclosed
  exact ⟨u, by rw [next, h.input, hs']; exact hu, hu'⟩

lemma Is.next_near (h : s.Is input ks allowed key i M) {final : Input} {allowed' : Bool}
    (hskip : Skips input allowed final allowed') (hkey : Near key final) (hle : i ≤ final.column) :
    ∃ u, s.next = .ok u ∧ u.Is final ks allowed' key i M := by
  obtain ⟨s', hs', his⟩ := hskip h
  obtain ⟨u, hu, hu'⟩ := his.settle_near hkey hle
  exact ⟨u, by rw [next, h.input, hs']; exact hu, hu'⟩

/--
What is neither a directive nor a marker, and is indented enough, is read by its first character.
-/
lemma Is.readHere_eq {c : Char} {cs : List Char} (h : u.Is input ks allowed key i M)
    (hrest : input.rest = c :: cs) (hpercent : c ≠ '%') (hmarker : input.atDocumentMarker = false)
    (hle : i ≤ input.column) (hread : u.readAt c = .ok s) : u.readHere = .ok (s, true) := by
  have hpeek : u.input.peek? = some c := by rw [h.input, Input.peek?, hrest]; rfl
  have hnot : ∀ d, (d = '-' ∨ d = '.') →
      (decide (u.input.column = 0) && u.input.isMarker d) = false := by
    intro d hd
    rw [Input.atDocumentMarker, Bool.and_eq_false_iff] at hmarker
    rw [h.input, Bool.and_eq_false_iff]
    refine hmarker.imp_right fun hor => ?_
    rw [Bool.or_eq_false_iff] at hor
    rcases hd with rfl | rfl
    · exact hor.1
    · exact hor.2
  have hunder : u.isUnderIndented c = false := by
    rw [isUnderIndented, h.input, h.indent, decide_eq_false (by omega), Bool.false_and]
  simp only [readHere, hpeek, hpercent, hnot '-' (Or.inl rfl), hnot '.' (Or.inr rfl), hunder, hread,
    decide_false, Bool.and_false, Bool.false_eq_true, if_false]
  rfl

/-- Steps lead to a place where a token was read just now. -/
def Leads (u s : Nesting) : Prop :=
  ∃ t, Relation.ReflTransGen Steps u t ∧ t.readHere = .ok (s, true) ∧
    s.input.rest.length < t.input.rest.length

lemma Leads.next {u' : Nesting} (h : Leads u s) (hnext : s.next = .ok u')
    (hle : u'.input.rest.length ≤ s.input.rest.length) : Relation.ReflTransGen Steps u u' := by
  obtain ⟨t, hrun, hread, hlt⟩ := h
  exact hrun.tail ⟨s, hread, hnext, Nat.lt_of_le_of_lt hle hlt⟩

/-- What follows a node: a token in a column that is outside of it, or the end of the text. -/
structure Tail (k c : Int) (more : List Char) : Prop where
  token  : AtToken more
  le     : c ≤ k
  column : more ≠ [] → 0 ≤ c
  atEnd  : more = [] → c = -1

/--
A reader has arrived at what follows a node, in a column where collections may end; of the node it
has read the given tokens, apart from those ends.
-/
structure Arrives (u : Nesting) (input : Input) (k : Int) (L : List Level) (ks : List TokenKind)
    (c : Int) (more : List Char) (i : Int) (M : List Level) (ks' : List TokenKind) : Prop where
  is      : u.Is input ks' true none i M
  rest    : input.rest = more
  column  : input.column = c.toNat
  size    : input.rest.length ≤ input.size
  closed  : Nesting.closed c i M ks' = Nesting.closed c k L ks
  settled : 0 ≤ c → Nesting.closed c i M ks' = (i, M, ks')

/-- A reader is done with a node. -/
def Done (u : Nesting) (k : Int) (L : List Level) (ks : List TokenKind) (c : Int)
    (more : List Char) : Prop :=
  ∃ input i M ks', Arrives u input k L ks c more i M ks'

lemma closed_of_inside {c : Int} (hin : Inside k L i M) (hc : c ≤ k) (ks : List TokenKind) :
    closed c i M ks = closed c k L ks := by
  cases hin with
  | tight => rfl
  | loose =>
    rw [closed, if_neg (by omega)]
    rfl

lemma Is.next_done (h : s.Is input ks allowed key i M) (hin : Inside k L i M) {final : Input}
    (hskip : Skips input allowed final true) {c : Int} {more : List Char} (htail : Tail k c more)
    (hrest : final.rest = more) (hcolumn : final.column = c.toNat)
    (hsize : final.rest.length ≤ final.size) (hkey : Passed key final) :
    ∃ u, s.next = .ok u ∧ Done u k L ks c more := by
  obtain ⟨⟨i', M', ks'⟩, hclosed⟩ : ∃ r, closed c.toNat i M ks = r := ⟨_, rfl⟩
  obtain ⟨u, hu, his⟩ := h.next_passed hskip hkey (hcolumn ▸ hclosed)
  have hle : c ≤ c.toNat := Int.self_le_toNat c
  have heq := closed_closed hle hclosed
  refine ⟨u, hu, final, i', M', ks', his, hrest, hcolumn, hsize, ?_, fun hc => ?_⟩
  · rw [← heq, closed_of_inside hin htail.le]
  · rw [← heq, ← hclosed, Int.toNat_of_nonneg hc]

/-- In its own column a collection goes on. -/
lemma Done.same {u : Nesting} {j : Nat} {more : List Char} (h : Done u j N ks j more) :
    ∃ input, u.Is input ks true none j N ∧ input.rest = more ∧ input.column = j ∧
      input.rest.length ≤ input.size := by
  obtain ⟨input, i, M, ks', h⟩ := h
  have heq := (h.settled (Int.natCast_nonneg j)).symm.trans h.closed
  rw [closed_of_le (Int.le_refl _)] at heq
  cases heq
  exact ⟨input, h.is, h.rest, h.column, h.size⟩

/-- A collection ends in front of a token that stands outside of it. -/
lemma Done.leave {u : Nesting} {j : Nat} {c : Int} {more : List Char}
    (h : Done u j (⟨k, true⟩ :: L) ks c more) (hc : c < j) :
    Done u k L (ks ++ [.blockEnd]) c more := by
  obtain ⟨input, i, M, ks', h⟩ := h
  refine ⟨input, i, M, ks', h.is, h.rest, h.column, h.size, ?_, h.settled⟩
  rw [h.closed, closed, if_neg (Int.not_le.mpr hc)]
  rfl

end YamlSieve.Yaml.Nesting
