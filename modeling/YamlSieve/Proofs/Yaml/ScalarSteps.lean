import YamlSieve.Proofs.Yaml.LiteralScalar
import YamlSieve.Proofs.Yaml.PlainScalar
import YamlSieve.Proofs.Yaml.QuotedScalar
import YamlSieve.Proofs.Yaml.TokenSteps

/-!
# Steps over scalars

A scalar that was written in any of the styles is read by one step.
-/

namespace YamlSieve.Yaml.Nesting

open Style (padding)

variable {s u : Nesting} {input : Input} {ks : List TokenKind} {allowed : Bool}
  {key : Option PossibleKey} {i k : Int} {L M N : List Level}

/-! ### Scalars of one line -/

/-- A token and the text that it is written as on a line. -/
inductive InLine : TokenKind → List Char → Prop where
  | plain {cs : List Char} (h : Plain.IsScalar cs) (hstart : Style.startsWithIndicator cs = false) :
      InLine (.scalar true (String.ofList cs)) cs
  | quoted {quote : Quoted.Quote} {code : Char → List Char} {cs : List Char}
      (h : Quoted.IsCoding quote code cs) :
      InLine (.scalar false (String.ofList cs)) (quote.char :: cs.flatMap code ++ [quote.char])

/-! ### Keys that are marked -/

/-- The key that may start at a place. -/
def marked (allowed : Bool) (input : Input) (ks : List TokenKind) (required : Bool) :
    Option PossibleKey :=
  if allowed then some ⟨input.position, ks.length, required⟩ else none

lemma Is.size_tokens (h : s.Is input ks allowed key i M) : s.tokens.size = ks.length := by
  rw [← h.kinds, Nesting.kinds, List.length_map, Array.length_toList]

/-- A key is required in the column of the collection only. -/
lemma Is.markKey (h : s.Is input ks allowed none i M) (hin : Inside k L i M) :
    ∃ required, s.markKey.Is input ks allowed (marked allowed input ks required) i M ∧
      (k < input.column → required = false) := by
  refine ⟨i = input.column && M.head?.any Level.collection, ?_, fun hk => ?_⟩
  · rw [Nesting.markKey, h.keyAllowed, marked]
    cases allowed with
    | false => exact h
    | true =>
      simp only [if_true, h.inFlow, h.indent, h.input, h.levels, h.size_tokens, Nesting.position,
        Bool.not_false, Bool.true_and]
      exact h.withKey _
  · cases hin with
    | tight => rw [decide_eq_false (by omega), Bool.false_and]
    | loose => exact Bool.and_false _

/-! ### Readers of scalars -/

lemma Is.readPlain (h : s.Is input ks allowed none i M) (hin : Inside k L i M) (hL : Outer L)
    {text : String} {final : Input} (hread : Plain.read false (k + 1) input = .ok (text, final)) :
    ∃ s' required, s.readPlain = .ok s' ∧
      s'.Is final (ks ++ [.scalar true text]) final.atMargin (marked allowed input ks required)
        k L ∧
      (k < input.column → required = false) := by
  obtain ⟨required, hmark, hrequired⟩ := h.markKey hin
  have hleave := (hmark.withAllowed false).leaveLoose hin hL
  have hemit := (hleave.emit (.scalar true text) s.position).withInput final
  refine ⟨_, required, ?_, hemit.withAllowed final.atMargin, hrequired⟩
  rw [Nesting.readPlain]
  simp only [hleave.inFlow, hleave.indent, hleave.input, hread]
  rfl

lemma Is.readContent (h : s.Is input ks allowed none i M) (hin : Inside k L i M) {kind : TokenKind}
    {final : Input} {read : Nesting → Except SyntaxError (TokenKind × Input)}
    (hread : ∀ {s' : Nesting} {key : Option PossibleKey}, s'.Is input ks false key i M →
      read s' = .ok (kind, final)) :
    ∃ s' required, s.readContent read = .ok s' ∧
      s'.Is final (ks ++ [kind]) false (marked allowed input ks required) i M ∧
      (k < input.column → required = false) := by
  obtain ⟨required, hmark, hrequired⟩ := h.markKey hin
  have hmark' := hmark.withAllowed false
  refine ⟨_, required, ?_, (hmark'.emit kind s.position).withInput final, hrequired⟩
  rw [Nesting.readContent]
  simp only [hread hmark']
  rfl

lemma Is.readQuoted (h : s.Is input ks allowed none i M) (hin : Inside k L i M)
    {quote : Quoted.Quote} {text : String} {mid final : Input} {allowed' : Bool}
    (hread : Quoted.read quote false i input = .ok (text, mid))
    (hskip : Skips mid false final allowed') :
    ∃ s' required, s.readQuoted quote = .ok s' ∧
      s'.Is final (ks ++ [.scalar false text]) allowed' (marked allowed input ks required) i M ∧
      (k < input.column → required = false) := by
  have hcontent {s' : Nesting} {key : Option PossibleKey} (hs : s'.Is input ks false key i M) :
      (Quoted.read quote s'.inFlow s'.indent s'.input).map
        (fun r => (TokenKind.scalar false r.1, r.2)) = .ok (.scalar false text, mid) := by
    simp only [hs.inFlow, hs.indent, hs.input, hread]
    rfl
  obtain ⟨s₁, required, hs₁, his₁, hrequired⟩ := h.readContent hin hcontent
  obtain ⟨s₂, hs₂, his⟩ := hskip his₁
  refine ⟨_, required, ?_, his.withAdjacent s₂.position.index, hrequired⟩
  rw [Nesting.readQuoted]
  simp only [hs₁, his₁.input, hs₂]
  rfl

lemma Is.readBlock (h : s.Is input ks allowed none i M) (hin : Inside k L i M) (hL : Outer L)
    {literal : Bool} {text : String} {final : Input}
    (hread : Block.read literal k input = .ok (text, final)) :
    ∃ s' required, s.readBlock literal = .ok s' ∧
      s'.Is final (ks ++ [.scalar false text]) true (marked allowed input ks required) k L ∧
      (k < input.column → required = false) := by
  obtain ⟨required, hmark, hrequired⟩ := h.markKey hin
  have hleave := (hmark.withAllowed true).leaveLoose hin hL
  refine ⟨_, required, ?_, (hleave.emit (.scalar false text) s.position).withInput final, hrequired⟩
  rw [Nesting.readBlock]
  simp only [hleave.indent, hleave.input, hread]
  rfl

/-! ### Choosing the reader -/

lemma readAt_plain {c : Char} {rest : List Char} (hrest : u.input.rest = c :: rest)
    (hflow : u.inFlow = false) (hc : c ∉ Style.startIndicators)
    (hnext : c = '?' ∨ c = ':' ∨ c = '-' → endsWord rest.head? = false) :
    u.readAt c = u.readPlain := by
  have hpeek : u.input.peekNth? 1 = rest.head? := by
    rw [Input.peekNth?, hrest, List.getElem?_cons_succ, List.head?_eq_getElem?]
  have hend : ∀ d, (d = '?' ∨ d = ':' ∨ d = '-') →
      (decide (c = d) && endsWord rest.head?) = false := by
    intro d hd
    by_cases hcd : c = d
    · subst hcd
      rw [hnext hd, Bool.and_false]
    · rw [decide_eq_false hcd, Bool.false_and]
  simp only [Style.startIndicators, List.mem_cons, List.not_mem_nil, or_false, not_or] at hc
  simp only [readAt, hpeek, hc, hend _ (Or.inl rfl), hend _ (Or.inr (Or.inl rfl)),
    hend _ (Or.inr (Or.inr rfl)), isFlowColon, hflow, decide_false, Bool.and_false, Bool.false_and,
    Bool.or_self, Bool.false_eq_true, if_false]

lemma readAt_quoted (u : Nesting) (quote : Quoted.Quote) :
    u.readAt quote.char = u.readQuoted quote := by
  cases quote <;> simp [readAt, Quoted.Quote.char]

lemma readAt_literal (hflow : u.inFlow = false) : u.readAt '|' = u.readBlock true := by
  simp [readAt, hflow]

/-- The first character of a scalar on a line starts neither a directive nor a marker. -/
lemma InLine.exists_cons {token : TokenKind} {cs : List Char} (h : InLine token cs) :
    ∃ c cs', cs = c :: cs' ∧ endsWord (some c) = false ∧ c ≠ '#' ∧ c ≠ '%' := by
  cases h with
  | plain h hstart =>
    obtain ⟨c, cs, rfl, hspace, hhash⟩ := h.exists_cons
    refine ⟨c, cs, rfl, endsWord_of_isLine h.line hspace, hhash, ?_⟩
    rintro rfl
    exact (Plain.startsWithIndicator_cons hstart).1 (by decide)
  | @quoted quote code cs h =>
    refine ⟨quote.char, _, rfl, ?_⟩
    cases quote <;> decide

lemma isMarker_iff {c : Char} : input.isMarker c ↔
    ∃ rest, input.rest = c :: c :: c :: rest ∧ endsWord rest.head? := by
  rw [Input.isMarker]
  split
  · rename_i x y z rest hrest
    simp only [Bool.and_eq_true, decide_eq_true_eq]
    constructor
    · rintro ⟨⟨⟨rfl, rfl⟩, rfl⟩, hends⟩
      exact ⟨rest, hrest, hends⟩
    · rintro ⟨rest', hrest', hends⟩
      rw [hrest] at hrest'
      cases hrest'
      exact ⟨⟨⟨rfl, rfl⟩, rfl⟩, hends⟩
  · rename_i hnone
    refine ⟨fun hfalse => absurd hfalse Bool.false_ne_true, ?_⟩
    rintro ⟨rest, hrest, -⟩
    exact absurd hrest (hnone _ _ _ _)

lemma atDocumentMarker_of_not {c : Char} {rest : List Char} (hrest : input.rest = c :: rest)
    (hc : c ≠ '-' ∧ c ≠ '.') : input.atDocumentMarker = false := by
  have hnot : ∀ d, c ≠ d → input.isMarker d = false := by
    intro d hd
    rw [← Bool.not_eq_true, isMarker_iff]
    rintro ⟨rest', hrest', -⟩
    rw [hrest] at hrest'
    cases hrest'
    exact hd rfl
  rw [Input.atDocumentMarker, hnot _ hc.1, hnot _ hc.2, Bool.or_self, Bool.and_false]

lemma InLine.atDocumentMarker {token : TokenKind} {cs : List Char} (h : InLine token cs) {c : Char}
    {rest : List Char} (hrest : input.rest = cs ++ c :: rest) (hc : c ≠ '-' ∧ c ≠ '.') :
    input.atDocumentMarker = false := by
  cases h with
  | plain h hstart =>
    have hnot : ∀ d, (d = '-' ∨ d = '.') → input.isMarker d = false := by
      intro d hd
      rw [← Bool.not_eq_true, isMarker_iff]
      rintro ⟨rest', hrest', -⟩
      rw [hrest] at hrest'
      -- a marker is three equal characters: a shorter scalar would need `c` as one of them
      match cs, hrest' with
      | [], h' => cases h'; rcases hd with rfl | rfl; exacts [hc.1 rfl, hc.2 rfl]
      | [_], h' => cases h'; rcases hd with rfl | rfl; exacts [hc.1 rfl, hc.2 rfl]
      | [_, _], h' => cases h'; rcases hd with rfl | rfl; exacts [hc.1 rfl, hc.2 rfl]
      | _ :: _ :: _ :: _, h' =>
        cases h'
        rcases hd with rfl | rfl <;> exact Bool.noConfusion (show true = false from hstart)
    rw [Input.atDocumentMarker, hnot _ (Or.inl rfl), hnot _ (Or.inr rfl), Bool.or_self,
      Bool.and_false]
  | @quoted quote code cs h =>
    refine atDocumentMarker_of_not (by rw [hrest]; rfl) ?_
    cases quote <;> decide

/-! ### Reading scalars -/

/-- What separates a scalar from the next token is passed, where it ends. -/
lemma skips_of_endsAt {indent : Int} {n : Nat} {final : Input}
    (h : Plain.EndsAt indent (input.skip n) final) (hsize : input.rest.length ≤ input.size) :
    Skips (input.skip n) false final final.atMargin := by
  have hroom : (input.skip n).rest.length ≤ (input.skip n).size :=
    Nat.le_trans (Input.length_rest_skip_le n) hsize
  cases h with
  | colon h hcs =>
    refine skips_here (fun c hc => ?_) false
    rw [h] at hc
    cases hc
    exact ⟨rfl, by decide⟩
  | line h hrest => exact skips_nextLine h hrest hroom false

lemma Inside.le (h : Inside k L i M) : k ≤ i := by
  cases h with
  | tight => exact Int.le_refl _
  | loose => exact Int.le_of_lt (Int.lt_succ _)

lemma stops_of_endsAt {indent : Int} {cs rest : List Char} (hrest : input.rest = cs ++ rest)
    {final : Input} (h : Plain.EndsAt indent (input.skip cs.length) final) :
    ∃ c rest', rest = c :: rest' ∧ (isBreak c ∨ c = ':') := by
  obtain ⟨c, rest', hstop, hc⟩ := h.stops
  rw [Input.rest_skip_append hrest] at hstop
  exact ⟨c, rest', hstop, hc.imp_right And.left⟩

lemma Is.readAt_plain (h : u.Is input ks allowed none i M) (hin : Inside k L i M) (hL : Outer L)
    (hle : i ≤ input.column) {c : Char} {cs rest : List Char} (hscalar : Plain.IsScalar (c :: cs))
    (hstart : Style.startsWithIndicator (c :: cs) = false) (hrest : input.rest = c :: cs ++ rest)
    (hmarker : input.atDocumentMarker = false) (hsize : input.rest.length ≤ input.size)
    {final : Input} (hend : Plain.EndsAt (k + 1) (input.skip (c :: cs).length) final) :
    ∃ s required, u.readAt c = .ok s ∧
      s.Is final (ks ++ [.scalar true (String.ofList (c :: cs))]) final.atMargin
        (marked allowed input ks required) k L ∧
      (k < input.column → required = false) := by
  have hki := hin.le
  obtain ⟨hc, hnext⟩ := Plain.startsWithIndicator_cons hstart
  have hread := Plain.read_append hscalar hrest hmarker (by omega) hend hsize
  obtain ⟨s, required, hs, his⟩ := h.readPlain hin hL hread
  refine ⟨s, required, ?_, his⟩
  rw [← hs]
  have hrest' : u.input.rest = c :: (cs ++ rest) := h.input ▸ hrest
  refine Nesting.readAt_plain hrest' h.inFlow hc fun hc' => ?_
  have hsep := hnext hc'
  -- an indicator starts a plain scalar only if the next character goes on with it
  cases cs with
  | nil => exact absurd hsep (by decide)
  | cons d cs =>
    by_contra hends
    rw [Bool.not_eq_false] at hends
    exact absurd ((isSeparator_of_endsWord hends).symm.trans hsep) (by decide)

lemma Is.readAt_quoted (h : u.Is input ks allowed none i M) (hin : Inside k L i M)
    (hle : i ≤ input.column) {quote : Quoted.Quote} {code : Char → List Char} {cs rest : List Char}
    (hcode : Quoted.IsCoding quote code cs)
    (hrest : input.rest = quote.char :: cs.flatMap code ++ [quote.char] ++ rest)
    (hsize : input.rest.length ≤ input.size) {indent : Int} {final : Input}
    (hend : Plain.EndsAt indent
      (input.skip (quote.char :: cs.flatMap code ++ [quote.char]).length) final) :
    ∃ s required, u.readAt quote.char = .ok s ∧
      s.Is final (ks ++ [.scalar false (String.ofList cs)]) final.atMargin
        (marked allowed input ks required) i M ∧
      (k < input.column → required = false) := by
  obtain ⟨c, rest', rfl, hc⟩ := stops_of_endsAt hrest hend
  rw [List.append_assoc] at hrest
  have hread : Quoted.read quote false i input = .ok (String.ofList cs, _) :=
    Quoted.read_codes hcode hc hrest (by omega) hsize
  obtain ⟨s, required, hs, his⟩ := h.readQuoted hin hread (skips_of_endsAt hend hsize)
  exact ⟨s, required, by rw [Nesting.readAt_quoted, hs], his⟩

/-- A scalar on a line is read, whether a colon or the end of the line follows. -/
lemma Is.readAt_inLine (h : u.Is input ks allowed none i M) (hin : Inside k L i M) (hL : Outer L)
    (hle : i ≤ input.column) {token : TokenKind} {cs rest : List Char} (htoken : InLine token cs)
    (hrest : input.rest = cs ++ rest) (hsize : input.rest.length ≤ input.size) {final : Input}
    (hend : Plain.EndsAt (k + 1) (input.skip cs.length) final) :
    ∃ c s required i' M', input.rest.head? = some c ∧ u.readAt c = .ok s ∧
      s.Is final (ks ++ [token]) final.atMargin (marked allowed input ks required) i' M' ∧
      Inside k L i' M' ∧ i' ≤ i ∧ (k < input.column → required = false) := by
  obtain ⟨c, rest', rfl, hc⟩ := stops_of_endsAt hrest hend
  have hmarker := htoken.atDocumentMarker hrest
    (by rcases hc with hc | rfl
        · constructor <;> (rintro rfl; exact absurd hc (by decide))
        · decide)
  cases htoken with
  | plain hscalar hstart =>
    obtain ⟨d, cs, rfl, -⟩ := hscalar.exists_cons
    obtain ⟨s, required, hs, his, hrequired⟩ :=
      h.readAt_plain hin hL hle hscalar hstart hrest hmarker hsize hend
    exact ⟨d, s, required, k, L, by rw [hrest]; rfl, hs, his, .tight, hin.le, hrequired⟩
  | @quoted quote code cs hcode =>
    obtain ⟨s, required, hs, his, hrequired⟩ :=
      h.readAt_quoted hin hle hcode hrest hsize hend
    exact ⟨quote.char, s, required, i, M, by rw [hrest]; rfl, hs, his, hin, Int.le_refl _,
      hrequired⟩

/-! ### Steps over scalars -/

/-- A token and the lines that it is written on. -/
inductive Written (indent : Nat) : TokenKind → List Char → Prop where
  | inLine {token : TokenKind} {cs : List Char} (h : InLine token cs) :
      Written indent token (cs ++ ['\n'])
  | literal {cs : List Char} (hne : cs ≠ []) (h : Block.IsBlock cs) (htab : '\t' ∉ cs) :
      Written indent (.scalar false (String.ofList cs))
        (Style.literalText indent cs ++ Block.lastBreak cs)

lemma Tail.column_le {c : Int} {more : List Char} (h : Tail k c more) (hne : more ≠ []) :
    (c.toNat : Int) ≤ k := by
  rw [Int.toNat_of_nonneg (h.column hne)]
  exact h.le

lemma Tail.column_eq {c : Int} {more : List Char} (h : Tail k c more) (hempty : more = []) :
    c.toNat = 0 := by
  rw [h.atEnd hempty]
  rfl

lemma Done.rest {c : Int} {more : List Char} (h : Done u k L ks c more) : u.input.rest = more := by
  obtain ⟨input, i, M, ks', h⟩ := h
  rw [h.is.input, h.rest]

lemma passed_marked {required : Bool} (hrequired : required = false) {final : Input}
    (hline : input.position.line < final.position.line) :
    Passed (marked allowed input ks required) final := by
  intro p hp
  rw [marked] at hp
  split at hp
  · cases hp
    exact ⟨hrequired, hline⟩
  · cases hp

/-- A written scalar is read by one step, and what follows it is reached. -/
lemma Is.steps_written (h : u.Is input ks allowed none i M) (hin : Inside k L i M) (hL : Outer L)
    (hk : k < input.column) {token : TokenKind} {cs : List Char}
    (htoken : Written ((max k 0).toNat + 2) token cs) {c : Int} {more : List Char}
    (hrest : input.rest = cs ++ (padding c.toNat ++ more)) (htail : Tail k c more)
    (hsize : input.rest.length ≤ input.size) :
    ∃ t, Steps u t ∧ Done t k L (ks ++ [token]) c more := by
  have hle : i ≤ input.column := by
    cases hin with
    | tight => exact Int.le_of_lt hk
    | loose => exact hk
  have hskip {final : Input} (hfinal : final.rest = more) : Skips final true final true :=
    skips_here (hfinal ▸ htail.token) true
  -- a line ends before its break, a literal scalar after it: only the first can be a key
  cases htoken with
  | @inLine _ cs htoken =>
    rw [List.append_assoc] at hrest
    have hline : (input.skip cs.length).rest = '\n' :: padding c.toNat ++ more :=
      Input.rest_skip_append hrest
    have hend : Plain.EndsAt (k + 1) (input.skip cs.length) _ :=
      .line hline htail.token (fun hne => Int.lt_add_one_of_le (htail.column_le hne))
        htail.column_eq
    have hfinal := Input.rest_nextLine hline
    obtain ⟨d, s, required, i', M', hd, hread, his, hin', -, hrequired⟩ :=
      h.readAt_inLine hin hL hle htoken hrest hsize hend
    have hlength : more.length < input.rest.length := by
      rw [hrest]
      simp only [List.length_append, List.length_cons, List.singleton_append]
      omega
    obtain ⟨t, hnext, hdone⟩ := his.next_done hin' (hskip hfinal) htail hfinal
      (Input.column_nextLine _) (by rw [hfinal]; exact Nat.le_trans (Nat.le_of_lt hlength) hsize)
      (passed_marked (hrequired hk) (Nat.lt_succ_self _))
    obtain ⟨e, es, rfl, -, -, hpercent⟩ := htoken.exists_cons
    rw [hrest] at hd
    cases hd
    have hmarker := htoken.atDocumentMarker hrest (by decide)
    exact ⟨t, ⟨s, h.readHere_eq hrest hpercent hmarker hle hread, hnext,
      by rw [hdone.rest, h.input]; exact hlength⟩, hdone⟩
  | literal hne hblock htab =>
    rename_i cs
    rw [List.append_assoc] at hrest
    obtain ⟨final, hfinal, hline, hread⟩ := Block.read_literalText hne hblock htab rfl hrest
      htail.token htail.column_le htail.column_eq hsize
    obtain ⟨s, required, hs, his, hrequired⟩ := h.readBlock hin hL hread
    have hrest' : input.rest = '|' :: _ := hrest
    have hlength : more.length < input.rest.length := by
      rw [hrest, Style.literalText]
      simp only [List.length_append, List.length_cons]
      omega
    obtain ⟨t, hnext, hdone⟩ := his.next_done .tight (hskip hfinal.rest) htail hfinal.rest
      hfinal.column
      (by rw [hfinal.rest, hfinal.size]; exact Nat.le_trans (Nat.le_of_lt hlength) hsize)
      (passed_marked (hrequired hk) hline)
    have hmarker := atDocumentMarker_of_not hrest' (by decide)
    exact ⟨t, ⟨s, h.readHere_eq hrest' (by decide) hmarker hle
      (by rw [readAt_literal h.inFlow, hs]), hnext,
      by rw [hdone.rest, h.input]; exact hlength⟩, hdone⟩

/-- A scalar in front of a colon is read by one step; then it may still be a key. -/
lemma Is.steps_inLine (h : u.Is input ks true none i M) (hin : Inside k L i M) (hL : Outer L)
    (hle : i ≤ input.column) {token : TokenKind} {cs rest : List Char} (htoken : InLine token cs)
    (hrest : input.rest = cs ++ ':' :: rest) (hends : endsWord rest.head?)
    (hshort : cs.length ≤ 1024) (hsize : input.rest.length ≤ input.size) :
    ∃ t required i' M', Steps u t ∧ Inside k L i' M' ∧ i' ≤ input.column ∧
      t.Is (input.skip cs.length) (ks ++ [token]) false (some ⟨input.position, ks.length, required⟩)
        i' M' := by
  have hcolon : (input.skip cs.length).rest = ':' :: rest := Input.rest_skip_append hrest
  have hend : Plain.EndsAt (k + 1) (input.skip cs.length) _ := .colon hcolon hends
  obtain ⟨d, s, required, i', M', hd, hread, his, hin', hle', -⟩ :=
    h.readAt_inLine hin hL hle htoken hrest hsize hend
  -- within 1024 characters of the colon the scalar is kept as a possible key
  have hnear : Near (marked true input ks required) (input.skip cs.length) := by
    intro p hp
    cases hp
    exact ⟨rfl, Nat.add_le_add_left hshort _⟩
  obtain ⟨t, hnext, ht⟩ := his.next_near (skips_here (fun c hc => by
    rw [hcolon] at hc
    cases hc
    exact ⟨rfl, by decide⟩) _) hnear (by rw [Input.column_skip]; omega)
  obtain ⟨e, es, rfl, -, -, hpercent⟩ := htoken.exists_cons
  rw [hrest] at hd
  cases hd
  have hmarker := htoken.atDocumentMarker hrest (by decide)
  refine ⟨t, required, i', M', ⟨s, h.readHere_eq hrest hpercent hmarker hle hread, hnext, ?_⟩, hin',
    Int.le_trans hle' hle, ht⟩
  rw [h.input, ht.input, hcolon, hrest]
  simp only [List.length_append, List.length_cons]
  omega

end YamlSieve.Yaml.Nesting
