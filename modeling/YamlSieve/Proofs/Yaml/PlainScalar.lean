import YamlSieve.Proofs.Yaml.Passing

/-!
# Plain scalars that are written

A text that may be written plain is read from front to end, whether a colon or a line break follows.
-/

namespace YamlSieve.Yaml

open Style (isSeparator hasIndicator isLineBreak padding)

/-! ### Texts within a line -/

lemma isSeparator_of_endsWord {c : Option Char} (h : endsWord c) : isSeparator c := by
  cases c with
  | none => rfl
  | some c =>
    simp only [endsWord, isBreak, isWhite, isSeparator, isLineBreak, Bool.or_eq_true,
      decide_eq_true_eq] at h ⊢
    tauto

lemma endsWord_of_isLine {c : Char} {cs : List Char} (h : IsLine (c :: cs)) (hc : c ≠ ' ') :
    endsWord (some c) = false := by
  obtain ⟨hbreak, htab⟩ := h c List.mem_cons_self
  simp [endsWord, hbreak, isWhite, hc, htab]

lemma hasIndicator_cons {c : Char} {cs : List Char} (h : hasIndicator (c :: cs) = false) :
    (c = ':' → isSeparator cs.head? = false) ∧
      (isSeparator (some c) → cs.head? ≠ some '#') ∧ hasIndicator cs = false := by
  simp only [hasIndicator, Bool.or_eq_false_iff, Bool.and_eq_false_iff,
    decide_eq_false_iff_not] at h
  refine ⟨fun hc => ?_, fun hc => ?_, h.2⟩
  · exact h.1.1.resolve_left (fun hn => hn hc)
  · rcases h.1.2 with h' | h'
    · rw [hc] at h'
      cases h'
    · exact h'

namespace Plain

/-! ### Words -/

/-- What may stand after a plain scalar: a line break, or a colon at the end of a word. -/
def Stops (rest : List Char) : Prop :=
  ∃ c cs, rest = c :: cs ∧ (isBreak c ∨ c = ':' ∧ endsWord cs.head?)

lemma word_of_stops {rest : List Char} (h : Stops rest) : word false rest = [] := by
  obtain ⟨c, cs, rfl, h⟩ := h
  rw [word, if_pos]
  rcases h with h | ⟨rfl, h⟩
  · simp [endsWord, h]
  · simp [continues, h]

/-- The first word of a line is read whole. -/
lemma word_append {w rest : List Char} (tail : List Char) (hline : IsLine w) (hspace : ' ' ∉ w)
    (hind : hasIndicator (w ++ tail) = false)
    (hrest : tail = [] ∧ Stops rest ∨ ∃ tail' rest', tail = ' ' :: tail' ∧ rest = ' ' :: rest') :
    word false (w ++ rest) = w := by
  induction w with
  | nil =>
    rcases hrest with ⟨-, hstops⟩ | ⟨_, rest', -, rfl⟩
    · exact word_of_stops hstops
    · rfl
  | cons c w ih =>
    obtain ⟨hcolon, -, hind'⟩ := hasIndicator_cons hind
    have hc : c ≠ ' ' := fun h => hspace (h ▸ List.mem_cons_self)
    -- a colon goes on with the word, for what follows it here is no separator
    have hcontinues : continues false c (w ++ rest).head? = true := by
      by_cases h : c = ':'
      · subst h
        have hsep := hcolon rfl
        rw [continues, if_pos rfl, Bool.false_and, Bool.or_false, Bool.not_eq_true']
        cases w with
        | nil =>
          rcases hrest with ⟨rfl, -⟩ | ⟨_, _, rfl, -⟩ <;> cases hsep
        | cons d w =>
          by_contra hends
          rw [Bool.not_eq_false] at hends
          have := isSeparator_of_endsWord hends
          exact absurd (this.symm.trans hsep) (by decide)
      · rw [continues, if_neg h]
        rfl
    rw [List.cons_append, word, endsWord_of_isLine hline hc, hcontinues, if_neg (by decide),
      ih hline.of_cons (fun h => hspace (List.mem_cons_of_mem c h)) hind']

/-! ### White space between words -/

/-- Spaces in front of a character of the same line are kept. -/
lemma skipSpace_spaces (indent : Int) {input : Input} (m : Nat) (whites : List Char) {n : Nat}
    {c : Char} {rest : List Char}
    (h : (input.skip m).rest = List.replicate n ' ' ++ c :: rest) (hc : endsWord (some c) = false)
    {fuel : Nat} (hfuel : n < fuel) :
    skipSpace indent whites 0 (input.skip m) fuel =
      .ok (whites ++ List.replicate n ' ', input.skip (m + n)) := by
  induction n generalizing m whites fuel with
  | zero =>
    obtain ⟨fuel, rfl⟩ : ∃ f, fuel = f + 1 := ⟨fuel - 1, by omega⟩
    have hpeek : (input.skip m).peek? = some c := by rw [Input.peek?, h]; rfl
    simp only [endsWord, Bool.or_eq_false_iff] at hc
    simp only [skipSpace, hpeek, hc]
    simp [separator]
  | succ n ih =>
    obtain ⟨fuel, rfl⟩ : ∃ f, fuel = f + 1 := ⟨fuel - 1, by omega⟩
    have hpeek : (input.skip m).peek? = some ' ' := by rw [Input.peek?, h]; rfl
    have hrest : (input.skip (m + 1)).rest = List.replicate n ' ' ++ c :: rest := by
      rw [← Input.skipWhite_skip]
      show (input.skip m).rest.drop 1 = _
      rw [h]
      rfl
    have hbreak : isBreak ' ' = false := rfl
    have hwhite : isWhite ' ' = true := rfl
    simp only [skipSpace, hpeek, hbreak, hwhite, Input.atMargin_skip, Input.skipWhite_skip]
    simp only [Bool.not_false, if_true, Bool.false_eq_true, if_false]
    rw [ih (m + 1) _ hrest (by omega), List.replicate_succ, List.append_assoc,
      List.singleton_append, Nat.add_right_comm, Nat.add_assoc]

lemma skipSpace_indentation {indent : Int} {input : Input} (i : Nat) {n : Nat} {rest : List Char}
    (h : (input.nextLine i).rest = padding n ++ rest) (hrest : AtToken rest) {fuel : Nat}
    (hfuel : n < fuel) :
    skipSpace indent [] 1 (input.nextLine i) fuel = .ok ([' '], input.nextLine (i + n)) := by
  -- the induction is on the columns that are left of the indentation
  induction n generalizing i fuel with
  | zero =>
    obtain ⟨fuel, rfl⟩ : ∃ f, fuel = f + 1 := ⟨fuel - 1, by omega⟩
    cases rest with
    | nil =>
      have hpeek : (input.nextLine i).peek? = none := by rw [Input.peek?, h]; rfl
      simp only [skipSpace, hpeek]
      rfl
    | cons c rest =>
      have hpeek : (input.nextLine i).peek? = some c := by rw [Input.peek?, h]; rfl
      have hc := (hrest c rfl).1
      simp only [endsWord, Bool.or_eq_false_iff] at hc
      simp only [skipSpace, hpeek, hc]
      rfl
  | succ n ih =>
    obtain ⟨fuel, rfl⟩ : ∃ f, fuel = f + 1 := ⟨fuel - 1, by omega⟩
    have hpeek : (input.nextLine i).peek? = some ' ' := by rw [Input.peek?, h]; rfl
    have hrest' : (input.nextLine (i + 1)).rest = padding n ++ rest := by
      rw [← Input.skipWhite_nextLine]
      show (input.nextLine i).rest.drop 1 = _
      rw [h]
      rfl
    have hbreak : isBreak ' ' = false := rfl
    have hwhite : isWhite ' ' = true := rfl
    have htab : ¬ ' ' = '\t' := by decide
    simp only [skipSpace, hpeek, hbreak, hwhite, htab, Input.atMargin_nextLine,
      Input.skipWhite_nextLine]
    simp only [Bool.not_true, decide_false, Bool.and_false, if_true, Bool.false_eq_true, if_false]
    rw [ih (i + 1) hrest' (by omega), Nat.add_right_comm, Nat.add_assoc]

/-- A line break and indentation stand for one space. -/
lemma skipSpace_nextLine {indent : Int} {input : Input} {column : Nat} {rest : List Char}
    (h : input.rest = '\n' :: padding column ++ rest) (hrest : AtToken rest) {fuel : Nat}
    (hfuel : column + 1 < fuel) :
    skipSpace indent [] 0 input fuel = .ok ([' '], input.nextLine column) := by
  obtain ⟨fuel, rfl⟩ : ∃ f, fuel = f + 1 := ⟨fuel - 1, by omega⟩
  have hpeek : input.peek? = some '\n' := by rw [Input.peek?, h]; rfl
  have hbreak : isBreak '\n' = true := rfl
  have hnext : input.skipBreak = input.nextLine 0 := rfl
  have hrest' : (input.nextLine 0).rest = padding column ++ rest := Input.rest_nextLine h
  simp only [skipSpace, hpeek, hbreak, if_true, hnext]
  rw [skipSpace_indentation 0 hrest' hrest (by omega), Nat.zero_add]

/-! ### Whole scalars -/

/-- A scalar ends in front of a colon, or at the end of its line; then the next token is reached. -/
inductive EndsAt (indent : Int) (input : Input) : Input → Prop where
  | colon {cs : List Char} (h : input.rest = ':' :: cs) (hcs : endsWord cs.head?) :
      EndsAt indent input input
  | line {column : Nat} {rest : List Char} (h : input.rest = '\n' :: padding column ++ rest)
      (hrest : AtToken rest) (hcolumn : rest ≠ [] → column < indent)
      (hend : rest = [] → column = 0) : EndsAt indent input (input.nextLine column)

lemma EndsAt.stops {indent : Int} {input final : Input} (h : EndsAt indent input final) :
    Stops input.rest := by
  cases h with
  | colon h hcs => exact ⟨_, _, h, Or.inr ⟨rfl, hcs⟩⟩
  | line h => exact ⟨_, _, h, Or.inl rfl⟩

/-- The part of `readWords` after a word. -/
def readOn (indent : Int) (text : List Char) (input : Input) (fuel : Nat) :
    Except SyntaxError (List Char × Input) :=
  if input.rest.isEmpty || !endsWord input.peek? then
    .ok (text, input)
  else
    match skipSpace indent [] 0 input input.size with
    | .error e         => .error e
    | .ok (gap, input) =>
      if !false && input.column < indent then
        .ok (text, input)
      else
        match readWords false indent gap input fuel with
        | .error e           => .error e
        | .ok (words, input) => .ok (text ++ words, input)

lemma readWords_eq_readOn {indent : Int} {input : Input} {gap w : List Char} {fuel : Nat}
    (hmarker : input.atDocumentMarker = false) (hcomment : input.peek? ≠ some '#')
    (hword : word false input.rest = w) (hne : w ≠ []) :
    readWords false indent gap input (fuel + 1) =
      readOn indent (gap ++ w) (input.skip w.length) fuel := by
  have hempty : w.isEmpty = false := by simp [hne]
  rw [readWords, hmarker, hword]
  simp only [hcomment, hempty, decide_false, Bool.or_self, Bool.false_and, Bool.false_eq_true,
    if_false]
  rfl

/-- Behind spaces the next word of the line is read. -/
lemma readOn_spaces {indent : Int} {input final : Input} (m : Nat) {n : Nat} {c : Char}
    {text words rest : List Char}
    (hrest : (input.skip m).rest = List.replicate (n + 1) ' ' ++ c :: rest)
    (hc : endsWord (some c) = false) (hcolumn : indent ≤ (input.skip m).column + 1)
    (hsize : n + 1 < input.size) {fuel : Nat}
    (hwords : readWords false indent (List.replicate (n + 1) ' ') (input.skip (m + (n + 1))) fuel =
      .ok (words, final)) :
    readOn indent text (input.skip m) fuel = .ok (text ++ words, final) := by
  have hpeek : (input.skip m).peek? = some ' ' := by rw [Input.peek?, hrest]; rfl
  have hempty : (input.skip m).rest.isEmpty = false := by rw [hrest]; rfl
  have hends : endsWord (some ' ') = true := rfl
  have hinside : ¬ ((input.skip (m + (n + 1))).column : Int) < indent := by
    rw [Input.column_skip] at hcolumn ⊢
    omega
  rw [readOn, hempty, hpeek, hends, Bool.not_true, Bool.or_false, if_neg Bool.false_ne_true,
    Input.size_skip, skipSpace_spaces indent m [] hrest hc hsize]
  simp only [hinside, List.nil_append, decide_false, Bool.and_false, Bool.false_eq_true, if_false,
    hwords]

lemma readOn_of_endsAt {indent : Int} {input final : Input} (h : EndsAt indent input final)
    (hsize : input.rest.length < input.size) (text : List Char) (fuel : Nat) :
    readOn indent text input (fuel + 1) = .ok (text, final) := by
  cases h with
  | colon h hcs =>
    have hpeek : input.peek? = some ':' := by rw [Input.peek?, h]; rfl
    rw [readOn, if_pos]
    rw [hpeek]
    exact Bool.or_true _
  | @line column rest h hrest hcolumn hend =>
    have hpeek : input.peek? = some '\n' := by rw [Input.peek?, h]; rfl
    have hlength : column + 1 < input.size := by
      rw [h] at hsize
      simp only [List.cons_append, List.length_cons, List.length_append, padding,
        List.length_replicate] at hsize
      omega
    have hrest' := Input.rest_nextLine h
    have hends : endsWord (some '\n') = true := rfl
    have hempty : input.rest.isEmpty = false := by rw [h]; rfl
    rw [readOn, hempty, hpeek, hends, Bool.not_true, Bool.or_false, if_neg Bool.false_ne_true,
      skipSpace_nextLine h hrest hlength]
    simp only [Input.column_nextLine]
    split
    · rfl
    · rename_i hlt
      -- only the end of the text stands further left than the scalar, and there is no word
      obtain rfl : rest = [] := by
        by_contra hne
        exact hlt (by simpa using hcolumn hne)
      obtain rfl := hend rfl
      have hpeek' : (input.nextLine 0).peek? = none := by rw [Input.peek?, hrest']; rfl
      have hmarker : (input.nextLine 0).atDocumentMarker = false := by
        simp [Input.atDocumentMarker, Input.isMarker, hrest']
      simp only [readWords, hmarker, hpeek', hrest', word]
      simp [hrest']

/-- A line that starts and ends with a character of a word, and holds no indicator. -/
structure IsScalar (cs : List Char) : Prop where
  line      : IsLine cs
  indicator : hasIndicator cs = false
  first     : ∃ c ∈ cs.head?, c ≠ ' ' ∧ c ≠ '#'
  last      : cs.getLast? ≠ some ' '

lemma hasIndicator_of_append {cs ds : List Char} (h : hasIndicator (cs ++ ds) = false) :
    hasIndicator ds = false := by
  induction cs with
  | nil => exact h
  | cons c cs ih => exact ih (hasIndicator_cons h).2.2

/-- The first word of a scalar, and the scalar after it. -/
lemma IsScalar.cases {cs : List Char} (h : IsScalar cs) :
    ∃ w, w ≠ [] ∧ ' ' ∉ w ∧
      (cs = w ∨ ∃ n cs', cs = w ++ (List.replicate (n + 1) ' ' ++ cs') ∧ IsScalar cs') := by
  obtain ⟨w, hspace, hcs⟩ := exists_word ' ' cs
  obtain ⟨c, hc, hcspace, -⟩ := h.first
  have hne : w ≠ [] := by
    rintro rfl
    obtain rfl | ⟨n, cs', rfl, -⟩ := hcs
    · nomatch hc
    · exact hcspace (Option.some.inj hc).symm
  refine ⟨w, hne, hspace, hcs.imp_right ?_⟩
  rintro ⟨n, cs', rfl, hhead⟩
  refine ⟨n, cs', rfl, ?_⟩
  cases cs' with
  | nil =>
    -- a text that ends with the spaces would end with a space
    refine absurd ?_ h.last
    rw [List.append_nil, List.replicate_succ', List.getLast?_append, List.getLast?_append]
    rfl
  | cons c' cs' =>
    have hind := hasIndicator_of_append h.indicator
    rw [List.replicate_succ', List.append_assoc, List.singleton_append] at hind
    have hind' := hasIndicator_of_append hind
    refine ⟨fun a ha => h.line a (by simp [ha]), (hasIndicator_cons hind').2.2, ?_, ?_⟩
    · refine ⟨c', rfl, fun hspace' => hhead (by rw [hspace']; rfl), fun hhash => ?_⟩
      -- a `#` behind a space would be an indicator
      exact (hasIndicator_cons hind').2.1 rfl (by rw [hhash]; rfl)
    · intro hlast
      refine h.last ?_
      rw [List.getLast?_append, List.getLast?_append, hlast]
      rfl

lemma IsScalar.exists_cons {cs : List Char} (h : IsScalar cs) :
    ∃ c cs', cs = c :: cs' ∧ c ≠ ' ' ∧ c ≠ '#' := by
  obtain ⟨c, hc, hspace, hhash⟩ := h.first
  cases cs with
  | nil => nomatch hc
  | cons d cs =>
    cases hc
    exact ⟨c, cs, rfl, hspace, hhash⟩

/-- A scalar is read word by word. -/
lemma readWords_append {indent : Int} {cs rest : List Char} (gap : List Char) (h : IsScalar cs)
    {input final : Input} (hrest : input.rest = cs ++ rest)
    (hmarker : input.atDocumentMarker = false) (hcolumn : indent ≤ input.column + 1)
    (hend : EndsAt indent (input.skip cs.length) final)
    (hsize : input.rest.length ≤ input.size) {fuel : Nat} (hfuel : cs.length < fuel) :
    readWords false indent gap input fuel = .ok (gap ++ cs, final) := by
  obtain ⟨w, hne, hspace, hcs⟩ := h.cases
  obtain ⟨fuel, rfl⟩ : ∃ f, fuel = f + 1 := ⟨fuel - 1, by omega⟩
  have hpos : 0 < w.length := List.length_pos_of_ne_nil hne
  have hcomment : input.peek? ≠ some '#' := by
    obtain ⟨c, cs', rfl, -, hhash⟩ := h.exists_cons
    rw [Input.peek?, hrest]
    exact fun heq => hhash (Option.some.inj heq)
  have hstops := hend.stops
  rw [Input.rest_skip_append hrest] at hstops
  obtain rfl | ⟨n, cs', rfl, h'⟩ := hcs
  · -- the only word
    have hword : word false input.rest = cs := by
      rw [hrest]
      exact word_append [] h.line hspace (by rw [List.append_nil]; exact h.indicator)
        (Or.inl ⟨rfl, hstops⟩)
    obtain ⟨fuel, rfl⟩ : ∃ f, fuel = f + 1 := ⟨fuel - 1, by omega⟩
    rw [readWords_eq_readOn hmarker hcomment hword hne]
    refine readOn_of_endsAt hend ?_ _ _
    rw [Input.rest_skip_append hrest, Input.size_skip]
    rw [hrest, List.length_append] at hsize
    omega
  · -- the first of several words
    have hword : word false input.rest = w := by
      rw [hrest, List.append_assoc]
      exact word_append _ (fun c hc => h.line c (List.mem_append_left _ hc)) hspace h.indicator
        (Or.inr ⟨_, _, rfl, rfl⟩)
    have hlength : (w ++ (List.replicate (n + 1) ' ' ++ cs')).length =
        w.length + (n + 1) + cs'.length := by
      simp only [List.length_append, List.length_replicate, Nat.add_assoc]
    rw [hlength] at hfuel hend
    rw [← Input.skip_skip] at hend
    have hafter : (input.skip w.length).rest = List.replicate (n + 1) ' ' ++ (cs' ++ rest) := by
      rw [Input.rest_skip, hrest, List.append_assoc, List.drop_left, List.append_assoc]
    have hrest' : (input.skip (w.length + (n + 1))).rest = cs' ++ rest := by
      rw [← Input.skip_skip, Input.rest_skip, hafter]
      exact List.drop_left' (by simp)
    have hmarker' : (input.skip (w.length + (n + 1))).atDocumentMarker = false := by
      rw [Input.atDocumentMarker, Input.column_skip, Bool.and_eq_false_iff]
      exact Or.inl (decide_eq_false (by omega))
    have hroom : (input.skip (w.length + (n + 1))).rest.length ≤ input.size := by
      rw [Input.rest_skip, List.length_drop]
      omega
    have hfuel' : cs'.length < fuel := by omega
    have hrec := readWords_append (List.replicate (n + 1) ' ') h' hrest' hmarker'
      (by rw [Input.column_skip]; omega) hend hroom hfuel'
    obtain ⟨c, cs', rfl, hcspace, -⟩ := h'.exists_cons
    have hspaces : n + 1 < input.size := by
      rw [hrest, List.length_append, hlength, List.length_cons] at hsize
      omega
    rw [readWords_eq_readOn hmarker hcomment hword hne,
      readOn_spaces w.length hafter (endsWord_of_isLine h'.line hcspace)
        (by rw [Input.column_skip]; omega) hspaces hrec, List.append_assoc]
termination_by cs.length

/-- A scalar is read whole, whatever it ends in front of. -/
theorem read_append {indent : Int} {cs rest : List Char} (h : IsScalar cs) {input final : Input}
    (hrest : input.rest = cs ++ rest) (hmarker : input.atDocumentMarker = false)
    (hcolumn : indent ≤ input.column + 1) (hend : EndsAt indent (input.skip cs.length) final)
    (hsize : input.rest.length ≤ input.size) :
    read false indent input = .ok (String.ofList cs, final) := by
  have hfuel : cs.length < input.size + 1 := by
    rw [hrest, List.length_append] at hsize
    omega
  have hread := readWords_append [] h hrest hmarker hcolumn hend hsize hfuel
  obtain ⟨c, cs, rfl, -⟩ := h.exists_cons
  simp only [read, hread, Bool.false_and, Bool.false_eq_true, if_false, List.nil_append]

lemma startsWithIndicator_cons {c : Char} {cs : List Char}
    (h : Style.startsWithIndicator (c :: cs) = false) :
    c ∉ Style.startIndicators ∧ (c = '?' ∨ c = ':' ∨ c = '-' → isSeparator cs.head? = false) := by
  unfold Style.startsWithIndicator at h
  split at h
  · cases h
  · cases h
  · rename_i heq
    cases heq
    simp only [Bool.or_eq_false_iff, decide_eq_false_iff_not, Bool.and_eq_false_iff] at h
    refine ⟨h.1, fun hc => h.2.resolve_left fun hn => ?_⟩
    tauto
  · rename_i heq
    cases heq

/-- What may be written plain is a scalar. -/
lemma isScalar_of_allowsPlain {cs : List Char} (h : Style.allowsPlain cs) (hne : cs ≠ []) :
    IsScalar cs := by
  simp only [Style.allowsPlain, Style.isClean, Bool.and_eq_true, Bool.not_eq_true', Style.atEnds,
    Bool.or_eq_false_iff] at h
  obtain ⟨⟨⟨⟨⟨hprint, -⟩, hbreak⟩, hfirst, hlast⟩, hstart⟩, hind⟩ := h
  refine ⟨fun c hc => ⟨?_, ?_⟩, hind, ?_, ?_⟩
  · have := List.any_eq_false.mp hbreak c hc
    simp only [isLineBreak, Bool.or_eq_true, decide_eq_true_eq, not_or] at this
    simp [isBreak, this]
  · rintro rfl
    exact absurd (List.all_eq_true.mp hprint '\t' hc) (by decide)
  · cases cs with
    | nil => exact absurd rfl hne
    | cons c cs =>
      refine ⟨c, rfl, ?_, ?_⟩
      · rintro rfl
        exact Bool.noConfusion (show true = false from hfirst)
      · rintro rfl
        exact (startsWithIndicator_cons hstart).1 (by decide)
  · intro hspace
    rw [hspace] at hlast
    exact absurd hlast (by decide)

end Plain
end YamlSieve.Yaml
