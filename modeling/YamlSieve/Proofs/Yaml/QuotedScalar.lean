import YamlSieve.Proofs.Yaml.Passing
import YamlSieve.Yaml.Scalar.Quoted
import Mathlib.Algebra.Group.Nat.Defs

/-!
# Quoted scalars that are written

A text between quotes is read back from the codes of its characters. In single quotes a quote is
coded by two, in double quotes the code of a character may be an escape sequence.
-/

namespace YamlSieve.Yaml.Quoted

/-! ### Runs -/

/-- A row of characters that a run takes for one character which is no space. -/
structure IsCode (quote : Quote) (c : Char) (code : List Char) : Prop where
  first : ∃ d ∈ code.head?, endsWord (some d) = false
  read (rest : List Char) (fuel : Nat) :
    readRun quote (code ++ rest) (fuel + 1) =
      (readRun quote rest fuel).map (Run.cons c code.length)

/-- What ends a run of a text on one line: a space, or the closing quote. -/
def EndsRun (quote : Quote) (rest : List Char) : Prop :=
  ∀ fuel, readRun quote rest fuel = .ok ⟨[], 0, false⟩

lemma endsRun_space (quote : Quote) (rest : List Char) : EndsRun quote (' ' :: rest) := by
  rintro (_ | fuel) <;> cases quote <;> rfl

lemma endsRun_quote (quote : Quote) {rest : List Char}
    (h : quote = .single → rest.head? ≠ some '\'') : EndsRun quote (quote.char :: rest) := by
  rintro (_ | fuel)
  · rfl
  · cases quote with
    | double => rfl
    | single =>
      have hrest := h rfl
      show readRun .single ('\'' :: rest) (fuel + 1) = _
      rw [readRun]
      rintro rest rfl
      exact hrest rfl

lemma readRun_codes {quote : Quote} {code : Char → List Char} {w rest : List Char}
    (h : ∀ c ∈ w, IsCode quote c (code c)) (hrest : EndsRun quote rest) {fuel : Nat}
    (hfuel : w.length ≤ fuel) :
    readRun quote (w.flatMap code ++ rest) fuel = .ok ⟨w, (w.flatMap code).length, false⟩ := by
  induction w generalizing fuel with
  | nil => exact hrest fuel
  | cons c w ih =>
    obtain ⟨fuel, rfl⟩ : ∃ f, fuel = f + 1 := ⟨fuel - 1, by rw [List.length_cons] at hfuel; omega⟩
    -- one unit of fuel is spent on each character, whatever the length of its code
    rw [List.flatMap_cons, List.append_assoc, (h c List.mem_cons_self).read,
      ih (fun d hd => h d (List.mem_cons_of_mem c hd)) (by simpa using hfuel)]
    simp [Except.map, Run.cons, Nat.add_comm]

/-! ### White space between runs -/

lemma skipSpace_spaces {indent : Int} {input : Input} (m : Nat) {whites : List Char} {n : Nat}
    {c : Char} {rest : List Char}
    (h : (input.skip m).rest = List.replicate n ' ' ++ c :: rest) (hc : endsWord (some c) = false)
    {fuel : Nat} (hfuel : n < fuel) :
    skipSpace indent (.none whites) (input.skip m) fuel =
      .ok (whites ++ List.replicate n ' ', input.skip (m + n)) := by
  -- the induction is on the spaces that are left; those that were passed are kept in `whites`
  induction n generalizing m whites fuel with
  | zero =>
    obtain ⟨fuel, rfl⟩ : ∃ f, fuel = f + 1 := ⟨fuel - 1, by omega⟩
    have hpeek : (input.skip m).peek? = some c := by rw [Input.peek?, h]; rfl
    simp only [endsWord, Bool.or_eq_false_iff] at hc
    simp only [skipSpace, hpeek, hc]
    simp [Breaks.text]
  | succ n ih =>
    obtain ⟨fuel, rfl⟩ : ∃ f, fuel = f + 1 := ⟨fuel - 1, by omega⟩
    have hpeek : (input.skip m).peek? = some ' ' := by rw [Input.peek?, h]; rfl
    have hrest : (input.skip (m + 1)).rest = List.replicate n ' ' ++ c :: rest := by
      rw [← Input.skipWhite_skip]
      show (input.skip m).rest.drop 1 = _
      rw [h]
      rfl
    have hbreak : isBreak ' ' = false := rfl
    have hwhite : isWhite ' ' = true := rfl
    simp only [skipSpace, hpeek, hbreak, hwhite, Input.skipWhite_skip, if_true,
      Bool.false_eq_true, if_false]
    rw [ih (m + 1) hrest (by omega), List.replicate_succ, List.append_assoc, List.singleton_append,
      Nat.add_right_comm, Nat.add_assoc]

/-! ### Whole scalars -/

/-- The codes of a text: a space stands for itself. -/
structure IsCoding (quote : Quote) (code : Char → List Char) (cs : List Char) : Prop where
  space : code ' ' = [' ']
  code (c : Char) (hc : c ∈ cs) (hspace : c ≠ ' ') : IsCode quote c (code c)

lemma IsCoding.length_le {quote : Quote} {code : Char → List Char} {cs : List Char}
    (h : IsCoding quote code cs) : cs.length ≤ (cs.flatMap code).length := by
  have hpos : ∀ c ∈ cs, 0 < (code c).length := by
    intro c hc
    by_cases hspace : c = ' '
    · rw [hspace, h.space]
      exact Nat.one_pos
    · obtain ⟨d, hd, -⟩ := (h.code c hc hspace).first
      exact List.length_pos_of_mem (List.mem_of_mem_head? hd)
  clear h
  induction cs with
  | nil => exact Nat.le_refl 0
  | cons c cs ih =>
    have := hpos c List.mem_cons_self
    have := ih fun d hd => hpos d (List.mem_cons_of_mem c hd)
    rw [List.flatMap_cons, List.length_append, List.length_cons]
    omega

lemma flatMap_spaces {code : Char → List Char} (h : code ' ' = [' ']) (w cs : List Char) (n : Nat) :
    (w ++ (List.replicate n ' ' ++ cs)).flatMap code =
      w.flatMap code ++ (List.replicate n ' ' ++ cs.flatMap code) := by
  have hspaces : (List.replicate n ' ').flatMap code = List.replicate n ' ' := by
    induction n with
    | zero => rfl
    | succ n ih => rw [List.replicate_succ, List.flatMap_cons, h, ih, List.singleton_append]
  rw [List.flatMap_append, List.flatMap_append, hspaces]

/-- The codes of a text that starts with no space, and the closing quote after them. -/
lemma exists_cons_codes {quote : Quote} {code : Char → List Char} {cs : List Char}
    (h : IsCoding quote code cs) (hhead : cs.head? ≠ some ' ') (rest : List Char) :
    ∃ c r, cs.flatMap code ++ quote.char :: rest = c :: r ∧ endsWord (some c) = false := by
  cases cs with
  | nil => exact ⟨quote.char, rest, rfl, by cases quote <;> rfl⟩
  | cons c cs =>
    have hspace : c ≠ ' ' := fun heq => hhead (by rw [heq]; rfl)
    obtain ⟨d, hd, hends⟩ := (h.code c List.mem_cons_self hspace).first
    cases hcode : code c with
    | nil =>
      rw [hcode] at hd
      nomatch hd
    | cons d' ds =>
      rw [hcode] at hd
      cases hd
      exact ⟨d, ds ++ cs.flatMap code ++ quote.char :: rest, by simp [hcode], hends⟩

/-- The part of `readRuns` after a run. -/
def readOn (quote : Quote) (indent : Int) (text : List Char) (input : Input) (fuel : Nat) :
    Except SyntaxError (List Char × Input) :=
  if input.peek? = some quote.char then
    .ok (text, input.skip 1)
  else
    match skipSpace indent (.none []) input input.size with
    | .error e         => .error e
    | .ok (gap, input) =>
      match readRuns quote indent input fuel with
      | .error e             => .error e
      | .ok (further, input) => .ok (text ++ gap ++ further, input)

lemma readRuns_eq_readOn {quote : Quote} {indent : Int} {input : Input} {m n : Nat}
    {text : List Char} {fuel : Nat} (hm : 0 < m) (hcolumn : indent ≤ input.column + m)
    (hne : (input.skip m).rest ≠ [])
    (hrun : readRun quote (input.skip m).rest (input.size + 1) = .ok ⟨text, n, false⟩) :
    readRuns quote indent (input.skip m) (fuel + 1) =
      readOn quote indent text (input.skip (m + n)) fuel := by
  have hmarker : (input.skip m).atDocumentMarker = false := by
    rw [Input.atDocumentMarker, Input.column_skip, Bool.and_eq_false_iff]
    exact Or.inl (decide_eq_false (by omega))
  have hempty : (input.skip m).rest.isEmpty = false := by
    rwa [List.isEmpty_eq_false_iff]
  have hcol : ¬ ((input.skip m).column : Int) < indent := by
    rw [Input.column_skip]
    omega
  -- no step is made over an empty run, which comes to the same
  have hskip : (if n = 0 then input.skip m else (input.skip m).skip n) = input.skip (m + n) := by
    split
    · rename_i hn
      rw [hn]
      rfl
    · exact Input.skip_skip m n
  rw [readRuns, hmarker, hempty, Bool.or_self, if_neg Bool.false_ne_true, if_neg hcol,
    Input.size_skip, hrun]
  simp only [Bool.false_eq_true, if_false]
  rw [hskip]
  rfl

/-- Behind spaces the next run of the line is read. -/
lemma readOn_spaces {quote : Quote} {indent : Int} {input final : Input} {m n : Nat} {c : Char}
    {text further rest : List Char}
    (hrest : (input.skip m).rest = List.replicate (n + 1) ' ' ++ c :: rest)
    (hc : endsWord (some c) = false) (hsize : n + 1 < input.size) {fuel : Nat}
    (hruns : readRuns quote indent (input.skip (m + (n + 1))) fuel = .ok (further, final)) :
    readOn quote indent text (input.skip m) fuel =
      .ok (text ++ List.replicate (n + 1) ' ' ++ further, final) := by
  have hpeek : (input.skip m).peek? ≠ some quote.char := by
    rw [Input.peek?, hrest]
    cases quote <;> exact fun heq => absurd (Option.some.inj heq) (by decide)
  rw [readOn, if_neg hpeek, Input.size_skip, skipSpace_spaces _ hrest hc hsize]
  simp only [List.nil_append, hruns]

/-- The codes of a text are read up to the closing quote. -/
lemma readRuns_codes {quote : Quote} {code : Char → List Char} {cs rest : List Char}
    (h : IsCoding quote code cs) (hquote : quote = .single → rest.head? ≠ some '\'')
    {indent : Int} {input : Input} {m : Nat} (hm : 0 < m)
    (hrest : (input.skip m).rest = cs.flatMap code ++ quote.char :: rest)
    (hcolumn : indent ≤ input.column + m) (hsize : (input.skip m).rest.length ≤ input.size)
    {fuel : Nat} (hfuel : cs.length < fuel) :
    readRuns quote indent (input.skip m) fuel =
      .ok (cs, input.skip (m + (cs.flatMap code).length + 1)) := by
  obtain ⟨fuel, rfl⟩ : ∃ f, fuel = f + 1 := ⟨fuel - 1, by omega⟩
  obtain ⟨w, hspace, hcs⟩ := exists_word ' ' cs
  have hcode : ∀ c ∈ w, IsCode quote c (code c) := by
    intro c hc
    refine h.code c ?_ (fun heq => hspace (heq ▸ hc))
    obtain rfl | ⟨_, _, rfl, -⟩ := hcs
    · exact hc
    · exact List.mem_append_left _ hc
  have hlength := h.length_le
  -- a code is never empty, so the text is no longer than its codes
  have hroom : cs.length + 1 ≤ input.size := by
    rw [hrest, List.length_append, List.length_cons] at hsize
    omega
  have hne : (input.skip m).rest ≠ [] := by
    rw [hrest]
    exact List.append_ne_nil_of_right_ne_nil _ (List.cons_ne_nil _ _)
  obtain rfl | ⟨n, cs', rfl, hhead⟩ := hcs
  · -- the last run
    have hbound : cs.length ≤ input.size + 1 := by omega
    have hrun := readRun_codes hcode (endsRun_quote quote hquote) hbound
    rw [← hrest] at hrun
    have hpeek : (input.skip (m + (cs.flatMap code).length)).peek? = some quote.char := by
      rw [← Input.skip_skip, Input.peek?, Input.rest_skip_append hrest]
      rfl
    rw [readRuns_eq_readOn hm hcolumn hne hrun, readOn, if_pos hpeek, Input.skip_skip]
  · -- a run in front of spaces
    have hcs' : IsCoding quote code cs' := ⟨h.space, fun c hc => h.code c (by simp [hc])⟩
    rw [flatMap_spaces h.space] at hrest ⊢
    rw [List.append_assoc, List.append_assoc] at hrest
    simp only [List.length_append, List.length_replicate] at hroom hfuel ⊢
    have hbound : w.length ≤ input.size + 1 := by omega
    have hspaces := endsRun_space quote
      (List.replicate n ' ' ++ (cs'.flatMap code ++ quote.char :: rest))
    have hrun := readRun_codes hcode hspaces hbound
    have hafter : (input.skip (m + (w.flatMap code).length)).rest =
        List.replicate (n + 1) ' ' ++ (cs'.flatMap code ++ quote.char :: rest) := by
      rw [← Input.skip_skip, Input.rest_skip_append hrest]
    have hrest' : (input.skip (m + (w.flatMap code).length + (n + 1))).rest =
        cs'.flatMap code ++ quote.char :: rest := by
      rw [← Input.skip_skip, Input.rest_skip, hafter]
      exact List.drop_left' (by simp)
    have hroom' :
        (input.skip (m + (w.flatMap code).length + (n + 1))).rest.length ≤ input.size := by
      rw [hrest, List.length_append, List.length_append] at hsize
      rw [hrest']
      omega
    have hcolumn' : indent ≤ input.column + (m + (w.flatMap code).length + (n + 1) : Nat) := by
      push_cast
      omega
    -- behind the spaces a shorter text starts, in the same line
    have hrec := readRuns_codes hcs' hquote (by omega) hrest' hcolumn' hroom'
      (show cs'.length < fuel by omega)
    obtain ⟨c, r, hcr, hc⟩ := exists_cons_codes hcs' hhead rest
    rw [hcr] at hafter
    rw [readRuns_eq_readOn hm hcolumn hne (by rw [hrest]; exact hrun),
      readOn_spaces hafter hc (by omega) hrec, List.append_assoc]
    congr 3
    omega
termination_by cs.length

/-- What ends a scalar on a line is neither white space nor a comment. -/
lemma isWhite_of_stops {c : Char} (hc : isBreak c ∨ c = ':') : isWhite c = false ∧ c ≠ '#' := by
  rcases hc with hc | rfl
  · simp only [isBreak, Bool.or_eq_true, decide_eq_true_eq] at hc
    rcases hc with rfl | rfl <;> decide
  · decide

/-- A quoted scalar may end in front of a colon or of the end of its line. -/
lemma mayEndBefore_of_stops {c : Char} (hc : isBreak c ∨ c = ':') {input : Input} {n : Nat}
    {rest : List Char} (hrest : (input.skip n).rest = c :: rest) :
    mayEndBefore false input.position.line (input.skip n) := by
  have hpeek : (input.skip n).peek? = some c := by
    rw [Input.peek?, hrest]
    rfl
  rw [mayEndBefore, hpeek]
  rcases hc with hc | rfl
  · simp [hc]
  · simp [Input.skip, Input.passed]

/-- A coded text between quotes is read whole if a colon or the end of the line follows. -/
theorem read_codes {quote : Quote} {code : Char → List Char} {cs rest : List Char} {c : Char}
    (h : IsCoding quote code cs) (hc : isBreak c ∨ c = ':') {indent : Int} {input : Input}
    (hrest : input.rest = quote.char :: cs.flatMap code ++ quote.char :: c :: rest)
    (hcolumn : indent ≤ input.column + 1) (hsize : input.rest.length ≤ input.size) :
    read quote false indent input = .ok (String.ofList cs,
      input.skip (quote.char :: cs.flatMap code ++ [quote.char]).length) := by
  have hskip : (input.skip 1).rest = cs.flatMap code ++ quote.char :: c :: rest := by
    rw [Input.rest_skip, hrest]
    rfl
  have hlength := h.length_le
  have hroom : (cs.flatMap code).length + 2 ≤ input.size := by
    rw [hrest] at hsize
    simp only [List.cons_append, List.length_cons, List.length_append] at hsize
    omega
  -- a quote that follows would make the closing one a code
  have hquote : quote = .single → (c :: rest).head? ≠ some '\'' := by
    rintro - heq
    rcases hc with hc | rfl
    · rw [Option.some.inj heq] at hc
      exact absurd hc (by decide)
    · exact absurd (Option.some.inj heq) (by decide)
  have hsize' : (input.skip 1).rest.length ≤ input.size := by
    rw [hskip]
    rw [hrest] at hsize
    exact Nat.le_of_succ_le hsize
  have hfuel : cs.length < input.size + 1 := by omega
  have hruns := readRuns_codes h hquote Nat.one_pos hskip hcolumn hsize' hfuel
  have hafter : (input.skip (1 + (cs.flatMap code).length + 1)).rest = c :: rest := by
    rw [Nat.add_assoc, ← Input.skip_skip, ← Input.skip_skip, Input.rest_skip,
      Input.rest_skip_append hskip]
    rfl
  obtain ⟨hwhite, hhash⟩ := isWhite_of_stops hc
  have hend := mayEndBefore_of_stops hc hafter
  have htotal : (quote.char :: cs.flatMap code ++ [quote.char]).length =
      1 + (cs.flatMap code).length + 1 := by
    simp only [List.cons_append, List.length_cons, List.length_append, List.length_nil]
    omega
  rw [read, hruns]
  simp only [Input.skipToToken_eq hafter hwhite hhash, hend, if_true, htotal]

/-! ### Single quotes -/

/-- How a character is written in single quotes. -/
def singleCode (c : Char) : List Char := if c = '\'' then ['\'', '\''] else [c]

lemma isCode_single {c : Char} (h : endsWord (some c) = false) :
    IsCode .single c (singleCode c) := by
  by_cases hc : c = '\''
  · subst hc
    exact ⟨⟨'\'', rfl, rfl⟩, fun rest fuel => rfl⟩
  · rw [singleCode, if_neg hc]
    refine ⟨⟨c, rfl, h⟩, fun rest fuel => ?_⟩
    have hwhite : (isWhite c || isBreak c) = false := by
      rw [Bool.or_comm]
      exact h
    rw [List.singleton_append, readRun, hwhite, if_neg Bool.false_ne_true]
    · rfl
    · exact fun _ _ heq => absurd heq hc
    · exact fun _ heq => absurd heq hc
    · nofun
    · nofun

lemma indentLines_eq {cs : List Char} (h : ∀ c ∈ cs, Style.isLineBreak c = false) (indent : Nat) :
    Style.indentLines indent false cs = cs := by
  induction cs with
  | nil => rfl
  | cons c cs ih =>
    rw [Style.indentLines, h c List.mem_cons_self, ih fun d hd => h d (List.mem_cons_of_mem c hd)]
    rfl

/-- A text on one line is written in single quotes as the codes of its characters. -/
lemma singleText_eq {cs : List Char} (h : ∀ c ∈ cs, Style.isLineBreak c = false) (indent : Nat) :
    Style.singleText indent cs =
      Quote.single.char :: cs.flatMap singleCode ++ [Quote.single.char] := by
  have hlast : cs.getLast?.any Style.isLineBreak = false := by
    cases hc : cs.getLast? with
    | none => rfl
    | some c => exact h c (List.mem_of_getLast? hc)
  rw [Style.singleText, indentLines_eq h, hlast]
  simp only [Bool.false_eq_true, if_false, List.append_nil]
  rfl

lemma isCoding_single {cs : List Char} (h : IsLine cs) : IsCoding .single singleCode cs :=
  ⟨rfl, fun c hc hspace => isCode_single (by
    obtain ⟨hbreak, htab⟩ := h c hc
    simp [endsWord, hbreak, isWhite, hspace, htab])⟩

/-! ### Double quotes -/

def doubleCode (c : Char) : List Char :=
  if Style.isEscaped c then '\\' :: Style.escapeOf c else [c]

lemma length_hexText (n width : Nat) : (Style.hexText n width).length = width := by
  induction width generalizing n with
  | zero => rfl
  | succ width ih => rw [Style.hexText, List.length_append, ih]; rfl

lemma readDigits?_append (base n : Nat) (cs ds : List Char) :
    Integer.readDigits? base n (cs ++ ds) =
      (Integer.readDigits? base n cs).bind fun m => Integer.readDigits? base m ds := by
  induction cs generalizing n with
  | nil => rfl
  | cons c cs ih =>
    rw [List.cons_append, Integer.readDigits?, Integer.readDigits?]
    cases Integer.digit? base c with
    | none => rfl
    | some d => exact ih _

/-- A number is read from its hexadecimal digits. -/
lemma readDigits?_hexText {n width : Nat} (h : n < 16 ^ width) :
    Integer.readDigits? 16 0 (Style.hexText n width) = some n := by
  induction width generalizing n with
  | zero =>
    rw [Nat.pow_zero, Nat.lt_one_iff] at h
    rw [h]
    rfl
  | succ width ih =>
    have hdiv : n / 16 < 16 ^ width := by
      rw [Nat.pow_succ] at h
      exact Nat.div_lt_of_lt_mul (by rwa [Nat.mul_comm])
    rw [Style.hexText, readDigits?_append, ih hdiv]
    have hdigit : Integer.digit? 16 (Integer.hexDigit 'A' (n % 16)) = some (n % 16) :=
      Integer.digit?_hexDigit (.inr rfl) (Nat.mod_lt n (by decide))
    simp only [Option.bind_some, Integer.readDigits?, hdigit, Nat.div_add_mod]

lemma charOfCode?_toNat (c : Char) : charOfCode? c.toNat = some c := by
  rw [charOfCode?, if_pos (show c.toNat.isValidChar from c.valid), Char.ofNat_toNat]

lemma readEscape?_hexText {letter c : Char} {width : Nat} (hletter : escaped? letter = none)
    (hwidth : codeLength? letter = some (width + 1)) (hc : c.toNat < 16 ^ (width + 1))
    (rest : List Char) :
    readEscape? (letter :: Style.hexText c.toNat (width + 1) ++ rest) =
      some (c, (letter :: Style.hexText c.toNat (width + 1)).length) := by
  have hlength := length_hexText c.toNat (width + 1)
  have htake : (Style.hexText c.toNat (width + 1) ++ rest).take (width + 1) =
      Style.hexText c.toNat (width + 1) := List.take_left' hlength
  have hread : Integer.readNat? 16 (Style.hexText c.toNat (width + 1)) = some c.toNat := by
    have := readDigits?_hexText hc
    cases hcs : Style.hexText c.toNat (width + 1) with
    | nil => rw [hcs] at hlength; cases hlength
    | cons d ds => rw [Integer.readNat?, ← hcs, this]
  rw [List.cons_append, readEscape?, hletter]
  simp only [hwidth, htake, hlength, Nat.lt_irrefl, if_false, hread, Option.bind_some,
    charOfCode?_toNat, Option.map_some, List.length_cons]

lemma readEscape?_escapeOf (c : Char) (rest : List Char) :
    readEscape? (Style.escapeOf c ++ rest) = some (c, (Style.escapeOf c).length) := by
  unfold Style.escapeOf
  split
  case h_16 =>
    split
    · exact readEscape?_hexText rfl rfl (by omega) rest
    · split
      · exact readEscape?_hexText rfl rfl (by omega) rest
      · have : c.toNat < 0x110000 := by
          have hvalid : c.toNat.isValidChar := c.valid
          rw [Nat.isValidChar] at hvalid
          omega
        exact readEscape?_hexText rfl rfl (by omega) rest
  all_goals rfl

lemma head?_escapeOf (c : Char) : ∃ d ∈ (Style.escapeOf c).head?, endsWord (some d) = false := by
  unfold Style.escapeOf
  split
  case h_16 => split_ifs <;> exact ⟨_, rfl, rfl⟩
  all_goals exact ⟨_, rfl, rfl⟩

lemma isCode_double (c : Char) (h : c ≠ ' ') : IsCode .double c (doubleCode c) := by
  -- an escaped character is decoded by the escape; any other one must be read as itself
  by_cases hesc : Style.isEscaped c
  · rw [doubleCode, if_pos hesc]
    refine ⟨⟨'\\', rfl, rfl⟩, fun rest fuel => ?_⟩
    obtain ⟨d, hd, hends⟩ := head?_escapeOf c
    have hbreak : isBreak d = false := by
      rw [endsWord, Bool.or_eq_false_iff] at hends
      exact hends.1
    have hhead : (Style.escapeOf c ++ rest).head? = some d := by
      rw [List.head?_append, Option.mem_def.mp hd]
      rfl
    rw [List.cons_append, readRun, hhead]
    simp only [hbreak, Bool.false_eq_true, if_false, readEscape?_escapeOf, List.drop_left,
      List.length_cons]
  · rw [doubleCode, if_neg hesc]
    simp only [Style.isEscaped, Bool.or_eq_true, Bool.not_eq_true', decide_eq_true_eq, not_or,
      Bool.not_eq_false] at hesc
    obtain ⟨⟨⟨hprint, hbreak⟩, hquote⟩, hslash⟩ := hesc
    have hends : endsWord (some c) = false := by
      have htab : c ≠ '\t' := by
        rintro rfl
        exact absurd hprint (by decide)
      simp only [Style.isLineBreak, Bool.or_eq_true, decide_eq_true_eq, not_or] at hbreak
      simp [endsWord, isBreak, isWhite, hbreak, htab, h]
    have hwhite : (isWhite c || isBreak c) = false := by
      rw [Bool.or_comm]
      exact hends
    refine ⟨⟨c, rfl, hends⟩, fun rest fuel => ?_⟩
    rw [List.singleton_append, readRun, hwhite, if_neg Bool.false_ne_true]
    · rfl
    · rintro _ ⟨⟩
    · rintro ⟨⟩
    · exact fun _ heq => absurd heq hquote
    · exact fun _ heq => absurd heq hslash

lemma doubleText_eq (cs : List Char) :
    Style.doubleText cs = Quote.double.char :: cs.flatMap doubleCode ++ [Quote.double.char] := rfl

lemma isCoding_double (cs : List Char) : IsCoding .double doubleCode cs :=
  ⟨rfl, fun c _ hspace => isCode_double c hspace⟩

end YamlSieve.Yaml.Quoted
