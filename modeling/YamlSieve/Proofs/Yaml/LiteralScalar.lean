import YamlSieve.Proofs.Yaml.Passing
import YamlSieve.Yaml.Scalar.Block

/-!
# Literal blocks that are written

A text of several lines is read back from the indented lines of a literal block.
-/

namespace YamlSieve.Yaml

/-- The separators of Unicode: the writer takes them for line breaks, the reader does not. -/
def Style.isUnicodeBreak (c : Char) : Bool := c = '\u2028' || c = '\u2029'

namespace Block

open Style (padding indentLines isLineBreak hasNeighbours isUnicodeBreak)

/-! ### Indentation -/

lemma takeWhile_padding {n : Nat} {rest : List Char} (h : rest.head? ≠ some ' ') :
    (padding n ++ rest).takeWhile (· = ' ') = padding n := by
  have hall : ∀ c ∈ padding n, decide (c = ' ') = true :=
    fun c hc => decide_eq_true (List.mem_replicate.mp hc).2
  rw [List.takeWhile_append_of_pos hall]
  cases rest with
  | nil => simp
  | cons c rest =>
    have hc : c ≠ ' ' := fun heq => h (by rw [heq]; rfl)
    simp [hc]

/-- The indentation of a line: all of its spaces, or those up to the limit. -/
inductive Indents (limit : Option Nat) (n : Nat) (rest : List Char) : Prop where
  | all (h : rest.head? ≠ some ' ') (hle : ∀ w ∈ limit, n ≤ w)
  | limit (h : limit = some n)

lemma skipSpaces_eq {limit : Option Nat} {input : Input} {n : Nat} {rest : List Char}
    (hcolumn : input.column = 0) (hrest : input.rest = padding n ++ rest)
    (h : Indents limit n rest) : skipSpaces limit input = input.passed n rest := by
  have hlength : (padding n).length = n := List.length_replicate
  have hdrop : input.rest.drop n = rest := by rw [hrest]; exact List.drop_left' hlength
  cases h with
  | all hhead hle =>
    have hspaces : (input.rest.takeWhile (· = ' ')).length = n := by
      rw [hrest, takeWhile_padding hhead, hlength]
    cases limit with
    | none => simp only [skipSpaces, hspaces, hdrop]
    | some w =>
      have hmin : min n (w - 0) = n := Nat.min_eq_left (hle w rfl)
      simp only [skipSpaces, hspaces, hcolumn, hmin, hdrop]
  | limit hlimit =>
    subst hlimit
    have hall : ∀ c ∈ padding n, decide (c = ' ') = true :=
      fun c hc => decide_eq_true (List.mem_replicate.mp hc).2
    have hspaces : n ≤ (input.rest.takeWhile (· = ' ')).length := by
      rw [hrest, List.takeWhile_append_of_pos hall, List.length_append, hlength]
      exact Nat.le_add_right n _
    have hmin : min (input.rest.takeWhile (· = ' ')).length (n - 0) = n := Nat.min_eq_right hspaces
    simp only [skipSpaces, hcolumn, hmin, hdrop]

/-- An input later on, in the given column of a further line. -/
structure IsLater (input : Input) (column : Nat) (rest : List Char) (later : Input) : Prop where
  rest   : later.rest = rest
  column : later.column = column
  size   : later.size = input.size
  line   : input.position.line ≤ later.position.line

lemma IsLater.trans {input mid later : Input} {m n : Nat} {rest rest' : List Char}
    (h : IsLater input m rest mid) (h' : IsLater mid n rest' later) :
    IsLater input n rest' later :=
  ⟨h'.rest, h'.column, h'.size.trans h.size, Nat.le_trans h.line h'.line⟩

lemma skipEmptyLines_eq {limit : Option Nat} {input : Input} {m n : Nat} {rest : List Char}
    (hcolumn : input.column = 0) (hrest : input.rest = List.replicate m '\n' ++ (padding n ++ rest))
    (h : Indents limit n rest) (hbreak : ∀ c ∈ rest.head?, isBreak c = false)
    (breaks widest : Nat) {fuel : Nat} (hfuel : m < fuel) :
    ∃ later, skipEmptyLines limit breaks widest input fuel = (breaks + m, max widest n, later) ∧
      IsLater input n rest later := by
  -- each empty line is a line break in the first column, so only `widest` is kept
  induction m generalizing input breaks widest fuel with
  | zero =>
    obtain ⟨fuel, rfl⟩ : ∃ f, fuel = f + 1 := ⟨fuel - 1, by omega⟩
    have hpassed : (input.passed n rest).column = n := by
      show input.column + n = n
      rw [hcolumn, Nat.zero_add]
    refine ⟨input.passed n rest, ?_, rfl, hpassed, rfl, Nat.le_refl _⟩
    have hpeek : (input.passed n rest).peek? = rest.head? := rfl
    simp only [skipEmptyLines, skipSpaces_eq hcolumn hrest h, hpassed, hpeek]
    cases rest with
    | nil => rfl
    | cons c rest => simp only [List.head?_cons, hbreak c rfl, Bool.false_eq_true, if_false]; rfl
  | succ m ih =>
    obtain ⟨fuel, rfl⟩ : ∃ f, fuel = f + 1 := ⟨fuel - 1, by omega⟩
    have hspaces : skipSpaces limit input = input :=
      skipSpaces_eq (n := 0) hcolumn rfl (.all (by rw [hrest]; nofun) fun _ _ => Nat.zero_le _)
    have hpeek : input.peek? = some '\n' := by rw [Input.peek?, hrest]; rfl
    have hrest' : input.skipBreak.rest = List.replicate m '\n' ++ (padding n ++ rest) :=
      Input.rest_skipBreak hrest
    have hfuel' : m < fuel := Nat.lt_of_succ_lt_succ hfuel
    obtain ⟨later, hskip, hlater⟩ := ih rfl hrest' (breaks + 1) widest hfuel'
    refine ⟨later, ?_, hlater.rest, hlater.column, hlater.size, ?_⟩
    · have hnewline : isBreak '\n' = true := rfl
      simp only [skipEmptyLines, hspaces, hpeek, hnewline, if_true, hcolumn, Nat.max_zero, hskip]
      rw [Nat.add_right_comm, Nat.add_assoc]
    · exact Nat.le_of_succ_le hlater.line

/-! ### Lines of text -/

lemma takeWhile_line {w rest : List Char} (h : ∀ c ∈ w, isBreak c = false) :
    (w ++ '\n' :: rest).takeWhile (fun c => !isBreak c) = w := by
  rw [List.takeWhile_append_of_pos fun c hc => by rw [h c hc]; rfl]
  simp [isBreak]

/-- A line of text, the empty lines after it, and the indentation of the next line are passed. -/
lemma readLines_line {indent : Nat} (hindent : indent ≠ 0) {input : Input}
    (hcolumn : input.column = indent) {w rest : List Char} (hne : w ≠ [])
    (hw : ∀ c ∈ w, isBreak c = false) {m n : Nat}
    (hrest : input.rest = w ++ '\n' :: (List.replicate m '\n' ++ (padding n ++ rest)))
    (h : Indents (some indent) n rest) (hbreak : ∀ c ∈ rest.head?, isBreak c = false)
    (hsize : input.rest.length ≤ input.size) (afterWhite : Bool) (last empty fuel : Nat) :
    ∃ later white, IsLater input n rest later ∧ input.position.line < later.position.line ∧
      readLines true indent afterWhite last empty input (fuel + 1) =
        let (content, final) := readLines true indent white 1 m later fuel
        ({ content with text := List.replicate (last + empty) '\n' ++ w ++ content.text },
          final) := by
  have htake : input.takeWhile (fun c => !isBreak c) = (w, input.skip w.length) := by
    have hempty : w.isEmpty = false := by simp [hne]
    rw [Input.takeWhile, hrest, takeWhile_line hw]
    simp only [hempty, Bool.false_eq_true, if_false]
  have hafter := Input.rest_skip_append hrest
  have hrest' : (input.skip w.length).skipBreak.rest =
      List.replicate m '\n' ++ (padding n ++ rest) := Input.rest_skipBreak hafter
  -- the bound on the empty lines is the length of the whole text
  have hroom : m < input.size := by
    rw [hrest] at hsize
    simp only [List.length_append, List.length_cons, List.length_replicate] at hsize
    omega
  have hmargin : (input.skip w.length).skipBreak.column = 0 := rfl
  obtain ⟨later, hskip, hlater⟩ := skipEmptyLines_eq hmargin hrest' h hbreak 0 0 hroom
  refine ⟨later, startsWhite input, ⟨hlater.rest, hlater.column, hlater.size, ?_⟩, hlater.line, ?_⟩
  · exact Nat.le_of_succ_le hlater.line
  · -- the line stands in the column of the block, which is not the first one
    have hcond : (input.column ≠ indent || input.rest.isEmpty ||
        (indent = 0 && input.isMarker '.')) = false := by
      simp [hcolumn, hindent, hrest]
    have hsome : (input.skip w.length).rest.isEmpty = false := by rw [hafter]; rfl
    rw [readLines, hcond, if_neg Bool.false_ne_true, htake]
    simp only [hsome, Bool.false_eq_true, if_false, Input.size_skip, hskip, Nat.zero_add]
    rfl

/-- No line is read in another column, or where the text ends. -/
lemma readLines_end {indent : Nat} {input : Input} (h : input.column ≠ indent ∨ input.rest = [])
    (literal afterWhite : Bool) (last empty fuel : Nat) :
    readLines literal indent afterWhite last empty input fuel = (⟨[], last, empty⟩, input) := by
  cases fuel with
  | zero => rfl
  | succ fuel =>
    rw [readLines, if_pos]
    rcases h with h | h <;> simp [h]

/-! ### Written lines -/

/--
A text whose separators stand at the ends of its lines, behind other characters, while its last line
ends with none. The writer indents what follows a separator, but a line break goes before that.
-/
structure IsBlock (cs : List Char) : Prop where
  breaks : ∀ c ∈ cs, isLineBreak c → c = '\n' ∨ isUnicodeBreak c
  start  : hasNeighbours (· = '\n') isUnicodeBreak ('\n' :: cs) = false
  inLine : hasNeighbours isUnicodeBreak (!isLineBreak ·) cs = false
  last   : cs.getLast?.any isUnicodeBreak = false

lemma isBreak_of_isLineBreak {c : Char} (h : isLineBreak c = false) : isBreak c = false := by
  simp only [isLineBreak, Bool.or_eq_false_iff] at h
  simp [isBreak, h.1.1.1.1, h.1.1.1.2]

lemma isBreak_of_isUnicodeBreak {c : Char} (h : isUnicodeBreak c) : isBreak c = false := by
  simp only [isUnicodeBreak, Bool.or_eq_true, decide_eq_true_eq] at h
  rcases h with rfl | rfl <;> rfl

lemma isLineBreak_of_isUnicodeBreak {c : Char} (h : isUnicodeBreak c) : isLineBreak c := by
  simp only [isUnicodeBreak, Bool.or_eq_true, decide_eq_true_eq] at h
  rcases h with rfl | rfl <;> rfl

lemma IsBlock.isLineBreak_head {c : Char} {cs : List Char} (h : IsBlock (c :: cs))
    (hc : c ≠ '\n') : isLineBreak c = false := by
  have hstart := h.start
  rw [hasNeighbours, Bool.or_eq_false_iff] at hstart
  rw [← Bool.not_eq_true]
  intro hbreak
  rcases h.breaks c List.mem_cons_self hbreak with heq | hunicode
  · exact hc heq
  · exact absurd hunicode (by simpa using hstart.1)

lemma hasNeighbours_of_append {first second : Char → Bool} {cs ds : List Char}
    (h : hasNeighbours first second (cs ++ ds) = false) :
    hasNeighbours first second cs = false ∧ hasNeighbours first second ds = false := by
  induction cs with
  | nil => exact ⟨rfl, h⟩
  | cons c cs ih =>
    cases cs with
    | nil =>
      refine ⟨rfl, ?_⟩
      cases ds with
      | nil => rfl
      | cons d ds =>
        exact (Bool.or_eq_false_iff.mp h).2
    | cons d cs =>
      obtain ⟨hhere, hlater⟩ := Bool.or_eq_false_iff.mp h
      exact ⟨Bool.or_eq_false_iff.mpr ⟨hhere, (ih hlater).1⟩, (ih hlater).2⟩

/-- Behind a separator only separators follow, up to the next line break. -/
lemma all_isUnicodeBreak {cs : List Char}
    (h : hasNeighbours isUnicodeBreak (!isLineBreak ·) cs = false)
    (hhead : ∀ c ∈ cs.head?, isUnicodeBreak c)
    (hbreaks : ∀ c ∈ cs, isLineBreak c → isUnicodeBreak c) : ∀ c ∈ cs, isUnicodeBreak c := by
  induction cs with
  | nil => exact List.forall_mem_nil _
  | cons c cs ih =>
    have hc : isUnicodeBreak c := hhead c rfl
    refine List.forall_mem_cons.mpr ⟨hc, ?_⟩
    cases cs with
    | nil => exact List.forall_mem_nil _
    | cons d cs =>
      obtain ⟨hhere, hlater⟩ := Bool.or_eq_false_iff.mp h
      have hd : isLineBreak d := by simpa [hc] using hhere
      have hmem : d ∈ c :: d :: cs := List.mem_cons_of_mem c List.mem_cons_self
      refine ih hlater ?_ fun e he => hbreaks e (List.mem_cons_of_mem c he)
      rintro _ ⟨⟩
      exact hbreaks d hmem hd

/-- A line of a block, without the line break that ends it. -/
inductive IsBlockLine : List Char → Prop where
  | line {w separators : List Char} (hne : w ≠ []) (hw : ∀ c ∈ w, isLineBreak c = false)
      (hseparators : ∀ c ∈ separators, isUnicodeBreak c) : IsBlockLine (w ++ separators)

lemma IsBlockLine.isBreak {w : List Char} (h : IsBlockLine w) : ∀ c ∈ w, isBreak c = false := by
  obtain ⟨-, hw, hseparators⟩ := h
  exact List.forall_mem_append.mpr ⟨fun c hc => isBreak_of_isLineBreak (hw c hc),
    fun c hc => isBreak_of_isUnicodeBreak (hseparators c hc)⟩

/-- In front of a line break, and at the end, no indentation is due. -/
lemma indentLines_atBreak {rest : List Char} (h : ∀ c ∈ rest.head?, isLineBreak c) (indent : Nat)
    (lineStart : Bool) : indentLines indent lineStart rest = indentLines indent false rest := by
  cases rest with
  | nil => rfl
  | cons c rest => rw [indentLines, indentLines, if_pos (h c rfl), if_pos (h c rfl)]

lemma indentLines_breaks {bs : List Char} (hne : bs ≠ []) (h : ∀ c ∈ bs, isLineBreak c)
    (indent : Nat) (lineStart : Bool) (rest : List Char) :
    indentLines indent lineStart (bs ++ rest) = bs ++ indentLines indent true rest := by
  induction bs generalizing lineStart with
  | nil => exact absurd rfl hne
  | cons c bs ih =>
    rw [List.cons_append, indentLines, if_pos (h c List.mem_cons_self)]
    cases bs with
    | nil => rfl
    | cons d bs =>
      rw [ih (List.cons_ne_nil d bs) (fun a ha => h a (List.mem_cons_of_mem c ha)) true]
      rfl

lemma indentLines_newlines (indent : Nat) (lineStart : Bool) (n : Nat) (rest : List Char) :
    indentLines indent lineStart (List.replicate (n + 1) '\n' ++ rest) =
      List.replicate (n + 1) '\n' ++ indentLines indent true rest := by
  have hall : ∀ c ∈ List.replicate (n + 1) '\n', isLineBreak c := by
    intro c hc
    rw [(List.mem_replicate.mp hc).2]
    rfl
  exact indentLines_breaks (List.cons_ne_nil _ _) hall indent lineStart rest

lemma indentLines_word {w : List Char} (hw : ∀ c ∈ w, isLineBreak c = false) (indent : Nat)
    (rest : List Char) :
    indentLines indent false (w ++ rest) = w ++ indentLines indent false rest := by
  induction w with
  | nil => rfl
  | cons c w ih =>
    rw [List.cons_append, indentLines, hw c List.mem_cons_self, if_neg Bool.false_ne_true,
      ih fun a ha => hw a (List.mem_cons_of_mem c ha)]
    rfl

/-- The separators that end a line are followed by a line break, so no indentation comes between. -/
lemma IsBlockLine.indentLines_append {w rest : List Char} (h : IsBlockLine w)
    (hrest : ∀ c ∈ rest.head?, isLineBreak c) (indent : Nat) :
    indentLines indent false (w ++ rest) = w ++ indentLines indent false rest := by
  obtain @⟨w, separators, -, hw, hseparators⟩ := h
  rw [List.append_assoc, indentLines_word hw, List.append_assoc]
  cases separators with
  | nil => rfl
  | cons c separators =>
    rw [indentLines_breaks (List.cons_ne_nil c separators)
      (fun c hc => isLineBreak_of_isUnicodeBreak (hseparators c hc)), indentLines_atBreak hrest]

lemma length_le_indentLines (indent : Nat) (lineStart : Bool) (cs : List Char) :
    cs.length ≤ (indentLines indent lineStart cs).length := by
  induction cs generalizing lineStart with
  | nil => exact Nat.le_refl 0
  | cons c cs ih =>
    rw [indentLines]
    split
    · exact Nat.succ_le_succ (ih true)
    · rw [List.length_append]
      exact Nat.le_trans (Nat.succ_le_succ (ih false)) (Nat.le_add_left _ _)

lemma indentLines_lineStart {c : Char} (hc : isLineBreak c = false) (indent : Nat)
    (cs : List Char) :
    indentLines indent true (c :: cs) = padding indent ++ indentLines indent false (c :: cs) := by
  rw [indentLines, indentLines, hc]
  rfl

lemma indentLines_inLine {c : Char} (hc : isLineBreak c = false) (indent : Nat)
    (cs : List Char) :
    indentLines indent false (c :: cs) = c :: indentLines indent false cs := by
  rw [indentLines, hc]
  rfl

/-- The line break that ends the last line of a text, unless the text does so itself. -/
def lastBreak (cs : List Char) : List Char := if cs.getLast? = some '\n' then [] else ['\n']

lemma lastBreak_append {cs : List Char} (hne : cs ≠ []) (front : List Char) :
    lastBreak (front ++ cs) = lastBreak cs := by
  rw [lastBreak, lastBreak, List.getLast?_append, List.getLast?_eq_some_getLast hne]
  rfl

lemma lastBreak_breaks (front : List Char) (n : Nat) :
    lastBreak (front ++ List.replicate (n + 1) '\n') = [] := by
  rw [List.replicate_succ', ← List.append_assoc, lastBreak_append (List.cons_ne_nil _ _)]
  rfl

/-- A text in front of the line breaks that end it. -/
structure IsTrimmed (text : List Char) : Prop where
  ne_nil : text ≠ []
  last   : text.getLast? ≠ some '\n'

lemma IsTrimmed.append {text : List Char} (h : IsTrimmed text) (front : List Char) :
    IsTrimmed (front ++ text) := by
  refine ⟨List.append_ne_nil_of_right_ne_nil front h.ne_nil, ?_⟩
  have hlast := List.getLast?_eq_some_getLast h.ne_nil
  rw [List.getLast?_append, hlast, Option.some_or, ← hlast]
  exact h.last

lemma isTrimmed_of_not_mem {w : List Char} (hne : w ≠ []) (h : '\n' ∉ w) : IsTrimmed w :=
  ⟨hne, fun heq => h (List.mem_of_getLast? heq)⟩

/-- Behind a block the text ends, or the next token stands in a column of less indentation. -/
structure Follows (indent column : Nat) (rest : List Char) : Prop where
  token   : AtToken rest
  outside : rest ≠ [] → column < indent
  atEnd   : rest = [] → column = 0

lemma Follows.isBreak {indent column : Nat} {rest : List Char} (h : Follows indent column rest) :
    ∀ c ∈ rest.head?, isBreak c = false := by
  intro c hc
  have := (h.token c hc).1
  rw [endsWord, Bool.or_eq_false_iff] at this
  exact this.1

lemma Follows.indents {indent column : Nat} {rest : List Char} (h : Follows indent column rest) :
    Indents (some indent) column rest := by
  refine .all (fun hhead => ?_) fun w hw => ?_
  · exact absurd (h.token ' ' hhead).1 (by decide)
  · cases hw
    by_cases hrest : rest = []
    · rw [h.atEnd hrest]
      exact Nat.zero_le _
    · exact Nat.le_of_lt (h.outside hrest)

/-- Behind its last line a block ends. -/
lemma readLines_lastLine {indent : Nat} (hindent : indent ≠ 0) {input : Input}
    (hcolumn : input.column = indent) {w : List Char} (hne : w ≠ [])
    (hw : ∀ c ∈ w, isBreak c = false) {m column : Nat} {rest : List Char}
    (hrest : input.rest = w ++ '\n' :: (List.replicate m '\n' ++ (padding column ++ rest)))
    (h : Follows indent column rest) (hsize : input.rest.length ≤ input.size) (afterWhite : Bool)
    (last empty fuel : Nat) :
    ∃ later, IsLater input column rest later ∧
      readLines true indent afterWhite last empty input (fuel + 1) =
        (⟨List.replicate (last + empty) '\n' ++ w, 1, m⟩, later) := by
  obtain ⟨later, white, hlater, -, hread⟩ := readLines_line hindent hcolumn hne hw hrest h.indents
    h.isBreak hsize afterWhite last empty fuel
  have hstop : later.column ≠ indent ∨ later.rest = [] := by
    rw [hlater.column, hlater.rest]
    by_cases hr : rest = []
    · exact Or.inr hr
    · exact Or.inl (Nat.ne_of_lt (h.outside hr))
  refine ⟨later, hlater, ?_⟩
  rw [hread, readLines_end hstop]
  simp only [List.append_nil]

/-- A line of text is read up to the next one, which stands in the column of the block. -/
lemma readLines_lineBefore {indent : Nat} (hindent : indent ≠ 0) {input : Input}
    (hcolumn : input.column = indent) {w : List Char} (hne : w ≠ [])
    (hw : ∀ c ∈ w, isBreak c = false) {n : Nat} {c : Char} (hc : isBreak c = false)
    {rest : List Char}
    (hrest : input.rest = w ++ '\n' :: (List.replicate n '\n' ++ (padding indent ++ c :: rest)))
    (hsize : input.rest.length ≤ input.size) (afterWhite : Bool) (last empty fuel : Nat) :
    ∃ later white, IsLater input indent (c :: rest) later ∧ later.rest.length ≤ later.size ∧
      readLines true indent afterWhite last empty input (fuel + 1) =
        let (content, final) := readLines true indent white 1 n later fuel
        ({ content with text := List.replicate (last + empty) '\n' ++ w ++ content.text },
          final) := by
  have hbreak : ∀ d ∈ (c :: rest).head?, isBreak d = false := by
    rintro _ ⟨⟩
    exact hc
  obtain ⟨later, white, hlater, -, hread⟩ := readLines_line hindent hcolumn hne hw hrest
    (.limit rfl) hbreak hsize afterWhite last empty fuel
  refine ⟨later, white, hlater, ?_, hread⟩
  rw [hlater.rest, hlater.size]
  rw [hrest] at hsize
  simp only [List.length_append, List.length_cons, List.length_replicate, padding] at hsize ⊢
  omega

/-- The first line of a block is a row of other characters, and the separators behind them. -/
lemma IsBlock.isBlockLine {w rest : List Char} (h : IsBlock (w ++ rest)) (hne : w ≠ [])
    (hnot : '\n' ∉ w) : IsBlockLine w := by
  have hbreaks : ∀ c ∈ w, isLineBreak c → isUnicodeBreak c := fun c hc hbreak =>
    (h.breaks c (List.mem_append_left rest hc) hbreak).resolve_left fun heq => hnot (heq ▸ hc)
  have hsplit := List.takeWhile_append_dropWhile (p := (!isLineBreak ·)) (l := w)
  have hinLine := (hasNeighbours_of_append h.inLine).1
  rw [← hsplit] at hinLine ⊢
  refine .line (fun hnil => ?_) (fun c hc => ?_) ?_
  · obtain ⟨c, w, rfl⟩ := List.exists_cons_of_ne_nil hne
    have hc := h.isLineBreak_head fun heq => hnot (heq ▸ List.mem_cons_self)
    rw [List.takeWhile_cons_of_pos (by simp [hc])] at hnil
    cases hnil
  · simpa using List.all_eq_true.mp List.all_takeWhile c hc
  · refine all_isUnicodeBreak (hasNeighbours_of_append hinLine).2 (fun c hc => ?_) fun c hc =>
      hbreaks c (List.dropWhile_subset _ hc)
    have hmem := List.dropWhile_subset _ (List.mem_of_head? hc)
    have hhead := List.head?_dropWhile_not (!isLineBreak ·) w
    rw [hc] at hhead
    exact hbreaks c hmem (by simpa using hhead)

lemma IsBlock.of_append {cs ds : List Char} (h : IsBlock (cs ++ ['\n'] ++ ds)) (hne : ds ≠ []) :
    IsBlock ds := by
  obtain ⟨hbreaks, hstart, hinLine, hlast⟩ := h
  refine ⟨fun c hc => hbreaks c (List.mem_append_right _ hc), ?_,
    (hasNeighbours_of_append hinLine).2, ?_⟩
  · rw [List.append_assoc, ← List.cons_append] at hstart
    exact (hasNeighbours_of_append hstart).2
  · rwa [List.getLast?_append, List.getLast?_eq_some_getLast hne, Option.some_or,
      ← List.getLast?_eq_some_getLast hne] at hlast

/-- The first line of a text, and the text behind the line breaks after it. -/
lemma IsBlock.cases {cs : List Char} (h : IsBlock cs) (hne : cs ≠ [])
    (hhead : cs.head? ≠ some '\n') :
    ∃ w, IsTrimmed w ∧ IsBlockLine w ∧
      (cs = w ∨ ∃ n, cs = w ++ List.replicate (n + 1) '\n' ∨
        ∃ c cs', cs = w ++ (List.replicate (n + 1) '\n' ++ c :: cs') ∧ c ≠ '\n' ∧
          IsBlock (c :: cs')) := by
  obtain ⟨w, hnot, hcs⟩ := exists_word '\n' cs
  have hw : w ≠ [] := by
    rintro rfl
    obtain rfl | ⟨n, cs', rfl, -⟩ := hcs
    · exact hne rfl
    · exact hhead rfl
  have hline : IsBlockLine w := by
    obtain ⟨rest, rfl⟩ : ∃ rest, cs = w ++ rest := by
      obtain rfl | ⟨n, cs', rfl, -⟩ := hcs
      · exact ⟨[], (List.append_nil _).symm⟩
      · exact ⟨_, rfl⟩
    exact h.isBlockLine hw hnot
  refine ⟨w, isTrimmed_of_not_mem hw hnot, hline, hcs.imp_right ?_⟩
  rintro ⟨n, cs', rfl, hhead'⟩
  cases cs' with
  | nil => exact ⟨n, Or.inl (by rw [List.append_nil])⟩
  | cons c cs' =>
    refine ⟨n, Or.inr ⟨c, cs', rfl, fun heq => hhead' (by rw [heq]; rfl), ?_⟩⟩
    rw [List.replicate_succ', List.append_assoc, ← List.append_assoc, ← List.append_assoc] at h
    exact h.of_append (List.cons_ne_nil c cs')

/-- The lines of a text are read from their indented lines. The induction is on the text: behind
its first line and the line breaks after that one, the rest of the text is shorter. -/
lemma readLines_indentLines {cs : List Char} (hne : cs ≠ []) (hhead : cs.head? ≠ some '\n')
    (h : IsBlock cs) {indent : Nat} (hindent : indent ≠ 0) {input : Input}
    (hcolumn : input.column = indent) {column : Nat} {rest : List Char}
    (hrest : input.rest =
      indentLines indent false cs ++ (lastBreak cs ++ (padding column ++ rest)))
    (hfollows : Follows indent column rest) (hsize : input.rest.length ≤ input.size)
    (afterWhite : Bool) (last empty : Nat) {fuel : Nat} (hfuel : cs.length ≤ fuel) :
    ∃ text breaks later, cs = text ++ List.replicate breaks '\n' ∧ IsTrimmed text ∧
      IsLater input column rest later ∧
      readLines true indent afterWhite last empty input fuel =
        (⟨List.replicate (last + empty) '\n' ++ text, 1, breaks - 1⟩, later) := by
  obtain ⟨w, hw, hblockLine, hcs⟩ := h.cases hne hhead
  have hbreak := hblockLine.isBreak
  have hpos : 0 < w.length := List.length_pos_of_ne_nil hw.ne_nil
  have hlines (rest : List Char) (hrest : ∀ c ∈ rest.head?, isLineBreak c) :=
    hblockLine.indentLines_append hrest indent
  obtain ⟨fuel, rfl⟩ : ∃ f, fuel = f + 1 := by
    refine ⟨fuel - 1, ?_⟩
    have := List.length_pos_of_ne_nil hne
    omega
  obtain rfl | ⟨n, rfl | ⟨c, cs', rfl, hc, hblock⟩⟩ := hcs
  · -- the only line, which the text does not end with a line break
    have hline := hlines [] nofun
    rw [List.append_nil] at hline
    rw [hline, lastBreak, if_neg hw.last] at hrest
    simp only [indentLines, List.append_nil] at hrest
    obtain ⟨later, hlater, hread⟩ := readLines_lastLine hindent hcolumn hw.ne_nil hbreak (m := 0)
      hrest hfollows hsize afterWhite last empty fuel
    exact ⟨cs, 0, later, (List.append_nil cs).symm, hw, hlater, hread⟩
  · -- the last line of text, with the line breaks that the text ends with
    have hline := hlines (List.replicate (n + 1) '\n' ++ []) (by rintro _ ⟨⟩; rfl)
    rw [indentLines_newlines] at hline
    simp only [indentLines, List.append_nil] at hline
    rw [hline, lastBreak_breaks, List.append_assoc] at hrest
    obtain ⟨later, hlater, hread⟩ := readLines_lastLine hindent hcolumn hw.ne_nil hbreak (m := n)
      hrest hfollows hsize afterWhite last empty fuel
    exact ⟨w, n + 1, later, rfl, hw, hlater, hread⟩
  · -- a line in front of further text
    have hcl := hblock.isLineBreak_head hc
    have hcb := isBreak_of_isLineBreak hcl
    have hcons : c :: cs' ≠ [] := List.cons_ne_nil c cs'
    rw [hlines _ (by rintro _ ⟨⟩; rfl), indentLines_newlines,
      lastBreak_append (List.append_ne_nil_of_right_ne_nil _ hcons),
      lastBreak_append hcons, indentLines_lineStart hcl, indentLines_inLine hcl,
      List.replicate_succ] at hrest
    simp only [List.append_assoc] at hrest
    obtain ⟨later, white, hlater, hroom, hread⟩ := readLines_lineBefore hindent hcolumn hw.ne_nil
      hbreak hcb hrest hsize afterWhite last empty fuel
    have hlater' : later.rest = indentLines indent false (c :: cs') ++
        (lastBreak (c :: cs') ++ (padding column ++ rest)) := by
      rw [hlater.rest, indentLines_inLine hcl]
      rfl
    have hhead' : (c :: cs').head? ≠ some '\n' := fun heq => hc (Option.some.inj heq)
    have hfuel' : (c :: cs').length ≤ fuel := by
      simp only [List.length_append, List.length_replicate] at hfuel
      omega
    obtain ⟨text, breaks, final, hcs, htext, hfinal, hread'⟩ :=
      readLines_indentLines hcons hhead' hblock hindent hlater.column hlater' hfollows hroom
        white 1 n hfuel'
    refine ⟨w ++ (List.replicate (n + 1) '\n' ++ text), breaks, final, ?_,
      (htext.append _).append w, hlater.trans hfinal, ?_⟩
    · rw [hcs, List.append_assoc, List.append_assoc]
    · rw [hread, hread']
      simp only [List.append_assoc, Nat.add_comm 1 n]
termination_by cs.length

/-! ### Headers -/

def Chomping.mark : Chomping → List Char
  | .strip => ['-']
  | .clip  => []
  | .keep  => ['+']

lemma Chomping.mark_injective {ch ch' : Chomping} (h : ch.mark = ch'.mark) : ch = ch' := by
  cases ch <;> cases ch' <;> first | rfl | exact absurd h (by decide)

lemma exists_mark (cs : List Char) : ∃ ch : Chomping, ch.mark = Style.chomping cs := by
  unfold Style.chomping
  split
  · split_ifs
    · exact ⟨.strip, rfl⟩
    · exact ⟨.keep, rfl⟩
    · exact ⟨.clip, rfl⟩
  · exact ⟨.strip, rfl⟩

/-- Whether a chomping keeps the given number of line breaks after the last line of text. -/
def Chomping.Keeps : Chomping → Nat → Prop
  | .strip, n => n = 0
  | .clip, n  => n = 1
  | .keep, n  => 0 < n

/--
The chomping of a text keeps the line breaks that end it. A single one is kept by either chomping:
behind a separator the writer takes it for one of several.
-/
lemma keeps_of_chomping {text : List Char} {breaks : Nat} (h : IsTrimmed text)
    (hblock : IsBlock (text ++ List.replicate breaks '\n')) {front : List Char}
    {chomping : Chomping}
    (hmark : chomping.mark = Style.chomping (front ++ (text ++ List.replicate breaks '\n'))) :
    chomping.Keeps breaks := by
  obtain ⟨text, c, rfl⟩ := List.eq_nil_or_concat' text |>.resolve_left h.ne_nil
  have hreverse : (front ++ (text ++ [c] ++ List.replicate breaks '\n')).reverse =
      List.replicate breaks '\n' ++ c :: (text.reverse ++ front.reverse) := by simp
  have hnewline : isLineBreak '\n' = true := rfl
  rw [Style.chomping, hreverse] at hmark
  -- the writer looks at the last two characters
  match breaks with
  | 0 =>
    have hc : isLineBreak c = false := by
      have hlast : (text ++ [c]).getLast? = some c := by simp
      rw [List.replicate_zero, List.append_nil] at hblock
      rw [← Bool.not_eq_true]
      intro hbreak
      rcases hblock.breaks c (List.mem_append_right _ List.mem_cons_self) hbreak with rfl | hunicode
      · exact h.last hlast
      · have hnone := hblock.last
        rw [hlast, Option.any_some, hunicode] at hnone
        cases hnone
    obtain rfl : chomping = .strip :=
      Chomping.mark_injective (hmark.trans (by simp [hc, Chomping.mark]))
    rfl
  | 1 =>
    by_cases hc : isLineBreak c
    · obtain rfl : chomping = .keep := Chomping.mark_injective
        (hmark.trans (by simp [hc, hnewline, List.replicate_succ, Chomping.mark]))
      exact Nat.one_pos
    · obtain rfl : chomping = .clip := Chomping.mark_injective
        (hmark.trans (by simp [hc, hnewline, List.replicate_succ, Chomping.mark]))
      rfl
  | n + 2 =>
    obtain rfl : chomping = .keep := Chomping.mark_injective
      (hmark.trans (by simp [hnewline, List.replicate_succ, Chomping.mark]))
    exact Nat.succ_pos _

lemma chomping_of_breaks (n : Nat) :
    Style.chomping (List.replicate (n + 1) '\n') = Chomping.keep.mark := by
  have hbreak : isLineBreak '\n' = true := rfl
  rw [Style.chomping, List.reverse_replicate]
  cases n <;> simp [hbreak, Chomping.mark, List.replicate_succ]

def hintMark (hint : Bool) : List Char := if hint then ['2'] else []

lemma readHeader_marks {hint : Bool} {chomping : Chomping} {input : Input} {rest : List Char}
    (h : input.rest = hintMark hint ++ chomping.mark ++ '\n' :: rest)
    (hmargin : input.atMargin = false) :
    readHeader input = .ok (⟨chomping, if hint then some 2 else none⟩,
      input.skip (hintMark hint ++ chomping.mark).length) := by
  obtain ⟨_, position, _, size⟩ := input
  cases h
  cases hmargin
  cases hint <;> cases chomping <;> rfl

/-- The line breaks after the last line of a text are those that its chomping keeps. -/
lemma ending_eq {chomping : Chomping} {indent : Nat} {text : List Char} {later : Input}
    {column : Nat} {rest : List Char} {breaks : Nat} (hkeeps : chomping.Keeps breaks)
    (hrest : later.rest = rest) (hcolumn : later.column = column) (h : rest = [] → column = 0) :
    ending chomping indent ⟨text, 1, breaks - 1⟩ later = List.replicate breaks '\n' := by
  have hadded :
      (if later.rest.isEmpty && max indent 1 ≤ later.column then ['\n'] else []) = [] := by
    rw [hrest, hcolumn]
    cases rest with
    | nil => simp [h rfl]
    | cons c rest => rfl
  cases chomping with
  | strip =>
    rw [show breaks = 0 from hkeeps]
    rfl
  | clip =>
    rw [show breaks = 1 from hkeeps]
    show List.replicate 1 '\n' ++ _ = _
    rw [hadded]
    rfl
  | keep =>
    obtain ⟨n, rfl⟩ : ∃ n, breaks = n + 1 := Nat.exists_eq_add_one.mpr hkeeps
    show List.replicate 1 '\n' ++ _ ++ List.replicate (n + 1 - 1) '\n' = _
    rw [hadded]
    rfl

/-! ### Whole scalars -/

lemma exists_breaks (cs : List Char) :
    ∃ n cs', cs = List.replicate n '\n' ++ cs' ∧ cs'.head? ≠ some '\n' := by
  induction cs with
  | nil => exact ⟨0, [], rfl, nofun⟩
  | cons c cs ih =>
    by_cases hc : c = '\n'
    · obtain ⟨n, cs', rfl, h⟩ := ih
      exact ⟨n + 1, cs', by rw [hc]; rfl, h⟩
    · exact ⟨0, c :: cs, rfl, fun heq => hc (Option.some.inj heq)⟩

/-- The part of `readText` behind the header line, where the first line of text stands. -/
def readBlock (literal : Bool) (parent : Int) (header : Header) (line : Nat) (input : Input) :
    Except SyntaxError (String × Input) :=
  let given := header.indent?.map fun n => (max parent 0).toNat + n
  let (empty, widest, input) := skipEmptyLines given 0 0 input (input.size + 1)
  let indent := match given with
    | some n => n
    | none   => max widest (parent + 1).toNat
  if input.rest.isEmpty then
    let text := textAtEnd header.chomping (input.position.line = line) 1 empty
    .ok (String.ofList text, input)
  else if input.column < indent && parent < input.column then
    .error .invalidIndentation
  else
    let (content, input) := readLines literal indent false 0 empty input (input.size + 1)
    .ok (String.ofList (content.text ++ ending header.chomping indent content input), input)

lemma readText_eq_readBlock {input : Input} {rest : List Char} (hrest : input.rest = '\n' :: rest)
    (htab : rest.head? ≠ some '\t') (literal : Bool) (parent : Int) (header : Header) (line : Nat) :
    readText literal parent header line input =
      readBlock literal parent header line input.skipBreak := by
  have hempty : input.rest.isEmpty = false := by rw [hrest]; rfl
  have hpeek : input.skipBreak.peek? ≠ some '\t' := by
    rw [Input.peek?, Input.rest_skipBreak hrest]
    exact htab
  simp only [readText, hempty, Bool.false_eq_true, if_false, hpeek]
  rfl

/-- What stands behind a block, in terms of the indentation of its parent. -/
lemma follows_of_parent {parent : Int} {indent column : Nat} {rest : List Char}
    (hindent : indent = (max parent 0).toNat + 2) (hnext : AtToken rest)
    (hcolumn : rest ≠ [] → column ≤ parent) (hempty : rest = [] → column = 0) :
    Follows indent column rest :=
  ⟨hnext, fun hne => by have := hcolumn hne; omega, hempty⟩

/-- A block of empty lines only. -/
lemma readBlock_breaks {n : Nat} {parent : Int} {indent : Nat}
    (hindent : indent = (max parent 0).toNat + 2) {input : Input} (hmargin : input.column = 0)
    {column : Nat} {rest : List Char}
    (hrest : input.rest = List.replicate (n + 1) '\n' ++ (padding column ++ rest))
    (hnext : AtToken rest) (hcolumn : rest ≠ [] → column ≤ parent) (hempty : rest = [] → column = 0)
    (hsize : input.rest.length ≤ input.size) {line : Nat} (hline : line < input.position.line) :
    ∃ later, IsLater input column rest later ∧
      readBlock true parent ⟨.keep, some 2⟩ line input =
        .ok (String.ofList (List.replicate (n + 1) '\n'), later) := by
  have hfollows := follows_of_parent hindent hnext hcolumn hempty
  have hroom : n + 1 < input.size + 1 := by
    rw [hrest, List.length_append, List.length_replicate] at hsize
    omega
  obtain ⟨later, hskip, hlater⟩ := skipEmptyLines_eq hmargin hrest hfollows.indents
    hfollows.isBreak 0 0 hroom
  refine ⟨later, hlater, ?_⟩
  have hlate : ¬ later.position.line = line := by
    have := hlater.line
    omega
  simp only [readBlock, Option.map_some, ← hindent, hskip, Nat.zero_add]
  -- at the end of the text no line of text is looked for, else none is found in this column
  by_cases hr : rest = []
  · have hsome : later.rest.isEmpty = true := by rw [hlater.rest, hr]; rfl
    simp only [hsome, if_true, hlate, decide_false, textAtEnd, Bool.false_eq_true, if_false]
    rfl
  · have hsome : later.rest.isEmpty = false := by
      rw [hlater.rest]
      exact List.isEmpty_eq_false_iff.mpr hr
    have hout : ¬ parent < (later.column : Int) := by
      rw [hlater.column]
      exact Int.not_lt.mpr (hcolumn hr)
    have hstop : later.column ≠ indent ∨ later.rest = [] := by
      rw [hlater.column]
      exact Or.inl (Nat.ne_of_lt (hfollows.outside hr))
    simp only [hsome, hout, decide_false, Bool.and_false, Bool.false_eq_true, if_false,
      readLines_end hstop, ending, List.nil_append, Bool.false_and]
    rfl

/-- The indentation that an indicator gives, or else that of the first line of text. -/
lemma given_or_widest {hint : Bool} {parent : Int} {indent : Nat}
    (hindent : indent = (max parent 0).toNat + 2) :
    (match (if hint then some 2 else none).map fun n => (max parent 0).toNat + n with
      | some n => n
      | none   => max (max 0 indent) (parent + 1).toNat) = indent := by
  cases hint with
  | true => exact hindent.symm
  | false =>
    show max (max 0 indent) (parent + 1).toNat = indent
    omega

/-- A block with a line of text. -/
lemma readBlock_text {n : Nat} {cs : List Char} (hne : cs ≠ []) (hhead : cs.head? ≠ some '\n')
    (h : IsBlock cs) {parent : Int} {indent : Nat}
    (hindent : indent = (max parent 0).toNat + 2) {input : Input} (hmargin : input.column = 0)
    {column : Nat} {rest : List Char}
    (hrest : input.rest = List.replicate n '\n' ++ (padding indent ++
      (indentLines indent false cs ++ (lastBreak cs ++ (padding column ++ rest)))))
    (hfollows : Follows indent column rest) (hsize : input.rest.length ≤ input.size)
    {hint : Bool} (hhint : hint = false → cs.head? ≠ some ' ') {chomping : Chomping}
    (hchomping : chomping.mark = Style.chomping (List.replicate n '\n' ++ cs)) (line : Nat) :
    ∃ later, IsLater input column rest later ∧
      readBlock true parent ⟨chomping, if hint then some 2 else none⟩ line input =
        .ok (String.ofList (List.replicate n '\n' ++ cs), later) := by
  obtain ⟨c, cs', rfl⟩ := List.exists_cons_of_ne_nil hne
  have hc := h.isLineBreak_head fun heq => hhead (by rw [heq]; rfl)
  have hfirst := indentLines_inLine hc indent cs'
  have hroom : n < input.size + 1 := by
    rw [hrest, List.length_append, List.length_replicate] at hsize
    omega
  -- without an indicator the first line shows its indentation: it starts with no space
  have hindents : Indents ((if hint then some 2 else none).map fun n => (max parent 0).toNat + n)
      indent (indentLines indent false (c :: cs') ++ (lastBreak (c :: cs') ++
        (padding column ++ rest))) := by
    cases hint with
    | true => exact .limit (by rw [hindent]; rfl)
    | false => exact .all (hfirst ▸ hhint rfl) nofun
  obtain ⟨later, hskip, hlater⟩ := skipEmptyLines_eq hmargin hrest hindents
    (by rw [hfirst]; rintro _ ⟨⟩; exact isBreak_of_isLineBreak hc) 0 0 hroom
  have hroom' : later.rest.length ≤ later.size := by
    rw [hlater.rest, hlater.size]
    rw [hrest, List.length_append, List.length_append] at hsize
    omega
  -- the indentation only adds characters, so the fuel is enough for the lines
  have hlength : (c :: cs').length ≤ later.size + 1 := by
    have hle := length_le_indentLines indent false (c :: cs')
    rw [hlater.rest, List.length_append] at hroom'
    omega
  obtain ⟨text, breaks, final, hcs, htrimmed, hfinal, hread⟩ :=
    readLines_indentLines hne hhead h (by omega) hlater.column hlater.rest hfollows hroom' false
      0 n hlength
  have hkeeps : chomping.Keeps breaks := by
    rw [hcs] at h hchomping
    exact keeps_of_chomping htrimmed h hchomping
  have hsome : later.rest.isEmpty = false := by
    rw [hlater.rest, hfirst]
    rfl
  have hnot : ¬ later.column < indent := by
    rw [hlater.column]
    exact Nat.lt_irrefl indent
  refine ⟨final, hlater.trans hfinal, ?_⟩
  rw [Nat.zero_add] at hread
  simp only [readBlock, hskip, given_or_widest hindent, hsome, hnot, Bool.false_eq_true, if_false,
    decide_false, Bool.false_and, Nat.zero_add, hread,
    ending_eq hkeeps hfinal.rest hfinal.column hfollows.atEnd]
  rw [hcs, List.append_assoc]

/-- The lines of a written text are read back from behind its header, whether the text is one of
empty lines only or has a line with a character. -/
lemma readBlock_indentLines {cs : List Char} (hne : cs ≠ []) (h : IsBlock cs) {parent : Int}
    {indent : Nat} (hindent : indent = (max parent 0).toNat + 2) {input : Input}
    (hmargin : input.column = 0) {column : Nat} {rest : List Char}
    (hrest : input.rest = indentLines indent true cs ++ (lastBreak cs ++ (padding column ++ rest)))
    (hnext : AtToken rest) (hcolumn : rest ≠ [] → column ≤ parent) (hempty : rest = [] → column = 0)
    (hsize : input.rest.length ≤ input.size) {chomping : Chomping}
    (hchomping : chomping.mark = Style.chomping cs) {line : Nat}
    (hline : line < input.position.line) :
    ∃ later, IsLater input column rest later ∧
      readBlock true parent ⟨chomping, if cs.head?.any Style.isSpacing then some 2 else none⟩ line
        input = .ok (String.ofList cs, later) := by
  -- the indentation is found on the first line that is not empty, if there is one
  obtain ⟨n, cs', rfl, hhead⟩ := exists_breaks cs
  cases cs' with
  | nil =>
    obtain ⟨n, rfl⟩ : ∃ m, n = m + 1 := ⟨n - 1, by cases n <;> simp at hne ⊢⟩
    rw [List.append_nil] at hchomping
    rw [chomping_of_breaks] at hchomping
    have hlines : indentLines indent true (List.replicate (n + 1) '\n') =
        List.replicate (n + 1) '\n' := by
      have := indentLines_newlines indent true n []
      rwa [indentLines, List.append_nil] at this
    have hlast : lastBreak (List.replicate (n + 1) '\n') = [] := lastBreak_breaks [] n
    rw [List.append_nil, hlines, hlast] at hrest
    rw [Chomping.mark_injective hchomping, List.append_nil]
    exact readBlock_breaks hindent hmargin hrest hnext hcolumn hempty hsize hline
  | cons c cs' =>
    have hblock : IsBlock (c :: cs') := by
      cases n with
      | zero => exact h
      | succ n =>
        rw [List.replicate_succ'] at h
        exact h.of_append (List.cons_ne_nil c cs')
    have hc := hblock.isLineBreak_head fun heq => hhead (by rw [heq]; rfl)
    have hlines : indentLines indent true (List.replicate n '\n' ++ c :: cs') =
        List.replicate n '\n' ++ (padding indent ++ indentLines indent false (c :: cs')) := by
      cases n with
      | zero => exact indentLines_lineStart hc indent cs'
      | succ n => rw [indentLines_newlines, indentLines_lineStart hc]
    rw [hlines, lastBreak_append (List.cons_ne_nil c cs'), List.append_assoc,
      List.append_assoc] at hrest
    refine readBlock_text (List.cons_ne_nil c cs') hhead hblock hindent hmargin hrest
      (follows_of_parent hindent hnext hcolumn hempty) hsize (fun hhint hspace => ?_) hchomping line
    cases hspace
    cases n with
    | zero => exact Bool.noConfusion (show true = false from hhint)
    | succ n => exact Bool.noConfusion (show true = false from hhint)

/-- A text that is written as a literal block is read back from it. -/
theorem read_literalText {cs : List Char} (hne : cs ≠ []) (h : IsBlock cs) (htab : '\t' ∉ cs)
    {parent : Int} {indent : Nat} (hindent : indent = (max parent 0).toNat + 2)
    {input : Input} {column : Nat} {rest : List Char}
    (hrest : input.rest =
      Style.literalText indent cs ++ (lastBreak cs ++ (padding column ++ rest)))
    (hnext : AtToken rest) (hcolumn : rest ≠ [] → column ≤ parent) (hempty : rest = [] → column = 0)
    (hsize : input.rest.length ≤ input.size) :
    ∃ later, IsLater input column rest later ∧ input.position.line < later.position.line ∧
      read true parent input = .ok (String.ofList cs, later) := by
  obtain ⟨chomping, hchomping⟩ : ∃ ch : Chomping, ch.mark = Style.chomping cs := exists_mark cs
  have hheader : (input.skip 1).rest =
      hintMark (cs.head?.any Style.isSpacing) ++ chomping.mark ++ '\n' ::
        (indentLines indent true cs ++ (lastBreak cs ++ (padding column ++ rest))) := by
    rw [Input.rest_skip, hrest, Style.literalText, hchomping]
    simp [hintMark]
  have hafter := Input.rest_skip_append hheader
  have hread := readHeader_marks hheader rfl
  rw [Input.skip_skip] at hafter hread
  -- how long the header is does not matter from here on
  generalize 1 + (hintMark (cs.head?.any Style.isSpacing) ++ chomping.mark).length = k
    at hafter hread
  have hpeek : (input.skip k).peek? = some '\n' := by rw [Input.peek?, hafter]; rfl
  have hends : endsLine (some '\n') = true := rfl
  have htab' : (indentLines indent true cs ++ (lastBreak cs ++ (padding column ++ rest))).head? ≠
      some '\t' := by
    obtain ⟨c, cs, rfl⟩ := List.exists_cons_of_ne_nil hne
    rw [indentLines, hindent]
    split
    · exact fun heq => htab (Option.some.inj heq ▸ List.mem_cons_self)
    · rintro ⟨⟩
  simp only [read, hread, Input.skipToToken_eq hafter rfl (by decide), hpeek, hends, if_true,
    readText_eq_readBlock hafter htab']
  have hline : input.position.line < (input.skip k).skipBreak.position.line := Nat.lt_succ_self _
  have hbehind := Input.rest_skipBreak hafter
  have hroom : (input.skip k).skipBreak.rest.length ≤ (input.skip k).skipBreak.size := by
    have hlength := congrArg List.length hafter
    rw [Input.rest_skip, List.length_drop, List.length_cons] at hlength
    rw [hbehind]
    exact Nat.le_trans (by omega) hsize
  obtain ⟨later, hlater, hfound⟩ := readBlock_indentLines hne h hindent rfl hbehind hnext hcolumn
    hempty hroom hchomping hline
  exact ⟨later, ⟨hlater.rest, hlater.column, hlater.size, Nat.le_of_succ_le hlater.line⟩,
    hlater.line, hfound⟩

end Block
end YamlSieve.Yaml
