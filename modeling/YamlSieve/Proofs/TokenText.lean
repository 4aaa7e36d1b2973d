import Mathlib.Data.List.SplitBy
import YamlSieve.Filter.Expression
import YamlSieve.Proofs.Tokenization

/-!
# Tokens and their texts

The double quotes of a text cut it into segments that stand, by turns, outside and inside of double
quotes. The tokens of the text are those of its segments, one after the other
(`Token.tokenize?_segments`).

Written out with every word in double quotes, tokens are read back as they are, whatever blank
characters stand between them; and every token that is read can be written in this way
(`Token.tokenize?_spell`).
-/

namespace YamlSieve.Token

/-! ### Tokens of segments -/

/-- The characters of which words consist outside of double quotes. -/
def isOfWord (c : Char) : Bool := c ∉ delimiters && !Text.isBlank c

/-- The token that a delimiter or the characters of a word stand for; blank ones stand for none. -/
def ofGroup : List Char → List Token
  | []      => []
  | c :: cs =>
    if c ∈ delimiters then [delim c]
    else if Text.isBlank c then []
    else [word (String.ofList (c :: cs))]

/--
The tokens of a text outside of double quotes. It falls into the longest runs of word characters
and into single other characters.
-/
def ofOpen (cs : List Char) : List Token :=
  (cs.splitBy fun c d => isOfWord c && isOfWord d).flatMap ofGroup

/-- The tokens of segments of which the first, the third, ... are quoted, or all the others. -/
def ofSegments (quoted : Bool) : List (List Char) → List Token
  | []      => []
  | s :: ss => (if quoted then [word (String.ofList s)] else ofOpen s) ++ ofSegments (!quoted) ss

variable {c : Char} {cs ws : List Char} {text : String} {ts us : List Token}

lemma isOfWord_iff : isOfWord c = true ↔ c ∉ delimiters ∧ Text.isBlank c = false := by
  simp [isOfWord]

lemma ofOpen_singleton (c : Char) : ofOpen [c] = ofGroup [c] := by
  simp [ofOpen, List.splitBy, List.splitBy.loop]

/-- Word characters alone are one word, unless there are none. -/
lemma ofOpen_word (hws : ∀ c ∈ ws, isOfWord c = true) : ofOpen ws = ofCollected ws.reverse := by
  cases ws with
  | nil => rfl
  | cons c ws =>
    have hchain : (c :: ws).IsChain fun c d => (isOfWord c && isOfWord d) = true := by
      refine List.Pairwise.isChain (List.pairwise_of_forall_mem_list fun a ha b hb => ?_)
      rw [hws a ha, hws b hb]
      rfl
    have hc := isOfWord_iff.mp (hws c List.mem_cons_self)
    rw [ofOpen, List.splitBy_of_isChain (List.cons_ne_nil c ws) hchain, List.flatMap_singleton,
      ofGroup, if_neg hc.1, if_neg (by simp [hc.2])]
    simp [ofCollected]

/-- A character that belongs to no word cuts a text. -/
lemma ofOpen_append_cons (hws : ∀ c ∈ ws, isOfWord c = true) (hc : isOfWord c = false) :
    ofOpen (ws ++ c :: cs) = ofCollected ws.reverse ++ (ofGroup [c] ++ ofOpen cs) := by
  have hbefore : ∀ x ∈ ws.getLast?, (isOfWord x && isOfWord c) = false := by simp [hc]
  have hbehind : ∀ x ∈ [c].getLast?, ∀ y ∈ cs.head?, (isOfWord x && isOfWord y) = false := by
    simp [hc]
  rw [← ofOpen_word hws, ← ofOpen_singleton, ofOpen, List.splitBy_append_cons _ hbefore,
    ← List.singleton_append, List.splitBy_append hbehind, List.flatMap_append,
    List.flatMap_append]
  rfl

/-! ### Tokens of texts -/

mutual

/-- Behind the characters of an open word, the first segment goes on with them. -/
theorem readOpen_segments : ∀ {collected cs : List Char} {ts : List Token},
    (∀ c ∈ collected, isOfWord c = true) → readOpen collected cs = some ts →
      ts = ofSegments false ((cs.splitOn '"').modifyHead (collected.reverse ++ ·))
  | collected, [], ts, hword, h => by
    rw [readOpen, Option.some.injEq] at h
    have hreverse : ∀ c ∈ collected.reverse, isOfWord c = true := fun c hc =>
      hword c (List.mem_reverse.mp hc)
    simp [ofSegments, ofOpen_word hreverse, ← h]
  | collected, c :: cs, ts, hword, h => by
    have hreverse : ∀ c ∈ collected.reverse, isOfWord c = true := fun c hc =>
      hword c (List.mem_reverse.mp hc)
    obtain ⟨s, ss, hss⟩ := List.exists_cons_of_ne_nil (List.splitOn_ne_nil '"' cs)
    rw [readOpen] at h
    simp only [List.splitOn_cons_eq_if_modifyHead, beq_iff_eq]
    split_ifs at h ⊢ with hquote hdelim hblank
    · obtain ⟨us, hus, rfl⟩ := Option.map_eq_some_iff.mp h
      -- a double quote ends the segment that `collected` belongs to
      rw [readQuoted_segments hus, hss]
      simp [ofSegments, ofOpen_word hreverse]
    · obtain ⟨us, hus, rfl⟩ := Option.map_eq_some_iff.mp h
      -- a delimiter ends the word but stays in the segment, as a group of its own
      have hcut : isOfWord c = false := by simp [isOfWord, hdelim]
      rw [readOpen_segments (by simp) hus, hss]
      simp [ofSegments, ofOpen_append_cons hreverse hcut, ofGroup, hdelim]
    · obtain ⟨us, hus, rfl⟩ := Option.map_eq_some_iff.mp h
      have hcut : isOfWord c = false := by simp [isOfWord, hblank]
      rw [readOpen_segments (by simp) hus, hss]
      simp [ofSegments, ofOpen_append_cons hreverse hcut, ofGroup, hdelim, hblank]
    · have hcollected : ∀ d ∈ c :: collected, isOfWord d = true := by
        intro d hd
        rcases List.mem_cons.mp hd with rfl | hd
        · exact isOfWord_iff.mpr ⟨hdelim, by simpa using hblank⟩
        · exact hword d hd
      rw [readOpen_segments hcollected h, hss]
      simp

/-- The same behind an opening double quote. -/
theorem readQuoted_segments : ∀ {collected cs : List Char} {ts : List Token},
    readQuoted collected cs = some ts →
      ts = ofSegments true ((cs.splitOn '"').modifyHead (collected.reverse ++ ·))
  | collected, [], ts, h => by
    rw [readQuoted] at h
    cases h
  | collected, c :: cs, ts, h => by
    obtain ⟨s, ss, hss⟩ := List.exists_cons_of_ne_nil (List.splitOn_ne_nil '"' cs)
    rw [readQuoted] at h
    simp only [List.splitOn_cons_eq_if_modifyHead, beq_iff_eq]
    split_ifs at h ⊢ with hquote
    · obtain ⟨us, hus, rfl⟩ := Option.map_eq_some_iff.mp h
      rw [readOpen_segments (by simp) hus, hss]
      simp [ofSegments]
    · rw [readQuoted_segments h, hss]
      simp

end

/-- Blank characters in front of a text are no tokens. -/
lemma readOpen_blank (hws : ∀ c ∈ ws, Text.isBlank c = true) (cs : List Char) :
    readOpen [] (ws ++ cs) = readOpen [] cs := by
  induction ws with
  | nil => rfl
  | cons c ws ih =>
    have hc := hws c List.mem_cons_self
    have hquote : c ≠ '"' := by
      rintro rfl
      exact absurd hc (by decide)
    have hdelim : c ∉ delimiters := by
      intro hmem
      have hnone : delimiters.all (fun d => !Text.isBlank d) = true := by decide
      simpa [hc] using List.all_eq_true.mp hnone c hmem
    rw [List.cons_append, readOpen, if_neg hquote, if_neg hdelim, if_pos hc,
      ih fun d hd => hws d (List.mem_cons_of_mem c hd)]
    simp [ofCollected]

/-- Blank characters between two texts separate their tokens. -/
lemma readOpen_append_blank (hne : ws ≠ []) (hws : ∀ c ∈ ws, Text.isBlank c = true)
    (h : readOpen [] cs = some ts) (ds : List Char) :
    readOpen [] (cs ++ (ws ++ ds)) = (readOpen [] ds).map (ts ++ ·) := by
  cases ws with
  | nil => exact absurd rfl hne
  | cons c ws =>
    have hsep := separate_endsWord (Or.inr (hws c List.mem_cons_self)) (ws ++ ds)
    rw [List.cons_append, readOpen_append hsep h, ← List.cons_append, readOpen_blank hws]

/-- The tokens of a text are those of its segments, if it holds an even number of double quotes. -/
lemma tokenize?_eq_ite (text : String) :
    tokenize? text =
      if Even (text.toList.count '"') then some (ofSegments false (text.toList.splitOn '"'))
      else none := by
  split_ifs with heven
  · obtain ⟨ts, hts⟩ := Option.isSome_iff_exists.mp (tokenize?_isSome_iff.mpr heven)
    obtain ⟨s, ss, hss⟩ := List.exists_cons_of_ne_nil (List.splitOn_ne_nil '"' text.toList)
    have hsegments := readOpen_segments (by simp) hts
    rw [hss] at hsegments
    rw [hts, hsegments, hss]
    rfl
  · rw [← Option.not_isSome_iff_eq_none, tokenize?_isSome_iff]
    exact heven

/--
A text with an odd number of double quotes has no tokens, and is refused as a filter. Any other
text has the tokens of its segments between the double quotes. Two texts with blank characters
between them have the tokens of the first and then those of the second.
-/
theorem tokenize?_segments (text : String) :
    (tokenize? text =
        if Even (text.toList.count '"') then some (ofSegments false (text.toList.splitOn '"'))
        else none) ∧
      (∀ error, Filter.parse text = .error error ↔
        Odd (text.toList.count '"') ∧ error = .unterminatedString ∧ error.kind = .lexical) ∧
      ∀ blanks text' : String, Even (text.toList.count '"') → Even (text'.toList.count '"') →
        blanks ≠ "" → (∀ c ∈ blanks.toList, Text.isBlank c = true) →
        ∃ ts us, tokenize? text = some ts ∧ tokenize? text' = some us ∧
          tokenize? (text ++ blanks ++ text') = some (ts ++ us) := by
  refine ⟨tokenize?_eq_ite text, fun error => ?_, fun blanks text' heven heven' hne hblanks => ?_⟩
  · rw [Filter.parse, tokenize?_eq_ite, ← Nat.not_even_iff_odd]
    split_ifs with heven
    · simp [heven]
    · simp only [heven, not_false_eq_true, true_and, Except.error.injEq]
      constructor
      · rintro rfl
        exact ⟨rfl, rfl⟩
      · rintro ⟨rfl, -⟩
        rfl
  · obtain ⟨ts, hts⟩ := Option.isSome_iff_exists.mp (tokenize?_isSome_iff.mpr heven)
    obtain ⟨us, hus⟩ := Option.isSome_iff_exists.mp (tokenize?_isSome_iff.mpr heven')
    refine ⟨ts, us, hts, hus, ?_⟩
    have hblanks' : blanks.toList ≠ [] := by simpa using hne
    have happend := readOpen_append_blank hblanks' hblanks hts text'.toList
    rw [tokenize?] at hus
    rw [tokenize?, String.toList_append, String.toList_append, List.append_assoc, happend, hus]
    rfl

/-- The segments of a text with an empty quoted word, next to which open words end. -/
theorem tokenize?_segments_of_adjacent_quotes :
    let text := ".a\"\"b"
    let blanks := "\u00a0\n"
    let text' := "\"c d\" | e"
    text.toList.splitOn '"' = [['.', 'a'], [], ['b']] ∧ Even (text.toList.count '"') ∧
      Even (text'.toList.count '"') ∧ blanks ≠ "" ∧
      (∀ c ∈ blanks.toList, Text.isBlank c = true) ∧
      tokenize? text = some [.delim '.', .word "a", .word "", .word "b"] ∧
      tokenize? text' = some [.word "c d", .delim '|', .word "e"] ∧
      ∃ ts us, tokenize? text = some ts ∧ tokenize? text' = some us ∧
        tokenize? (text ++ blanks ++ text') = some (ts ++ us) := by
  intro text blanks text'
  have heven : Even (text.toList.count '"') := by decide
  have heven' : Even (text'.toList.count '"') := by decide
  have hne : blanks ≠ "" := by decide
  have hblanks : ∀ c ∈ blanks.toList, Text.isBlank c = true := List.all_eq_true.mp (by decide)
  refine ⟨by decide, heven, heven', hne, hblanks, by decide, by decide, ?_⟩
  exact (tokenize?_segments text).2.2 blanks text' heven heven' hne hblanks

/-! ### Written tokens -/

/-- The token can be written out so that it is read again. -/
def IsWritable : Token → Prop
  | delim c   => c ∈ delimiters
  | word text => '"' ∉ text.toList

instance (t : Token) : Decidable t.IsWritable :=
  match t with
  | delim c   => inferInstanceAs (Decidable (c ∈ delimiters))
  | word text => inferInstanceAs (Decidable ('"' ∉ text.toList))

/-- A token written out, a word in double quotes. -/
def written : Token → List Char
  | delim c   => [c]
  | word text => '"' :: text.toList ++ ['"']

/-- Tokens written out, each behind a text of its own, and a text at the end. -/
def spell (pieces : List (List Char × Token)) (after : List Char) : String :=
  String.ofList (pieces.flatMap (fun (before, t) => before ++ t.written) ++ after)

lemma readOpen_written {t : Token} (ht : t.IsWritable) (cs : List Char) :
    readOpen [] (t.written ++ cs) = (readOpen [] cs).map (t :: ·) := by
  have hempty : readOpen [] [] = some [] := rfl
  cases t with
  | delim c => exact readOpen_append_delim ht hempty cs
  | word text =>
    simp only [written, List.cons_append, List.append_assoc, List.nil_append]
    rw [readOpen, if_pos rfl, readQuoted_append_quote ht, Option.map_map, List.reverse_nil,
      List.nil_append, String.ofList_toList]
    rfl

/-- What was collected of a word is written as it is. -/
lemma ofCollected_isWritable (hcs : '"' ∉ cs) : ∀ t ∈ ofCollected cs, t.IsWritable := by
  cases cs with
  | nil => exact List.forall_mem_nil _
  | cons c cs =>
    refine List.forall_mem_singleton.mpr ?_
    simpa [IsWritable, and_comm] using hcs

mutual

/-- The words that are read hold no double quote. -/
theorem readOpen_isWritable : ∀ {collected cs : List Char} {ts : List Token},
    '"' ∉ collected → readOpen collected cs = some ts → ∀ t ∈ ts, t.IsWritable
  | collected, [], ts, hcollected, h => by
    rw [readOpen, Option.some.injEq] at h
    subst h
    exact ofCollected_isWritable hcollected
  | collected, c :: cs, ts, hcollected, h => by
    rw [readOpen] at h
    split_ifs at h with hquote hdelim hblank
    · obtain ⟨us, hus, rfl⟩ := Option.map_eq_some_iff.mp h
      exact List.forall_mem_append.mpr
        ⟨ofCollected_isWritable hcollected, readQuoted_isWritable List.not_mem_nil hus⟩
    · obtain ⟨us, hus, rfl⟩ := Option.map_eq_some_iff.mp h
      have hbehind := readOpen_isWritable List.not_mem_nil hus
      exact List.forall_mem_append.mpr ⟨ofCollected_isWritable hcollected,
        List.forall_mem_cons.mpr ⟨hdelim, hbehind⟩⟩
    · obtain ⟨us, hus, rfl⟩ := Option.map_eq_some_iff.mp h
      exact List.forall_mem_append.mpr
        ⟨ofCollected_isWritable hcollected, readOpen_isWritable List.not_mem_nil hus⟩
    · have hcons : '"' ∉ c :: collected :=
        List.not_mem_cons_of_ne_of_not_mem (Ne.symm hquote) hcollected
      exact readOpen_isWritable hcons h

/-- The same behind an opening double quote. -/
theorem readQuoted_isWritable : ∀ {collected cs : List Char} {ts : List Token},
    '"' ∉ collected → readQuoted collected cs = some ts → ∀ t ∈ ts, t.IsWritable
  | collected, [], ts, hcollected, h => by
    rw [readQuoted] at h
    cases h
  | collected, c :: cs, ts, hcollected, h => by
    rw [readQuoted] at h
    split_ifs at h with hquote
    · obtain ⟨us, hus, rfl⟩ := Option.map_eq_some_iff.mp h
      refine List.forall_mem_cons.mpr ⟨?_, readOpen_isWritable List.not_mem_nil hus⟩
      simpa [IsWritable] using hcollected
    · have hcons : '"' ∉ c :: collected :=
        List.not_mem_cons_of_ne_of_not_mem (Ne.symm hquote) hcollected
      exact readQuoted_isWritable hcons h

end

/-- Blank characters alone are no tokens. -/
lemma readOpen_of_blank (hcs : ∀ c ∈ cs, Text.isBlank c = true) : readOpen [] cs = some [] := by
  rw [← List.append_nil cs, readOpen_blank hcs]
  rfl

lemma readOpen_spell {pieces : List (List Char × Token)} {after : List Char}
    (hpieces : ∀ p ∈ pieces, (∀ c ∈ p.1, Text.isBlank c = true) ∧ p.2.IsWritable)
    (hafter : ∀ c ∈ after, Text.isBlank c = true) :
    readOpen [] (pieces.flatMap (fun (before, t) => before ++ t.written) ++ after) =
      some (pieces.map Prod.snd) := by
  induction pieces with
  | nil => exact readOpen_of_blank hafter
  | cons p pieces ih =>
    obtain ⟨hbefore, ht⟩ := hpieces p List.mem_cons_self
    rw [List.flatMap_cons, List.append_assoc, List.append_assoc, readOpen_blank hbefore,
      readOpen_written ht, ih fun q hq => hpieces q (List.mem_cons_of_mem p hq)]
    rfl

/--
Tokens whose words hold no double quote are read back from what is written for them, with blank
characters or none in front of each token and at the end. No other tokens are read from any text.
-/
theorem tokenize?_spell :
    (∀ (pieces : List (List Char × Token)) (after : List Char),
        (∀ p ∈ pieces, (∀ c ∈ p.1, Text.isBlank c = true) ∧ p.2.IsWritable) →
        (∀ c ∈ after, Text.isBlank c = true) →
        tokenize? (spell pieces after) = some (pieces.map Prod.snd)) ∧
      ∀ text ts, tokenize? text = some ts → ∀ t ∈ ts, t.IsWritable := by
  refine ⟨fun pieces after hpieces hafter => ?_, fun text ts h => ?_⟩
  · rw [tokenize?, spell, String.toList_ofList]
    exact readOpen_spell hpieces hafter
  · exact readOpen_isWritable List.not_mem_nil h

/-- Words side by side, one of them empty and one that looks like the end of an expression. -/
theorem tokenize?_spell_of_words :
    let pieces : List (List Char × Token) :=
      [([], .delim '.'), ([], .word ""), ([], .word " ') | "), (['\t', '\u2028'], .delim '!')]
    (∀ p ∈ pieces, (∀ c ∈ p.1, Text.isBlank c = true) ∧ p.2.IsWritable) ∧
      (∀ c ∈ ['\n'], Text.isBlank c = true) ∧
      spell pieces ['\n'] = ".\"\"\" ') | \"\t\u2028!\n" ∧
      tokenize? (spell pieces ['\n']) = some (pieces.map Prod.snd) ∧
      ∀ t ∈ pieces.map Prod.snd, t.IsWritable := by
  intro pieces
  have hpieces : ∀ p ∈ pieces, (∀ c ∈ p.1, Text.isBlank c = true) ∧ p.2.IsWritable := by
    simp only [pieces, ← List.all_eq_true]
    decide
  have hafter : ∀ c ∈ ['\n'], Text.isBlank c = true := List.all_eq_true.mp (by decide)
  have htokens := tokenize?_spell.1 pieces ['\n'] hpieces hafter
  exact ⟨hpieces, hafter, by decide, htokens, tokenize?_spell.2 _ _ htokens⟩

end YamlSieve.Token
