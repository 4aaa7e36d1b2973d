import YamlSieve.Proofs.Result
import YamlSieve.Proofs.StepLimit
import YamlSieve.Proofs.TokenText

/-!
# The quotes of an expression

An evaluation starts with a look at the first and at the last token. These are single quotes if the
text itself, without the blank characters around it, starts and ends with a single quote
(`Token.isEnclosed_iff`), so an expression is let through or refused for the characters at its ends,
whatever stands between them (`Filter.evaluate_quoting`).
-/

namespace YamlSieve

/-- The list starts and ends with the element, at two places. -/
def IsEnclosed {α : Type*} (a : α) (l : List α) : Prop :=
  2 ≤ l.length ∧ l.head? = some a ∧ l.getLast? = some a

lemma isEnclosed_iff_exists {α : Type*} {a : α} {l : List α} :
    IsEnclosed a l ↔ ∃ mid, l = a :: mid ++ [a] := by
  constructor
  · rintro ⟨hlength, hhead, hlast⟩
    obtain ⟨l, rfl⟩ := List.head?_eq_some_iff.mp hhead
    obtain ⟨init, hinit⟩ := List.getLast?_eq_some_iff.mp hlast
    cases init with
    | nil =>
      rw [hinit] at hlength
      simp at hlength
    | cons b mid =>
      obtain ⟨rfl, -⟩ := List.cons.inj hinit
      exact ⟨mid, hinit⟩
  · rintro ⟨mid, rfl⟩
    exact ⟨by simp, rfl, List.getLast?_concat⟩

/-! ### Trimmed texts -/

namespace Text

/-- A text is its trimming between blank characters, and the trimming has none at its ends. -/
lemma exists_trim (cs : List Char) : ∃ pre post, cs = pre ++ (trim cs ++ post) ∧
    (∀ c ∈ pre, isBlank c = true) ∧ (∀ c ∈ post, isBlank c = true) ∧
    (∀ c, (trim cs).head? = some c → isBlank c = false) ∧
    ∀ c, (trim cs).getLast? = some c → isBlank c = false := by
  have hfirst : ∀ (ds : List Char) {c : Char}, (ds.dropWhile isBlank).head? = some c →
      isBlank c = false := by
    intro ds c hc
    have hhead := List.head?_dropWhile_not isBlank ds
    rw [hc] at hhead
    exact hhead
  obtain ⟨post, hpost, hrest⟩ : ∃ post : List Char, (∀ c ∈ post, isBlank c = true) ∧
      cs.dropWhile isBlank = trim cs ++ post := by
    refine ⟨((cs.dropWhile isBlank).reverse.takeWhile isBlank).reverse, fun c hc => ?_, ?_⟩
    · exact List.mem_takeWhile_imp (List.mem_reverse.mp hc)
    · rw [trim, ← List.reverse_append, List.takeWhile_append_dropWhile, List.reverse_reverse]
  refine ⟨cs.takeWhile isBlank, post, ?_, fun c hc => List.mem_takeWhile_imp hc, hpost,
    fun c hc => hfirst cs ?_, fun c hc => ?_⟩
  · rw [← hrest, List.takeWhile_append_dropWhile]
  · rw [hrest, List.head?_append, hc, Option.some_or]
  · rw [trim, List.getLast?_reverse] at hc
    exact hfirst _ hc

end Text

/-! ### First and last tokens -/

namespace Token

variable {c d : Char} {cs : List Char} {ts : List Token} {text : String}

lemma quote_notMem_of_isBlank (h : ∀ c ∈ cs, Text.isBlank c = true) : '"' ∉ cs :=
  fun hmem => absurd (h _ hmem) (by decide)

/-- The blank characters around a text do not matter for its tokens. -/
lemma readOpen_trim (cs : List Char) : readOpen [] cs = readOpen [] (Text.trim cs) := by
  obtain ⟨pre, post, hcs, hpre, hpost, -⟩ := Text.exists_trim cs
  generalize Text.trim cs = core at hcs
  rw [hcs, readOpen_blank hpre]
  by_cases hnil : post = []
  · rw [hnil, List.append_nil]
  cases hcore : readOpen [] core with
  | some ts =>
    rw [← List.append_nil post, readOpen_append_blank hnil hpost hcore]
    simp [readOpen, ofCollected]
  | none =>
    have hquotes : (core ++ post).count '"' = core.count '"' := by
      rw [List.count_append, List.count_eq_zero_of_not_mem (quote_notMem_of_isBlank hpost),
        Nat.add_zero]
    rw [← Option.not_isSome_iff_eq_none, readOpen_isSome_iff, hquotes, ← readOpen_isSome_iff [],
      hcore]
    exact Bool.false_ne_true

/-- An open word is the first token. -/
lemma readOpen_collected {collected : List Char} (hne : collected ≠ [])
    (h : readOpen collected cs = some ts) : ∃ w us, ts = .word w :: us := by
  have hword : ∀ us, ∃ w vs, ofCollected collected ++ us = .word w :: vs := by
    obtain ⟨c, collected, rfl⟩ := List.exists_cons_of_ne_nil hne
    exact fun us => ⟨_, us, rfl⟩
  induction cs generalizing collected with
  | nil =>
    rw [readOpen, Option.some.injEq] at h
    rw [← h, ← List.append_nil (ofCollected collected)]
    exact hword []
  | cons c cs ih =>
    rw [readOpen] at h
    split_ifs at h with hquote hdelim hblank
    · obtain ⟨us, -, rfl⟩ := Option.map_eq_some_iff.mp h
      exact hword us
    · obtain ⟨us, -, rfl⟩ := Option.map_eq_some_iff.mp h
      exact hword (.delim c :: us)
    · obtain ⟨us, -, rfl⟩ := Option.map_eq_some_iff.mp h
      exact hword us
    · exact ih (List.cons_ne_nil c collected) h fun us => ⟨_, us, rfl⟩

lemma readQuoted_eq_cons {collected : List Char} (h : readQuoted collected cs = some ts) :
    ∃ w us, ts = .word w :: us := by
  induction cs generalizing collected with
  | nil =>
    rw [readQuoted] at h
    cases h
  | cons c cs ih =>
    rw [readQuoted] at h
    split_ifs at h with hquote
    · obtain ⟨us, -, rfl⟩ := Option.map_eq_some_iff.mp h
      exact ⟨_, us, rfl⟩
    · exact ih h

/-- The first token is a delimiter if the first character is this delimiter. -/
lemma readOpen_cons (hc : Text.isBlank c = false) (hd : d ∈ delimiters)
    (h : readOpen [] (c :: cs) = some ts) : ∃ t us, ts = t :: us ∧ (t = .delim d ↔ c = d) := by
  have hword : c ∉ delimiters → (∃ w us, ts = .word w :: us) →
      ∃ t us, ts = t :: us ∧ (t = .delim d ↔ c = d) := by
    rintro hdelim ⟨w, us, rfl⟩
    have hne : c ≠ d := fun h => hdelim (h ▸ hd)
    exact ⟨_, us, rfl, by simp [hne]⟩
  rw [readOpen] at h
  split_ifs at h with hquote hdelim hblank
  · obtain ⟨us, hus, rfl⟩ := Option.map_eq_some_iff.mp h
    exact hword (by rw [hquote]; decide) (readQuoted_eq_cons hus)
  · obtain ⟨us, -, rfl⟩ := Option.map_eq_some_iff.mp h
    exact ⟨_, us, rfl, by simp⟩
  · rw [hc] at hblank
    cases hblank
  · exact hword hdelim (readOpen_collected (List.cons_ne_nil c []) h)

mutual

/-- The last token is a delimiter if the last character is this delimiter. -/
theorem readOpen_concat (hc : Text.isBlank c = false) (hd : d ∈ delimiters) :
    ∀ {collected cs : List Char} {ts : List Token}, readOpen collected (cs ++ [c]) = some ts →
      ∃ us t, ts = us ++ [t] ∧ (t = .delim d ↔ c = d)
  | collected, [], ts, h => by
    rw [List.nil_append, readOpen] at h
    -- an open double quote at the end is refused, and a blank end is excluded by `hc`
    split_ifs at h with hquote hdelim hblank
    · cases h
    · obtain ⟨us, hus, rfl⟩ := Option.map_eq_some_iff.mp h
      obtain rfl : [] = us := Option.some.inj hus
      exact ⟨ofCollected collected, _, rfl, by simp⟩
    · rw [hc] at hblank
      cases hblank
    · obtain rfl : ofCollected (c :: collected) = ts := Option.some.inj h
      have hne : c ≠ d := fun h => hdelim (h ▸ hd)
      exact ⟨[], _, rfl, by simp [hne]⟩
  | collected, b :: cs, ts, h => by
    rw [List.cons_append, readOpen] at h
    split_ifs at h with hquote hdelim hblank
    · obtain ⟨us, hus, rfl⟩ := Option.map_eq_some_iff.mp h
      obtain ⟨us, t, rfl, ht⟩ := readQuoted_concat hc hd hus
      exact ⟨ofCollected collected ++ us, t, by rw [List.append_assoc], ht⟩
    · obtain ⟨us, hus, rfl⟩ := Option.map_eq_some_iff.mp h
      obtain ⟨us, t, rfl, ht⟩ := readOpen_concat hc hd hus
      exact ⟨ofCollected collected ++ delim b :: us, t, by simp, ht⟩
    · obtain ⟨us, hus, rfl⟩ := Option.map_eq_some_iff.mp h
      obtain ⟨us, t, rfl, ht⟩ := readOpen_concat hc hd hus
      exact ⟨ofCollected collected ++ us, t, by rw [List.append_assoc], ht⟩
    · exact readOpen_concat hc hd h

/-- The same behind an opening double quote. -/
theorem readQuoted_concat (hc : Text.isBlank c = false) (hd : d ∈ delimiters) :
    ∀ {collected cs : List Char} {ts : List Token}, readQuoted collected (cs ++ [c]) = some ts →
      ∃ us t, ts = us ++ [t] ∧ (t = .delim d ↔ c = d)
  | collected, [], ts, h => by
    rw [List.nil_append, readQuoted] at h
    split_ifs at h with hquote
    · obtain rfl : [word _] = ts := Option.some.inj h
      have hne : c ≠ d := by
        rintro rfl
        rw [hquote] at hd
        exact absurd hd (by decide)
      exact ⟨[], _, rfl, by simp [hne]⟩
    · cases h
  | collected, b :: cs, ts, h => by
    rw [List.cons_append, readQuoted] at h
    split_ifs at h with hquote
    · obtain ⟨us, hus, rfl⟩ := Option.map_eq_some_iff.mp h
      obtain ⟨us, t, rfl, ht⟩ := readOpen_concat hc hd hus
      exact ⟨word _ :: us, t, rfl, ht⟩
    · exact readQuoted_concat hc hd h

end

lemma head?_readOpen (hcs : ∀ c, cs.head? = some c → Text.isBlank c = false)
    (hd : d ∈ delimiters) (h : readOpen [] cs = some ts) :
    ts.head? = some (.delim d) ↔ cs.head? = some d := by
  cases cs with
  | nil =>
    obtain rfl : [] = ts := Option.some.inj h
    simp
  | cons c cs =>
    obtain ⟨t, us, rfl, ht⟩ := readOpen_cons (hcs c rfl) hd h
    simpa using ht

lemma getLast?_readOpen (hcs : ∀ c, cs.getLast? = some c → Text.isBlank c = false)
    (hd : d ∈ delimiters) (h : readOpen [] cs = some ts) :
    ts.getLast? = some (.delim d) ↔ cs.getLast? = some d := by
  rcases List.eq_nil_or_concat cs with rfl | ⟨init, c, rfl⟩
  · obtain rfl : [] = ts := Option.some.inj h
    simp
  · obtain ⟨us, t, rfl, ht⟩ := readOpen_concat (hcs c (by simp)) hd (by simpa using h)
    simpa using ht

/-- The tokens of a text are enclosed in single quotes if the text is, but for blank characters. -/
theorem isEnclosed_iff (h : tokenize? text = some ts) :
    IsEnclosed (.delim '\'') ts ↔ IsEnclosed '\'' (Text.trim text.toList) := by
  obtain ⟨-, -, -, -, -, hfirst, hlast⟩ := Text.exists_trim text.toList
  rw [tokenize?, readOpen_trim] at h
  generalize Text.trim text.toList = cs at h hfirst hlast
  have hd : '\'' ∈ delimiters := by decide
  have hlength : cs.head? = some '\'' → (2 ≤ ts.length ↔ 2 ≤ cs.length) := by
    intro hhead
    obtain ⟨cs, rfl⟩ := List.head?_eq_some_iff.mp hhead
    rcases List.eq_nil_or_concat cs with rfl | ⟨init, c, rfl⟩
    · obtain rfl : [delim '\''] = ts := Option.some.inj h
      simp
    · rw [List.concat_eq_append] at h hlast
      have hc := hlast c (by rw [← List.cons_append, List.getLast?_concat])
      rw [readOpen, if_neg (by decide), if_pos hd] at h
      obtain ⟨us, hus, rfl⟩ := Option.map_eq_some_iff.mp h
      obtain ⟨us, t, rfl, -⟩ := readOpen_concat hc hd hus
      simp [ofCollected]
  rw [IsEnclosed, IsEnclosed, head?_readOpen hfirst hd h, getLast?_readOpen hlast hd h]
  exact and_congr_left fun hends => hlength hends.1

end Token

/-! ### The start of an evaluation -/

namespace State

variable {c : Cursor} {ts : List Token}

/-- The start lets an expression through if single quotes enclose its tokens. -/
lemma opening_of_isEnclosed (h : IsEnclosed (.delim '\'') ts) :
    (opening c ts).1.phase ≠ .failed := by
  obtain ⟨mid, rfl⟩ := isEnclosed_iff_exists.mp h
  cases mid with
  | nil => simp [opening, phase]
  | cons t mid =>
    rw [List.cons_append, Move.opening_eq c List.getLast?_concat (by simp)]
    simp [phase]

lemma opening_of_not_isEnclosed (h : ¬IsEnclosed (.delim '\'') ts) :
    opening c ts = (failed (if ts.length < 2 then .tooFewArguments else .notQuoted), ts) := by
  match ts with
  | [] | [_] => rfl
  | first :: second :: rest =>
    have hquotes : ¬(first = .delim '\'' ∧ (second :: rest).getLast? = some (.delim '\'')) := by
      rintro ⟨rfl, hlast⟩
      exact h ⟨by simp, rfl, by simpa using hlast⟩
    rw [opening, if_neg hquotes, if_neg (by simp)]

/-- An evaluation that is refused at the start fails for the same reason. -/
lemma run_of_opening {root : Node} {error : FilterError}
    (h : (opening (.borrow root) ts).1 = failed error) :
    run ts (Event.ofTokens ts) root none = .error error := by
  obtain ⟨es, hes, -⟩ := Event.ofTokens_eq_cons ts
  rw [run, runFrom_none, hes, transitions_cons, transition, h, transitions_of_isTerminal rfl]
  rfl

end State

namespace Filter

/--
An expression with an odd number of double quotes is refused for an open one. Any other is let
through at the start if a single quote stands at either end of it, up to blank characters, and is
refused with one of two diagnostics if not.
-/
theorem evaluate_quoting (text : String) (root : Node) :
    (Odd (text.toList.count '"') →
        ∃ error, evaluate text root = .error error ∧ error.kind = .lexical) ∧
      (Even (text.toList.count '"') → ∃ ts es, Token.tokenize? text = some ts ∧
        Event.ofTokens ts = .boundary :: es ∧
        ((State.transition .boundary (.start (.borrow root)) ts).1.phase ≠ .failed ↔
          IsEnclosed '\'' (Text.trim text.toList)) ∧
        (¬IsEnclosed '\'' (Text.trim text.toList) →
          ∃ error, evaluate text root = .error error ∧ error.kind = .grammatical ∧
            error.message = if ts.length < 2 then "too few arguments"
              else "command must be enclosed in single quotes")) := by
  constructor
  · intro hodd
    refine ⟨.unterminatedString, ?_, rfl⟩
    have hnone : Token.tokenize? text = none := by
      rw [← Option.not_isSome_iff_eq_none, Token.tokenize?_isSome_iff]
      exact Nat.not_even_iff_odd.mpr hodd
    rw [evaluate, parse, hnone]
    rfl
  · intro heven
    obtain ⟨ts, hts⟩ := Option.isSome_iff_exists.mp (Token.tokenize?_isSome_iff.mpr heven)
    obtain ⟨es, hes, -⟩ := Event.ofTokens_eq_cons ts
    refine ⟨ts, es, hts, hes, ?_, fun hnot => ?_⟩
    · rw [← Token.isEnclosed_iff hts]
      refine ⟨fun hthrough => ?_, State.opening_of_isEnclosed⟩
      by_contra hnot
      exact hthrough (by rw [State.transition, State.opening_of_not_isEnclosed hnot]; rfl)
    · rw [← Token.isEnclosed_iff hts] at hnot
      -- the run stops in its first step, so its diagnostic is the one of the opening
      have hopening := State.opening_of_not_isEnclosed (c := .borrow root) hnot
      have hrun := State.run_of_opening (congrArg Prod.fst hopening)
      refine ⟨if ts.length < 2 then .tooFewArguments else .notQuoted, ?_, ?_, ?_⟩
      · rw [evaluate_eq_map_run hts, hrun]
        rfl
      · split_ifs <;> rfl
      · split_ifs <;> rfl

/-- A lone single quote, and single quotes in double-quoted words at either end. -/
example (root : Node) :
    evaluate " ' " root = .error .tooFewArguments ∧
      evaluate "\"'\" .a '" root = .error .notQuoted ∧
      evaluate "'.a \"'\"" root = .error .notQuoted := ⟨rfl, rfl, rfl⟩

end Filter
end YamlSieve
