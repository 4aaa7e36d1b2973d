import Mathlib.Data.List.TakeWhile
import YamlSieve.Filter.Call
import YamlSieve.Proofs.PathRun

/-!
# Spelling of predicates and calls

A predicate is spelled by a run of path steps, an operator and a literal, and by nothing else:
`Predicate.read_eq_ok_iff`. A call of `select` takes the tokens up to the next closing
parenthesis, which have to spell a predicate: `Function.apply_eq_ok_iff`. All else fails with one
of a few errors, listed in `Predicate.Refusal` and `Function.Refusal`.
-/

namespace YamlSieve

/-! ### Operators -/

namespace Comparison

/-- The characters of an operator; `invalid` is spelled by nothing. -/
def spelling : Comparison → List Char
  | equal          => ['=', '=']
  | notEqual       => ['!', '=']
  | greater        => ['>']
  | greaterOrEqual => ['>', '=']
  | less           => ['<']
  | lessOrEqual    => ['<', '=']
  | invalid        => []

def tokens (operator : Comparison) : List Token := operator.spelling.map .delim

/-- The texts of the operators. -/
def texts : List String := ["==", "!=", ">", ">=", "<", "<="]

lemma ofText_eq_invalid_iff {text : String} : ofText text = invalid ↔ text ∉ texts := by
  unfold ofText
  split_ifs <;> simp_all [texts]

lemma ofText_spelling (operator : Comparison) :
    ofText (String.ofList operator.spelling) = operator := by
  cases operator <;> rfl

lemma spelling_ofText {cs : List Char} (h : ofText (String.ofList cs) ≠ invalid) :
    (ofText (String.ofList cs)).spelling = cs := by
  have chars : ∀ {text : String}, String.ofList cs = text → cs = text.toList := by
    rintro _ rfl
    exact (String.toList_ofList ..).symm
  rw [ofText] at h ⊢
  split_ifs at h ⊢ with h₁ h₂ h₃ h₄ h₅ h₆
  · exact (chars h₁).symm
  · exact (chars h₂).symm
  · exact (chars h₃).symm
  · exact (chars h₄).symm
  · exact (chars h₅).symm
  · exact (chars h₆).symm
  · exact absurd rfl h

lemma isOperatorToken_of_mem_tokens {operator : Comparison} {t : Token}
    (ht : t ∈ operator.tokens) : Predicate.isOperatorToken t := by
  obtain ⟨c, hc, rfl⟩ := List.mem_map.mp ht
  have hchars : ∀ c ∈ operator.spelling, Predicate.isOperatorToken (.delim c) := by
    cases operator <;> simp [spelling, Predicate.isOperatorToken]
  exact hchars c hc

/-- An operator starts with a delimiter that ends every run of path steps. -/
lemma tokens_eq_cons {operator : Comparison} (h : operator ≠ invalid) :
    ∃ c ts, operator.tokens = .delim c :: ts ∧ (Token.delim c).isOfPath = false := by
  cases operator with
  | invalid => exact absurd rfl h
  | _ => exact ⟨_, _, rfl, rfl⟩

lemma join_text_tokens (cs : List Char) :
    String.join ((cs.map Token.delim).map Token.text) = String.ofList cs := by
  rw [← String.toList_inj, String.toList_join, String.toList_ofList, List.map_map,
    List.flatMap_map]
  simp [Token.text]

end Comparison

/-! ### Predicates -/

namespace Predicate

/-- The tokens spell the predicate: a run of path steps, the operator, and the literal. -/
def Spelled (predicate : Predicate) (ts : List Token) : Prop :=
  predicate.operator ≠ .invalid ∧ ∃ run, PathStep.readRun run = (predicate.path, []) ∧
    ts = run ++ predicate.operator.tokens ++ [.word predicate.literal]

/-- Behind the operator tokens at the front stands none. -/
lemma not_isOperatorToken_of_head? {ts : List Token} {t : Token}
    (ht : (ts.dropWhile isOperatorToken).head? = some t) : isOperatorToken t = false := by
  have hhead := List.head?_dropWhile_not isOperatorToken ts
  rw [ht] at hhead
  exact hhead

lemma delims_of_isOperatorToken (ts : List Token) (h : ∀ t ∈ ts, isOperatorToken t) :
    ∃ cs : List Char, ts = cs.map .delim := by
  induction ts with
  | nil => exact ⟨[], rfl⟩
  | cons t ts ih =>
    obtain ⟨cs, rfl⟩ := ih fun u hu => h u (List.mem_cons_of_mem _ hu)
    cases t with
    | delim c => exact ⟨c :: cs, rfl⟩
    | word w => exact absurd (h _ List.mem_cons_self) (by simp [isOperatorToken])

/-- The text in the place of an operator, that of the next token where no operator token stands. -/
def givenText (operator rest : List Token) : String :=
  if operator = [] then
    (rest.head?.map Token.text).getD ""
  else
    String.join (operator.map Token.text)

/-- Two tokens or more behind a path are cut behind the operator, and its text decides. -/
lemma readComparison_append {path : List PathStep} {operator rest : List Token}
    (hoperator : ∀ t ∈ operator, isOperatorToken t = true)
    (hrest : ∀ t, rest.head? = some t → isOperatorToken t = false)
    (hlength : 2 ≤ (operator ++ rest).length) :
    readComparison path (operator ++ rest) =
      if givenText operator rest ∈ Comparison.texts then
        readLiteral path (.ofText (givenText operator rest)) rest
      else
        (.error (.invalidOperator (givenText operator rest)), operator ++ rest) := by
  have hrun : (operator ++ rest).takeWhile isOperatorToken = operator := by
    have hnil : rest.takeWhile isOperatorToken = [] := by
      cases rest with
      | nil => rfl
      | cons t us => simp [hrest t rfl]
    rw [List.takeWhile_append_of_pos hoperator, hnil, List.append_nil]
  have hdrop : (operator ++ rest).drop operator.length = rest := List.drop_left
  obtain ⟨t, u, us, hts⟩ : ∃ t u us, operator ++ rest = t :: u :: us := by
    match operator ++ rest, hlength with
    | t :: u :: us, _ => exact ⟨t, u, us, rfl⟩
  -- without an operator the first token stands for it in the diagnostic
  have htext : (if operator.isEmpty then t.text else String.join (operator.map Token.text)) =
      givenText operator rest := by
    cases operator with
    | nil =>
      obtain rfl : rest = t :: u :: us := hts
      rfl
    | cons => rfl
  rw [hts] at hrun hdrop ⊢
  simp only [readComparison, hrun, htext, hdrop]
  split_ifs with hknown
  · have hvalid := mt Comparison.ofText_eq_invalid_iff.mp (not_not_intro hknown)
    split
    · next hinvalid => exact absurd hinvalid hvalid
    · rfl
  · rw [Comparison.ofText_eq_invalid_iff.mpr hknown]

lemma readLiteral_eq_ok_iff {path : List PathStep} {operator : Comparison} {ts : List Token}
    {predicate : Predicate} :
    (readLiteral path operator ts).1 = .ok predicate ↔
      ∃ literal, ts = [.word literal] ∧ predicate = ⟨path, operator, literal⟩ := by
  unfold readLiteral
  split
  · simp [eq_comm]
  · simp
  · next hone _ =>
    simp only [reduceCtorEq, false_iff, not_exists, not_and]
    exact fun literal h => (hone literal h).elim

lemma readComparison_spelled {path : List PathStep} {operator : Comparison} {literal : String}
    (h : operator ≠ .invalid) :
    readComparison path (operator.tokens ++ [.word literal]) =
      (.ok ⟨path, operator, literal⟩, []) := by
  obtain ⟨c, us, hcons, -⟩ := Comparison.tokens_eq_cons h
  have hlength : 2 ≤ (operator.tokens ++ [Token.word literal]).length := by simp [hcons]
  have htext : givenText operator.tokens [.word literal] = String.ofList operator.spelling := by
    rw [givenText, if_neg (by simp [hcons])]
    exact Comparison.join_text_tokens _
  have hknown : String.ofList operator.spelling ∈ Comparison.texts := by
    by_contra hunknown
    exact h (operator.ofText_spelling.symm.trans (Comparison.ofText_eq_invalid_iff.mpr hunknown))
  rw [readComparison_append (fun t ht => Comparison.isOperatorToken_of_mem_tokens ht)
    (by simp [isOperatorToken]) hlength, htext, if_pos hknown, Comparison.ofText_spelling]
  rfl

/-- Operator and literal are read from nothing but their spelling. -/
lemma spelled_of_readComparison {path : List PathStep} {ts : List Token} {predicate : Predicate}
    (h : (readComparison path ts).1 = .ok predicate) :
    predicate.operator ≠ .invalid ∧ predicate.path = path ∧
      ts = predicate.operator.tokens ++ [.word predicate.literal] := by
  have hlength : 2 ≤ ts.length := by
    match ts with
    | [] | [_] => cases h
    | _ :: _ :: _ => simp
  obtain ⟨operator, rest, rfl, hoperator, hrest⟩ : ∃ operator rest, ts = operator ++ rest ∧
      (∀ t ∈ operator, isOperatorToken t = true) ∧
      ∀ t, rest.head? = some t → isOperatorToken t = false :=
    ⟨_, _, List.takeWhile_append_dropWhile.symm, fun t ht => List.mem_takeWhile_imp ht,
      fun t ht => not_isOperatorToken_of_head? ht⟩
  rw [readComparison_append hoperator hrest hlength] at h
  split_ifs at h with hknown
  obtain ⟨literal, rfl, rfl⟩ := readLiteral_eq_ok_iff.mp h
  obtain ⟨cs, rfl⟩ := delims_of_isOperatorToken operator hoperator
  -- a word in place of the operator would have to be the literal too
  have hcs : cs ≠ [] := by
    rintro rfl
    simp at hlength
  have htext : givenText (cs.map .delim) [.word literal] = String.ofList cs := by
    rw [givenText, if_neg (by simpa using hcs)]
    exact Comparison.join_text_tokens cs
  rw [htext] at hknown ⊢
  have hvalid := mt Comparison.ofText_eq_invalid_iff.mp (not_not_intro hknown)
  refine ⟨hvalid, rfl, ?_⟩
  rw [Comparison.tokens, Comparison.spelling_ofText hvalid]

/-- The spelling of a predicate is read as this predicate, and nothing is left. -/
lemma Spelled.read_eq {ts : List Token} {predicate : Predicate} (h : predicate.Spelled ts) :
    read ts = (.ok predicate, []) := by
  obtain ⟨hvalid, run, hrun, rfl⟩ := h
  obtain ⟨c, us, hcons, hc⟩ := Comparison.tokens_eq_cons hvalid
  have hread := PathStep.readRun_append_delim hc run (us ++ [.word predicate.literal])
  rw [← List.cons_append, ← hcons, hrun, List.nil_append, ← List.append_assoc] at hread
  simp only [read, hread, readComparison_spelled hvalid]

/-- A predicate is read from its spellings and from nothing else. -/
theorem read_eq_ok_iff {ts : List Token} {predicate : Predicate} :
    (read ts).1 = .ok predicate ↔ predicate.Spelled ts := by
  constructor
  · intro h
    obtain ⟨hvalid, hpath, hrest⟩ := spelled_of_readComparison h
    obtain ⟨run, hts, -⟩ := PathStep.readRun_split ts
    obtain ⟨c, us, hcons, hc⟩ := Comparison.tokens_eq_cons hvalid
    refine ⟨hvalid, run, ?_, ?_⟩
    · rw [hrest, hcons, List.cons_append] at hts
      have hrun : PathStep.readRun (run ++ .delim c :: (us ++ [.word predicate.literal])) =
          (predicate.path, [] ++ .delim c :: (us ++ [.word predicate.literal])) := by
        rw [← hts, hpath, ← List.cons_append, ← hcons, List.nil_append, ← hrest]
      exact (PathStep.readRun_append_delim_iff hc).mp hrun
    · rw [List.append_assoc, ← hrest]
      exact hts
  · intro h
    rw [h.read_eq]

/-- What reading a predicate can fail with. -/
inductive Refusal : FilterError → Prop
  | missingArguments : Refusal .missingArguments
  | invalidOperator (text : String) : Refusal (.invalidOperator text)
  | unexpected (token : Token) : Refusal (.unexpectedInPredicate token)

lemma refusal_of_readLiteral {path : List PathStep} {operator : Comparison} {ts : List Token}
    {e : FilterError} (h : (readLiteral path operator ts).1 = .error e) : Refusal e := by
  unfold readLiteral at h
  split at h
  · cases h
  · cases h
    exact .unexpected _
  · cases h
    exact .missingArguments

lemma refusal_of_read {ts : List Token} {e : FilterError} (h : (read ts).1 = .error e) :
    Refusal e := by
  simp only [read] at h
  generalize (PathStep.readRun ts).1 = path, (PathStep.readRun ts).2 = rest at h
  match rest with
  | [] | [_] =>
    cases h
    exact .missingArguments
  | t :: u :: rest =>
    simp only [readComparison] at h
    split at h
    · cases h
      exact .invalidOperator _
    · exact refusal_of_readLiteral h

lemma readLiteral_suffix (path : List PathStep) (operator : Comparison) (ts : List Token) :
    (readLiteral path operator ts).2 <:+ ts := by
  unfold readLiteral
  split
  · exact List.nil_suffix
  · exact List.suffix_cons _ _
  · exact List.suffix_rfl

lemma readComparison_suffix (path : List PathStep) (ts : List Token) :
    (readComparison path ts).2 <:+ ts := by
  unfold readComparison
  split
  · simp only
    split
    · exact List.suffix_rfl
    · exact (readLiteral_suffix _ _ _).trans (List.drop_suffix _ _)
  · exact List.suffix_rfl

/-- Whether a predicate is read or not, tokens are only taken from the front. -/
lemma read_suffix (ts : List Token) : (read ts).2 <:+ ts :=
  (readComparison_suffix _ _).trans (PathStep.readRun_suffix ts)

/-- No token of a predicate is a parenthesis, a quote or a `|`. -/
lemma Spelled.mem {predicate : Predicate} {ts : List Token} (h : predicate.Spelled ts) {t : Token}
    (ht : t ∈ ts) : t.isOfPath ∨ isOperatorToken t := by
  obtain ⟨-, run, hrun, rfl⟩ := h
  rcases List.mem_append.mp ht with ht | ht
  · rcases List.mem_append.mp ht with ht | ht
    · obtain ⟨run', hsplit, hpath⟩ := PathStep.readRun_split run
      rw [hrun, List.append_nil] at hsplit
      exact Or.inl (hpath t (hsplit ▸ ht))
    · exact Or.inr (Comparison.isOperatorToken_of_mem_tokens ht)
  · rw [List.mem_singleton.mp ht]
    exact Or.inl rfl

lemma Spelled.close_notMem {predicate : Predicate} {ts : List Token} (h : predicate.Spelled ts) :
    .delim ')' ∉ ts := by
  intro hmem
  simpa [Token.isOfPath, isOperatorToken] using h.mem hmem

/-- A list of tokens spells at most one predicate. -/
lemma Spelled.unique {p q : Predicate} {ts : List Token} (hp : p.Spelled ts) (hq : q.Spelled ts) :
    p = q :=
  Except.ok.inj ((read_eq_ok_iff.mpr hp).symm.trans (read_eq_ok_iff.mpr hq))

end Predicate

/-! ### Calls -/

namespace Function

lemma ofName_eq_select_iff {name : String} : ofName name = select ↔ name = "select" := by
  simp [ofName]

lemma splitAtClose?_eq_some_iff {ts argument rest : List Token} :
    splitAtClose? ts = some (argument, rest) ↔
      .delim ')' ∉ argument ∧ ts = argument ++ rest ∧ ∃ us, rest = .delim ')' :: us := by
  have hsplit := List.takeWhile_append_dropWhile (p := (· ≠ Token.delim ')')) (l := ts)
  have hhead := List.head?_dropWhile_not (· ≠ Token.delim ')') ts
  rw [splitAtClose?]
  constructor
  · intro h
    split at h
    · simp at h
    · next us hrest =>
      obtain ⟨rfl, rfl⟩ := Prod.mk.inj (Option.some.inj h)
      refine ⟨fun hmem => ?_, hsplit.symm, ?_⟩
      · simpa using List.mem_takeWhile_imp hmem
      · cases hdrop : ts.dropWhile (· ≠ Token.delim ')') with
        | nil => exact absurd hdrop hrest
        | cons t us =>
          rw [hdrop] at hhead
          have ht : decide (t ≠ Token.delim ')') = false := hhead
          exact ⟨us, by simpa using ht⟩
  · rintro ⟨hargument, rfl, us, rfl⟩
    have hall : ∀ t ∈ argument, decide (t ≠ Token.delim ')') = true := by
      intro t ht
      exact decide_eq_true fun h => hargument (h ▸ ht)
    rw [List.dropWhile_append_of_pos hall, List.takeWhile_append_of_pos hall]
    simp

/--
A call succeeds when it is one of `select` and the tokens up to the next closing parenthesis spell
a predicate.
-/
theorem apply_eq_ok_iff {name : String} {cursor cursor' : Cursor} {ts rest : List Token} :
    Function.apply name cursor ts = .ok (cursor', rest) ↔
      name = "select" ∧ ∃ predicate argument us, Predicate.Spelled predicate argument ∧
        ts = argument ++ .delim ')' :: us ∧ rest = .delim ')' :: us ∧
        cursor' = cursor.select predicate := by
  rw [Function.apply]
  constructor
  · intro h
    split at h
    · simp at h
    · next hname =>
      refine ⟨ofName_eq_select_iff.mp hname, ?_⟩
      split at h
      · simp at h
      · next argument rest' hclose =>
        obtain ⟨-, rfl, us, rfl⟩ := splitAtClose?_eq_some_iff.mp hclose
        split at h
        · simp at h
        · next predicate hread =>
          obtain ⟨rfl, rfl⟩ := Prod.mk.inj (Except.ok.inj h)
          exact ⟨predicate, argument, us, Predicate.read_eq_ok_iff.mp hread, rfl, rfl, rfl⟩
  · rintro ⟨rfl, predicate, argument, us, hspelled, rfl, rfl, rfl⟩
    have hclose : splitAtClose? (argument ++ .delim ')' :: us) =
        some (argument, .delim ')' :: us) :=
      splitAtClose?_eq_some_iff.mpr ⟨hspelled.close_notMem, rfl, us, rfl⟩
    have hname : ofName "select" = select := rfl
    simp only [hname, hclose, Predicate.read_eq_ok_iff.mpr hspelled]

lemma suffix_of_apply {name : String} {cursor cursor' : Cursor} {ts rest : List Token}
    (h : Function.apply name cursor ts = .ok (cursor', rest)) : rest <:+ ts := by
  obtain ⟨-, predicate, argument, us, -, rfl, rfl, -⟩ := apply_eq_ok_iff.mp h
  exact List.suffix_append _ _

/-- What calling a function can fail with. -/
inductive Refusal : FilterError → Prop
  | invalidFunction (name : String) : Refusal (.invalidFunction name)
  | unterminatedCall : Refusal .unterminatedCall
  | predicate {e : FilterError} (h : Predicate.Refusal e) : Refusal e

lemma refusal_of_apply {name : String} {cursor : Cursor} {ts : List Token} {e : FilterError}
    (h : Function.apply name cursor ts = .error e) : Refusal e := by
  rw [Function.apply] at h
  split at h
  · cases h
    exact .invalidFunction name
  · split at h
    · cases h
      exact .unterminatedCall
    · split at h
      · next hread =>
        cases h
        exact .predicate (Predicate.refusal_of_read hread)
      · cases h

end Function
end YamlSieve
