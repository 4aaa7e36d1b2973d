import YamlSieve.Proofs.Session
import YamlSieve.Proofs.Spelling

/-!
# Arguments of calls

The tokens of an argument are cut behind the run of path steps and behind the operator
(`Predicate.Parts`). They are a predicate if one word is left then and the operator is known. All
others are refused, and the parts determine with which diagnostic (`Predicate.Parts.Diagnostic`). A
session reads its argument up to the next closing parenthesis (`Session.readPredicate_and_apply`).
-/

namespace YamlSieve
namespace Predicate

/-! ### The parts of an argument -/

/--
The parts of an argument: the run of path steps that is read from its front, the operator tokens
behind it, as many as there are, and the rest.
-/
structure Parts (ts : List Token) where
  run : List Token
  steps : List PathStep
  operator : List Token
  rest : List Token
  split : ts = run ++ operator ++ rest
  readRun_eq : PathStep.readRun ts = (steps, operator ++ rest)
  isOperator : ∀ t ∈ operator, isOperatorToken t = true
  rest_head : ∀ t, rest.head? = some t → isOperatorToken t = false

/-- Every list of tokens has parts. -/
def parts (ts : List Token) : Parts ts where
  run := ts.take (ts.length - (PathStep.readRun ts).2.length)
  steps := (PathStep.readRun ts).1
  operator := (PathStep.readRun ts).2.takeWhile isOperatorToken
  rest := (PathStep.readRun ts).2.dropWhile isOperatorToken
  split := by
    obtain ⟨run, hsplit, -⟩ := PathStep.readRun_spelled ts
    rw [List.append_assoc, List.takeWhile_append_dropWhile]
    generalize (PathStep.readRun ts).2 = rest at hsplit
    rw [hsplit]
    simp
  readRun_eq := by rw [List.takeWhile_append_dropWhile]
  isOperator := fun t ht => List.mem_takeWhile_imp ht
  rest_head := fun t ht => not_isOperatorToken_of_head? ht

namespace Parts

variable {ts : List Token} (parts : Parts ts)

def operatorText : String := String.join (parts.operator.map Token.text)

/-- The text in the place of the operator, that of the next token where no operator token stands. -/
def givenText : String := Predicate.givenText parts.operator parts.rest

/-- The diagnostic for tokens that are no predicate. -/
inductive Diagnostic : String → Prop
  | tooFew (h : (parts.operator ++ parts.rest).length < 2) : Diagnostic "missing arguments"
  | noOperator (h : 2 ≤ (parts.operator ++ parts.rest).length)
      (htext : parts.givenText ∉ Comparison.texts) :
      Diagnostic ("invalid logical operator '" ++ parts.givenText ++ "'")
  | noLiteral (h : 2 ≤ (parts.operator ++ parts.rest).length)
      (htext : parts.givenText ∈ Comparison.texts) (hrest : ∀ w us, parts.rest ≠ .word w :: us) :
      Diagnostic "missing arguments"
  | tooMany {w : String} {t : Token} {us : List Token} (htext : parts.givenText ∈ Comparison.texts)
      (hrest : parts.rest = .word w :: t :: us) :
      Diagnostic ("unexpected token '" ++ t.text ++ "' in predicate")

lemma read_eq : read ts = readComparison parts.steps (parts.operator ++ parts.rest) := by
  rw [read, parts.readRun_eq]

lemma read_of_le_length (h : 2 ≤ (parts.operator ++ parts.rest).length) :
    read ts = if parts.givenText ∈ Comparison.texts then
        readLiteral parts.steps (.ofText parts.givenText) parts.rest
      else
        (.error (.invalidOperator parts.givenText), parts.operator ++ parts.rest) := by
  rw [read_eq]
  exact readComparison_append parts.isOperator parts.rest_head h

lemma read_of_length_lt (h : (parts.operator ++ parts.rest).length < 2) :
    read ts = (.error .missingArguments, parts.operator ++ parts.rest) := by
  rw [read_eq]
  match parts.operator ++ parts.rest, h with
  | [], _ | [_], _ => rfl

lemma givenText_eq (h : parts.operator ≠ []) : parts.givenText = parts.operatorText := if_neg h

lemma operator_ne_nil (h : parts.operatorText ∈ Comparison.texts) : parts.operator ≠ [] := by
  intro hnil
  rw [operatorText, hnil] at h
  exact absurd h (by decide)

/-- The tokens are a predicate if one word is left behind a known operator. -/
theorem accepted_iff {predicate : Predicate} :
    (read ts).1 = .ok predicate ↔ ∃ literal, ts = parts.run ++ parts.operator ++ [.word literal] ∧
      parts.operatorText ∈ Comparison.texts ∧
      predicate = ⟨parts.steps, .ofText parts.operatorText, literal⟩ := by
  have hrest : ∀ literal, ts = parts.run ++ parts.operator ++ [.word literal] ↔
      parts.rest = [.word literal] := by
    intro literal
    conv_lhs => lhs; rw [parts.split]
    rw [List.append_cancel_left_eq]
  simp only [hrest]
  constructor
  · intro h
    by_cases hlength : (parts.operator ++ parts.rest).length < 2
    · rw [parts.read_of_length_lt hlength] at h
      cases h
    · rw [parts.read_of_le_length (not_lt.mp hlength)] at h
      split_ifs at h with hknown
      obtain ⟨literal, hliteral, rfl⟩ := readLiteral_eq_ok_iff.mp h
      -- one word alone is too short to be read as far as its literal
      have hoperator : parts.operator ≠ [] := by
        intro hnil
        simp [hnil, hliteral] at hlength
      rw [parts.givenText_eq hoperator] at hknown ⊢
      exact ⟨literal, hliteral, hknown, rfl⟩
  · rintro ⟨literal, hliteral, hknown, rfl⟩
    have hoperator := parts.operator_ne_nil hknown
    have hlength : 2 ≤ (parts.operator ++ parts.rest).length := by
      have hpos := List.length_pos_of_ne_nil hoperator
      rw [List.length_append, hliteral, List.length_singleton]
      omega
    rw [parts.read_of_le_length hlength, parts.givenText_eq hoperator, if_pos hknown]
    exact readLiteral_eq_ok_iff.mpr ⟨literal, hliteral, rfl⟩

/-- Tokens that are no predicate are refused with the diagnostic of their parts. -/
theorem diagnostic_of_read {e : FilterError} (h : (read ts).1 = .error e) :
    e.kind = .grammatical ∧ parts.Diagnostic e.message := by
  by_cases hlength : (parts.operator ++ parts.rest).length < 2
  · rw [parts.read_of_length_lt hlength] at h
    cases h
    exact ⟨rfl, .tooFew hlength⟩
  · rw [not_lt] at hlength
    rw [parts.read_of_le_length hlength] at h
    split_ifs at h with hknown
    · unfold readLiteral at h
      split at h
      · cases h
      · next hrest =>
        cases h
        exact ⟨rfl, .tooMany hknown hrest⟩
      · next hone hmore =>
        cases h
        refine ⟨rfl, .noLiteral hlength hknown fun w us hrest => ?_⟩
        cases us with
        | nil => exact hone w hrest
        | cons t us => exact hmore w t us hrest
    · cases h
      exact ⟨rfl, .noOperator hlength hknown⟩

end Parts
end Predicate

/-! ### Sessions -/

namespace Session

/-- The tokens up to the next closing parenthesis are the predicate, and `us` come after it. -/
def HasArgument (s : Session) (predicate : Predicate) (us : List Token) : Prop :=
  ∃ argument, s.remaining = argument ++ .delim ')' :: us ∧ .delim ')' ∉ argument ∧
    (new argument).readPredicate.1 = .ok predicate

lemma hasArgument_iff {s : Session} {predicate : Predicate} {us : List Token} :
    s.HasArgument predicate us ↔
      ∃ argument, s.remaining = argument ++ .delim ')' :: us ∧ predicate.Spelled argument := by
  constructor
  · rintro ⟨argument, hsplit, -, hread⟩
    exact ⟨argument, hsplit, Predicate.read_eq_ok_iff.mp hread⟩
  · rintro ⟨argument, hsplit, hspelled⟩
    exact ⟨argument, hsplit, hspelled.close_notMem, Predicate.read_eq_ok_iff.mpr hspelled⟩

lemma apply_of_hasArgument {s : Session} {predicate : Predicate} {us : List Token}
    (h : s.HasArgument predicate us) (cursor : Cursor) :
    s.apply "select" cursor = (.ok (cursor.select predicate), s.leaving (.delim ')' :: us)) := by
  obtain ⟨argument, hsplit, hspelled⟩ := hasArgument_iff.mp h
  have happly : Function.apply "select" cursor s.remaining =
      .ok (cursor.select predicate, .delim ')' :: us) :=
    Function.apply_eq_ok_iff.mpr ⟨rfl, predicate, argument, us, hspelled, hsplit, rfl, rfl⟩
  rw [apply, happly]

lemma hasArgument_of_apply {s : Session} {cursor c : Cursor}
    (h : (s.apply "select" cursor).1 = .ok c) : ∃ predicate us, s.HasArgument predicate us := by
  rw [apply] at h
  split at h
  · next happly =>
    obtain ⟨-, predicate, argument, us, hspelled, hsplit, -⟩ := Function.apply_eq_ok_iff.mp happly
    exact ⟨predicate, us, hasArgument_iff.mpr ⟨argument, hsplit, hspelled⟩⟩
  · cases h

/--
A predicate is read if path, operator and one word are all that remains, and then nothing is left;
otherwise reading fails with the diagnostic of the parts. A call of `select` succeeds if there is a
closing parenthesis and a predicate up to the first one, and then this parenthesis comes next.
-/
theorem readPredicate_and_apply (s : Session) :
    let parts := Predicate.parts s.remaining
    (∀ predicate, s.readPredicate.1 = .ok predicate ↔
        ∃ literal, s.remaining = parts.run ++ parts.operator ++ [.word literal] ∧
          parts.operatorText ∈ Comparison.texts ∧
          predicate = ⟨parts.steps, .ofText parts.operatorText, literal⟩) ∧
      (∀ predicate, s.readPredicate.1 = .ok predicate → s.readPredicate.2.remaining = []) ∧
      (∀ e, s.readPredicate.1 = .error e → e.kind = .grammatical ∧ parts.Diagnostic e.message) ∧
      ∀ cursor,
        ((∃ c, (s.apply "select" cursor).1 = .ok c) ↔
            ∃ predicate us, s.HasArgument predicate us) ∧
          ∀ predicate us, s.HasArgument predicate us →
            (s.apply "select" cursor).1 = .ok (cursor.select predicate) ∧
              (s.apply "select" cursor).2.remaining = .delim ')' :: us := by
  intro parts
  refine ⟨fun predicate => parts.accepted_iff, fun predicate h => ?_,
    fun e h => parts.diagnostic_of_read h, fun cursor => ⟨⟨?_, ?_⟩, fun predicate us h => ?_⟩⟩
  · have hread := (Predicate.read_eq_ok_iff.mp h).read_eq
    rw [readPredicate, hread]
    exact remaining_leaving List.nil_suffix
  · rintro ⟨c, h⟩
    exact hasArgument_of_apply h
  · rintro ⟨predicate, us, h⟩
    exact ⟨_, congrArg Prod.fst (apply_of_hasArgument h cursor)⟩
  · obtain ⟨argument, hsplit, -⟩ := hasArgument_iff.mp h
    rw [apply_of_hasArgument h]
    exact ⟨rfl, remaining_leaving ⟨argument, hsplit.symm⟩⟩

/-- A word that looks like an operator is taken for one, and then for the literal. -/
example :
    (Session.new [.delim '.', .word "a", .word "==", .word "x"]).readPredicate.1 =
      .error (.unexpectedInPredicate (.word "x")) := rfl

end Session
end YamlSieve
