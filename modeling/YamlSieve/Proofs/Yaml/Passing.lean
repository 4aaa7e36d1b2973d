import YamlSieve.Yaml.Printer
import YamlSieve.Yaml.Scalar.Plain
import Mathlib.Data.List.Basic
import Mathlib.Tactic.Common

/-!
# Passing characters

What is left of an input after some characters of a line, or after a line break and the indentation
of the next line.
-/

namespace YamlSieve.Yaml

namespace Input

variable {input : Input}

/-! ### Within a line -/

@[simp] lemma rest_skip (n : Nat) : (input.skip n).rest = input.rest.drop n := rfl
@[simp] lemma column_skip (n : Nat) : (input.skip n).column = input.column + n := rfl
@[simp] lemma size_skip (n : Nat) : (input.skip n).size = input.size := rfl
@[simp] lemma atMargin_skip (n : Nat) : (input.skip n).atMargin = false := rfl

lemma skip_skip (m n : Nat) : (input.skip m).skip n = input.skip (m + n) := by
  simp only [skip, passed, column, List.drop_drop, Nat.add_assoc]

lemma skipWhite_skip (n : Nat) : (input.skip n).skipWhite = input.skip (n + 1) := by
  simp only [skipWhite, skip, passed, column, List.drop_drop, Nat.add_assoc]

lemma length_rest_skip_le (n : Nat) : (input.skip n).rest.length ≤ input.rest.length := by
  rw [rest_skip, List.length_drop]
  exact Nat.sub_le _ _

lemma rest_skip_append {cs rest : List Char} (h : input.rest = cs ++ rest) :
    (input.skip cs.length).rest = rest := by
  rw [rest_skip, h, List.drop_left]

/-! ### To the next line -/

/-- Passes a line break and the given columns of the next line. -/
def nextLine (column : Nat) (input : Input) : Input :=
  input.skipBreak.passed column (input.skipBreak.rest.drop column)

lemma rest_skipBreak {rest : List Char} (h : input.rest = '\n' :: rest) :
    input.skipBreak.rest = rest := by
  rw [skipBreak]
  split
  · rename_i heq
    split at heq
    · rename_i h'
      rw [h] at h'
      cases h'
    · rename_i h'
      rw [h] at h'
      cases h'
      cases heq
      rfl
    · rename_i h'
      rw [h] at h'
      cases h'

lemma rest_nextLine {column : Nat} {rest : List Char}
    (h : input.rest = '\n' :: Style.padding column ++ rest) :
    (input.nextLine column).rest = rest := by
  show (input.skipBreak.rest.drop column) = rest
  rw [rest_skipBreak h, Style.padding]
  exact List.drop_left' (by simp)

lemma skipWhite_nextLine (column : Nat) :
    (input.nextLine column).skipWhite = input.nextLine (column + 1) := by
  simp only [skipWhite, nextLine, passed, Input.column, List.drop_drop, Nat.add_assoc]

@[simp] lemma column_nextLine (column : Nat) : (input.nextLine column).column = column := by
  show input.skipBreak.column + column = column
  rw [skipBreak]
  exact Nat.zero_add column

@[simp] lemma atMargin_nextLine (column : Nat) : (input.nextLine column).atMargin = true := rfl

/-! ### Gaps -/

lemma takeWhile_eq_nil_of_endsWord {c : Char} {rest : List Char} (h : isWhite c = false)
    {p : Char → Bool} (hp : ∀ c, p c → isWhite c) : (c :: rest).takeWhile p = [] := by
  rw [List.takeWhile_cons_of_neg]
  exact fun hc => absurd (hp c hc) (by rw [h]; exact Bool.false_ne_true)

/-- There is nothing to pass where no white space and no comment stands. -/
lemma skipToToken_eq {c : Char} {rest : List Char} (h : input.rest = c :: rest)
    (hc : isWhite c = false) (hhash : c ≠ '#') : input.skipToToken = .ok input := by
  have htake : input.rest.takeWhile (fun c => c = ' ' || (true && c = '\t')) = [] := by
    rw [h]
    exact takeWhile_eq_nil_of_endsWord hc fun c hc => by simpa [isWhite] using hc
  have hpeek : input.peek? = some c := by rw [peek?, h]; rfl
  have hsome : ¬ some c = some '#' := fun heq => hhash (Option.some.inj heq)
  have hpassed : input.passed 0 (input.rest.drop 0) = input := rfl
  simp only [skipToToken, skipGap, htake, List.length_nil, hpassed, hpeek, hsome, if_false]
  rfl

end Input

/-! ### Texts -/

/-- A text without line breaks in which spaces are the only white space. -/
def IsLine (cs : List Char) : Prop := ∀ c ∈ cs, isBreak c = false ∧ c ≠ '\t'

lemma IsLine.of_cons {c : Char} {cs : List Char} (h : IsLine (c :: cs)) : IsLine cs :=
  fun d hd => h d (List.mem_cons_of_mem c hd)

/-- A text starts with a row of other characters than a separator, and the separators after it. -/
lemma exists_word (sep : Char) (cs : List Char) :
    ∃ w, sep ∉ w ∧ (cs = w ∨
      ∃ n cs', cs = w ++ (List.replicate (n + 1) sep ++ cs') ∧ cs'.head? ≠ some sep) := by
  have hsplit := List.takeWhile_append_dropWhile (p := (· ≠ sep)) (l := cs)
  refine ⟨cs.takeWhile (· ≠ sep), fun hmem => ?_, ?_⟩
  · have := List.all_takeWhile (p := (· ≠ sep)) (l := cs)
    exact of_decide_eq_true (List.all_eq_true.mp this sep hmem) rfl
  · cases hrest : cs.dropWhile (· ≠ sep) with
    | nil =>
      rw [hrest, List.append_nil] at hsplit
      exact Or.inl hsplit.symm
    | cons d r =>
      -- the first character that is left starts the row of separators
      have hd : d = sep := by
        have := List.head?_dropWhile_not (· ≠ sep) cs
        rw [hrest] at this
        simpa using this
      subst hd
      have hr := List.takeWhile_append_dropWhile (p := (· = d)) (l := r)
      have hrow : r.takeWhile (· = d) = List.replicate (r.takeWhile (· = d)).length d := by
        refine List.eq_replicate_iff.mpr ⟨rfl, fun a ha => ?_⟩
        have := List.all_takeWhile (p := (· = d)) (l := r)
        exact of_decide_eq_true (List.all_eq_true.mp this a ha)
      refine Or.inr ⟨(r.takeWhile (· = d)).length, r.dropWhile (· = d), ?_, ?_⟩
      · rw [List.replicate_succ, List.cons_append, ← hrow, hr, ← hrest, hsplit]
      · have := List.head?_dropWhile_not (· = d) r
        intro hhead
        rw [hhead] at this
        simp at this

/-- The next token starts here, or the text ends. -/
def AtToken (rest : List Char) : Prop :=
  ∀ c ∈ rest.head?, endsWord (some c) = false ∧ c ≠ '#'

end YamlSieve.Yaml
