import YamlSieve.Proofs.PathRun

/-!
# Path steps and their tokens

The tokens of path steps, one step after the other, with lone dots wherever they like: that is all
a run can consist of (`PathStep.Spelled`). A run is read as far as it goes, so what stands behind it
continues neither the run nor its last step (`PathStep.Ends`). These two say what is read from the
front of a token list, and that only one run stands there: `PathStep.readRun_eq_iff`.
-/

namespace YamlSieve.PathStep

variable {steps : List PathStep} {ts us rest : List Token}

/--
The tokens are those of the steps in order, with lone dots among them. The tokens of every step
start with a dot, and so does each run but the empty one, so that no key follows a lone dot.
-/
inductive Spelled : List PathStep → List Token → Prop
  | nil : Spelled [] []
  | step (step : PathStep) {steps : List PathStep} {ts : List Token} (h : Spelled steps ts) :
      Spelled (step :: steps) (step.tokens ++ ts)
  | dot {steps : List PathStep} {ts : List Token} (h : Spelled steps ts) :
      Spelled steps (.delim '.' :: ts)

/--
A run ends between the tokens and the rest. No dot follows; no word follows a lone dot, which would
make a key of it; and brackets follow neither a lone dot nor a key, only the brackets of a step.
-/
structure Ends (ts rest : List Token) : Prop where
  dot : ∀ us, rest ≠ .delim '.' :: us
  word : ts.getLast? = some (.delim '.') → ∀ k us, rest ≠ .word k :: us
  brackets : ∀ t, ts.getLast? = some t → t ≠ .delim ']' →
    ∀ us, rest ≠ .delim '[' :: .delim ']' :: us

/-! ### Where a run ends -/

namespace Ends

lemma of_append (us : List Token) (h : Ends (us ++ ts) rest) : Ends ts rest := by
  cases ts with
  | nil => exact ⟨h.dot, by simp, by simp⟩
  | cons t ts =>
    have hlast : (us ++ t :: ts).getLast? = (t :: ts).getLast? :=
      List.getLast?_append_of_ne_nil us (List.cons_ne_nil t ts)
    exact ⟨h.dot, hlast ▸ h.word, hlast ▸ h.brackets⟩

/-- More tokens in front only matter if they are the last ones. -/
lemma append (h : Ends ts rest) (us : List Token) (hnil : ts = [] → Ends us rest) :
    Ends (us ++ ts) rest := by
  cases ts with
  | nil =>
    rw [List.append_nil]
    exact hnil rfl
  | cons t ts =>
    have hlast : (us ++ t :: ts).getLast? = (t :: ts).getLast? :=
      List.getLast?_append_of_ne_nil us (List.cons_ne_nil t ts)
    exact ⟨h.dot, hlast.symm ▸ h.word, hlast.symm ▸ h.brackets⟩

end Ends

/-! ### What is read -/

namespace Spelled

lemma eq_nil_or_dot (h : Spelled steps ts) : ts = [] ∨ ∃ us, ts = .delim '.' :: us := by
  cases h with
  | nil => exact Or.inl rfl
  | step step _ => cases step <;> exact Or.inr ⟨_, rfl⟩
  | dot _ => exact Or.inr ⟨_, rfl⟩

/-- Behind a token other than a closing bracket, a run and its rest do not start with brackets. -/
lemma append_ne_brackets (h : Spelled steps ts) {t : Token} (hends : Ends (t :: ts) rest)
    (ht : t ≠ .delim ']') (vs : List Token) : ts ++ rest ≠ .delim '[' :: .delim ']' :: vs := by
  rcases h.eq_nil_or_dot with rfl | ⟨ts, rfl⟩
  · exact hends.brackets t rfl ht vs
  · simp

lemma append_ne_word (h : Spelled steps ts) (hends : Ends (.delim '.' :: ts) rest) (k : String)
    (vs : List Token) : ts ++ rest ≠ .word k :: vs := by
  rcases h.eq_nil_or_dot with rfl | ⟨ts, rfl⟩
  · exact hends.word rfl k vs
  · simp

/-- A run is read in front of a rest that does not continue it. -/
lemma readRun_append (h : Spelled steps ts) (hends : Ends ts rest) :
    readRun (ts ++ rest) = (steps, rest) := by
  induction h with
  | nil => exact readRun_of_ne_dot hends.dot
  | step step h ih =>
    have hrest := ih (hends.of_append step.tokens)
    rw [List.append_assoc]
    cases step with
    | key k =>
      have hbrackets := h.append_ne_brackets (hends.of_append [.delim '.']) (by simp)
      simp only [tokens, List.cons_append, List.nil_append, readRun.eq_3 k _ hbrackets, hrest]
    | flattenKey k | flatten =>
      simp only [tokens, List.cons_append, List.nil_append, readRun, hrest]
  | dot h ih =>
    have hword := h.append_ne_word hends
    have hbrackets := h.append_ne_brackets hends (by simp)
    have hrest := ih (hends.of_append [.delim '.'])
    rw [List.cons_append, readRun.eq_4 _ (fun k _ => hword k _) hbrackets hword, hrest]

/-- The tokens of any steps spell these steps. -/
lemma of_tokens (steps : List PathStep) : Spelled steps (steps.flatMap tokens) := by
  induction steps with
  | nil => exact nil
  | cons step steps ih => exact ih.step step

end Spelled

/-- What is read at the front is a run, and it ends where the reading does. -/
lemma readRun_spelled (ts : List Token) :
    ∃ run, ts = run ++ (readRun ts).2 ∧ Spelled (readRun ts).1 run ∧ Ends run (readRun ts).2 := by
  fun_induction readRun ts with
  | case1 k ts steps rest hread ih =>
    simp only [hread] at ih
    obtain ⟨run, rfl, hspelled, hends⟩ := ih
    exact ⟨_, rfl, hspelled.step (flattenKey k),
      hends.append _ fun _ => ⟨hends.dot, by simp [tokens], by simp [tokens]⟩⟩
  | case2 ts steps rest hread ih =>
    simp only [hread] at ih
    obtain ⟨run, rfl, hspelled, hends⟩ := ih
    exact ⟨_, rfl, hspelled.step flatten,
      hends.append _ fun _ => ⟨hends.dot, by simp [tokens], by simp [tokens]⟩⟩
  | case3 k ts hbrackets steps rest hread ih =>
    simp only [hread] at ih
    obtain ⟨run, rfl, hspelled, hends⟩ := ih
    refine ⟨_, rfl, hspelled.step (key k), hends.append _ ?_⟩
    rintro rfl
    exact ⟨hends.dot, by simp [tokens], fun _ _ _ => hbrackets⟩
  | case4 ts _ hbrackets hword ih =>
    obtain ⟨run, hts, hspelled, hends⟩ := ih
    refine ⟨.delim '.' :: run, congrArg _ hts, hspelled.dot, hends.append [.delim '.'] ?_⟩
    rintro rfl
    rw [List.nil_append] at hts
    exact ⟨hends.dot, fun _ => hts ▸ hword, fun _ _ _ => hts ▸ hbrackets⟩
  | case5 ts _ _ _ hdot => exact ⟨[], rfl, .nil, hdot, by simp, by simp⟩

/-- The runs at the front of a token list: there is one, and it is what is read. -/
theorem readRun_eq_iff :
    readRun us = (steps, rest) ↔ ∃ ts, us = ts ++ rest ∧ Spelled steps ts ∧ Ends ts rest := by
  constructor
  · intro h
    obtain ⟨ts, hts, hspelled, hends⟩ := readRun_spelled us
    rw [h] at hts hspelled hends
    exact ⟨ts, hts, hspelled, hends⟩
  · rintro ⟨ts, rfl, hspelled, hends⟩
    exact hspelled.readRun_append hends

/-- The tokens of steps end a run, but for a last key in front of brackets. -/
lemma ends_tokens (hdot : ∀ us, rest ≠ .delim '.' :: us)
    (hkey : ∀ k, steps.getLast? = some (key k) → ∀ us, rest ≠ .delim '[' :: .delim ']' :: us) :
    Ends (steps.flatMap tokens) rest := by
  rcases List.eq_nil_or_concat steps with rfl | ⟨init, last, rfl⟩
  · exact ⟨hdot, by simp, by simp⟩
  · rw [List.concat_eq_append] at hkey ⊢
    rw [List.flatMap_append, List.flatMap_singleton]
    cases last with
    | key k => exact ⟨hdot, by simp [tokens], fun _ _ _ => hkey k (by simp)⟩
    | flattenKey k | flatten => exact ⟨hdot, by simp [tokens], by simp [tokens]⟩

end YamlSieve.PathStep
