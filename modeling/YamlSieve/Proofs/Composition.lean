import YamlSieve.Proofs.Result
import YamlSieve.Proofs.Tokenization

/-!
# Composition of filters

A `|` between two bodies composes their filters: the second is evaluated on what the first finds
(`Filter.evaluate_piped`). The `|` may not stand inside a double-quoted word, and neither side may
be empty.
-/

namespace YamlSieve.Filter

variable {a b : String} {ts us : List Token} {d r : Node}

/-- A body with a token in it evaluates to what its items mean. -/
lemma evaluate_quoted_eq_ok_iff (ha : Token.tokenize? a = some ts) (hts : ts ≠ []) :
    evaluate ("'" ++ a ++ "'") d = .ok r ↔ ∃ is, Body is ts ∧ r = Item.evalAll is d := by
  rw [evaluate_eq_ok_iff, Token.tokenize?_quoted ha]
  constructor
  · rintro ⟨_, is, ⟨⟩, hexpression, hr⟩
    exact ⟨is, (Expression.quoted_iff hts).mp hexpression, hr⟩
  · rintro ⟨is, hbody, hr⟩
    exact ⟨_, is, rfl, .body hbody, hr⟩

/-- Two bodies with a `|` between them evaluate to what their items mean one after the other. -/
lemma evaluate_piped_eq_ok_iff (ha : Token.tokenize? a = some ts)
    (hb : Token.tokenize? b = some us) :
    evaluate ("'" ++ (a ++ " | " ++ b) ++ "'") d = .ok r ↔
      ∃ is js, Body is ts ∧ Body js us ∧ r = Item.evalAll js (Item.evalAll is d) := by
  have hne : ts ++ .delim '|' :: us ≠ [] := by simp
  rw [evaluate_quoted_eq_ok_iff (Token.tokenize?_piped ha hb) hne]
  constructor
  · rintro ⟨ks, hbody, rfl⟩
    obtain ⟨is, js, rfl, his, hjs⟩ := Body.append_pipe_iff.mp hbody
    exact ⟨is, js, his, hjs, Item.evalAll_append is js d⟩
  · rintro ⟨is, js, his, hjs, rfl⟩
    exact ⟨is ++ js, his.append_pipe hjs, (Item.evalAll_append is js d).symm⟩

/--
A `|` between two bodies is accepted if both are accepted and neither is empty. It evaluates to
what the second body finds in the result of the first.
-/
theorem evaluate_piped (ha : Even (a.toList.count '"')) (hb : Even (b.toList.count '"'))
    (d : Node) :
    ((∃ r, evaluate ("'" ++ (a ++ " | " ++ b) ++ "'") d = .ok r) ↔
      (∃ t ts, Token.tokenize? a = some (t :: ts)) ∧ (∃ u us, Token.tokenize? b = some (u :: us)) ∧
        (∃ r, evaluate ("'" ++ a ++ "'") d = .ok r) ∧
          ∃ r, evaluate ("'" ++ b ++ "'") d = .ok r) ∧
      ((∃ r, evaluate ("'" ++ (a ++ " | " ++ b) ++ "'") d = .ok r) →
        ∃ r, evaluate ("'" ++ a ++ "'") d = .ok r ∧
          evaluate ("'" ++ (a ++ " | " ++ b) ++ "'") d = evaluate ("'" ++ b ++ "'") r) := by
  obtain ⟨ts, hts⟩ := Option.isSome_iff_exists.mp (Token.tokenize?_isSome_iff.mpr ha)
  obtain ⟨us, hus⟩ := Option.isSome_iff_exists.mp (Token.tokenize?_isSome_iff.mpr hb)
  refine ⟨⟨?_, ?_⟩, ?_⟩
  · rintro ⟨r, hr⟩
    -- the body that the bar cuts in two gives the items of either part
    obtain ⟨is, js, his, hjs, -⟩ := (evaluate_piped_eq_ok_iff hts hus).mp hr
    refine ⟨?_, ?_, ?_, ?_⟩
    · obtain ⟨t, ts, rfl, -⟩ := his.ts_eq_cons
      exact ⟨t, ts, hts⟩
    · obtain ⟨u, us, rfl, -⟩ := hjs.ts_eq_cons
      exact ⟨u, us, hus⟩
    · exact ⟨_, (evaluate_quoted_eq_ok_iff hts his.ts_ne_nil).mpr ⟨is, his, rfl⟩⟩
    · exact ⟨_, (evaluate_quoted_eq_ok_iff hus hjs.ts_ne_nil).mpr ⟨js, hjs, rfl⟩⟩
  · rintro ⟨⟨t, ts, hts⟩, ⟨u, us, hus⟩, ⟨r, hr⟩, ⟨s, hs⟩⟩
    obtain ⟨is, his, -⟩ := (evaluate_quoted_eq_ok_iff hts (List.cons_ne_nil t ts)).mp hr
    obtain ⟨js, hjs, -⟩ := (evaluate_quoted_eq_ok_iff hus (List.cons_ne_nil u us)).mp hs
    exact ⟨_, (evaluate_piped_eq_ok_iff hts hus).mpr ⟨is, js, his, hjs, rfl⟩⟩
  · rintro ⟨r, hr⟩
    obtain ⟨is, js, his, hjs, rfl⟩ := (evaluate_piped_eq_ok_iff hts hus).mp hr
    refine ⟨Item.evalAll is d, ?_, ?_⟩
    · exact (evaluate_quoted_eq_ok_iff hts his.ts_ne_nil).mpr ⟨is, his, rfl⟩
    · rw [hr]
      exact ((evaluate_quoted_eq_ok_iff hus hjs.ts_ne_nil).mpr ⟨js, hjs, rfl⟩).symm

/-- The `|` of `'."x|y" | select(.b == x)'`, which stands behind another one in double quotes. -/
theorem evaluate_piped_select :
    let items : List Node := [.mapping [("b", .string "x")], .mapping [("b", .string "y")]]
    let d : Node := .mapping [("x|y", .sequence items)]
    Even (".\"x|y\"".toList.count '"') ∧ Even ("select(.b == x)".toList.count '"') ∧
      evaluate ("'" ++ (".\"x|y\"" ++ " | " ++ "select(.b == x)") ++ "'") d =
        .ok (.sequence (items.take 1)) ∧
      ∃ r, evaluate ("'" ++ ".\"x|y\"" ++ "'") d = .ok r ∧
        evaluate ("'" ++ (".\"x|y\"" ++ " | " ++ "select(.b == x)") ++ "'") d =
          evaluate ("'" ++ "select(.b == x)" ++ "'") r := by
  intro items d
  have ha : Even (".\"x|y\"".toList.count '"') := by decide
  have hb : Even ("select(.b == x)".toList.count '"') := by decide
  have haccept : evaluate ("'" ++ (".\"x|y\"" ++ " | " ++ "select(.b == x)") ++ "'") d =
      .ok (.sequence (items.take 1)) := rfl
  exact ⟨ha, hb, haccept, (evaluate_piped ha hb d).2 ⟨_, haccept⟩⟩

end YamlSieve.Filter
