import YamlSieve.Filter.Expression
import YamlSieve.Proofs.Acceptance

/-!
# Results of filters

A filter without a step limit finds on every document what the items of its expression mean there,
and is rejected on every document if its tokens are no expression (`Filter.apply_eq_ok_iff`).
-/

namespace YamlSieve.Filter

variable {text : String} {filter : Filter} {root r : Node}

lemma parse_eq_ok_iff :
    parse text = .ok filter ↔ ∃ ts, Token.tokenize? text = some ts ∧
      filter = ⟨text, ts, Event.ofTokens ts, none⟩ := by
  rw [parse]
  cases Token.tokenize? text with
  | none => simp
  | some ts => simp [eq_comm]

/-- Without a step limit, an expression is evaluated under the events of its tokens. -/
lemma evaluate_eq_map_run {ts : List Token} (hts : Token.tokenize? text = some ts) (root : Node) :
    evaluate text root = (State.run ts (Event.ofTokens ts) root none).map Cursor.node := by
  rw [evaluate, parse_eq_ok_iff.mpr ⟨ts, hts, rfl⟩]
  rfl

lemma apply_eq_ok_iff (hparse : parse text = .ok filter) :
    filter.apply root = .ok r ↔
      ∃ is, Expression is filter.tokens ∧ r = Item.evalAll is root := by
  obtain ⟨ts, -, rfl⟩ := parse_eq_ok_iff.mp hparse
  have hnode : ∀ is, (Item.applyAll is (.borrow root)).node = Item.evalAll is root :=
    fun is => Item.node_applyAll is (.borrow root)
  simp only [apply]
  constructor
  · intro happly
    cases hrun : State.run ts (Event.ofTokens ts) root none with
    | error error =>
      rw [hrun] at happly
      cases happly
    | ok c =>
      obtain ⟨is, hexpression, rfl⟩ := State.run_eq_ok_iff.mp hrun
      rw [hrun] at happly
      exact ⟨is, hexpression, (Except.ok.inj happly).symm.trans (hnode is)⟩
  · rintro ⟨is, hexpression, rfl⟩
    rw [State.run_eq_ok_iff.mpr ⟨is, hexpression, rfl⟩, ← hnode is]
    rfl

/-- A filter that is accepted on one document finds on all of them what its items mean there. -/
lemma exists_apply_eq_evalAll {root₀ r₀ : Node} (hparse : parse text = .ok filter)
    (haccept : filter.apply root₀ = .ok r₀) :
    ∃ is, ∀ root, filter.apply root = .ok (Item.evalAll is root) := by
  obtain ⟨is, hexpression, -⟩ := (apply_eq_ok_iff hparse).mp haccept
  exact ⟨is, fun root => (apply_eq_ok_iff hparse).mpr ⟨is, hexpression, rfl⟩⟩

/-- What an expression evaluates to is read off its text. -/
lemma evaluate_eq_ok_iff :
    evaluate text root = .ok r ↔ ∃ ts is,
      Token.tokenize? text = some ts ∧ Expression is ts ∧ r = Item.evalAll is root := by
  cases hparse : parse text with
  | error error =>
    have hnone : ∀ ts, Token.tokenize? text ≠ some ts := by
      intro ts hts
      rw [parse_eq_ok_iff.mpr ⟨ts, hts, rfl⟩] at hparse
      cases hparse
    constructor
    · intro h
      rw [evaluate, hparse] at h
      cases h
    · rintro ⟨ts, -, hts, -⟩
      exact absurd hts (hnone ts)
  | ok filter =>
    have hevaluate : evaluate text root = filter.apply root := by
      rw [evaluate, hparse]
      rfl
    rw [hevaluate, apply_eq_ok_iff hparse]
    obtain ⟨ts, hts, rfl⟩ := parse_eq_ok_iff.mp hparse
    constructor
    · rintro ⟨is, h⟩
      exact ⟨ts, is, hts, h⟩
    · rintro ⟨us, is, hus, h⟩
      obtain rfl := Option.some.inj (hts.symm.trans hus)
      exact ⟨is, h⟩

/-- A text whose tokens are no expression is refused on every document. -/
lemma evaluate_of_not_expression {ts : List Token} (hts : Token.tokenize? text = some ts)
    (hno : ∀ is, ¬Expression is ts) (root : Node) :
    ∃ error, evaluate text root = .error error ∧ error.kind = .grammatical := by
  rcases State.run_outcome ts root with ⟨es, c, hmoves⟩ | ⟨error, hrun, hkind⟩
  · obtain ⟨is, hexpression, -⟩ := hmoves.completes
    exact absurd hexpression (hno is)
  · refine ⟨error, ?_, hkind⟩
    rw [evaluate_eq_map_run hts, hrun]
    rfl

/--
A filter that is accepted on one document is accepted on all. It finds there what the items of its
expression mean, one after the other, and its tokens spell no other items.
-/
theorem apply_eq_evalAll {root₀ r₀ : Node} (hparse : parse text = .ok filter)
    (haccept : filter.apply root₀ = .ok r₀) :
    ∃ is, Expression is filter.tokens ∧ (∀ js, Expression js filter.tokens → js = is) ∧
      ∀ root, filter.apply root = .ok (Item.evalAll is root) := by
  obtain ⟨is, hexpression, -⟩ := (apply_eq_ok_iff hparse).mp haccept
  refine ⟨is, hexpression, fun js hjs => hjs.unique hexpression, fun root => ?_⟩
  exact (apply_eq_ok_iff hparse).mpr ⟨is, hexpression, rfl⟩

/-- The filter `'.a[] | select(.b == x)'`, accepted on one document. -/
theorem apply_flatten_select_eq_evalAll :
    let ts : List Token := [.delim '.', .word "a", .delim '[', .delim ']']
    let argument : List Token := [.delim '.', .word "b", .delim '=', .delim '=', .word "x"]
    let call : List Token := .word "select" :: .delim '(' :: argument ++ [.delim ')']
    let events : List Event := [.boundary, .path, .boundary, .call, .call, .close]
    let filter : Filter := ⟨"'.a[] | select(.b == x)'",
      .delim '\'' :: (ts ++ .delim '|' :: call) ++ [.delim '\''], events, none⟩
    let items : List Node := [.mapping [("b", .string "x")], .mapping [("b", .string "y")]]
    parse "'.a[] | select(.b == x)'" = .ok filter ∧
      filter.apply (.mapping [("a", .sequence items)]) = .ok (.sequence (items.take 1)) ∧
      ∀ root, filter.apply root =
        .ok (Item.evalAll [.path [.flattenKey "a"], .select ⟨[.key "b"], .equal, "x"⟩] root) := by
  intro ts argument call events filter items
  have hparse : parse "'.a[] | select(.b == x)'" = .ok filter := rfl
  have haccept : filter.apply (.mapping [("a", .sequence items)]) =
      .ok (.sequence (items.take 1)) := rfl
  have hpath : Item.Spelled (.path [.flattenKey "a"]) ts (.delim '|' :: call) := .path rfl
  have hcall : Item.Spelled (.select ⟨[.key "b"], .equal, "x"⟩) call [] :=
    .select ⟨by decide, [.delim '.', .word "b"], rfl, rfl⟩ []
  have hexpression := Expression.body (.piped hpath (.last hcall))
  obtain ⟨is, -, hunique, happly⟩ := apply_eq_evalAll hparse haccept
  obtain rfl := hunique _ hexpression
  exact ⟨hparse, haccept, happly⟩

end YamlSieve.Filter
