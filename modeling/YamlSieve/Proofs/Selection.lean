import YamlSieve.Proofs.Composition

/-!
# Successive selections

Selections one after the other keep what all of their predicates match, since what one of them
leaves out is nothing that a later one could bring back (`Cursor.keep_keep`). So it does not matter
in which order the predicates stand, and how often each of them (`Item.applyAll_select_congr`).
-/

namespace YamlSieve

/-! ### Tests in turn -/

/-- What passes a test: of a sequence the items that do, any other node as a whole, or nothing. -/
def Cursor.keep (test : Node → Bool) (cursor : Cursor) : Cursor :=
  match cursor.node with
  | .sequence items => own (.sequence (items.filter test))
  | node            => if test node then cursor else absent

namespace Cursor

variable (test test' : Node → Bool) {c : Cursor}

lemma select_eq_keep (predicate : Predicate) : select predicate = keep predicate.holds := rfl

lemma keep_of_sequence {items : List Node} (h : c.node = .sequence items) :
    c.keep test = own (.sequence (items.filter test)) := by
  rw [keep, h]

lemma keep_of_not_isSequence (h : c.node.isSequence = false) :
    c.keep test = if test c.node then c else absent := by
  rw [keep]
  split
  · next items hnode =>
    rw [hnode] at h
    cases h
  · rfl

/-- Nothing stays nothing, whether it passes or not. -/
lemma keep_absent : absent.keep test = absent := by
  rw [keep_of_not_isSequence test rfl, ite_self]

/-- Two tests in turn leave what passes both. -/
theorem keep_keep (c : Cursor) :
    (c.keep test).keep test' = c.keep fun node => test node && test' node := by
  cases hsequence : c.node.isSequence with
  | true =>
    obtain ⟨items, hnode⟩ : ∃ items, c.node = .sequence items := by
      cases hnode : c.node <;> simp_all [Node.isSequence]
    rw [keep_of_sequence _ hnode, keep_of_sequence _ hnode, keep_of_sequence _ rfl,
      List.filter_filter]
    simp only [Bool.and_comm]
  | false =>
    rw [keep_of_not_isSequence test hsequence, keep_of_not_isSequence _ hsequence]
    cases test c.node with
    | true => exact keep_of_not_isSequence test' hsequence
    | false => exact keep_absent test'

end Cursor

/-! ### Selections in turn -/

/-- Selections behind a test leave what passes the test and matches their predicates. -/
lemma Item.applyAll_select (predicates : List Predicate) (test : Node → Bool) (c : Cursor) :
    applyAll (predicates.map select) (c.keep test) =
      c.keep fun node => test node && predicates.all fun predicate => predicate.holds node := by
  induction predicates generalizing test with
  | nil =>
    simp only [List.all_nil, Bool.and_true]
    rfl
  | cons predicate predicates ih =>
    have hfirst : applyAll ((predicate :: predicates).map select) (c.keep test) =
        applyAll (predicates.map select) ((c.keep test).keep predicate.holds) := rfl
    rw [hfirst, Cursor.keep_keep, ih]
    simp only [List.all_cons, Bool.and_assoc]

/-- Selections by the same predicates agree, in whatever order and how often these stand there. -/
theorem Item.applyAll_select_congr (ps qs : List Predicate) (hne : ps ≠ [])
    (h : ∀ p, p ∈ ps ↔ p ∈ qs) (c : Cursor) :
    applyAll (ps.map select) c = applyAll (qs.map select) c := by
  have hkeep : ∀ {ps : List Predicate}, ps ≠ [] → applyAll (ps.map select) c =
      c.keep fun node => ps.all fun predicate => predicate.holds node := by
    rintro ps hne
    obtain ⟨p, ps, rfl⟩ := List.exists_cons_of_ne_nil hne
    exact applyAll_select ps p.holds c
  have hne' : qs ≠ [] := by
    rintro rfl
    obtain ⟨p, ps, rfl⟩ := List.exists_cons_of_ne_nil hne
    exact List.not_mem_nil ((h p).mp List.mem_cons_self)
  rw [hkeep hne, hkeep hne']
  congr 1
  funext node
  rw [Bool.eq_iff_iff, List.all_eq_true, List.all_eq_true]
  exact forall_congr' fun p => by rw [h p]

/-! ### Expressions of selections -/

def Predicate.SpelledBy (predicate : Predicate) (text : String) : Prop :=
  ∃ ts, Token.tokenize? text = some ts ∧ (read ts).1 = .ok predicate

/-- The text of a call of `select`. -/
def Filter.selectText (argument : String) : String := "select(" ++ argument ++ ")"

lemma Predicate.SpelledBy.body {predicate : Predicate} {text : String}
    (h : predicate.SpelledBy text) : ∃ ts, Token.tokenize? (Filter.selectText text) = some ts ∧
      Body [.select predicate] ts := by
  obtain ⟨ts, hts, hread⟩ := h
  have hopen : '(' ∈ Token.delimiters := by decide
  have hclose : ')' ∈ Token.delimiters := by decide
  have hname : Token.readOpen [] ['s', 'e', 'l', 'e', 'c', 't'] = some [.word "select"] := rfl
  have hchars : (Filter.selectText text).toList =
      ['s', 'e', 'l', 'e', 'c', 't'] ++ '(' :: (text.toList ++ ')' :: []) := by
    simp [Filter.selectText]
  refine ⟨_, ?_, .last (.select (Predicate.read_eq_ok_iff.mp hread) [])⟩
  rw [Token.tokenize?, hchars, Token.readOpen_append_delim hopen hname,
    Token.readOpen_append_delim hclose hts]
  rfl

namespace Filter

variable {p q : Predicate} {a b : String}

/-- A call of `select` selects. -/
lemma evaluate_selectText (ha : p.SpelledBy a) (root : Node) :
    evaluate ("'" ++ selectText a ++ "'") root = .ok ((Cursor.borrow root).select p).node := by
  obtain ⟨ts, hts, hbody⟩ := ha.body
  rw [evaluate_quoted_eq_ok_iff hts hbody.ts_ne_nil]
  exact ⟨_, hbody, (Item.node_applyAll [.select p] (.borrow root))⟩

/-- Two calls of `select` with a `|` between them select one after the other. -/
lemma evaluate_selectText_piped (ha : p.SpelledBy a) (hb : q.SpelledBy b) (root : Node) :
    evaluate ("'" ++ (selectText a ++ " | " ++ selectText b) ++ "'") root =
      .ok (((Cursor.borrow root).select p).select q).node := by
  obtain ⟨ts, hts, hbody⟩ := ha.body
  obtain ⟨us, hus, hbody'⟩ := hb.body
  rw [evaluate_piped_eq_ok_iff hts hus]
  exact ⟨_, _, hbody, hbody', Item.node_applyAll [.select p, .select q] (.borrow root)⟩

end Filter

/--
Two selections commute and leave what matches both predicates, of a sequence or as a whole, and a
selection that is repeated leaves the same as a single one. So do they in expressions.
-/
theorem Cursor.select_select (p q : Predicate) (c : Cursor) :
    (c.select p).select q = (c.select q).select p ∧
      (∀ items, c.node = .sequence items → ((c.select p).select q).node =
        .sequence (items.filter fun item => p.holds item && q.holds item)) ∧
      (c.node.isSequence = false → ((c.select p).select q).node =
        if p.holds c.node && q.holds c.node then c.node else .absent) ∧
      (c.select p).select p = c.select p ∧
      ∀ a b, p.SpelledBy a → q.SpelledBy b → ∀ root,
        let both := Filter.selectText a ++ " | " ++ Filter.selectText b
        let swapped := Filter.selectText b ++ " | " ++ Filter.selectText a
        let twice := Filter.selectText a ++ " | " ++ Filter.selectText a
        Filter.evaluate ("'" ++ both ++ "'") root =
            .ok (((Cursor.borrow root).select p).select q).node ∧
          Filter.evaluate ("'" ++ both ++ "'") root =
            Filter.evaluate ("'" ++ swapped ++ "'") root ∧
          Filter.evaluate ("'" ++ twice ++ "'") root =
            Filter.evaluate ("'" ++ Filter.selectText a ++ "'") root := by
  -- a row of selections depends on which predicates stand in it, not on their order or number
  have hcomm : ∀ c : Cursor, (c.select p).select q = (c.select q).select p :=
    Item.applyAll_select_congr [p, q] [q, p] (by simp) (by simp [or_comm])
  have hidem : ∀ c : Cursor, (c.select p).select p = c.select p :=
    Item.applyAll_select_congr [p, p] [p] (by simp) (by simp)
  refine ⟨hcomm c, fun items hnode => ?_, fun hnode => ?_, hidem c, fun a b ha hb root => ?_⟩
  · rw [select_eq_keep, select_eq_keep, keep_keep, keep_of_sequence _ hnode]
    rfl
  · rw [select_eq_keep, select_eq_keep, keep_keep, keep_of_not_isSequence _ hnode]
    split_ifs <;> rfl
  · refine ⟨Filter.evaluate_selectText_piped ha hb root, ?_, ?_⟩
    · rw [Filter.evaluate_selectText_piped ha hb, Filter.evaluate_selectText_piped hb ha, hcomm]
    · rw [Filter.evaluate_selectText_piped ha ha, Filter.evaluate_selectText ha, hidem]

/-- What the first selection leaves out is not brought back by a `!=`. -/
example :
    let root : Node := .mapping [("a", .string "x"), ("b", .string "y")]
    Filter.evaluate "'select(.a == z) | select(.b != z)'" root = .ok .absent := rfl

end YamlSieve
