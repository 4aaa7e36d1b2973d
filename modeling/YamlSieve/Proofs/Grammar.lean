import YamlSieve.Proofs.Spelling

/-!
# The grammar of filter expressions

An expression is a body between single quotes. The body is a sequence of items, each a path or a
call of `select`, with at most one `|` between two of them. A path is as long as it can be, so it
depends on what stands after it which tokens spell it.

A list of tokens is an expression in at most one way (`Expression.unique`), and a body that holds
a `|` splits there into two bodies (`Body.append_pipe_iff`).
-/

namespace YamlSieve

/-- An item of an expression. -/
inductive Item where
  | path (steps : List PathStep)
  | select (predicate : Predicate)
deriving DecidableEq, Repr

/-- The tokens spell the item in front of the given rest. -/
inductive Item.Spelled : Item → List Token → List Token → Prop
  /-- A path starts with a dot, and all that is read there as a run of path steps belongs to it. -/
  | path {ts rest : List Token} {steps : List PathStep}
      (h : PathStep.readRun (.delim '.' :: ts ++ rest) = (steps, rest)) :
      Spelled (.path steps) (.delim '.' :: ts) rest
  /-- A call is a name and a predicate in parentheses. -/
  | select {ts : List Token} {predicate : Predicate} (h : predicate.Spelled ts)
      (rest : List Token) :
      Spelled (.select predicate) (.word "select" :: .delim '(' :: ts ++ [.delim ')']) rest

/-- The tokens between the quotes of an expression, with the items that they spell. -/
inductive Body : List Item → List Token → Prop
  | last {i : Item} {ts : List Token} (h : i.Spelled ts []) : Body [i] ts
  | next {i : Item} {is : List Item} {ts rest : List Token} (h : i.Spelled ts rest)
      (hrest : Body is rest) : Body (i :: is) (ts ++ rest)
  | piped {i : Item} {is : List Item} {ts rest : List Token} (h : i.Spelled ts (.delim '|' :: rest))
      (hrest : Body is rest) : Body (i :: is) (ts ++ .delim '|' :: rest)

/-- The tokens of an expression, with the items that they spell. -/
inductive Expression : List Item → List Token → Prop
  | empty : Expression [] [.delim '\'', .delim '\'']
  | body {is : List Item} {ts : List Token} (h : Body is ts) :
      Expression is (.delim '\'' :: ts ++ [.delim '\''])

/-! ### Items -/

namespace Item.Spelled

variable {i j : Item} {ts us rest : List Token}

/-- In front of a delimiter that is no part of a path, an item does not depend on the rest. -/
lemma append_delim_iff {c : Char} (hc : (Token.delim c).isOfPath = false) (rest us : List Token) :
    i.Spelled ts (rest ++ .delim c :: us) ↔ i.Spelled ts rest := by
  constructor
  · intro h
    cases h with
    | path h =>
      rw [← List.append_assoc] at h
      exact path ((PathStep.readRun_append_delim_iff hc).mp h)
    | select h => exact select h _
  · intro h
    cases h with
    | path h =>
      refine path ?_
      rw [← List.append_assoc]
      exact (PathStep.readRun_append_delim_iff hc).mpr h
    | select h => exact select h _

/-- What is read as a run of path steps behind a dot is a path. -/
lemma of_readRun (ts : List Token) :
    ∃ run, .delim '.' :: ts = run ++ (PathStep.readRun (.delim '.' :: ts)).2 ∧
      (Item.path (PathStep.readRun (.delim '.' :: ts)).1).Spelled run
        (PathStep.readRun (.delim '.' :: ts)).2 := by
  obtain ⟨run, hsplit, -⟩ := PathStep.readRun_split (.delim '.' :: ts)
  cases run with
  | nil => exact absurd hsplit.symm (PathStep.readRun_rest_ne_dot _ ts)
  | cons t run =>
    obtain ⟨rfl, -⟩ := List.cons.inj hsplit
    refine ⟨_, hsplit, path ?_⟩
    rw [← hsplit]

lemma eq_cons (h : i.Spelled ts rest) :
    ∃ t us, ts = t :: us ∧ (t = .delim '.' ∨ t = .word "select") := by
  cases h with
  | path h => exact ⟨_, _, rfl, Or.inl rfl⟩
  | select h => exact ⟨_, _, rfl, Or.inr rfl⟩

/-- No token of an item is a `|`. -/
lemma pipe_notMem (h : i.Spelled ts rest) : .delim '|' ∉ ts := by
  intro hmem
  cases h with
  | path h =>
    obtain ⟨run, hsplit, hpath⟩ := PathStep.readRun_split (.delim '.' :: _ ++ rest)
    rw [h] at hsplit
    have hrun := List.append_cancel_right hsplit
    exact absurd (hpath _ (hrun ▸ hmem)) (by decide)
  | select h =>
    simp only [List.mem_append, List.mem_cons, reduceCtorEq, Token.delim.injEq, Char.reduceEq,
      List.not_mem_nil, or_false, false_or] at hmem
    exact absurd (h.mem hmem) (by decide)

/-- An item at the front of a list that holds a `|` ends before it. -/
lemma split_pipe {vs : List Token} (h : i.Spelled ts rest)
    (heq : us ++ .delim '|' :: vs = ts ++ rest) :
    ∃ ws, us = ts ++ ws ∧ rest = ws ++ .delim '|' :: vs := by
  rcases List.append_eq_append_iff.mp heq with ⟨as, hts, has⟩ | ⟨ws, hus, hrest⟩
  · cases as with
    | nil => exact ⟨[], by simpa using hts.symm, by simpa using has.symm⟩
    | cons a as =>
      obtain ⟨rfl, -⟩ := List.cons.inj has
      exact absurd (hts ▸ by simp) h.pipe_notMem
  · exact ⟨ws, hus, hrest⟩

/-- At most one item stands at the front of a list of tokens, and it ends at one place. -/
lemma unique {rest' : List Token} (hi : i.Spelled ts rest) (hj : j.Spelled us rest')
    (heq : ts ++ rest = us ++ rest') : i = j ∧ rest = rest' := by
  cases hi with
  | path hi =>
    cases hj with
    | path hj =>
      rw [heq, hj] at hi
      obtain ⟨rfl, rfl⟩ := Prod.mk.inj hi
      exact ⟨rfl, rfl⟩
    | select hj => simp at heq
  | @select argument p hp =>
    cases hj with
    | path hj => simp at heq
    | @select argument' q hq =>
      simp only [List.cons_append, List.append_assoc, List.nil_append, List.cons.injEq,
        true_and] at heq
      have hclose : ∀ {p : Predicate} {argument : List Token} (rest : List Token),
          p.Spelled argument → Function.splitAtClose? (argument ++ .delim ')' :: rest) =
            some (argument, .delim ')' :: rest) := by
        intro p argument rest hp
        exact Function.splitAtClose?_eq_some_iff.mpr ⟨hp.close_notMem, rfl, rest, rfl⟩
      have hsplit := hclose rest hp
      rw [heq, hclose rest' hq] at hsplit
      obtain ⟨rfl, hrest⟩ := Prod.mk.inj (Option.some.inj hsplit)
      exact ⟨congrArg Item.select (hp.unique hq), (List.cons.inj hrest).2.symm⟩

end Item.Spelled

/-! ### Bodies -/

namespace Body

variable {i : Item} {is js : List Item} {ts us rest : List Token}

lemma ts_eq_cons (h : Body is ts) :
    ∃ t us, ts = t :: us ∧ (t = .delim '.' ∨ t = .word "select") := by
  cases h with
  | last h => exact h.eq_cons
  | next h _ =>
    obtain ⟨t, us, rfl, ht⟩ := h.eq_cons
    exact ⟨t, _, rfl, ht⟩
  | piped h _ =>
    obtain ⟨t, us, rfl, ht⟩ := h.eq_cons
    exact ⟨t, _, rfl, ht⟩

lemma ts_ne_nil (h : Body is ts) : ts ≠ [] := by
  obtain ⟨t, us, rfl, -⟩ := h.ts_eq_cons
  exact List.cons_ne_nil t us

lemma items_ne_nil (h : Body is ts) : is ≠ [] := by
  cases h <;> exact List.cons_ne_nil _ _

lemma path_eq_cons {steps : List PathStep} (h : Body (.path steps :: is) ts) :
    ∃ us, ts = .delim '.' :: us := by
  have hspelled : ∀ {us rest : List Token}, (Item.path steps).Spelled us rest →
      ∃ vs, us = .delim '.' :: vs := by
    rintro _ _ ⟨⟩
    exact ⟨_, rfl⟩
  cases h with
  | last h => exact hspelled h
  | next h _ | piped h _ =>
    obtain ⟨vs, rfl⟩ := hspelled h
    exact ⟨_, rfl⟩

lemma ts_ne_pipe (h : Body is ts) (us : List Token) : ts ≠ .delim '|' :: us := by
  obtain ⟨t, us', rfl, rfl | rfl⟩ := h.ts_eq_cons
  · simp
  · simp

/-- What stands after an item: nothing, the next item, or a `|` and the next item. -/
def Tail (is : List Item) (ts : List Token) : Prop :=
  is = [] ∧ ts = [] ∨ Body is ts ∨ ∃ us, ts = .delim '|' :: us ∧ Body is us

lemma cons (h : i.Spelled ts rest) (htail : Tail is rest) : Body (i :: is) (ts ++ rest) := by
  rcases htail with ⟨rfl, rfl⟩ | hrest | ⟨us, rfl, hus⟩
  · rw [List.append_nil]
    exact last h
  · exact next h hrest
  · exact piped h hus

lemma uncons (h : Body is ts) :
    ∃ i is' us rest, is = i :: is' ∧ ts = us ++ rest ∧ i.Spelled us rest ∧ Tail is' rest := by
  cases h with
  | last h => exact ⟨_, [], ts, [], rfl, (List.append_nil ts).symm, h, Or.inl ⟨rfl, rfl⟩⟩
  | next h hrest => exact ⟨_, _, _, _, rfl, rfl, h, Or.inr (Or.inl hrest)⟩
  | piped h hrest => exact ⟨_, _, _, _, rfl, rfl, h, Or.inr (Or.inr ⟨_, rfl, hrest⟩)⟩

/-- The items of a body are determined by its tokens. -/
lemma unique (h : Body is ts) (h' : Body js ts) : is = js := by
  induction h generalizing js with
  | last h =>
    obtain ⟨j, js', us, rest, rfl, hts, hj, htail⟩ := h'.uncons
    obtain ⟨rfl, rfl⟩ := h.unique hj ((List.append_nil _).trans hts)
    rcases htail with ⟨rfl, -⟩ | hrest | ⟨us, hus, -⟩
    · rfl
    · exact absurd rfl hrest.ts_ne_nil
    · exact absurd hus (by simp)
  | next h hrest ih =>
    obtain ⟨j, js', us, rest, rfl, hts, hj, htail⟩ := h'.uncons
    obtain ⟨rfl, rfl⟩ := h.unique hj hts
    rcases htail with ⟨-, hnil⟩ | hrest' | ⟨us, hus, -⟩
    · exact absurd hnil hrest.ts_ne_nil
    · rw [ih hrest']
    · exact absurd hus (hrest.ts_ne_pipe us)
  | piped h hrest ih =>
    obtain ⟨j, js', us, rest, rfl, hts, hj, htail⟩ := h'.uncons
    obtain ⟨rfl, rfl⟩ := h.unique hj hts
    rcases htail with ⟨-, hnil⟩ | hrest' | ⟨us, hus, hrest'⟩
    · exact absurd hnil (by simp)
    · exact absurd rfl (hrest'.ts_ne_pipe _)
    · obtain ⟨-, rfl⟩ := List.cons.inj hus
      rw [ih hrest']

lemma append_pipe (hi : Body is ts) (hj : Body js us) :
    Body (is ++ js) (ts ++ .delim '|' :: us) := by
  have hpipe : (Token.delim '|').isOfPath = false := rfl
  induction hi with
  | last h => exact piped ((Item.Spelled.append_delim_iff hpipe [] us).mpr h) hj
  | next h hrest ih =>
    rw [List.append_assoc]
    exact next ((Item.Spelled.append_delim_iff hpipe _ us).mpr h) ih
  | piped h hrest ih =>
    rw [List.append_assoc, List.cons_append]
    exact piped ((Item.Spelled.append_delim_iff hpipe (.delim '|' :: _) us).mpr h) ih

lemma split_pipe (h : Body is (ts ++ .delim '|' :: us)) :
    ∃ is₁ is₂, is = is₁ ++ is₂ ∧ Body is₁ ts ∧ Body is₂ us := by
  have hpipe : (Token.delim '|').isOfPath = false := rfl
  generalize heq : ts ++ .delim '|' :: us = vs at h
  induction h generalizing ts with
  | last h => exact absurd (heq ▸ by simp) h.pipe_notMem
  | next h hrest ih =>
    obtain ⟨ws, rfl, rfl⟩ := h.split_pipe heq
    obtain ⟨is₁, is₂, rfl, h₁, h₂⟩ := ih rfl
    exact ⟨_ :: is₁, is₂, rfl, next ((Item.Spelled.append_delim_iff hpipe _ us).mp h) h₁, h₂⟩
  | piped h hrest ih =>
    obtain ⟨ws, rfl, hws⟩ := h.split_pipe heq
    cases ws with
    | nil =>
      obtain ⟨-, rfl⟩ := List.cons.inj hws
      refine ⟨[_], _, rfl, ?_, hrest⟩
      rw [List.append_nil]
      exact last ((Item.Spelled.append_delim_iff hpipe [] _).mp h)
    | cons w ws =>
      obtain ⟨rfl, rfl⟩ := List.cons.inj hws
      obtain ⟨is₁, is₂, rfl, h₁, h₂⟩ := ih rfl
      refine ⟨_ :: is₁, is₂, rfl, piped ?_ h₁, h₂⟩
      exact (Item.Spelled.append_delim_iff hpipe (.delim '|' :: ws) us).mp h

/-- The bodies that hold a `|` are the pairs of bodies with a `|` between them. -/
theorem append_pipe_iff :
    Body is (ts ++ .delim '|' :: us) ↔ ∃ is₁ is₂, is = is₁ ++ is₂ ∧ Body is₁ ts ∧ Body is₂ us := by
  constructor
  · exact split_pipe
  · rintro ⟨is₁, is₂, rfl, h₁, h₂⟩
    exact h₁.append_pipe h₂

end Body

/-! ### Expressions -/

namespace Expression

variable {is js : List Item} {ts : List Token}

/-- What stands between the quotes is a body, unless it is empty. -/
lemma quoted_iff (hts : ts ≠ []) :
    Expression is (.delim '\'' :: ts ++ [.delim '\'']) ↔ Body is ts := by
  constructor
  · intro h
    generalize heq : Token.delim '\'' :: ts ++ [.delim '\''] = us at h
    cases h with
    | empty => exact absurd (by simpa using heq) hts
    | body h =>
      have hbody := List.append_cancel_right (List.cons.inj heq).2
      exact hbody ▸ h
  · exact body

/-- The items of an expression are determined by its tokens. -/
theorem unique (h : Expression is ts) (h' : Expression js ts) : is = js := by
  cases h with
  | empty =>
    generalize heq : [Token.delim '\'', .delim '\''] = us at h'
    cases h' with
    | empty => rfl
    | body h' => exact absurd (by simpa using heq) h'.ts_ne_nil
  | body h => exact h.unique ((quoted_iff h.ts_ne_nil).mp h')

end Expression
end YamlSieve
