import YamlSieve.Proofs.Move

/-!
# Events in lockstep

The events of an expression are found without a look at the states, and the states take tokens
without a look at the events. Still every move is made under the event that the expression has for
it at that token, and leaves the events of the tokens that are left (`Move.due_eq`). So no other
list of events leads to the end of an evaluation than that of its tokens
(`State.EndsWith.prefix_ofTokens`, `State.EndsWith.eq_of_prefix`).
-/

namespace YamlSieve

open State

/-! ### Events of the tokens that are left -/

namespace Event

/-- Inside a run and inside parentheses, the tokens of a path and of an operator are no events. -/
lemma ofSteps_append {inRun : Bool} {depth : Nat} (hsilent : inRun = true ∨ depth ≠ 0)
    {us : List Token} (hus : ∀ t ∈ us, t.isOfPath ∨ Predicate.isOperatorToken t)
    (ts : List Token) : ofSteps inRun depth (us ++ ts) = ofSteps inRun depth ts := by
  induction us with
  | nil => rfl
  | cons u us ih =>
    have hrest := ih fun t ht => hus t (List.mem_cons_of_mem _ ht)
    rw [List.cons_append, ← hrest]
    cases u with
    | word w => rfl
    | delim c =>
      -- of these tokens only a dot could open a run, and it does not while `hsilent` holds
      by_cases hdot : c = '.'
      · subst hdot
        rw [ofSteps]
        rcases hsilent with rfl | hdepth
        · simp
        · simp [hdepth]
      · have hc := hus (.delim c) List.mem_cons_self
        have hne : ∀ d : Char, ¬((Token.delim d).isOfPath ∨ Predicate.isOperatorToken (.delim d)) →
            Token.delim c ≠ .delim d := by
          rintro d hd heq
          exact hd (heq ▸ hc)
        rw [ofSteps]
        · exact hne '\'' (by decide)
        · exact hne '|' (by decide)
        · exact fun heq => hdot (Token.delim.inj heq)
        · exact hne '(' (by decide)
        · exact hne ')' (by decide)

/-- The events of a call are its two parentheses. -/
lemma ofSteps_call {predicate : Predicate} {argument : List Token} (h : predicate.Spelled argument)
    (inRun : Bool) (ts : List Token) :
    ofSteps inRun 0 (.word "select" :: .delim '(' :: argument ++ .delim ')' :: ts) =
      call :: call :: ofSteps false 0 ts := by
  have hopen : ofSteps inRun 0 (.word "select" :: .delim '(' :: argument ++ .delim ')' :: ts) =
      call :: ofSteps inRun 1 (argument ++ .delim ')' :: ts) := rfl
  have hclose : ofSteps inRun 1 (.delim ')' :: ts) = call :: ofSteps false 0 ts := by
    cases inRun <;> rfl
  rw [hopen, ofSteps_append (Or.inr (by decide)) (fun t ht => h.mem ht), hclose]

end Event

/-- The events that the tokens that are left will give rise to. -/
def State.due : State → List Token → List Event
  | start _,             ts => Event.ofTokens ts
  | pipe _,              ts => Event.ofSteps false 0 ts
  | path _,              ts => Event.ofSteps true 0 ts
  | call _ _ false,      ts => Event.ofSteps false 0 ts
  | call _ _ true,       ts => Event.ofSteps false 1 ts
  | done _,              _  => []
  | failed _,            _  => []

/-! ### Moves -/

namespace Move

variable {s s' : State} {ts ts' : List Token} {e : Event}

/-- A move takes the next event, and leaves those of the tokens that it leaves. -/
theorem due_eq (h : Move s ts e s' ts') (hs' : s'.isTerminal = false) :
    s.due ts = e :: s'.due ts' := by
  cases h with
  | empty c => cases hs'
  | opening c hlast hts => rfl
  | @run _ c ts hs =>
    obtain ⟨run, hsplit, hrun⟩ := PathStep.readRun_split (.delim '.' :: ts)
    have hrest : Event.ofSteps true 0 (.delim '.' :: ts) =
        Event.ofSteps true 0 (PathStep.readRun (.delim '.' :: ts)).2 := by
      conv_lhs => rw [hsplit]
      exact Event.ofSteps_append (Or.inl rfl) (fun t ht => Or.inl (hrun t ht)) _
    have hfirst : s.due (.delim '.' :: ts) = .path :: Event.ofSteps true 0 (.delim '.' :: ts) := by
      cases hs <;> rfl
    rw [hfirst, hrest]
    rfl
  | @select _ c _ _ ts hs hspelled =>
    cases hs <;> exact Event.ofSteps_call hspelled _ ts
  | leave c name ts => rfl
  | separate ts hs => cases hs <;> rfl
  | close hs => cases hs'

lemma prefix_due (h : Move s ts e s' ts') : (e :: s'.due ts') <+: s.due ts := by
  by_cases hs' : s'.isTerminal = false
  · exact ⟨[], (List.append_nil _).trans (h.due_eq hs').symm⟩
  · cases h with
    | empty c => exact ⟨[.close], rfl⟩
    | close hs => cases hs <;> exact List.prefix_rfl
    | _ => exact absurd rfl hs'

end Move

/-- The events of a chain of moves are the first of those that the tokens have. -/
theorem Moves.append_prefix_due {s s' : State} {ts ts' : List Token} {es : List Event}
    (h : Moves s ts es s' ts') : (es ++ s'.due ts') <+: s.due ts := by
  induction h with
  | nil s ts => exact List.prefix_rfl
  | cons h _ ih => exact ((List.prefix_cons_inj _).mpr ih).trans h.prefix_due

/-! ### Whole evaluations -/

namespace State

/-- The events lead the evaluation to its end, and the last of them is the first to do so. -/
def EndsWith (es : List Event) (ts : List Token) (root : Node) (c : Cursor) : Prop :=
  (transitions es (start (.borrow root)) ts).1 = done c ∧
    ∀ n < es.length, (transitions (es.take n) (start (.borrow root)) ts).1.phase ≠ .done

variable {es : List Event} {ts : List Token} {root : Node} {c : Cursor}

lemma EndsWith.moves (h : EndsWith es ts root c) :
    Moves (start (.borrow root)) ts es (done c) [] :=
  .of_transitions trivial h.1 h.2

lemma EndsWith.prefix_ofTokens (h : EndsWith es ts root c) : es <+: Event.ofTokens ts := by
  simpa [due] using h.moves.append_prefix_due

/-- The tokens' own events lead where a chain of moves to the end leads. -/
lemma transitions_of_moves {ts' : List Token}
    (h : Moves (start (.borrow root)) ts es (done c) ts') :
    transitions (Event.ofTokens ts) (start (.borrow root)) ts = (done c, ts') := by
  obtain ⟨fs, hfs⟩ := h.append_prefix_due
  have hevents : Event.ofTokens ts = es ++ fs := by simpa [due] using hfs.symm
  rw [hevents, transitions_append, h.transitions_eq, transitions_of_isTerminal rfl]

/-- What a chain of moves finds is the result of the evaluation under the tokens' own events. -/
lemma run_of_moves {ts' : List Token} (h : Moves (start (.borrow root)) ts es (done c) ts') :
    run ts (Event.ofTokens ts) root none = .ok c := by
  rw [run, runFrom_none, transitions_of_moves h]
  rfl

/-- If two lists of events are the first of one list and both end evaluations, they are equal. -/
lemma EndsWith.eq_of_prefix {es' : List Event} {root' : Node} {c' : Cursor}
    (h : EndsWith es ts root c) (h' : EndsWith es' ts root' c') (hle : es'.length ≤ es.length) :
    es' = es := by
  have hinit : es' <+: es :=
    List.prefix_of_prefix_length_le h'.prefix_ofTokens h.prefix_ofTokens hle
  by_contra hne
  have hlt : es'.length < es.length :=
    lt_of_le_of_ne hle fun hlen => hne (hinit.eq_of_length hlen)
  -- the shorter list ends the evaluation on the one document as early as on the other
  have hshape := (SameShape.start (.borrow root') (.borrow root)).transitions es' ts
  have hdone := hshape.1.phase_eq
  rw [h'.1, List.prefix_iff_eq_take.mp hinit] at hdone
  exact h.2 _ hlt hdone.symm

/--
Whatever events an evaluation is given: if it comes to its end under the first of them, these are
the first of the tokens' own events, which find the same at the same place. No other events lead
an evaluation of these tokens to its end, on any document.
-/
theorem events_of_endsWith {m : Nat} (h : EndsWith (es.take m) ts root c) :
    es.take m <+: Event.ofTokens ts ∧ run ts (Event.ofTokens ts) root none = .ok c ∧
      ∀ (es' : List Event) (root' : Node) (c' : Cursor), EndsWith es' ts root' c' →
        es' = es.take m := by
  refine ⟨h.prefix_ofTokens, run_of_moves h.moves, fun es' root' c' h' => ?_⟩
  rcases Nat.le_total es'.length (es.take m).length with hle | hle
  · exact h.eq_of_prefix h' hle
  · exact (h'.eq_of_prefix h hle).symm

/-- The events of `'.a[] select(.b == x)'`, with a further one that is ignored. -/
theorem events_of_call_after_path :
    let ts : List Token := [.delim '\'', .delim '.', .word "a", .delim '[', .delim ']',
      .word "select", .delim '(', .delim '.', .word "b", .delim '=', .delim '=', .word "x",
      .delim ')', .delim '\'']
    let root : Node := .mapping [("a", .sequence [.mapping [("b", .string "x")],
      .mapping [("b", .string "y")]])]
    let found : Cursor := .own (.sequence [.mapping [("b", .string "x")]])
    let es : List Event := [.boundary, .path, .call, .call, .close, .path]
    EndsWith (es.take 5) ts root found ∧ es.take 5 <+: Event.ofTokens ts ∧
      run ts (Event.ofTokens ts) root none = .ok found := by
  intro ts root found es
  have h : EndsWith (es.take 5) ts root found := ⟨rfl, by decide⟩
  obtain ⟨hinit, hrun, -⟩ := events_of_endsWith h
  exact ⟨h, hinit, hrun⟩

end State
end YamlSieve
