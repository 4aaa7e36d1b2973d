import YamlSieve.Proofs.Run
import YamlSieve.Proofs.Spelling

/-!
# Moves of an evaluation

A transition of a state that is not terminal either makes one of the moves listed in `Move` or
fails with one of the errors listed in `State.Refusal` (`State.transition_outcome`). Every move
takes tokens from the front and keeps the invariant `State.Sound`: while the expression is open its
closing quote is still to come, and in a pending call its closing parenthesis comes next.
-/

namespace YamlSieve

namespace State

/-- Between two items, at the given cursor, the state has a use for the event. -/
inductive Expects : State → Event → Cursor → Prop
  | pipe_path (c : Cursor) : Expects (pipe c) .path c
  | pipe_call (c : Cursor) : Expects (pipe c) .call c
  | path_call (c : Cursor) : Expects (path c) .call c
  | path_boundary (c : Cursor) : Expects (path c) .boundary c
  | path_close (c : Cursor) : Expects (path c) .close c
  | call (c : Cursor) (name : String) (e : Event) : Expects (call c name false) e c

/-- What the tokens that are left have to do with the state. -/
def Sound : State → List Token → Prop
  | start _,             _  => True
  | pipe _,              ts => ts.getLast? = some (.delim '\'')
  | path _,              ts => ts.getLast? = some (.delim '\'')
  | call _ name pending, ts =>
    name = "select" ∧ ts.getLast? = some (.delim '\'') ∧
      (pending = true → ts.head? = some (.delim ')'))
  | done _,              ts => ts = []
  | failed _,            _  => True

end State

open State

/-- A successful transition, from the state and the tokens before it to those after it. -/
inductive Move : State → List Token → Event → State → List Token → Prop
  /-- Opens and closes an expression without items. -/
  | empty (c : Cursor) : Move (start c) [.delim '\'', .delim '\''] .boundary (done c) []
  /-- Opens an expression. -/
  | opening (c : Cursor) {ts : List Token} (hlast : ts.getLast? = some (.delim '\''))
      (hts : ts ≠ [.delim '\'']) : Move (start c) (.delim '\'' :: ts) .boundary (pipe c) ts
  /-- Follows a run of path steps. -/
  | run {s : State} {c : Cursor} (ts : List Token) (hs : s.Expects .path c) :
      Move s (.delim '.' :: ts) .path
        (path (PathStep.applyAll c (PathStep.readRun (.delim '.' :: ts)).1))
        (PathStep.readRun (.delim '.' :: ts)).2
  /-- Calls `select`, up to the closing parenthesis. -/
  | select {s : State} {c : Cursor} {predicate : Predicate} {argument : List Token}
      (ts : List Token) (hs : s.Expects .call c) (h : predicate.Spelled argument) :
      Move s (.word "select" :: .delim '(' :: argument ++ .delim ')' :: ts) .call
        (call (c.select predicate) "select" true) (.delim ')' :: ts)
  /-- Passes the closing parenthesis of a call. -/
  | leave (c : Cursor) (name : String) (ts : List Token) :
      Move (call c name true) (.delim ')' :: ts) .call (call c name false) ts
  /-- Passes a `|`. -/
  | separate {s : State} {c : Cursor} (ts : List Token) (hs : s.Expects .boundary c) :
      Move s (.delim '|' :: ts) .boundary (pipe c) ts
  /-- Closes an expression. -/
  | close {s : State} {c : Cursor} (hs : s.Expects .close c) :
      Move s [.delim '\''] .close (done c) []

/-- What a step can fail with under an event, as long as there are tokens left. -/
inductive State.Refusal : Event → FilterError → Prop
  | tooFewArguments : Refusal .boundary .tooFewArguments
  | notQuoted : Refusal .boundary .notQuoted
  | noPipe : Refusal .boundary .noPipe
  | noDot : Refusal .path .noDot
  | missingArguments : Refusal .call .missingArguments
  | notACall : Refusal .call .notACall
  | function {error : FilterError} (h : Function.Refusal error) : Refusal .call error
  | unexpectedToken (e : Event) (t : Token) : Refusal e (.unexpectedToken t)
  | unexpectedEvent (e : Event) (phase : Phase) : Refusal e (.unexpectedEvent e phase)

lemma State.Refusal.kind {e : Event} {error : FilterError} (h : State.Refusal e error) :
    error.kind = .grammatical := by
  cases h with
  | function h =>
    cases h with
    | predicate h => cases h <;> rfl
    | _ => rfl
  | _ => rfl

/-- The transition made a move, or it failed and left the tokens or the last of them. -/
def Outcome (s : State) (ts : List Token) (e : Event) (next : State × List Token) : Prop :=
  Move s ts e next.1 next.2 ∨ ∃ error, next.1 = failed error ∧ Refusal e error ∧ next.2 <:+ ts

/-! ### Transitions are moves -/

namespace State

variable {s : State} {c : Cursor}

lemma outcome_of_refusal {e : Event} {ts : List Token} {error : FilterError}
    (h : Refusal e error) : Outcome s ts e (failed error, ts) :=
  Or.inr ⟨error, rfl, h, List.suffix_rfl⟩

lemma opening_outcome (c : Cursor) (ts : List Token) :
    Outcome (start c) ts .boundary (opening c ts) := by
  unfold opening
  split
  · next first second rest =>
    split_ifs with hquotes hrest
    · obtain ⟨rfl, hlast⟩ := hquotes
      rw [List.isEmpty_iff.mp hrest] at hlast ⊢
      obtain rfl : second = .delim '\'' := by simpa using hlast
      exact Or.inl (.empty c)
    · obtain ⟨rfl, hlast⟩ := hquotes
      refine Or.inl (.opening c hlast fun hts => hrest ?_)
      rw [(List.cons.inj hts).2]
      rfl
    · exact outcome_of_refusal .notQuoted
  · exact outcome_of_refusal .tooFewArguments

lemma follow_outcome (hs : s.Expects .path c) {ts : List Token} (hts : ts ≠ []) :
    Outcome s ts .path (follow c ts) := by
  unfold follow
  split
  · exact absurd rfl hts
  · exact Or.inl (.run _ hs)
  · exact outcome_of_refusal .noDot

lemma invoke_outcome (hs : s.Expects .call c) (ts : List Token) :
    Outcome s ts .call (invoke c ts) := by
  unfold invoke
  split
  · next name t ts =>
    split
    · next happly =>
      obtain ⟨rfl, predicate, argument, us, hspelled, hts, rfl, rfl⟩ :=
        Function.apply_eq_ok_iff.mp happly
      rw [hts]
      exact Or.inl (.select us hs hspelled)
    · next happly =>
      -- the name and the parenthesis are gone although the call failed
      refine Or.inr ⟨_, rfl, .function (Function.refusal_of_apply happly), ?_⟩
      exact ⟨[.word name, .delim '('], rfl⟩
  · exact outcome_of_refusal .notACall
  · exact outcome_of_refusal .missingArguments

lemma separate_outcome (hs : s.Expects .boundary c) (ts : List Token) :
    Outcome s ts .boundary (separate c ts) := by
  unfold separate
  split
  · exact Or.inl (.separate _ hs)
  · exact outcome_of_refusal .noPipe

lemma closing_outcome (hs : s.Expects .close c) {ts : List Token} (hts : ts ≠ []) :
    Outcome s ts .close (closing c ts) := by
  unfold closing
  split
  · exact Or.inl (.close hs)
  · exact outcome_of_refusal (.unexpectedToken _ _)
  · exact absurd rfl hts

lemma afterCall_outcome (c : Cursor) (name : String) (pending : Bool) (ts : List Token)
    (hpending : pending = true → ts.head? = some (.delim ')')) :
    Outcome (call c name pending) ts .call (afterCall c name pending ts) := by
  unfold afterCall
  cases pending with
  | true =>
    obtain ⟨us, rfl⟩ := List.head?_eq_some_iff.mp (hpending rfl)
    exact Or.inl (.leave c name us)
  | false =>
    split
    · exact outcome_of_refusal (.unexpectedToken _ _)
    · exact invoke_outcome (.call c name .call) ts

/-- In a pending call everything but its closing parenthesis fails. -/
lemma pending_outcome (c : Cursor) (name : String) {e : Event} (he : e ≠ .call)
    (us : List Token) :
    Outcome (call c name true) (.delim ')' :: us) e
      ((call c name true).transition e (.delim ')' :: us)) := by
  cases e with
  | call => exact absurd rfl he
  | path => exact outcome_of_refusal .noDot
  | boundary => exact outcome_of_refusal .noPipe
  | close => exact outcome_of_refusal (.unexpectedToken _ _)

/-- While an expression is open, its closing quote is still to come. -/
lemma Sound.getLast?_eq {ts : List Token} (hsound : s.Sound ts)
    (hphase : s.phase ∈ [Phase.pipe, .path, .call]) : ts.getLast? = some (.delim '\'') := by
  cases s with
  | pipe c | path c => exact hsound
  | call c name pending => exact hsound.2.1
  | _ => simp [phase] at hphase

lemma Sound.ne_nil {ts : List Token} (hsound : s.Sound ts)
    (hphase : s.phase ∈ [Phase.pipe, .path, .call]) : ts ≠ [] := by
  rintro rfl
  simpa using hsound.getLast?_eq hphase

/-- A state that is not terminal makes a move with an event, or fails. -/
theorem transition_outcome {ts : List Token} (hsound : s.Sound ts) (hs : s.isTerminal = false)
    (e : Event) : Outcome s ts e (s.transition e ts) := by
  match s, e with
  | start c, .boundary => exact opening_outcome c ts
  | start c, .path | start c, .call | start c, .close =>
    exact outcome_of_refusal (.unexpectedEvent _ _)
  | pipe c, .path => exact follow_outcome (.pipe_path c) (hsound.ne_nil (by simp [phase]))
  | pipe c, .call => exact invoke_outcome (.pipe_call c) ts
  | pipe c, .boundary | pipe c, .close => exact outcome_of_refusal (.unexpectedEvent _ _)
  | path c, .call => exact invoke_outcome (.path_call c) ts
  | path c, .boundary => exact separate_outcome (.path_boundary c) ts
  | path c, .close => exact closing_outcome (.path_close c) (hsound.ne_nil (by simp [phase]))
  | path c, .path => exact outcome_of_refusal (.unexpectedEvent _ _)
  | call c name pending, .call => exact afterCall_outcome c name pending ts hsound.2.2
  | call c name true, .path | call c name true, .boundary | call c name true, .close =>
    obtain ⟨us, rfl⟩ := List.head?_eq_some_iff.mp (hsound.2.2 rfl)
    exact pending_outcome c name (by simp) us
  | call c name false, .path =>
    exact follow_outcome (.call c name .path) (hsound.ne_nil (by simp [phase]))
  | call c name false, .boundary => exact separate_outcome (.call c name .boundary) ts
  | call c name false, .close =>
    exact closing_outcome (.call c name .close) (hsound.ne_nil (by simp [phase]))

end State

/-! ### Moves are transitions -/

namespace Move

variable {s s' : State} {ts ts' : List Token} {e : Event}

lemma opening_eq (c : Cursor) (hlast : ts.getLast? = some (.delim '\''))
    (hts : ts ≠ [.delim '\'']) : State.opening c (.delim '\'' :: ts) = (pipe c, ts) := by
  match ts with
  | [] => simp at hlast
  | [t] => exact absurd (by simpa using hlast) hts
  | t :: u :: us =>
    have hquotes : Token.delim '\'' = .delim '\'' ∧
        (t :: u :: us).getLast? = some (.delim '\'') := ⟨rfl, hlast⟩
    rw [State.opening, if_pos hquotes]
    rfl

lemma invoke_eq {predicate : Predicate} {argument : List Token} (c : Cursor) (ts : List Token)
    (h : predicate.Spelled argument) :
    State.invoke c (.word "select" :: .delim '(' :: argument ++ .delim ')' :: ts) =
      (call (c.select predicate) "select" true, .delim ')' :: ts) := by
  have happly : Function.apply "select" c (argument ++ .delim ')' :: ts) =
      .ok (c.select predicate, .delim ')' :: ts) :=
    Function.apply_eq_ok_iff.mpr ⟨rfl, predicate, argument, ts, h, rfl, rfl, rfl⟩
  cases argument with
  | nil =>
    rw [List.nil_append] at happly
    simp only [State.invoke, List.cons_append, List.nil_append, happly]
  | cons t argument =>
    rw [List.cons_append] at happly
    simp only [State.invoke, List.cons_append, happly]

theorem transition_eq (h : Move s ts e s' ts') : s.transition e ts = (s', ts') := by
  cases h with
  | empty c => rfl
  | opening c hlast hts => exact opening_eq c hlast hts
  | run ts hs => cases hs <;> rfl
  | @select _ c _ _ ts hs hspelled =>
    rw [← invoke_eq c ts hspelled]
    cases hs <;> rfl
  | leave c name ts => rfl
  | separate ts hs => cases hs <;> rfl
  | close hs => cases hs <;> rfl

/-- What a move leaves are the last of the tokens. -/
lemma suffix (h : Move s ts e s' ts') : ts' <:+ ts := by
  cases h with
  | empty c => exact List.nil_suffix
  | opening c hlast hts => exact List.suffix_cons _ _
  | run ts hs => exact PathStep.readRun_suffix _
  | select ts hs hspelled => exact List.suffix_append _ _
  | leave c name ts => exact List.suffix_cons _ _
  | separate ts hs => exact List.suffix_cons _ _
  | close hs => exact List.nil_suffix

/-- Every move takes tokens. -/
lemma length_lt (h : Move s ts e s' ts') : ts'.length < ts.length := by
  cases h with
  | run ts hs => exact PathStep.readRun_dot_length_lt ts
  | select ts hs hspelled =>
    simp only [List.length_append, List.length_cons]
    omega
  | _ => simp

/-- A delimiter at the front that is no quote does not close the expression. -/
lemma getLast?_of_cons {c : Char} (hc : c ≠ '\'')
    (hlast : (Token.delim c :: ts).getLast? = some (.delim '\'')) :
    ts.getLast? = some (.delim '\'') := by
  cases ts with
  | nil => exact absurd (by simpa using hlast) hc
  | cons t ts => rwa [List.getLast?_cons_cons] at hlast

lemma readRun_getLast? (hlast : ts.getLast? = some (.delim '\'')) :
    (PathStep.readRun ts).2.getLast? = some (.delim '\'') := by
  obtain ⟨run, hsplit, hrun⟩ := PathStep.readRun_split ts
  by_cases hrest : (PathStep.readRun ts).2 = []
  · rw [hrest, List.append_nil] at hsplit
    rw [hsplit] at hlast
    exact absurd (hrun _ (List.mem_of_getLast? hlast)) (by decide)
  · rwa [hsplit, List.getLast?_append_of_ne_nil _ hrest] at hlast

/-- An expecting state still has the closing quote to come. -/
lemma getLast?_of_expects {c : Cursor} (hs : s.Expects e c) (hsound : s.Sound ts) :
    ts.getLast? = some (.delim '\'') := by
  cases hs with
  | call c name e => exact hsound.2.1
  | _ => exact hsound

/-- A move keeps the invariant. -/
theorem sound (h : Move s ts e s' ts') (hsound : s.Sound ts) : s'.Sound ts' := by
  cases h with
  | empty c => rfl
  | opening c hlast hts => exact hlast
  | run ts hs => exact readRun_getLast? (getLast?_of_expects hs hsound)
  | select ts hs hspelled =>
    have hlast := getLast?_of_expects hs hsound
    rw [List.getLast?_append_of_ne_nil _ (List.cons_ne_nil _ _)] at hlast
    exact ⟨rfl, hlast, fun _ => rfl⟩
  | leave c name ts =>
    obtain ⟨hname, hlast, -⟩ := hsound
    exact ⟨hname, getLast?_of_cons (by decide) hlast, by simp⟩
  | separate ts hs => exact getLast?_of_cons (by decide) (getLast?_of_expects hs hsound)
  | close hs => rfl

end Move

/-! ### Chains of moves -/

/-- A chain of moves, one for each event. -/
inductive Moves : State → List Token → List Event → State → List Token → Prop
  | nil (s : State) (ts : List Token) : Moves s ts [] s ts
  | cons {s s' s'' : State} {ts ts' ts'' : List Token} {e : Event} {es : List Event}
      (h : Move s ts e s' ts') (hs : Moves s' ts' es s'' ts'') : Moves s ts (e :: es) s'' ts''

namespace Moves

variable {s s' : State} {ts ts' : List Token} {es : List Event} {c : Cursor}

theorem transitions_eq (h : Moves s ts es s' ts') : transitions es s ts = (s', ts') := by
  induction h with
  | nil s ts => rfl
  | cons h _ ih => rw [transitions_cons, h.transition_eq, ih]

/-- Events that lead to the end of the evaluation, and not before the last of them, are moves. -/
theorem of_transitions (hsound : s.Sound ts) (hdone : (transitions es s ts).1 = done c)
    (hfirst : ∀ n < es.length, (transitions (es.take n) s ts).1.phase ≠ .done) :
    Moves s ts es (done c) [] := by
  induction es generalizing s ts with
  | nil =>
    obtain rfl : s = done c := hdone
    obtain rfl : ts = [] := hsound
    exact .nil _ _
  | cons e es ih =>
    have hs : s.isTerminal = false := by
      by_contra hs
      rw [transitions_of_isTerminal (by simpa using hs)] at hdone
      obtain rfl : s = done c := hdone
      exact hfirst 0 (Nat.succ_pos _) rfl
    rw [transitions_cons] at hdone
    rcases transition_outcome hsound hs e with hmove | ⟨error, hfailed, -⟩
    · refine .cons hmove (ih (hmove.sound hsound) hdone fun n hn => ?_)
      exact hfirst (n + 1) (Nat.succ_lt_succ hn)
    · rw [hfailed, transitions_of_isTerminal rfl] at hdone
      cases hdone

end Moves
end YamlSieve
