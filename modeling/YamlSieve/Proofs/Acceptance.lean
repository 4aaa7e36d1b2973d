import YamlSieve.Proofs.Grammar
import YamlSieve.Proofs.Lockstep
import YamlSieve.Proofs.Meaning

/-!
# Accepted expressions

Chains of moves from the start of an evaluation to its end are the same as expressions: every item
is a move or two (`Expression.moves`), and every move takes up what it leaves to be completed
(`Move.completes`). Under the events of its own tokens an evaluation is such a chain, unless it
fails (`State.transitions_due_outcome`). Therefore evaluations accept the expressions, and find
what their items make of the document (`State.run_eq_ok_iff`).
-/

namespace YamlSieve

open State

/-- What is left of the expression leads from the state to the given cursor. -/
def State.Completes (c' : Cursor) : State → List Token → Prop
  | start c,        ts => ∃ is, Expression is ts ∧ c' = Item.applyAll is c
  | pipe c,         ts => ∃ is us, Body is us ∧ ts = us ++ [.delim '\''] ∧ c' = Item.applyAll is c
  | path c,         ts =>
    ∃ is us, Body.Tail is us ∧ ts = us ++ [.delim '\''] ∧ c' = Item.applyAll is c
  | call c _ false, ts =>
    ∃ is us, Body.Tail is us ∧ ts = us ++ [.delim '\''] ∧ c' = Item.applyAll is c
  | call c _ true,  ts =>
    ∃ is us, Body.Tail is us ∧ ts = .delim ')' :: us ++ [.delim '\''] ∧ c' = Item.applyAll is c
  | done c,         _  => c' = c
  | failed _,       _  => False

/-! ### Moves spell items -/

namespace Move

variable {s s' : State} {ts ts' us : List Token} {e : Event} {c c' : Cursor} {is : List Item}

lemma completes_of_body (hs : s.Expects e c) (he : e = .path ∨ e = .call) (hbody : Body is us) :
    s.Completes (Item.applyAll is c) (us ++ [.delim '\'']) := by
  cases hs with
  | pipe_path | pipe_call => exact ⟨is, us, hbody, rfl, rfl⟩
  | path_call | call => exact ⟨is, us, Or.inr (Or.inl hbody), rfl, rfl⟩
  | path_boundary | path_close => simp at he

lemma completes_of_tail (hs : s.Expects e c) (he : e = .boundary ∨ e = .close)
    (htail : Body.Tail is us) : s.Completes (Item.applyAll is c) (us ++ [.delim '\'']) := by
  cases hs with
  | pipe_path | pipe_call | path_call => simp at he
  | path_boundary | path_close | call => exact ⟨is, us, htail, rfl, rfl⟩

/-- What a move leaves to be completed, it takes from what was to be completed. -/
theorem completes (h : Move s ts e s' ts') (h' : s'.Completes c' ts') : s.Completes c' ts := by
  have hquote : (Token.delim '\'').isOfPath = false := rfl
  cases h with
  | empty c => exact ⟨[], .empty, h'⟩
  | opening c hlast hts =>
    obtain ⟨is, us, hbody, rfl, rfl⟩ := h'
    exact ⟨is, .body hbody, rfl⟩
  | run ts hs =>
    obtain ⟨is, us, htail, hrest, rfl⟩ := h'
    obtain ⟨run, hsplit, hspelled⟩ := Item.Spelled.of_readRun ts
    -- the steps that the run reads end at the closing quote, so the quote can be taken away
    rw [hrest] at hsplit hspelled
    have hitem := (Item.Spelled.append_delim_iff hquote us []).mp hspelled
    have hbody := completes_of_body hs (Or.inl rfl) (Body.cons hitem htail)
    rw [List.append_assoc, ← hsplit] at hbody
    exact hbody
  | select ts hs hspelled =>
    obtain ⟨is, us, htail, hrest, rfl⟩ := h'
    rw [hrest]
    have hbody := completes_of_body hs (Or.inr rfl) (Body.cons (.select hspelled us) htail)
    simp only [List.append_assoc, List.cons_append, List.nil_append] at hbody ⊢
    exact hbody
  | leave c name ts =>
    obtain ⟨is, us, htail, rfl, rfl⟩ := h'
    exact ⟨is, us, htail, rfl, rfl⟩
  | separate ts hs =>
    obtain ⟨is, us, hbody, rfl, rfl⟩ := h'
    exact completes_of_tail hs (Or.inl rfl) (Or.inr (Or.inr ⟨us, rfl, hbody⟩))
  | close hs =>
    obtain rfl : c' = _ := h'
    exact completes_of_tail hs (Or.inr rfl) (Or.inl ⟨rfl, rfl⟩)

/-- A move into a terminal state ends the evaluation, with no tokens left. -/
lemma eq_done (h : Move s ts e s' ts') (hs' : s'.isTerminal = true) :
    ∃ c, s' = done c ∧ ts' = [] := by
  cases h with
  | empty c => exact ⟨c, rfl, rfl⟩
  | close hs => exact ⟨_, rfl, rfl⟩
  | _ => cases hs'

end Move

theorem Moves.completes {s : State} {ts ts' : List Token} {es : List Event} {c : Cursor}
    (h : Moves s ts es (done c) ts') : s.Completes c ts := by
  generalize hs' : done c = s' at h
  induction h with
  | nil s ts =>
    subst hs'
    rfl
  | cons h _ ih => exact h.completes (ih hs')

/-! ### Items are moves -/

/-- The event under which an item starts. -/
def Item.event : Item → Event
  | path _   => .path
  | select _ => .call

/-- The state behind an item. -/
def Item.after (c : Cursor) : Item → State
  | path _   => State.path c
  | select _ => State.call c "select" false

lemma Item.expects_after {item : Item} {c : Cursor} {e : Event} (he : e ≠ .path) :
    (item.after c).Expects e c := by
  cases item with
  | path steps =>
    cases e with
    | path => exact absurd rfl he
    | call => exact .path_call c
    | boundary => exact .path_boundary c
    | close => exact .path_close c
  | select predicate => exact .call c "select" e

lemma Item.pipe_expects (item : Item) (c : Cursor) : (State.pipe c).Expects item.event c := by
  cases item with
  | path steps => exact .pipe_path c
  | select predicate => exact .pipe_call c

/-- Two paths do not stand side by side: the first would be longer. -/
lemma Item.expects_next {i j : Item} {is : List Item} {ts rest : List Token} (c : Cursor)
    (h : i.Spelled ts rest) (hrest : Body (j :: is) rest) : (i.after c).Expects j.event c := by
  cases h with
  | select h => exact .call c "select" j.event
  | path h =>
    cases j with
    | select predicate => exact .path_call c
    | path steps =>
      obtain ⟨us, rfl⟩ := hrest.path_eq_cons
      exact absurd (congrArg Prod.snd h) (PathStep.readRun_rest_ne_dot _ us)

namespace Moves

variable {s : State} {c : Cursor} {i : Item} {is : List Item} {ts rest : List Token}

lemma trans {s' s'' : State} {ts' ts'' : List Token} {es fs : List Event}
    (h : Moves s ts es s' ts') (h' : Moves s' ts' fs s'' ts'') :
    Moves s ts (es ++ fs) s'' ts'' := by
  induction h with
  | nil s ts => exact h'
  | cons h _ ih => exact .cons h (ih h')

lemma of_spelled (h : i.Spelled ts rest) (hs : s.Expects i.event c) :
    ∃ es, Moves s (ts ++ rest) es (i.after (i.apply c)) rest := by
  cases h with
  | @path ts rest steps h =>
    have hmove := Move.run (ts ++ rest) hs
    rw [← List.cons_append, h] at hmove
    exact ⟨_, .cons hmove (.nil _ _)⟩
  | @select ts predicate h =>
    have hmove := Move.select rest hs h
    have hleave := Move.leave (c.select predicate) "select" rest
    rw [List.append_assoc]
    exact ⟨_, .cons hmove (.cons hleave (.nil _ _))⟩

/-- The items of a body are moves to the end, from a state that expects the first of them. -/
lemma of_body {us : List Token} (h : Body (i :: is) us) (hs : s.Expects i.event c) :
    ∃ es, Moves s (us ++ [.delim '\'']) es (done (Item.applyAll (i :: is) c)) [] := by
  have hquote : (Token.delim '\'').isOfPath = false := rfl
  -- the closing quote ends every run of path steps, so each item is spelled in front of it as well
  generalize hitems : i :: is = items at h
  induction h generalizing s c i is with
  | last h =>
    obtain ⟨rfl, rfl⟩ := List.cons.inj hitems
    have hitem := (Item.Spelled.append_delim_iff hquote [] []).mpr h
    obtain ⟨es, hmoves⟩ := of_spelled hitem hs
    have hclose : (i.after (i.apply c)).Expects .close (i.apply c) :=
      Item.expects_after (by simp)
    exact ⟨_, hmoves.trans (.cons (.close hclose) (.nil _ _))⟩
  | @next j js ts rest h hrest ih =>
    obtain ⟨rfl, rfl⟩ := List.cons.inj hitems
    have hitem := (Item.Spelled.append_delim_iff hquote rest []).mpr h
    obtain ⟨es, hmoves⟩ := of_spelled hitem hs
    cases is with
    | nil => exact absurd rfl hrest.items_ne_nil
    | cons k ks =>
      obtain ⟨fs, hnext⟩ := ih (Item.expects_next (i.apply c) h hrest) rfl
      rw [List.append_assoc]
      exact ⟨_, hmoves.trans hnext⟩
  | @piped j js ts rest h hrest ih =>
    obtain ⟨rfl, rfl⟩ := List.cons.inj hitems
    have hitem := (Item.Spelled.append_delim_iff hquote (.delim '|' :: rest) []).mpr h
    obtain ⟨es, hmoves⟩ := of_spelled hitem hs
    have hpipe : (i.after (i.apply c)).Expects .boundary (i.apply c) :=
      Item.expects_after (by simp)
    cases is with
    | nil => exact absurd rfl hrest.items_ne_nil
    | cons k ks =>
      obtain ⟨fs, hnext⟩ := ih (k.pipe_expects (i.apply c)) rfl
      rw [List.append_assoc]
      exact ⟨_, hmoves.trans (.cons (.separate _ hpipe) hnext)⟩

end Moves

/-- An expression is a chain of moves from the start to the end. -/
theorem Expression.moves {is : List Item} {ts : List Token} (h : Expression is ts) (c : Cursor) :
    ∃ es, Moves (start c) ts es (done (Item.applyAll is c)) [] := by
  cases h with
  | empty => exact ⟨_, .cons (.empty c) (.nil _ _)⟩
  | @body is us hbody =>
    cases is with
    | nil => exact absurd rfl hbody.items_ne_nil
    | cons i is =>
      have hlast : (us ++ [Token.delim '\'']).getLast? = some (.delim '\'') := by simp
      have hquote : us ++ [Token.delim '\''] ≠ [.delim '\''] := by simpa using hbody.ts_ne_nil
      obtain ⟨es, hmoves⟩ := Moves.of_body hbody (i.pipe_expects c)
      exact ⟨_, .cons (.opening c hlast hquote) hmoves⟩

/-! ### Evaluations accept expressions -/

/-- A single quote is an event wherever it stands. -/
lemma Event.close_mem_ofSteps {ts : List Token} (h : .delim '\'' ∈ ts) (inRun : Bool)
    (depth : Nat) : close ∈ Event.ofSteps inRun depth ts := by
  fun_induction Event.ofSteps inRun depth ts with
  | case1 inRun depth => simp at h
  | case10 inRun depth t ts hquote _ _ _ _ ih =>
    rcases List.mem_cons.mp h with rfl | h
    · exact absurd rfl hquote
    · exact ih h
  | _ => simp_all

namespace State

variable {s : State} {ts : List Token} {root : Node} {c : Cursor}

/-- While the evaluation goes on, there is an event to come. -/
lemma due_ne_nil (hsound : s.Sound ts) (hs : s.isTerminal = false) : s.due ts ≠ [] := by
  have hclose : ts.getLast? = some (.delim '\'') → ∀ inRun depth,
      Event.ofSteps inRun depth ts ≠ [] := fun hlast inRun depth =>
    List.ne_nil_of_mem (Event.close_mem_ofSteps (List.mem_of_getLast? hlast) inRun depth)
  match s with
  | start c =>
    simp only [due, Event.ofTokens]
    split <;> exact List.cons_ne_nil _ _
  | pipe c => exact hclose hsound false 0
  | path c => exact hclose hsound true 0
  | call c name false => exact hclose hsound.2.1 false 0
  | call c name true => exact hclose hsound.2.1 false 1

/-- Under the events of its own tokens, an evaluation moves to its end or fails. -/
theorem transitions_due_outcome (hsound : s.Sound ts) (hs : s.isTerminal = false) :
    (∃ es c, Moves s ts es (done c) []) ∨
      ∃ error, (transitions (s.due ts) s ts).1 = failed error ∧ error.kind = .grammatical := by
  -- by induction on the events that are due: each move takes the first and leaves the rest due
  generalize hdue : s.due ts = due
  induction due generalizing s ts with
  | nil => exact absurd hdue (due_ne_nil hsound hs)
  | cons e es ih =>
    rw [transitions_cons]
    rcases transition_outcome hsound hs e with hmove | ⟨error, hfailed, hrefusal, -⟩
    · have hsound' := hmove.sound hsound
      by_cases hs' : (s.transition e ts).1.isTerminal = false
      · rw [hmove.due_eq hs', List.cons.injEq] at hdue
        rcases ih hsound' hs' hdue.2 with ⟨fs, c, hmoves⟩ | hfailed
        · exact Or.inl ⟨_, c, .cons hmove hmoves⟩
        · exact Or.inr hfailed
      · obtain ⟨c, hdone, hts⟩ := hmove.eq_done (by simpa using hs')
        rw [hdone, hts] at hmove
        exact Or.inl ⟨_, c, .cons hmove (.nil _ _)⟩
    · rw [hfailed, transitions_of_isTerminal rfl]
      exact Or.inr ⟨error, rfl, hrefusal.kind⟩

/-- Without a step limit, an evaluation moves to its end or fails with an error of the grammar. -/
lemma run_outcome (ts : List Token) (root : Node) :
    (∃ es c, Moves (start (.borrow root)) ts es (done c) []) ∨
      ∃ error, run ts (Event.ofTokens ts) root none = .error error ∧
        error.kind = .grammatical := by
  have hstart : (start (.borrow root)).Sound ts := trivial
  rcases transitions_due_outcome hstart rfl with hmoves | ⟨error, hfailed, herror⟩
  · exact Or.inl hmoves
  · refine Or.inr ⟨error, ?_, herror⟩
    rw [run, runFrom_none, ← due, hfailed]
    rfl

/-- What evaluations find is what the items of the expression make of the document. -/
theorem run_eq_ok_iff :
    run ts (Event.ofTokens ts) root none = .ok c ↔
      ∃ is, Expression is ts ∧ c = Item.applyAll is (.borrow root) := by
  constructor
  · intro hrun
    rcases run_outcome ts root with ⟨es, c', hmoves⟩ | ⟨error, hfailed, -⟩
    · rw [run_of_moves hmoves] at hrun
      obtain rfl := Except.ok.inj hrun
      exact hmoves.completes
    · rw [hfailed] at hrun
      cases hrun
  · rintro ⟨is, hexpression, rfl⟩
    obtain ⟨es, hmoves⟩ := hexpression.moves (.borrow root)
    exact run_of_moves hmoves

/-- An accepted evaluation has come to its end, with no tokens left. -/
lemma transitions_of_run_eq_ok (hrun : run ts (Event.ofTokens ts) root none = .ok c) :
    transitions (Event.ofTokens ts) (start (.borrow root)) ts = (done c, []) := by
  obtain ⟨is, hexpression, rfl⟩ := run_eq_ok_iff.mp hrun
  obtain ⟨es, hmoves⟩ := hexpression.moves (.borrow root)
  exact transitions_of_moves hmoves

/--
Evaluations without a step limit accept the expressions and nothing else. An accepted one has come
to its end with no tokens left, and any other fails with an error of the grammar.
-/
theorem run_accepts_expressions (ts : List Token) (root : Node) :
    ((∃ c, run ts (Event.ofTokens ts) root none = .ok c) ↔ ∃ is, Expression is ts) ∧
      (∀ c, run ts (Event.ofTokens ts) root none = .ok c →
        transitions (Event.ofTokens ts) (start (.borrow root)) ts = (done c, [])) ∧
      (¬(∃ is, Expression is ts) → ∃ error,
        run ts (Event.ofTokens ts) root none = .error error ∧ error.kind = .grammatical) := by
  refine ⟨⟨?_, ?_⟩, fun c hrun => transitions_of_run_eq_ok hrun, fun hno => ?_⟩
  · rintro ⟨c, hrun⟩
    obtain ⟨is, hexpression, -⟩ := run_eq_ok_iff.mp hrun
    exact ⟨is, hexpression⟩
  · rintro ⟨is, hexpression⟩
    exact ⟨_, run_eq_ok_iff.mpr ⟨is, hexpression, rfl⟩⟩
  · rcases run_outcome ts root with ⟨es, c, hmoves⟩ | hfailed
    · obtain ⟨is, hexpression, -⟩ := hmoves.completes
      exact absurd ⟨is, hexpression⟩ hno
    · exact hfailed

end State
end YamlSieve
