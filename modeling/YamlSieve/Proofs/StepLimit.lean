import YamlSieve.Proofs.Acceptance
import YamlSieve.Proofs.Independence
import YamlSieve.Proofs.Progress

/-!
# Step limits

The number of steps that an evaluation takes until it is in a terminal state, or out of events,
does not depend on the document. A step limit below this number cuts the evaluation off, and any
other one changes nothing (`State.runFrom_limit`). Under the events of its own tokens an evaluation
takes at most one step for each token and one more.
-/

namespace YamlSieve

/-! ### Numbers of events -/

namespace Event

/-- Every event stands for a token. -/
lemma length_ofSteps_le (inRun : Bool) (depth : Nat) (ts : List Token) :
    (ofSteps inRun depth ts).length ≤ ts.length := by
  fun_induction ofSteps inRun depth ts <;> simp_all <;> omega

/-- The start of an expression is an event even where no token stands for it. -/
lemma ofTokens_eq_cons (ts : List Token) :
    ∃ es, ofTokens ts = .boundary :: es ∧ es.length ≤ ts.length := by
  unfold ofTokens
  split
  · exact ⟨_, rfl, (length_ofSteps_le false 0 _).trans (Nat.le_succ _)⟩
  · exact ⟨_, rfl, length_ofSteps_le false 0 _⟩

end Event

/-! ### Numbers of steps -/

namespace State

/-- The number of steps that are made under the events: one for each, up to a terminal state. -/
def steps : List Event → State → List Token → Nat
  | [],      _, _  => 0
  | e :: es, s, ts =>
    if s.isTerminal then 0 else steps es (s.transition e ts).1 (s.transition e ts).2 + 1

variable {s t : State} {ts : List Token} {es : List Event} {limit n : Nat}

lemma steps_le_length (es : List Event) (s : State) (ts : List Token) :
    steps es s ts ≤ es.length := by
  induction es generalizing s ts with
  | nil => exact Nat.le_refl 0
  | cons e es ih =>
    rw [steps]
    split_ifs
    · exact Nat.zero_le _
    · exact Nat.succ_le_succ (ih _ _)

lemma SameShape.steps_eq (h : SameShape s t) (es : List Event) (ts : List Token) :
    steps es s ts = steps es t ts := by
  induction es generalizing s t ts with
  | nil => rfl
  | cons e es ih =>
    obtain ⟨hnext, htokens⟩ := h.transition e ts
    rw [steps, steps, ← h.isTerminal_eq, htokens, ih hnext]

/-- In front of the limit the evaluation goes on. -/
lemma runFrom_step (hs : s.isTerminal = false) (hn : n < limit) (e : Event) :
    runFrom (some limit) n (e :: es) s ts =
      runFrom (some limit) (n + 1) es (s.transition e ts).1 (s.transition e ts).2 := by
  have hlimit : (some limit).filter (· ≤ n) = none := by
    simp [Option.filter_some, hn]
  simp only [runFrom, hs, Bool.false_eq_true, if_false, hlimit]

/-- At the limit no further step is made. -/
lemma runFrom_stop (hs : s.isTerminal = false) (hn : limit ≤ n) (e : Event) :
    runFrom (some limit) n (e :: es) s ts = .error (.stepLimitExceeded limit) := by
  have hlimit : (some limit).filter (· ≤ n) = some limit := by
    simp [Option.filter_some, hn]
  simp only [runFrom, hs, Bool.false_eq_true, if_false, hlimit]

/-- A limit that is not exceeded changes nothing. -/
lemma runFrom_of_le (h : n + steps es s ts ≤ limit) :
    runFrom (some limit) n es s ts = runFrom none n es s ts := by
  induction es generalizing n s ts with
  | nil => rfl
  | cons e es ih =>
    by_cases hs : s.isTerminal = true
    · rw [runFrom, runFrom, if_pos hs, if_pos hs]
    · rw [steps, if_neg hs] at h
      rw [runFrom_step (by simpa using hs) (by omega), ih (by omega), runFrom.eq_2 none, if_neg hs]
      rfl

/-- A limit that is exceeded cuts the evaluation off. -/
lemma runFrom_of_lt (hn : n ≤ limit) (h : limit < n + steps es s ts) :
    runFrom (some limit) n es s ts = .error (.stepLimitExceeded limit) := by
  induction es generalizing n s ts with
  | nil =>
    rw [steps] at h
    omega
  | cons e es ih =>
    by_cases hs : s.isTerminal = true
    · rw [steps, if_pos hs] at h
      omega
    · rw [steps, if_neg hs] at h
      by_cases hlast : limit ≤ n
      · exact runFrom_stop (by simpa using hs) hlast e
      · rw [runFrom_step (by simpa using hs) (by omega)]
        exact ih (by omega) (by omega)

/-- What is found under a limit is found without it. -/
lemma run_none_of_run {root : Node} {limit : Option Nat} {c : Cursor}
    (h : run ts es root limit = .ok c) : run ts es root none = .ok c := by
  cases limit with
  | none => exact h
  | some limit =>
    by_cases hlimit : limit < steps es (start (.borrow root)) ts
    · rw [run, runFrom_of_lt (Nat.zero_le _) (by rwa [Nat.zero_add])] at h
      cases h
    · rw [run, runFrom_of_le (by omega)] at h
      exact h

/-- Without a limit, an evaluation does not fail for the number of its steps. -/
lemma run_none_ne_stepLimitExceeded (ts : List Token) (es : List Event) (root : Node) (n : Nat) :
    run ts es root none ≠ .error (.stepLimitExceeded n) := by
  intro hrun
  rw [run, runFrom_none] at hrun
  cases hlast : (transitions es (start (.borrow root)) ts).1 with
  | failed error =>
    have hstart : (start (.borrow root)).Sound ts := trivial
    obtain ⟨e, hrefusal⟩ := refusal_of_transitions hstart (by simp [phase]) hlast
    rw [hlast] at hrun
    cases hrun
    cases hrefusal.kind
  | _ =>
    rw [hlast] at hrun
    cases hrun

/--
Evaluations of some tokens under some events take one number of steps on all documents. A lower
step limit ends each of them with an error of its own, and any other limit leaves the result of
going through all events. Under the tokens' own events there is a first step, and at most one more
than there are tokens.
-/
theorem run_stepLimit (ts : List Token) (es : List Event) :
    ∃ k ≤ es.length,
      (∀ root, (∀ limit < k,
          run ts es root (some limit) = .error (.stepLimitExceeded limit)) ∧
        (∀ limit ≥ k, run ts es root (some limit) = run ts es root none) ∧
        run ts es root none = (transitions es (start (.borrow root)) ts).1.result) ∧
      (es = Event.ofTokens ts → 1 ≤ k ∧ k ≤ ts.length + 1 ∧
        ∀ root n, run ts es root (some (ts.length + 1)) ≠ .error (.stepLimitExceeded n)) := by
  -- any document will do to count the steps
  refine ⟨steps es (start (.borrow .null)) ts, steps_le_length _ _ _, fun root => ?_, fun hes => ?_⟩
  · have hshape : SameShape (start (.borrow .null)) (start (.borrow root)) := .start _ _
    rw [hshape.steps_eq]
    refine ⟨fun limit hlimit => ?_, fun limit hlimit => ?_, runFrom_none _ _ _ _⟩
    · exact runFrom_of_lt (Nat.zero_le _) (by rwa [Nat.zero_add])
    · exact runFrom_of_le (by rwa [Nat.zero_add])
  · obtain ⟨es', hcons, hlength⟩ := Event.ofTokens_eq_cons ts
    have hle : ∀ root, steps es (start (.borrow root)) ts ≤ ts.length + 1 := by
      intro root
      have hsteps := steps_le_length es (start (.borrow root)) ts
      rw [hes, hcons, List.length_cons] at hsteps
      rw [hes, hcons]
      omega
    refine ⟨?_, hle _, fun root n hrun => ?_⟩
    · rw [hes, hcons, steps]
      exact Nat.succ_le_succ (Nat.zero_le _)
    · rw [run, runFrom_of_le (by simpa using hle root)] at hrun
      exact run_none_ne_stepLimitExceeded ts es root n hrun

end State
end YamlSieve
