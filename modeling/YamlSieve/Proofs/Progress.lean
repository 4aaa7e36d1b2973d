import YamlSieve.Proofs.Move

/-!
# Progress of an evaluation

An evaluation may be given any events, not only those of its own tokens. Whatever they are, every
step keeps the invariant `State.Sound` and either takes tokens from the front or fails, and a
terminal state stays as it is (`State.transitions_invariant`). Since the closing quote is there
until the end, two of the diagnostics are never given: neither a path nor the end of the
expression is looked for when no tokens are left.
-/

namespace YamlSieve.State

variable {s : State} {ts : List Token} {error : FilterError}

/-! ### Single steps -/

lemma isTerminal_of_failed (h : s.phase = .failed) : s.isTerminal = true := by
  cases s <;> simp [phase, isTerminal] at h ⊢

lemma transition_of_isTerminal (hs : s.isTerminal = true) (e : Event) (ts : List Token) :
    s.transition e ts = (s, ts) :=
  transitions_of_isTerminal hs [e] ts

theorem Sound.transition (hsound : s.Sound ts) (e : Event) :
    (s.transition e ts).1.Sound (s.transition e ts).2 := by
  by_cases hs : s.isTerminal = true
  · rw [transition_of_isTerminal hs]
    exact hsound
  · rcases transition_outcome hsound (by simpa using hs) e with hmove | ⟨error, hfailed, -⟩
    · exact hmove.sound hsound
    · rw [hfailed]
      trivial

lemma transition_suffix (hsound : s.Sound ts) (e : Event) : (s.transition e ts).2 <:+ ts := by
  by_cases hs : s.isTerminal = true
  · simp [transition_of_isTerminal hs]
  · rcases transition_outcome hsound (by simpa using hs) e with hmove | ⟨error, -, -, hsuffix⟩
    · exact hmove.suffix
    · exact hsuffix

/-- A step that does not fail takes tokens. -/
lemma transition_length_lt (hsound : s.Sound ts) (hs : s.isTerminal = false) (e : Event) :
    (s.transition e ts).1.phase = .failed ∨ (s.transition e ts).2.length < ts.length := by
  rcases transition_outcome hsound hs e with hmove | ⟨error, hfailed, -⟩
  · exact Or.inr hmove.length_lt
  · rw [hfailed]
    exact Or.inl rfl

lemma refusal_of_transition (hsound : s.Sound ts) (hs : s.isTerminal = false) {e : Event}
    (h : (s.transition e ts).1 = failed error) : Refusal e error := by
  rcases transition_outcome hsound hs e with hmove | ⟨error', hfailed, hrefusal, -⟩
  · -- no move leads to a failure
    rw [h] at hmove
    cases hmove
  · rw [hfailed] at h
    cases h
    exact hrefusal

/-! ### Whole evaluations -/

theorem Sound.transitions (hsound : s.Sound ts) (es : List Event) :
    (transitions es s ts).1.Sound (transitions es s ts).2 := by
  induction es generalizing s ts with
  | nil => exact hsound
  | cons e es ih => exact ih (hsound.transition e)

lemma transitions_suffix (hsound : s.Sound ts) (es : List Event) :
    (transitions es s ts).2 <:+ ts := by
  induction es generalizing s ts with
  | nil => exact List.suffix_rfl
  | cons e es ih => exact (ih (hsound.transition e)).trans (transition_suffix hsound e)

/-- An evaluation that has failed did so at one of its steps. -/
lemma refusal_of_transitions (hsound : s.Sound ts) (hs : s.phase ≠ .failed) {es : List Event}
    (h : (transitions es s ts).1 = failed error) : ∃ e, Refusal e error := by
  induction es generalizing s ts with
  | nil =>
    obtain rfl : s = failed error := h
    exact absurd rfl hs
  | cons e es ih =>
    by_cases hnext : (s.transition e ts).1.phase = .failed
    · rw [transitions_cons, transitions_of_isTerminal (isTerminal_of_failed hnext)] at h
      have hopen : s.isTerminal = false := by
        by_contra hterminal
        rw [transition_of_isTerminal (by simpa using hterminal)] at hnext
        exact hs hnext
      exact ⟨e, refusal_of_transition hsound hopen h⟩
    · exact ih (hsound.transition e) hnext h

/-- Once the expression is open, tokens have been taken. -/
lemma transitions_length_lt (c : Cursor) (ts : List Token) (es : List Event)
    (hphase : (transitions es (start c) ts).1.phase ∈ [Phase.pipe, .path, .call]) :
    (transitions es (start c) ts).2.length < ts.length := by
  have hsound : (start c).Sound ts := trivial
  cases es with
  | nil => simp [phase] at hphase
  | cons e es =>
    rw [transitions_cons] at hphase ⊢
    have hsuffix := transitions_suffix (hsound.transition e) es
    rcases transition_length_lt hsound rfl e with hfailed | hlt
    · -- a failure would have been kept
      rw [transitions_of_isTerminal (isTerminal_of_failed hfailed), hfailed] at hphase
      simp at hphase
    · exact hsuffix.length_le.trans_lt hlt

/-! ### Diagnostics -/

lemma Refusal.message_ne_noClosingQuote {e : Event} (h : Refusal e error) :
    error.message ≠ "missing closing single quote" := by
  unfold FilterError.message
  cases h with
  | function h =>
    cases h with
    | predicate h => cases h <;> simp [← String.toList_inj]
    | _ => simp [← String.toList_inj]
  | _ => simp [← String.toList_inj]

lemma Refusal.message_ne_missingArguments (h : Refusal .path error) :
    error.message ≠ "missing arguments" := by
  unfold FilterError.message
  cases h <;> simp [← String.toList_inj]

/--
Under any events: while an expression is open, what is left of its tokens is a proper part of them
up to the closing quote; calls are calls of `select`, and a pending one is followed by its closing
parenthesis; no tokens are left at the end. A step takes tokens or fails, and never gives any
back; a terminal state is kept, with its tokens. So an expression never turns out to lack its
closing quote, nor a path to lack its dot because no tokens are left.
-/
theorem transitions_invariant (ts : List Token) (root : Node) (es : List Event) :
    let next := transitions es (start (.borrow root)) ts
    (next.1.phase ∈ [Phase.pipe, .path, .call] → next.2 ≠ [] ∧ next.2 <:+ ts ∧ next.2 ≠ ts ∧
        next.2.getLast? = some (.delim '\'')) ∧
      (∀ c name pending, next.1 = call c name pending →
        name = "select" ∧ (pending = true → next.2.head? = some (.delim ')'))) ∧
      (next.1.phase = .done → next.2 = []) ∧
      (∀ e, (next.1.isTerminal = false → (next.1.transition e next.2).1.phase = .failed ∨
          (next.1.transition e next.2).2.length < next.2.length) ∧
        (next.1.transition e next.2).2 <:+ next.2) ∧
      (next.1.isTerminal = true → ∀ fs, transitions fs next.1 next.2 = next) ∧
      (∀ error, next.1 = failed error → error.message ≠ "missing closing single quote") ∧
      (next.1.isTerminal = false → ∀ error, (next.1.transition .path next.2).1 = failed error →
        error.message ≠ "missing arguments") := by
  intro next
  have hstart : (start (.borrow root)).Sound ts := trivial
  -- only soundness is carried from step to step; each part is read off the state it ends in
  have hsound : next.1.Sound next.2 := hstart.transitions es
  refine ⟨fun hphase => ⟨hsound.ne_nil hphase, ?_, ?_, ?_⟩, ?_, ?_, fun e => ⟨?_, ?_⟩, ?_, ?_, ?_⟩
  · exact transitions_suffix hstart es
  · intro hts
    have hlt := transitions_length_lt (.borrow root) ts es hphase
    exact absurd (congrArg List.length hts) hlt.ne
  · exact hsound.getLast?_eq hphase
  · intro c name pending hcall
    rw [hcall] at hsound
    exact ⟨hsound.1, hsound.2.2⟩
  · intro hdone
    cases hnext : next.1 with
    | done c =>
      rw [hnext] at hsound
      exact hsound
    | _ => simp [hnext, phase] at hdone
  · exact fun hs => transition_length_lt hsound hs e
  · exact transition_suffix hsound e
  · exact fun hs fs => transitions_of_isTerminal hs fs next.2
  · intro error herror
    obtain ⟨e, hrefusal⟩ := refusal_of_transitions hstart (by simp [phase]) herror
    exact hrefusal.message_ne_noClosingQuote
  · intro hs error herror
    exact (refusal_of_transition hsound hs herror).message_ne_missingArguments

end YamlSieve.State
