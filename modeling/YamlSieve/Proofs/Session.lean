import YamlSieve.Filter.Session
import YamlSieve.Proofs.PathSpelling

/-!
# Sessions

Reading at the position of a session takes tokens from the front of those that remain, and moves the
position to the first one that was not taken. The run of path steps there is a run in the sense of
`PathStep.Spelled`, the only one at this place, and a second reading finds none
(`Session.readRun_decodes`).
-/

namespace YamlSieve.Session

variable {s : Session} {ts rest : List Token}

/-! ### Positions -/

@[simp] lemma remaining_new (ts : List Token) : (new ts).remaining = ts := rfl

/-- Beyond the end there is nothing, so the cut at the end leaves nothing out. -/
lemma remaining_moveTo (s : Session) (place : Nat) :
    (s.moveTo place).remaining = s.tokens.drop place := by
  show s.tokens.drop (min place s.tokens.length) = _
  rcases Nat.le_total place s.tokens.length with hle | hle
  · rw [Nat.min_eq_left hle]
  · rw [Nat.min_eq_right hle, List.drop_length, List.drop_eq_nil_of_le hle]

/-- The position is moved to the given end of the tokens that remain. -/
lemma remaining_leaving (h : rest <:+ s.remaining) : (s.leaving rest).remaining = rest := by
  rw [leaving, remaining_moveTo]
  exact (List.suffix_iff_eq_drop.mp (h.trans (List.drop_suffix _ _))).symm

/-- Where nothing is read, the position stays. -/
lemma leaving_remaining (s : Session) : s.leaving s.remaining = s := by
  obtain ⟨tokens, position, hle⟩ := s
  have hplace : min (tokens.length - (tokens.drop position).length) tokens.length = position := by
    rw [List.length_drop]
    omega
  simp only [leaving, moveTo, remaining, hplace]

/-! ### Path steps -/

lemma remaining_readRun (s : Session) :
    s.readRun.2.remaining = (PathStep.readRun s.remaining).2 :=
  remaining_leaving (PathStep.readRun_suffix _)

/--
Reading the path steps at the position takes a run of them, which ends in front of the rest; the
rest starts with no dot, and a second reading takes nothing. If the tokens of some steps remain, in
front of a rest that continues neither these nor the last of them, then these steps are read, and
the rest is left.
-/
theorem readRun_decodes (s : Session) :
    (∃ run, s.remaining = run ++ s.readRun.2.remaining ∧ PathStep.Spelled s.readRun.1 run ∧
        PathStep.Ends run s.readRun.2.remaining) ∧
      (∀ us, s.readRun.2.remaining ≠ .delim '.' :: us) ∧
      s.readRun.2.readRun = ([], s.readRun.2) ∧
      ∀ steps rest, s.remaining = steps.flatMap PathStep.tokens ++ rest →
        (∀ us, rest ≠ .delim '.' :: us) →
        (∀ k, steps.getLast? = some (.key k) → ∀ us, rest ≠ .delim '[' :: .delim ']' :: us) →
        s.readRun.1 = steps ∧ s.readRun.2.remaining = rest := by
  obtain ⟨run, hsplit, hspelled, hends⟩ := PathStep.readRun_spelled s.remaining
  rw [remaining_readRun]
  refine ⟨⟨run, hsplit, hspelled, hends⟩, hends.dot, ?_, fun steps rest hrest hdot hkey => ?_⟩
  · have hagain : PathStep.readRun s.readRun.2.remaining = ([], s.readRun.2.remaining) := by
      rw [remaining_readRun]
      exact PathStep.readRun_of_ne_dot hends.dot
    rw [readRun, hagain]
    exact congrArg _ (leaving_remaining _)
  · have hread := PathStep.readRun_eq_iff.mpr
      ⟨_, hrest, .of_tokens steps, PathStep.ends_tokens hdot hkey⟩
    exact Prod.mk.inj hread

/-- In `.a[]..b[`, a lone dot is passed over, and a bracket that is not closed is left. -/
example :
    let s := Session.new [.delim '.', .word "a", .delim '[', .delim ']', .delim '.', .delim '.',
      .word "b", .delim '[']
    s.readRun.1 = [.flattenKey "a", .key "b"] ∧ s.readRun.2.remaining = [.delim '['] :=
  ⟨rfl, rfl⟩

end YamlSieve.Session
