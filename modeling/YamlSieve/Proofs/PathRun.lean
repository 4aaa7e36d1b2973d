import Mathlib.Data.List.Basic
import YamlSieve.Filter.Path

/-!
# Runs of path steps

What `PathStep.readRun` takes from the front of a token list is a run: a prefix that consists of
dots, words and square brackets, and behind which no dot stands. A delimiter that belongs to no
path step ends every run, so what is read in front of it does not depend on what comes after it.
-/

namespace YamlSieve

namespace Token

/-- Whether a token can be a part of a run of path steps. -/
def isOfPath : Token → Bool
  | word _  => true
  | delim c => c = '.' || c = '[' || c = ']'

end Token

namespace PathStep

lemma readRun_split (ts : List Token) :
    ∃ run, ts = run ++ (readRun ts).2 ∧ ∀ t ∈ run, t.isOfPath := by
  fun_induction readRun ts with
  | case1 k ts steps rest hread ih =>
    obtain ⟨run, hts, hrun⟩ := ih
    refine ⟨.delim '.' :: .word k :: .delim '[' :: .delim ']' :: run, ?_, ?_⟩
    · simpa [hread] using hts
    · simpa [Token.isOfPath] using hrun
  | case2 ts steps rest hread ih =>
    obtain ⟨run, hts, hrun⟩ := ih
    refine ⟨.delim '.' :: .delim '[' :: .delim ']' :: run, ?_, ?_⟩
    · simpa [hread] using hts
    · simpa [Token.isOfPath] using hrun
  | case3 k ts _ steps rest hread ih =>
    obtain ⟨run, hts, hrun⟩ := ih
    refine ⟨.delim '.' :: .word k :: run, ?_, ?_⟩
    · simpa [hread] using hts
    · simpa [Token.isOfPath] using hrun
  | case4 ts _ _ _ ih =>
    obtain ⟨run, hts, hrun⟩ := ih
    refine ⟨.delim '.' :: run, ?_, ?_⟩
    · simpa using hts
    · simpa [Token.isOfPath] using hrun
  | case5 ts => exact ⟨[], rfl, by simp⟩

lemma readRun_suffix (ts : List Token) : (readRun ts).2 <:+ ts := by
  obtain ⟨run, hsplit, -⟩ := readRun_split ts
  exact ⟨run, hsplit.symm⟩

/-- In front of anything but a dot, no step is read. -/
lemma readRun_of_ne_dot {ts : List Token} (h : ∀ us, ts ≠ .delim '.' :: us) :
    readRun ts = ([], ts) :=
  readRun.eq_5 ts (fun _ _ => h _) (fun _ => h _) (fun _ _ => h _) h

/-- Behind a run stands no dot. -/
lemma readRun_rest_ne_dot (ts us : List Token) : (readRun ts).2 ≠ .delim '.' :: us := by
  fun_induction readRun ts with
  | case1 k ts steps rest hread ih => simpa [hread] using ih
  | case2 ts steps rest hread ih => simpa [hread] using ih
  | case3 k ts _ steps rest hread ih => simpa [hread] using ih
  | case4 ts _ _ _ ih => exact ih
  | case5 ts _ _ _ hdot => exact fun h => hdot us h

/-- A run that starts with a dot takes at least this dot. -/
lemma readRun_dot_length_lt (ts : List Token) :
    (readRun (.delim '.' :: ts)).2.length < ts.length + 1 := by
  obtain ⟨run, hts, -⟩ := readRun_split (.delim '.' :: ts)
  cases run with
  | nil => exact absurd hts.symm (readRun_rest_ne_dot _ ts)
  | cons t run =>
    have hlen := congrArg List.length hts
    simp only [List.length_cons, List.length_append] at hlen
    omega

/-- A delimiter that is no part of a path ends a run, whatever stands after it. -/
lemma readRun_append_delim {c : Char} (hc : (Token.delim c).isOfPath = false)
    (ts us : List Token) :
    readRun (ts ++ .delim c :: us) = ((readRun ts).1, (readRun ts).2 ++ .delim c :: us) := by
  -- `c` is neither bracket, so brackets that follow were there before
  have hbrackets : ∀ ts vs : List Token, ts ++ .delim c :: us = .delim '[' :: .delim ']' :: vs →
      ∃ ws, ts = .delim '[' :: .delim ']' :: ws := by
    intro ts vs h
    rcases ts with _ | ⟨a, _ | ⟨b, ts⟩⟩ <;> simp_all [Token.isOfPath]
  fun_induction readRun ts with
  | case1 k ts steps rest hread ih => simp [readRun, ih, hread]
  | case2 ts steps rest hread ih => simp [readRun, ih, hread]
  | case3 k ts hts steps rest hread ih =>
    rw [List.cons_append, List.cons_append, readRun, ih, hread]
    intro vs h
    obtain ⟨ws, hws⟩ := hbrackets ts vs h
    exact hts ws hws
  | case4 ts hkey hts hword ih =>
    have hnoWord : ∀ k vs, ts ++ .delim c :: us ≠ .word k :: vs := by
      intro k vs h
      cases ts with
      | nil => simp at h
      | cons t ts => exact hword k ts (by rw [(List.cons.inj h).1])
    rw [List.cons_append, readRun, ih]
    · exact fun k vs h => hnoWord k _ h
    · intro vs h
      obtain ⟨ws, hws⟩ := hbrackets ts vs h
      exact hts ws hws
    · exact fun k vs h => hnoWord k vs h
  | case5 ts _ _ _ hdot =>
    have hnoDot : ∀ vs, ts ++ .delim c :: us ≠ .delim '.' :: vs := by
      intro vs h
      cases ts with
      | nil => simp_all [Token.isOfPath]
      | cons t ts => exact hdot ts (by rw [(List.cons.inj h).1])
    exact readRun_of_ne_dot hnoDot

/-- In front of such a delimiter, reading leaves exactly what it leaves without it. -/
lemma readRun_append_delim_iff {c : Char} (hc : (Token.delim c).isOfPath = false)
    {ts us rest : List Token} {steps : List PathStep} :
    readRun (ts ++ .delim c :: us) = (steps, rest ++ .delim c :: us) ↔
      readRun ts = (steps, rest) := by
  rw [readRun_append_delim hc, Prod.ext_iff, Prod.ext_iff]
  simp only [List.append_cancel_right_eq]

end PathStep
end YamlSieve
