import YamlSieve.CommandLine.Job
import YamlSieve.Proofs.Independence

/-!
# Writing a stream

The results of a stream are written one by one, and what is written is never taken back. Where a
filter is accepted on all documents, this comes to the same as finding all results first and then
writing one list of pieces (`Output.writeFrom_eq_writeAll`). Where it is rejected on a document, it
is rejected on the first one, because no document has a say in that. So a sink that takes every
text gets all results or not a single byte (`Output.write_cases`).
-/

namespace YamlSieve.Output

/-! ### Pieces -/

namespace Piece

lemma writeAll_append (pieces pieces' : List Piece) (sink : Sink) :
    writeAll (pieces ++ pieces') sink =
      match writeAll pieces sink with
      | (.ok (), sink)         => writeAll pieces' sink
      | (.error failure, sink) => (.error failure, sink) := by
  induction pieces generalizing sink with
  | nil => rfl
  | cons piece pieces ih =>
    rw [List.cons_append, writeAll, writeAll]
    cases sink.write? piece.text with
    | none => rfl
    | some sink => exact ih sink

/-- A sink without a capacity takes all pieces. -/
lemma writeAll_unbounded (pieces : List Piece) (content : String) :
    writeAll pieces { content } =
      (.ok (), { content := content ++ String.join (pieces.map text) }) := by
  induction pieces generalizing content with
  | nil => simp [writeAll]
  | cons piece pieces ih =>
    rw [List.map_cons, String.join_cons, ← String.append_assoc]
    exact ih (content ++ piece.text)

end Piece

namespace Options

/-- The results that are written at all. -/
def shown (options : Options) (results : List Node) : List Node :=
  results.filter fun result => !options.skips result

/-- The pieces of all results; `separated` tells of an earlier YAML document. -/
def streamPieces (options : Options) (separated : Bool) : List Node → List Piece
  | []                => []
  | result :: results =>
    options.pieces separated result ++
      streamPieces options (separated || options.showsYaml result) results

/-- The text of all results of a stream. -/
def streamText (options : Options) (results : List Node) : String :=
  String.join ((options.streamPieces false (options.shown results)).map Piece.text)

end Options

/-! ### Streams -/

/-- The filter finds one result in each of the documents. -/
def Accepts (filter : Filter) (documents results : List Node) : Prop :=
  List.Forall₂ (fun document result => filter.apply document = .ok result) documents results

variable {options : Options} {filter : Filter} {documents results : List Node}

/-- The results of accepted documents are written as if all were found before. -/
theorem writeFrom_eq_writeAll (h : Accepts filter documents results) (n : Nat) (separated : Bool)
    (sink : Sink) :
    writeFrom options filter n separated documents sink =
      let (outcome, sink) :=
        Piece.writeAll (options.streamPieces separated (options.shown results)) sink
      (outcome.map fun () => (options.shown results).length, sink) := by
  -- a skipped result adds no pieces and does not count; any other one puts its pieces in front
  induction h generalizing n separated sink with
  | nil => rfl
  | @cons document result documents results happly _ ih =>
    rw [writeFrom, happly]
    by_cases hskip : options.skips result = true
    · have hshown : options.shown (result :: results) = options.shown results := by
        simp [Options.shown, hskip]
      rw [hshown]
      simp only [hskip, if_true]
      exact ih (n + 1) separated sink
    · have hshown : options.shown (result :: results) = result :: options.shown results := by
        simp [Options.shown, hskip]
      rw [hshown, Options.streamPieces, Piece.writeAll_append]
      simp only [hskip, Bool.false_eq_true, if_false]
      cases hwrite : Piece.writeAll (options.pieces separated result) sink with
      | mk outcome sink' =>
        cases outcome with
        | error failure => rfl
        | ok =>
          simp only [ih]
          cases Piece.writeAll (options.streamPieces (separated || options.showsYaml result)
            (options.shown results)) sink' with
          | mk outcome sink'' => cases outcome <;> rfl

/-- A filter finds results in all documents of a stream, or fails in the same way on all of them. -/
lemma accepts_or_fails (filter : Filter) (document : Node) (documents : List Node) :
    (∃ results, Accepts filter (document :: documents) results) ∨
      ∃ cause, ∀ d ∈ document :: documents, filter.apply d = .error cause := by
  cases happly : filter.apply document with
  | error cause =>
    refine Or.inr ⟨cause, fun d _ => ?_⟩
    exact ((filter.apply_sameOutcome document d).error_iff cause).mp happly
  | ok result =>
    refine Or.inl ?_
    generalize document :: documents = stream
    induction stream with
    | nil => exact ⟨[], .nil⟩
    | cons d stream ih =>
      obtain ⟨results, hresults⟩ := ih
      obtain ⟨r, hr⟩ := (filter.apply_sameOutcome document d).ok_iff.mp ⟨result, happly⟩
      exact ⟨r :: results, .cons hr hresults⟩

lemma write_of_accepts (h : Accepts filter documents results) (content : String) :
    write options filter documents { content } =
      (.ok (options.shown results).length,
        { content := content ++ options.streamText results }) := by
  rw [write, writeFrom_eq_writeAll h, Piece.writeAll_unbounded]
  rfl

lemma write_of_fails {document : Node} {cause : FilterError}
    (h : filter.apply document = .error cause) (sink : Sink) :
    write options filter (document :: documents) sink = (.error (.filter 1 cause), sink) := by
  rw [write, writeFrom, h]

end YamlSieve.Output

namespace YamlSieve

open Output

/-! ### Command lines -/

/-- A run that fails has printed nothing, whatever it fails on. -/
lemma CommandLine.Job.run_failure_or_output (job : Job) (bytes : Option ByteArray) :
    (job.run bytes).failure = none ∨ (job.run bytes).output = "" := by
  rw [run]
  split
  · exact Or.inr rfl
  · next documents _ =>
    cases documents with
    | nil => exact Or.inl rfl
    | cons document documents =>
      rcases accepts_or_fails job.filter document documents with ⟨results, h⟩ | ⟨cause, h⟩
      · rw [write_of_accepts h ""]
        exact Or.inl rfl
      · rw [write_of_fails (h document List.mem_cons_self)]
        exact Or.inr rfl

/--
A sink that takes every text gets the results of all documents or, where the filter is rejected,
nothing: that shows on the first document, whichever the documents are. Without documents there is
nothing to write and nothing to fail. So a run of the command line that ends with the status 1 has
printed nothing.
-/
theorem Output.write_all_or_nothing (options : Options) (filter : Filter) (content : String) :
    (∀ document documents,
      (∃ results, Accepts filter (document :: documents) results ∧
        write options filter (document :: documents) { content } =
          (.ok (options.shown results).length,
            { content := content ++ options.streamText results })) ∨
      ∃ cause, (∀ d ∈ document :: documents, filter.apply d = .error cause) ∧
        write options filter (document :: documents) { content } =
          (.error (.filter 1 cause), { content }) ∧
        (Failure.filter 1 cause).messages.head? = some "Filter failed on document 1") ∧
      (∀ sink, write options filter [] sink = (.ok 0, sink)) ∧
      ∀ arguments configuration bytes,
        let outcome := CommandLine.Job.outcome (CommandLine.Job.make arguments configuration) bytes
        outcome.exitCode = 1 → outcome.output = "" := by
  refine ⟨fun document documents => ?_, fun sink => rfl, ?_⟩
  · rcases accepts_or_fails filter document documents with ⟨results, h⟩ | ⟨cause, h⟩
    · exact Or.inl ⟨results, h, write_of_accepts h content⟩
    · refine Or.inr ⟨cause, h, write_of_fails (h document List.mem_cons_self) _, ?_⟩
      rfl
  · intro arguments configuration bytes outcome hexit
    -- without a job nothing is run; with one, output and failure exclude each other
    cases hjob : CommandLine.Job.make arguments configuration with
    | error failure =>
      simp [outcome, hjob, CommandLine.Job.outcome]
    | ok job =>
      have houtcome : outcome = job.run bytes := by
        simp [outcome, hjob, CommandLine.Job.outcome]
      rw [houtcome] at hexit ⊢
      rcases job.run_failure_or_output bytes with hfailure | houtput
      · simp [CommandLine.Outcome.exitCode, hfailure] at hexit
      · exact houtput

end YamlSieve
