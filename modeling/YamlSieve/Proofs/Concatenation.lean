import Mathlib.Data.List.Forall2
import YamlSieve.Proofs.Stream

/-!
# Streams in pieces

What is written of a result depends on the results before it in one respect only: whether one of
them was rendered as YAML. So the text of a stream is that of its results, with a separator in front
of every result rendered as YAML but the first one (`Output.Options.streamText_eq_join`), and a
stream that is cut in two is written like its parts, up to the separator at the cut
(`Output.Options.streamText_append`).
-/

namespace YamlSieve.Output

namespace Options

/-! ### The text of a result -/

/-- The text of a result alone: the lines of a plain text, or the rendered result. -/
def resultText (options : Options) (result : Node) : String :=
  if options.showsText result then String.join (result.scalarTexts.map (· ++ "\n"))
  else String.join (options.rendering result)

variable {options : Options}

/-- The pieces of a result make up its text, after a separator if one is due. -/
lemma join_map_pieces (separated : Bool) (result : Node) :
    String.join ((options.pieces separated result).map Piece.text) =
      (if separated && options.showsYaml result then "---\n" else "") ++
        options.resultText result := by
  rw [pieces, resultText]
  by_cases htext : options.showsText result = true
  · have hyaml : options.showsYaml result = false := by simp [showsYaml, htext]
    rw [if_pos htext, if_pos htext, hyaml, Bool.and_false]
    simp only [Bool.false_eq_true, if_false, String.empty_append]
    induction result.scalarTexts with
    | nil => rfl
    | cons text texts ih => simp [ih, String.append_assoc]
  · rw [if_neg htext, if_neg htext, List.map_append, String.join_append, List.map_map, List.map_map]
    have hrendering : (options.rendering result).map (Piece.text ∘ (⟨·, .resultRefused⟩)) =
        options.rendering result := List.map_id _
    rw [hrendering, separator]
    cases separated && options.showsYaml result <;> rfl

/-! ### The text of a stream -/

lemma streamPieces_append (separated : Bool) (results results' : List Node) :
    options.streamPieces separated (results ++ results') =
      options.streamPieces separated results ++
        options.streamPieces (separated || results.any options.showsYaml) results' := by
  induction results generalizing separated with
  | nil => simp [streamPieces]
  | cons result results ih =>
    rw [List.cons_append, streamPieces, streamPieces, ih, List.any_cons, Bool.or_assoc,
      List.append_assoc]

/-- A separator stands in front of a result rendered as YAML if there is one before it. -/
lemma join_map_streamPieces (separated : Bool) (results : List Node) :
    String.join ((options.streamPieces separated results).map Piece.text) =
      String.join (results.mapIdx fun i result =>
        (if (separated || (results.take i).any options.showsYaml) && options.showsYaml result
          then "---\n" else "") ++ options.resultText result) := by
  induction results generalizing separated with
  | nil => rfl
  | cons result results ih =>
    rw [streamPieces, List.map_append, String.join_append, join_map_pieces, ih, List.mapIdx_cons,
      String.join_cons]
    simp only [List.take_zero, List.any_nil, Bool.or_false, List.take_succ_cons, List.any_cons,
      Bool.or_assoc]
    rfl

lemma showsYaml_of_not_raw (h : options.raw = false) (result : Node) :
    options.showsYaml result = decide (options.format = .yaml) := by
  simp [showsYaml, showsText, h]

/-- Without plain texts, what came before a stream shows in front of its first result only. -/
lemma join_map_streamPieces_of_not_raw (h : options.raw = false) (separated : Bool)
    (results : List Node) :
    String.join ((options.streamPieces separated results).map Piece.text) =
      (if separated = true ∧ options.format = .yaml ∧ results ≠ [] then "---\n" else "") ++
        String.join ((options.streamPieces false results).map Piece.text) := by
  rw [join_map_streamPieces, join_map_streamPieces]
  by_cases hformat : options.format = .yaml
  · have hyaml : ∀ result, options.showsYaml result = true := by
      simp [showsYaml_of_not_raw h, hformat]
    cases results with
    | nil => simp
    | cons result results =>
      simp only [List.mapIdx_cons, List.take_succ_cons, List.any_cons, hyaml, Bool.true_or,
        Bool.or_true]
      simp [hformat, String.append_assoc]
  · have hyaml : ∀ result, options.showsYaml result = false := by
      simp [showsYaml_of_not_raw h, hformat]
    simp [hyaml, hformat]

lemma shown_append (results results' : List Node) :
    options.shown (results ++ results') = options.shown results ++ options.shown results' :=
  List.filter_append results results'

/-- The text of a stream, from the texts of its results. -/
theorem streamText_eq_join (results : List Node) :
    let stream := options.shown results
    options.streamText results = String.join (stream.mapIdx fun i result =>
      (if options.showsYaml result && (stream.take i).any options.showsYaml
        then "---\n" else "") ++ options.resultText result) := by
  simp only [streamText, join_map_streamPieces, Bool.false_or, Bool.and_comm]

/-- The text of a stream that is cut in two, from the texts of the parts. -/
theorem streamText_append (h : options.raw = false) (results results' : List Node) :
    options.streamText (results ++ results') =
      options.streamText results ++
        (if options.format = .yaml ∧ options.shown results ≠ [] ∧ options.shown results' ≠ []
          then "---\n" else "") ++
        options.streamText results' := by
  have hcut : (options.shown results).any options.showsYaml = true ∧ options.format = .yaml ∧
        options.shown results' ≠ [] ↔
      options.format = .yaml ∧ options.shown results ≠ [] ∧ options.shown results' ≠ [] := by
    cases options.shown results with
    | nil => simp
    | cons result results => simp +contextual [showsYaml_of_not_raw h]
  simp only [streamText, shown_append, streamPieces_append, List.map_append, String.join_append,
    Bool.false_or]
  rw [join_map_streamPieces_of_not_raw h (List.any _ _), if_congr hcut rfl rfl,
    String.append_assoc]

lemma length_shown (results : List Node) :
    (options.shown results).length =
      if options.skipAbsent then results.countP fun result => !result.isAbsent
      else results.length := by
  rw [shown, ← List.countP_eq_length_filter]
  cases hskip : options.skipAbsent <;> simp [skips, hskip]

end Options

/-! ### Pieces of a stream -/

variable {options : Options} {filter : Filter} {documents documents' results results' : List Node}

lemma Accepts.append (h : Accepts filter documents results)
    (h' : Accepts filter documents' results') :
    Accepts filter (documents ++ documents') (results ++ results') :=
  List.rel_append h h'

/--
A stream can be written in two parts: the results of both are counted together, and the text of the
second one follows that of the first. Without plain texts, a separator stands between them if they
are YAML and neither part is empty. With them, it takes the whole stream to tell where a separator
is due: in front of every result rendered as YAML that comes after another one.
-/
theorem write_append (options : Options) (h : Accepts filter documents results)
    (h' : Accepts filter documents' results') :
    ∃ m n t u v,
      (∀ content, write options filter documents { content } =
        (.ok m, { content := content ++ t })) ∧
      (∀ content, write options filter documents' { content } =
        (.ok n, { content := content ++ u })) ∧
      (∀ content, write options filter (documents ++ documents') { content } =
        (.ok (m + n), { content := content ++ v })) ∧
      m + n = (if options.skipAbsent
        then (results ++ results').countP fun result => !result.isAbsent
        else (documents ++ documents').length) ∧
      (options.raw = false →
        v = t ++ (if options.format = .yaml ∧ m ≠ 0 ∧ n ≠ 0 then "---\n" else "") ++ u) ∧
      let stream := options.shown (results ++ results')
      v = String.join (stream.mapIdx fun i result =>
        (if options.showsYaml result && (stream.take i).any options.showsYaml
          then "---\n" else "") ++ options.resultText result) := by
  have happend : Accepts filter (documents ++ documents') (results ++ results') := h.append h'
  have hlength : (options.shown (results ++ results')).length =
      (options.shown results).length + (options.shown results').length := by
    rw [Options.shown_append, List.length_append]
  refine ⟨_, _, _, _, _, write_of_accepts h, write_of_accepts h', fun content => ?_, ?_,
    fun hraw => ?_, options.streamText_eq_join _⟩
  · rw [write_of_accepts happend, hlength]
  · rw [← hlength, Options.length_shown, happend.length_eq]
  · simp only [ne_eq, List.length_eq_zero_iff]
    exact options.streamText_append hraw results results'

/-- A part of the stream ends with an absent result, and texts stand among YAML results. -/
theorem write_append_mixed :
    let ts : List Token := [.delim '\'', .delim '.', .word "a", .delim '\'']
    let filter : Filter := ⟨"'.a'", ts, Event.ofTokens ts, none⟩
    let results : List Node := [.string "x", .mapping [("b", .integer 1)], .absent]
    let results' : List Node := [.string "z", .mapping [("b", .integer 2)]]
    let documents (results : List Node) : List Node := results.map fun r => .mapping [("a", r)]
    let raw : Options := { raw := true }
    let yaml : Options := {}
    let t := "x\n---\nb: 1\n"
    let u := "z\n---\nb: 2\n"
    Filter.parse "'.a'" = .ok filter ∧ yaml.raw = false ∧
      Accepts filter (documents results) results ∧ Accepts filter (documents results') results' ∧
      write raw filter (documents results ++ documents results') {} =
        (.ok (2 + 2), { content := "x\nb: 1\nz\n---\nb: 2\n" }) ∧
      write yaml filter (documents results) {} = (.ok 2, { content := t }) ∧
      write yaml filter (documents results') {} = (.ok 2, { content := u }) ∧
      write yaml filter (documents results ++ documents results') {} =
        (.ok (2 + 2), { content := t ++ "---\n" ++ u }) := by
  intro ts filter results results' documents raw yaml t u
  have hparse : Filter.parse "'.a'" = .ok filter := rfl
  have hraw : yaml.raw = false := rfl
  have h : Accepts filter (documents results) results := .cons rfl (.cons rfl (.cons rfl .nil))
  have h' : Accepts filter (documents results') results' := .cons rfl (.cons rfl .nil)
  refine ⟨hparse, hraw, h, h', ?_, ?_⟩
  · obtain ⟨m, n, _, _, v, -, -, hwrite, hcount, -, htext⟩ := write_append raw h h'
    have hsum : m + n = 2 + 2 := hcount.trans (by decide)
    have hv : v = "x\nb: 1\nz\n---\nb: 2\n" := htext.trans (by decide +kernel)
    rw [hwrite, hsum, hv, String.empty_append]
  · obtain ⟨m, n, t', u', v, hm, hn, hwrite, -, htext, -⟩ := write_append yaml h h'
    have ht : write yaml filter (documents results) {} = (.ok 2, { content := t }) := by
      decide +kernel
    have hu : write yaml filter (documents results') {} = (.ok 2, { content := u }) := by
      decide +kernel
    have hmt := (hm "").symm.trans ht
    have hnu := (hn "").symm.trans hu
    simp only [String.empty_append, Prod.mk.injEq, Except.ok.injEq, Sink.mk.injEq, true_and]
      at hmt hnu
    obtain ⟨rfl, rfl⟩ := hmt
    obtain ⟨rfl, rfl⟩ := hnu
    refine ⟨ht, hu, ?_⟩
    rw [hwrite, htext hraw, String.empty_append]
    rfl

end YamlSieve.Output
