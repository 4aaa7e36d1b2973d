import YamlSieve.Proofs.Stream

/-!
# Refused texts

A sink with a capacity takes the pieces of a stream up to the first one that does not fit, and the
failure of that piece ends the stream (`Output.Piece.writeAll_bounded`). So nothing is written after
a refused text, and what such a sink holds is always a beginning of the full text.
-/

namespace YamlSieve.Output

namespace Sink

lemma admits_bounded (text : String) (n : Nat) (content : String) :
    admits text { capacity := some n, content } = true ↔
      (content ++ text).utf8ByteSize ≤ n := by
  rw [admits, decide_eq_true_eq, String.utf8ByteSize_append]

/-- What begins with a text that does not fit does not fit either, and is not empty. -/
lemma too_long_append {content text : String} {n : Nat} (hcontent : content.utf8ByteSize ≤ n)
    (htext : n < (content ++ text).utf8ByteSize) (rest : String) :
    n < (content ++ (text ++ rest)).utf8ByteSize ∧ text ++ rest ≠ "" := by
  have hlong : n < (content ++ (text ++ rest)).utf8ByteSize := by
    rw [← String.append_assoc, String.utf8ByteSize_append]
    exact Nat.lt_add_right _ htext
  refine ⟨hlong, fun hempty => ?_⟩
  rw [hempty, String.append_empty] at hlong
  exact Nat.not_lt_of_le hcontent hlong

end Sink

namespace Piece

/-- All pieces fit, or those before the first one that does not fit are written. -/
lemma writeAll_bounded (pieces : List Piece) (n : Nat) {content : String}
    (hcontent : content.utf8ByteSize ≤ n) :
    (writeAll pieces { capacity := some n, content } =
        (.ok (), { capacity := some n, content := content ++ String.join (pieces.map text) }) ∧
      (content ++ String.join (pieces.map text)).utf8ByteSize ≤ n) ∨
    ∃ before piece after, pieces = before ++ piece :: after ∧
      (content ++ String.join (before.map text)).utf8ByteSize ≤ n ∧
      n < (content ++ String.join (before.map text) ++ piece.text).utf8ByteSize ∧
      writeAll pieces { capacity := some n, content } =
        (.error piece.failure,
          { capacity := some n, content := content ++ String.join (before.map text) }) := by
  induction pieces generalizing content with
  | nil => exact Or.inl ⟨by simp [writeAll], by simpa using hcontent⟩
  | cons piece pieces ih =>
    -- the room left only shrinks: the first piece that does not fit ends the writing
    by_cases hfits : (content ++ piece.text).utf8ByteSize ≤ n
    · have hwrite : Sink.write? piece.text { capacity := some n, content } =
          some { capacity := some n, content := content ++ piece.text } := by
        rw [Sink.write?, if_pos ((Sink.admits_bounded _ _ _).mpr hfits)]
      rw [writeAll, hwrite, List.map_cons, String.join_cons, ← String.append_assoc]
      rcases ih hfits with hall | ⟨before, refused, after, rfl, hbefore, hrefused, herror⟩
      · exact Or.inl hall
      · refine Or.inr ⟨piece :: before, refused, after, rfl, ?_⟩
        rw [List.map_cons, String.join_cons, ← String.append_assoc]
        exact ⟨hbefore, hrefused, herror⟩
    · have hwrite : Sink.write? piece.text { capacity := some n, content } = none := by
        rw [Sink.write?, if_neg (mt (Sink.admits_bounded _ _ _).mp hfits)]
      refine Or.inr ⟨[], piece, pieces, rfl, ?_⟩
      rw [writeAll, hwrite, List.map_nil, String.join_nil, String.append_empty]
      exact ⟨hcontent, Nat.lt_of_not_le hfits, rfl⟩

end Piece

namespace Options

variable {options : Options}

lemma failure_of_mem_pieces {separated : Bool} {result : Node} {piece : Piece}
    (h : piece ∈ options.pieces separated result) :
    piece.failure = .textRefused ∨ piece.failure = .resultRefused := by
  rw [pieces] at h
  split at h
  · obtain ⟨text, -, htext⟩ := List.mem_flatMap.mp h
    simp only [List.mem_cons, List.not_mem_nil, or_false] at htext
    rcases htext with rfl | rfl <;> exact Or.inl rfl
  · rcases List.mem_append.mp h with hseparator | hrendering
    · obtain ⟨text, -, rfl⟩ := List.mem_map.mp hseparator
      exact Or.inl rfl
    · obtain ⟨text, -, rfl⟩ := List.mem_map.mp hrendering
      exact Or.inr rfl

lemma failure_of_mem_streamPieces {separated : Bool} {results : List Node} {piece : Piece}
    (h : piece ∈ options.streamPieces separated results) :
    piece.failure = .textRefused ∨ piece.failure = .resultRefused := by
  induction results generalizing separated with
  | nil => exact absurd h List.not_mem_nil
  | cons result results ih =>
    rw [streamPieces] at h
    exact (List.mem_append.mp h).elim failure_of_mem_pieces ih

end Options

variable {filter : Filter} {documents results : List Node}

/--
A sink with a capacity takes a stream, and the results are counted as ever, if and only if the full
text of the stream fits into it. Otherwise writing fails, although the filter does not, and the sink
holds a beginning of that text, with something missing at the end.
-/
theorem write_bounded (options : Options) (h : Accepts filter documents results) (n : Nat) :
    ∃ count text, write options filter documents {} = (.ok count, { content := text }) ∧
      let written := write options filter documents { capacity := some n }
      (written.1 = .ok count ↔ text.utf8ByteSize ≤ n) ∧
      (text.utf8ByteSize ≤ n → written.2.content = text) ∧
      (n < text.utf8ByteSize → ∃ failure rest,
        written.1 = .error failure ∧ (failure = .textRefused ∨ failure = .resultRefused) ∧
          written.2.content.utf8ByteSize ≤ n ∧ text = written.2.content ++ rest ∧ rest ≠ "") := by
  have hfull : write options filter documents {} =
      (.ok (options.shown results).length, { content := options.streamText results }) := by
    rw [write_of_accepts h, String.empty_append]
  have hzero : ("" : String).utf8ByteSize ≤ n := Nat.zero_le n
  refine ⟨_, _, hfull, ?_⟩
  rw [write, writeFrom_eq_writeAll h, Options.streamText]
  rcases Piece.writeAll_bounded (options.streamPieces false (options.shown results)) n hzero with
    ⟨hall, hfits⟩ | ⟨before, piece, after, hpieces, hbefore, hrefused, herror⟩
  · rw [hall]
    rw [String.empty_append] at hfits ⊢
    exact ⟨iff_of_true rfl hfits, fun _ => rfl, fun hlt => absurd hfits (Nat.not_le_of_lt hlt)⟩
  · have hmem : piece ∈ options.streamPieces false (options.shown results) := by
      rw [hpieces]
      exact List.mem_append_cons_self
    rw [herror, hpieces, List.map_append, List.map_cons, String.join_append, String.join_cons]
    rw [String.empty_append] at hbefore hrefused ⊢
    -- the refused piece and all later ones are what the sink misses
    obtain ⟨hlong, hne⟩ :=
      Sink.too_long_append hbefore hrefused (String.join (after.map Piece.text))
    refine ⟨iff_of_false (fun hok => by cases hok) (Nat.not_le_of_lt hlong), ?_, fun _ => ?_⟩
    · exact fun hfits => absurd hfits (Nat.not_le_of_lt hlong)
    · exact ⟨piece.failure, _, rfl, Options.failure_of_mem_streamPieces hmem, hbefore, rfl, hne⟩

/-- A text of seven bytes: the line break of the first line is refused, or everything fits. -/
theorem write_bounded_lines :
    let ts : List Token := [.delim '\'', .delim '.', .word "a", .delim '\'']
    let filter : Filter := ⟨"'.a'", ts, Event.ofTokens ts, none⟩
    let results : List Node := [.string "x", .mapping [("b", .integer 1)]]
    let documents : List Node := results.map fun r => .mapping [("a", r)]
    let raw : Options := { raw := true }
    let text := "x\nb: 1\n"
    Filter.parse "'.a'" = .ok filter ∧ Accepts filter documents results ∧
      write raw filter documents {} = (.ok 2, { content := text }) ∧
      text.utf8ByteSize ≤ 7 ∧ 1 < text.utf8ByteSize ∧
      (write raw filter documents { capacity := some 7 }).1 = .ok 2 ∧
      (write raw filter documents { capacity := some 7 }).2.content = text ∧
      (∃ failure rest, (write raw filter documents { capacity := some 1 }).1 = .error failure ∧
        text = (write raw filter documents { capacity := some 1 }).2.content ++ rest ∧ rest ≠ "") ∧
      write raw filter documents { capacity := some 1 } =
        (.error .textRefused, { capacity := some 1, content := "x" }) := by
  intro ts filter results documents raw text
  have hparse : Filter.parse "'.a'" = .ok filter := rfl
  have h : Accepts filter documents results := .cons rfl (.cons rfl .nil)
  have hfull : write raw filter documents {} = (.ok 2, { content := text }) := by decide +kernel
  have hfits : text.utf8ByteSize ≤ 7 := by decide
  have hlong : 1 < text.utf8ByteSize := by decide
  refine ⟨hparse, h, hfull, hfits, hlong, ?_⟩
  obtain ⟨count, full, hwrite, hok, hcontent, -⟩ := write_bounded raw h 7
  obtain ⟨count', full', hwrite', -, -, herror⟩ := write_bounded raw h 1
  have heq := hwrite.symm.trans hfull
  have heq' := hwrite'.symm.trans hfull
  simp only [Prod.mk.injEq, Except.ok.injEq, Sink.mk.injEq, true_and] at heq heq'
  obtain ⟨rfl, rfl⟩ := heq
  obtain ⟨rfl, rfl⟩ := heq'
  obtain ⟨failure, rest, hfailure, -, -, htext, hne⟩ := herror hlong
  exact ⟨hok.mpr hfits, hcontent hfits, ⟨failure, rest, hfailure, htext, hne⟩, by decide +kernel⟩

end YamlSieve.Output
