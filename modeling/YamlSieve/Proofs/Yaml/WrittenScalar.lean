import YamlSieve.Proofs.Yaml.ScalarSteps
import YamlSieve.Proofs.Yaml.WrittenTokens
import Mathlib.Data.String.Basic

/-!
# Written scalars

How the strings and the other scalars of a node are written: each in one of the forms that a step
reads, and a short key on one line.
-/

namespace YamlSieve.Yaml

open Style (isLineBreak isPrintable keepsSeparators)
open Nesting (InLine Written)

/-! ### Characters of written strings -/

lemma isPrintable_of_isClean {cs : List Char} (h : Style.isClean cs) {c : Char} (hc : c ∈ cs) :
    isPrintable c := by
  rw [Style.isClean, Bool.and_eq_true] at h
  exact List.all_eq_true.mp h.1 c hc

/-- Of the characters that can be written as they are, few break a line. -/
lemma isLineBreak_of_isPrintable {c : Char} (h : isPrintable c) (hbreak : isLineBreak c) :
    c = '\n' ∨ Style.isUnicodeBreak c := by
  simp only [isLineBreak, Bool.or_eq_true, decide_eq_true_eq] at hbreak
  rcases hbreak with (((rfl | rfl) | rfl) | rfl) | rfl
  · exact Or.inl rfl
  · exact absurd h (by decide)
  · exact absurd h (by decide)
  · exact Or.inr rfl
  · exact Or.inr rfl

/-- The separators of a literal block are those of its lines. -/
lemma isBlock_of_isClean {cs : List Char} (h : Style.isClean cs)
    (hends : Style.separatorsEndLines cs) : Block.IsBlock cs := by
  simp only [Style.separatorsEndLines, Bool.and_eq_true, Bool.not_eq_true'] at hends
  obtain ⟨⟨hstart, hinLine⟩, hlast⟩ := hends
  exact ⟨fun c hc hbreak => isLineBreak_of_isPrintable (isPrintable_of_isClean h hc) hbreak,
    hstart, hinLine, hlast⟩

lemma isLine_of_isClean {cs : List Char} (h : Style.isClean cs)
    (hbreak : ∀ c ∈ cs, isLineBreak c = false) : IsLine cs := by
  refine fun c hc => ⟨?_, ?_⟩
  · have := hbreak c hc
    simp only [isLineBreak, Bool.or_eq_false_iff] at this
    simp [isBreak, this.1.1.1.1, this.1.1.1.2]
  · rintro rfl
    exact absurd (isPrintable_of_isClean h hc) (by decide)

/-! ### The styles of strings -/

/-- A string that is written in its style. -/
inductive Styled (text : String) : Prop where
  | plain (h : Style.ofText text = .plain) (hne : text.toList ≠ [])
      (hallows : Style.allowsPlain text.toList)
  | single (h : Style.ofText text = .singleQuoted) (hclean : Style.isClean text.toList)
      (hbreak : ∀ c ∈ text.toList, isLineBreak c = false)
  | double (h : Style.ofText text = .doubleQuoted)
  | literal (h : Style.ofText text = .literal) (hmem : '\n' ∈ text.toList)
      (hclean : Style.isClean text.toList) (hblock : Block.IsBlock text.toList)

lemma styled {text : String} (h : keepsSeparators text) : Styled text := by
  obtain ⟨style, hstyle⟩ : ∃ style, Style.ofText text = style := ⟨_, rfl⟩
  rw [keepsSeparators, hstyle] at h
  have hdef := hstyle
  rw [Style.ofText] at hdef
  split at hdef
  · -- with a line break the text is written literally or in double quotes
    rename_i hcontains
    split at hdef
    · rename_i hallows
      subst hdef
      rw [Style.allowsLiteral, Bool.and_eq_true] at hallows
      exact .literal hstyle (by simpa using hcontains) hallows.1 (isBlock_of_isClean hallows.1 h)
    · subst hdef
      exact .double hstyle
  · rename_i hcontains
    split at hdef
    · rename_i hplain
      subst hdef
      rw [Bool.and_eq_true, Bool.not_eq_true'] at hplain
      refine .plain hstyle (fun hempty => ?_) hplain.2
      have : text = "" := String.toList_inj.mp hempty
      rw [this] at hplain
      exact absurd hplain.1 (by decide)
    · split at hdef
      · rename_i hallows
        subst hdef
        rw [Style.allowsSingle, Bool.and_eq_true] at hallows
        refine .single hstyle hallows.1 fun c hc => ?_
        rw [← Bool.not_eq_true]
        intro hbreak
        -- U+000A would have another style, and the other breaks that print are excluded by `h`
        rcases isLineBreak_of_isPrintable (isPrintable_of_isClean hallows.1 hc) hbreak with
          rfl | hunicode
        · exact hcontains (by simpa using hc)
        · rw [Bool.not_eq_true', List.any_eq_false] at h
          exact h c hc hunicode
      · subst hdef
        exact .double hstyle

/-- A string that is no literal block is written on one line. -/
lemma Styled.inLine {text : String} (h : Styled text) (hstyle : Style.ofText text ≠ .literal)
    (indent : Nat) :
    InLine (Style.token text) (Style.write indent text) ∧
      endLine (Style.write indent text) = Style.write indent text ++ ['\n'] := by
  have hquoted {quote : Quoted.Quote} {code : Char → List Char}
      (hstyle : Style.ofText text ≠ .plain) (hcode : Quoted.IsCoding quote code text.toList) :
      InLine (Style.token text) (quote.char :: text.toList.flatMap code ++ [quote.char]) ∧
        endLine (quote.char :: text.toList.flatMap code ++ [quote.char]) =
          (quote.char :: text.toList.flatMap code ++ [quote.char]) ++ ['\n'] := by
    have := InLine.quoted hcode
    rw [String.ofList_toList, ← decide_eq_false hstyle] at this
    refine ⟨this, ?_⟩
    rw [endLine, List.getLast?_append, if_neg]
    cases quote <;> exact Bool.false_ne_true
  rw [Style.write]
  cases h with
  | plain h hne hallows =>
    simp only [h]
    have hstart : Style.startsWithIndicator text.toList = false := by
      simp only [Style.allowsPlain, Bool.and_eq_true, Bool.not_eq_true'] at hallows
      exact hallows.1.2
    have hbreak : text.toList.any isLineBreak = false := by
      simp only [Style.allowsPlain, Bool.and_eq_true, Bool.not_eq_true'] at hallows
      exact hallows.1.1.1.2
    have hscalar := InLine.plain (Plain.isScalar_of_allowsPlain hallows hne) hstart
    rw [String.ofList_toList, ← decide_eq_true h] at hscalar
    refine ⟨hscalar, ?_⟩
    -- a plain text holds no break at all, so its line is not ended yet
    rw [endLine, if_neg]
    rw [List.getLast?_eq_some_getLast hne]
    exact List.any_eq_false.mp hbreak _ (List.getLast_mem hne)
  | single h hclean hbreak =>
    simp only [h, Quoted.singleText_eq hbreak]
    exact hquoted (by rw [h]; decide) (Quoted.isCoding_single (isLine_of_isClean hclean hbreak))
  | double h =>
    simp only [h, Quoted.doubleText_eq]
    exact hquoted (by rw [h]; decide) (Quoted.isCoding_double text.toList)
  | literal h => exact absurd h hstyle

lemma getLast?_indentLines (indent : Nat) (lineStart : Bool) (cs : List Char) :
    (Style.indentLines indent lineStart cs).getLast? = cs.getLast? := by
  induction cs generalizing lineStart with
  | nil => rfl
  | cons c cs ih =>
    rw [Style.indentLines]
    split
    · rw [List.getLast?_cons, List.getLast?_cons, ih]
    · rw [List.getLast?_append, List.getLast?_cons, List.getLast?_cons, ih]
      rfl

lemma endLine_literalText {cs : List Char} (hne : cs ≠ []) (h : Block.IsBlock cs) (indent : Nat) :
    endLine (Style.literalText indent cs) =
      Style.literalText indent cs ++ Block.lastBreak cs := by
  have hlast : (Style.literalText indent cs).getLast? = cs.getLast? := by
    have hcs := List.getLast?_eq_some_getLast hne
    simp only [Style.literalText, List.cons_append, List.getLast?_cons, List.getLast?_append,
      getLast?_indentLines, hcs]
    simp
  rw [endLine, Block.lastBreak, hlast, List.getLast?_eq_some_getLast hne]
  by_cases hc : cs.getLast hne = '\n'
  · rw [hc, if_pos (by decide), if_pos rfl, List.append_nil]
  · have hbreak : ¬ (some (cs.getLast hne)).any isLineBreak := by
      intro hbreak
      have hlast := h.last
      rw [List.getLast?_eq_some_getLast hne] at hlast
      rcases h.breaks _ (List.getLast_mem hne) hbreak with heq | hunicode
      · exact hc heq
      · exact absurd hunicode (Bool.eq_false_iff.mp hlast)
    rw [if_neg hbreak, if_neg fun heq => hc (Option.some.inj heq)]

/-- A string is written in a form that a step reads. -/
lemma Styled.written {text : String} (h : Styled text) (indent : Nat) :
    Written indent (Style.token text) (endLine (Style.write indent text)) := by
  by_cases hstyle : Style.ofText text = .literal
  · cases h with
    | literal _ hmem hclean hblock =>
      have hne : text.toList ≠ [] := List.ne_nil_of_mem hmem
      have htab : '\t' ∉ text.toList := fun hmem =>
        absurd (isPrintable_of_isClean hclean hmem) (by decide)
      have hplain : ¬ Style.ofText text = .plain := by rw [hstyle]; decide
      have hwritten : Written indent _ _ := .literal hne hblock htab
      rw [String.ofList_toList, ← decide_eq_false hplain,
        ← endLine_literalText hne hblock] at hwritten
      rw [Style.write, hstyle]
      exact hwritten
    | plain h => exact absurd (h.symm.trans hstyle) (by decide)
    | single h => exact absurd (h.symm.trans hstyle) (by decide)
    | double h => exact absurd (h.symm.trans hstyle) (by decide)
  · obtain ⟨hline, hend⟩ := h.inLine hstyle indent
    rw [hend]
    exact .inLine hline

/-! ### Short keys -/

lemma length_escapeOf (c : Char) : (Style.escapeOf c).length + 1 ≤ 4 * c.utf8Size := by
  have hpos : 1 ≤ c.utf8Size := c.utf8Size_pos
  have hsize : c.utf8Size = if c.toNat ≤ 0x7f then 1 else if c.toNat ≤ 0x7ff then 2
      else if c.toNat ≤ 0xffff then 3 else 4 := rfl
  unfold Style.escapeOf
  split
  -- the last case writes the number of the character, in as many digits as its size needs
  case h_16 =>
    split_ifs <;> simp only [List.length_cons, Quoted.length_hexText] <;>
      split_ifs at hsize <;> omega
  all_goals
    simp only [List.length_singleton]
    omega

lemma length_doubleCode (c : Char) : (Quoted.doubleCode c).length ≤ 4 * c.utf8Size := by
  rw [Quoted.doubleCode]
  split
  · exact length_escapeOf c
  · have := c.utf8Size_pos
    rw [List.length_singleton]
    omega

lemma length_singleCode (c : Char) : (Quoted.singleCode c).length ≤ 4 * c.utf8Size := by
  have := c.utf8Size_pos
  rw [Quoted.singleCode]
  split
  · simp only [List.length_cons, List.length_nil]
    omega
  · rw [List.length_singleton]
    omega

lemma length_flatMap_le {code : Char → List Char} (h : ∀ c, (code c).length ≤ 4 * c.utf8Size)
    (cs : List Char) : (cs.flatMap code).length ≤ 4 * String.utf8Len cs := by
  induction cs with
  | nil => exact Nat.zero_le _
  | cons c cs ih =>
    have := h c
    rw [List.flatMap_cons, List.length_append, String.utf8Len_cons]
    omega

/-- In each style, a character is written as few characters. -/
lemma Styled.length_write {text : String} (h : Styled text) (hstyle : Style.ofText text ≠ .literal)
    (indent : Nat) : (Style.write indent text).length ≤ 4 * text.utf8ByteSize + 2 := by
  have hsize : text.utf8ByteSize = String.utf8Len text.toList := by
    rw [← String.utf8ByteSize_ofList, String.ofList_toList]
  have hquoted {quote : Quoted.Quote} {code : Char → List Char}
      (hcode : ∀ c, (code c).length ≤ 4 * c.utf8Size) :
      (quote.char :: text.toList.flatMap code ++ [quote.char]).length ≤
        4 * String.utf8Len text.toList + 2 := by
    have := length_flatMap_le hcode text.toList
    rw [List.length_append, List.length_cons, List.length_singleton]
    omega
  rw [hsize, Style.write]
  cases h with
  | plain h =>
    have hone (c : Char) : [c].length ≤ 4 * c.utf8Size := by
      have := c.utf8Size_pos
      rw [List.length_singleton]
      omega
    have hlength := length_flatMap_le hone text.toList
    rw [List.flatMap_singleton'] at hlength
    simp only [h]
    omega
  | single h hclean hbreak =>
    simp only [h, Quoted.singleText_eq hbreak]
    exact hquoted length_singleCode
  | double h =>
    simp only [h, Quoted.doubleText_eq]
    exact hquoted length_doubleCode
  | literal h => exact absurd h hstyle

/-- A short key is written on one line, so short that its colon is found. -/
lemma Styled.simpleKey {key : String} (h : Styled key) (hsimple : isSimpleKey key) (indent : Nat) :
    InLine (Style.token key) (Style.write indent key) ∧ (Style.write indent key).length ≤ 1024 := by
  rw [isSimpleKey, Bool.and_eq_true, Bool.not_eq_true', decide_eq_true_eq] at hsimple
  have hstyle : Style.ofText key ≠ .literal := by
    intro hliteral
    cases h with
    | literal _ hmem => exact absurd rfl (List.any_eq_false.mp hsimple.1 _ hmem)
    | plain h => exact absurd (h.symm.trans hliteral) (by decide)
    | single h => exact absurd (h.symm.trans hliteral) (by decide)
    | double h => exact absurd (h.symm.trans hliteral) (by decide)
  have hlength := h.length_write hstyle indent
  exact ⟨(h.inLine hstyle indent).1, by omega⟩

/-! ### Other scalars -/

lemma inLine_of_allowsPlain {text : String} (h : Style.allowsPlain text.toList)
    (hne : text.toList ≠ []) : InLine (.scalar true text) text.toList := by
  have hstart : Style.startsWithIndicator text.toList = false := by
    simp only [Style.allowsPlain, Bool.and_eq_true, Bool.not_eq_true'] at h
    exact h.1.2
  have := InLine.plain (Plain.isScalar_of_allowsPlain h hne) hstart
  rwa [String.ofList_toList] at this

/-- The characters of a written decimal are neither separators nor indicators within a line. -/
lemma ne_of_isDecimalChar {c d : Char} (h : Decimal.isDecimalChar c)
    (hd : Decimal.isDecimalChar d = false) : c ≠ d := by
  rintro rfl
  exact Bool.noConfusion (h.symm.trans hd)

lemma isSeparator_of_isDecimalChar {c : Char} (h : Decimal.isDecimalChar c) :
    Style.isSeparator (some c) = false := by
  have hne {d : Char} (hd : Decimal.isDecimalChar d = false) : c ≠ d := ne_of_isDecimalChar h hd
  simp [Style.isSeparator, isLineBreak, hne (d := ' ') rfl, hne (d := '\t') rfl,
    hne (d := '\x00') rfl, hne (d := '\n') rfl, hne (d := '\r') rfl, hne (d := '\u0085') rfl,
    hne (d := '\u2028') rfl, hne (d := '\u2029') rfl]

lemma hasIndicator_of_isDecimalChar {cs : List Char} (h : ∀ c ∈ cs, Decimal.isDecimalChar c) :
    Style.hasIndicator cs = false := by
  induction cs with
  | nil => rfl
  | cons c cs ih =>
    have hc := h c List.mem_cons_self
    rw [Style.hasIndicator, decide_eq_false (ne_of_isDecimalChar hc (d := ':') rfl),
      isSeparator_of_isDecimalChar hc, ih fun d hd => h d (List.mem_cons_of_mem c hd)]
    rfl

/-- A numeral starts with a digit, perhaps after a minus sign. -/
lemma startsWithIndicator_of_startsDigit {cs : List Char} (hstart : Value.startsDigit cs)
    (h : ∀ c ∈ cs, Decimal.isDecimalChar c) : Style.startsWithIndicator cs = false := by
  unfold Style.startsWithIndicator
  split
  · exact absurd hstart Bool.false_ne_true
  · exact absurd hstart Bool.false_ne_true
  · rename_i c cs _ _
    have hc := h c List.mem_cons_self
    have hindicators : c ∉ Style.startIndicators := by
      intro hmem
      have hall : (Style.startIndicators.all fun d => !Decimal.isDecimalChar d) = true := by decide
      have := List.all_eq_true.mp hall c hmem
      rw [hc] at this
      exact Bool.false_ne_true this
    -- a minus sign is an indicator only in front of a separator, and a digit follows
    have hminus : c = '-' → Style.isSeparator cs.head? = false := by
      rintro rfl
      cases cs with
      | nil => exact absurd hstart Bool.false_ne_true
      | cons d cs => exact isSeparator_of_isDecimalChar (h d (by simp))
    rw [decide_eq_false hindicators, decide_eq_false (ne_of_isDecimalChar hc (d := '?') rfl),
      decide_eq_false (ne_of_isDecimalChar hc (d := ':') rfl)]
    by_cases hcm : c = '-'
    · rw [hminus hcm, Bool.and_false]
      rfl
    · rw [decide_eq_false hcm]
      rfl
  · exact absurd hstart Bool.false_ne_true

/-- A numeral is written on one line. -/
lemma inLine_of_startsDigit {text : String} (hstart : Value.startsDigit text.toList)
    (h : ∀ c ∈ text.toList, Decimal.isDecimalChar c) : InLine (.scalar true text) text.toList := by
  generalize hcs : text.toList = cs at h hstart
  have htext : text = String.ofList cs := by rw [← hcs, String.ofList_toList]
  rw [htext]
  have hne {c d : Char} (hc : c ∈ cs) (hd : Decimal.isDecimalChar d = false) : c ≠ d :=
    ne_of_isDecimalChar (h c hc) hd
  obtain ⟨c, rest, rfl⟩ : ∃ c rest, cs = c :: rest := by
    cases cs with
    | nil => exact absurd hstart Bool.false_ne_true
    | cons c rest => exact ⟨c, rest, rfl⟩
  refine .plain ⟨fun d hd => ⟨?_, hne hd rfl⟩, hasIndicator_of_isDecimalChar h,
    ⟨c, rfl, hne List.mem_cons_self rfl, hne List.mem_cons_self rfl⟩, fun hlast => ?_⟩ ?_
  · simp [isBreak, hne hd (d := '\n') rfl, hne hd (d := '\r') rfl]
  · exact hne (List.mem_of_getLast? hlast) rfl rfl
  · exact startsWithIndicator_of_startsDigit hstart h

lemma inLine_integer (i : Int64) :
    InLine (.scalar true (Integer.text i)) (Integer.text i).toList := by
  refine inLine_of_startsDigit ?_ fun c hc => ?_
  · rw [Integer.text, Integer.toString_toList]
    split
    · obtain ⟨c, cs, hcs, hc⟩ := Integer.exists_toDigits i.toInt.toNat
      rw [hcs]
      exact Value.startsDigit_signText false hc _
    · obtain ⟨c, cs, hcs, hc⟩ := Integer.exists_toDigits (-i.toInt).toNat
      rw [hcs]
      exact Value.startsDigit_signText true hc _
  · rcases Value.isDigit_or_sign_of_mem_text hc with hc | rfl
    · exact Decimal.isDecimalChar_of_isDigit hc
    · rfl

lemma inLine_float {value : Binary64} (h : value ≠ .nan) :
    InLine (.scalar true (Layout.yaml.text value)) (Layout.yaml.text value).toList := by
  cases value with
  | nan => exact absurd rfl h
  | number negative rank =>
    by_cases hinf : rank.val = Binary64.infinityRank
    · have hrank : rank = ⟨Binary64.infinityRank, by decide⟩ := Fin.ext hinf
      rw [hrank]
      cases negative <;> exact inLine_of_allowsPlain (by decide) (by decide)
    · obtain ⟨c, cs, htext, hc, hspells⟩ := Value.text_number negative hinf
      exact inLine_of_startsDigit (htext ▸ Value.startsDigit_signText negative hc cs)
        fun a ha => Value.isDecimalChar_of_mem_text negative hspells a (htext ▸ ha)

end YamlSieve.Yaml
