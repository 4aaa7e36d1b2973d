import Mathlib.Algebra.Ring.Parity
import YamlSieve.Filter.Token

/-!
# Tokens of composed texts

The tokens of a text do not depend on what stands behind it, if that starts with a double quote or
a character that ends a word (`Token.readOpen_append`). The texts with an even number of double
quotes have tokens, and no others have (`Token.readOpen_isSome_iff`).
-/

namespace YamlSieve.Token

/-- The character ends a word. -/
def EndsWord (c : Char) : Prop := c ∈ delimiters ∨ Text.isBlank c = true

/-- The characters are read alike behind every word. -/
def Separate (ds : List Char) : Prop :=
  ∀ collected, readOpen collected ds = (readOpen [] ds).map (ofCollected collected ++ ·)

variable {d : Char} {ds : List Char} {ts us : List Token} {text : String}

/-! ### Texts side by side -/

lemma separate_endsWord (hd : EndsWord d) (ds : List Char) : Separate (d :: ds) := by
  intro collected
  rw [readOpen, readOpen]
  split_ifs with hquote hdelim hblank
  · rw [Option.map_map]
    rfl
  · rw [Option.map_map]
    rfl
  · rw [Option.map_map]
    rfl
  · rcases hd with hd | hd
    · exact absurd hd hdelim
    · exact absurd hd hblank

lemma separate_quote (ds : List Char) : Separate ('"' :: ds) := by
  intro collected
  rw [readOpen, readOpen, if_pos rfl, if_pos rfl, Option.map_map]
  rfl

mutual

/-- The tokens of a text stay what they are in front of what is read alike behind every word. -/
theorem readOpen_append (hds : Separate ds) :
    ∀ {collected cs : List Char} {ts : List Token}, readOpen collected cs = some ts →
      readOpen collected (cs ++ ds) = (readOpen [] ds).map (ts ++ ·)
  | collected, [], ts, h => by
    rw [List.nil_append, hds collected]
    rw [readOpen, Option.some.injEq] at h
    rw [h]
  | collected, c :: cs, ts, h => by
    rw [readOpen] at h
    rw [List.cons_append, readOpen]
    split_ifs at h ⊢ with hquote hdelim hblank
    · obtain ⟨us, hus, rfl⟩ := Option.map_eq_some_iff.mp h
      rw [readQuoted_append hds hus, Option.map_map]
      simp only [Function.comp_def, List.append_assoc]
    · obtain ⟨us, hus, rfl⟩ := Option.map_eq_some_iff.mp h
      rw [readOpen_append hds hus, Option.map_map]
      simp only [Function.comp_def, List.append_assoc, List.cons_append]
    · obtain ⟨us, hus, rfl⟩ := Option.map_eq_some_iff.mp h
      rw [readOpen_append hds hus, Option.map_map]
      simp only [Function.comp_def, List.append_assoc]
    · exact readOpen_append hds h

/-- The same behind an opening double quote. -/
theorem readQuoted_append (hds : Separate ds) :
    ∀ {collected cs : List Char} {ts : List Token}, readQuoted collected cs = some ts →
      readQuoted collected (cs ++ ds) = (readOpen [] ds).map (ts ++ ·)
  | collected, [], ts, h => by
    rw [readQuoted] at h
    cases h
  | collected, c :: cs, ts, h => by
    rw [readQuoted] at h
    rw [List.cons_append, readQuoted]
    split_ifs at h ⊢ with hquote
    · obtain ⟨us, hus, rfl⟩ := Option.map_eq_some_iff.mp h
      rw [readOpen_append hds hus, Option.map_map]
      simp only [Function.comp_def, List.cons_append]
    · exact readQuoted_append hds h

end

/-! ### Double quotes -/

mutual

/-- A text has tokens if it holds an even number of double quotes. -/
theorem readOpen_isSome_iff : ∀ (collected cs : List Char),
    (readOpen collected cs).isSome = true ↔ Even (cs.count '"')
  | collected, [] => by simp [readOpen]
  | collected, c :: cs => by
    rw [readOpen]
    split_ifs with hquote hdelim hblank
    · rw [Option.isSome_map, readQuoted_isSome_iff, hquote, List.count_cons_self,
        Nat.even_add_one, Nat.not_even_iff_odd]
    · rw [Option.isSome_map, readOpen_isSome_iff, List.count_cons_of_ne hquote]
    · rw [Option.isSome_map, readOpen_isSome_iff, List.count_cons_of_ne hquote]
    · rw [readOpen_isSome_iff, List.count_cons_of_ne hquote]

/-- Behind an opening double quote, one more is needed. -/
theorem readQuoted_isSome_iff : ∀ (collected cs : List Char),
    (readQuoted collected cs).isSome = true ↔ Odd (cs.count '"')
  | collected, [] => by simp [readQuoted]
  | collected, c :: cs => by
    rw [readQuoted]
    split_ifs with hquote
    · rw [Option.isSome_map, readOpen_isSome_iff, hquote, List.count_cons_self, Nat.odd_add_one,
        Nat.not_odd_iff_even]
    · rw [readQuoted_isSome_iff, List.count_cons_of_ne hquote]

end

lemma tokenize?_isSome_iff : (tokenize? text).isSome = true ↔ Even (text.toList.count '"') :=
  readOpen_isSome_iff [] text.toList

/-! ### Double-quoted words -/

/-- A double-quoted word goes up to the next double quote, whatever it holds. -/
lemma readQuoted_append_quote {cs : List Char} (hcs : '"' ∉ cs) (collected ds : List Char) :
    readQuoted collected (cs ++ '"' :: ds) =
      (readOpen [] ds).map (word (String.ofList (collected.reverse ++ cs)) :: ·) := by
  induction cs generalizing collected with
  | nil => rw [List.nil_append, readQuoted, if_pos rfl, List.append_nil]
  | cons c cs ih =>
    have hc : c ≠ '"' := fun h => hcs (h ▸ List.mem_cons_self)
    rw [List.cons_append, readQuoted, if_neg hc, ih fun h => hcs (List.mem_cons_of_mem c h)]
    simp

/-- A double-quoted text between two others is one word. -/
lemma tokenize?_word {pre post : String} (hpre : tokenize? pre = some ts)
    (htext : '"' ∉ text.toList) (hpost : tokenize? post = some us) :
    tokenize? (pre ++ "\"" ++ text ++ "\"" ++ post) = some (ts ++ .word text :: us) := by
  have hchars : (pre ++ "\"" ++ text ++ "\"" ++ post).toList =
      pre.toList ++ '"' :: (text.toList ++ '"' :: post.toList) := by
    simp
  have hword : readOpen [] ('"' :: (text.toList ++ '"' :: post.toList)) =
      some (.word text :: us) := by
    rw [tokenize?] at hpost
    rw [readOpen, if_pos rfl, readQuoted_append_quote htext, hpost]
    simp [ofCollected]
  rw [tokenize?, hchars, readOpen_append (separate_quote _) hpre, hword]
  rfl

/-! ### Quoted and piped texts -/

/-- A delimiter is a token of its own. -/
lemma readOpen_append_delim {cs : List Char} (hd : d ∈ delimiters) (h : readOpen [] cs = some ts)
    (ds : List Char) :
    readOpen [] (cs ++ d :: ds) = (readOpen [] ds).map (ts ++ delim d :: ·) := by
  have hquote : d ≠ '"' := by
    rintro rfl
    simp [delimiters] at hd
  rw [readOpen_append (separate_endsWord (Or.inl hd) ds) h, readOpen, if_neg hquote, if_pos hd,
    Option.map_map]
  rfl

/-- A space is no token. -/
lemma readOpen_append_space {cs : List Char} (h : readOpen [] cs = some ts) (ds : List Char) :
    readOpen [] (cs ++ ' ' :: ds) = (readOpen [] ds).map (ts ++ ·) := by
  have hspace : readOpen [] (' ' :: ds) = (readOpen [] ds).map ([] ++ ·) := by
    rw [readOpen]
    rfl
  rw [readOpen_append (separate_endsWord (Or.inr rfl) ds) h, hspace, Option.map_map]
  rfl

/-- The tokens of a body between single quotes. -/
lemma tokenize?_quoted (h : tokenize? text = some ts) :
    tokenize? ("'" ++ text ++ "'") = some (.delim '\'' :: ts ++ [.delim '\'']) := by
  have hd : '\'' ∈ delimiters := by decide
  have hchars : ("'" ++ text ++ "'").toList = [] ++ '\'' :: (text.toList ++ '\'' :: []) := by
    simp
  have hempty : readOpen [] [] = some [] := rfl
  rw [tokenize?, hchars, readOpen_append_delim hd hempty, readOpen_append_delim hd h, hempty]
  rfl

/-- The tokens of two bodies with a `|` between them. -/
lemma tokenize?_piped {text' : String} (h : tokenize? text = some ts)
    (h' : tokenize? text' = some us) :
    tokenize? (text ++ " | " ++ text') = some (ts ++ .delim '|' :: us) := by
  have hd : '|' ∈ delimiters := by decide
  have hchars : (text ++ " | " ++ text').toList =
      text.toList ++ ' ' :: ([] ++ '|' :: ([] ++ ' ' :: text'.toList)) := by
    simp
  have hempty : readOpen [] [] = some [] := rfl
  rw [tokenize?] at h'
  rw [tokenize?, hchars, readOpen_append_space h, readOpen_append_delim hd hempty,
    readOpen_append_space hempty, h']
  rfl

end YamlSieve.Token
