import YamlSieve.Proofs.Composition
import YamlSieve.Proofs.Matching
import YamlSieve.Proofs.PathSpelling
import YamlSieve.Proofs.TokenText

/-!
# Paths of keys

A path that is made of keys alone looks them up one in the other, as long as it meets no sequence,
of which a step would take the children of the items instead (`PathStep.evalAll_keys`). Every list
of keys without double quotes can be written as such a path, and keys that are words can be written
as they are (`Filter.evaluate_keyPath`).
-/

namespace YamlSieve

variable {keys : List String}

/-! ### What a path of keys finds -/

/-- Neither the root nor what is found by the look-ups of keys but the last one is a sequence. -/
def Node.MeetsNoSequence (root : Node) (keys : List String) : Prop :=
  ∀ n < keys.length, ∀ reached ∈ root.getAll? (keys.take n), reached.isSequence = false

instance (root : Node) (keys : List String) : Decidable (root.MeetsNoSequence keys) :=
  inferInstanceAs (Decidable (∀ n < keys.length, ∀ reached ∈ root.getAll? (keys.take n),
    reached.isSequence = false))

namespace Node.MeetsNoSequence

variable {root node : Node} {key : String}

lemma isSequence_eq (h : root.MeetsNoSequence (key :: keys)) : root.isSequence = false :=
  h 0 (Nat.zero_lt_succ _) root rfl

lemma child (h : root.MeetsNoSequence (key :: keys)) (hnode : root.get? key = some node) :
    node.MeetsNoSequence keys := by
  intro n hn reached hreached
  refine h (n + 1) (Nat.succ_lt_succ hn) reached ?_
  rwa [List.take_succ_cons, getAll?, hnode, Option.bind_some]

end Node.MeetsNoSequence

/-- Outside of sequences, the steps of keys look these up one in the other. -/
theorem PathStep.evalAll_keys {root : Node} (h : root.MeetsNoSequence keys) :
    evalAll (keys.map key) root = (root.getAll? keys).getD .absent := by
  induction keys generalizing root with
  | nil => rfl
  | cons k keys ih =>
    have hstep : (key k).eval root = (root.get? k).getD .absent := by
      have hroot := h.isSequence_eq
      cases root with
      | sequence items => cases hroot
      | _ => rfl
    show evalAll (keys.map key) ((key k).eval root) = _
    rw [hstep, Node.getAll?]
    cases hchild : root.get? k with
    | none => exact evalAll_absent _
    | some child => exact ih (h.child hchild)

/-! ### Written keys -/

namespace Token

variable {key : String}

/-- In double quotes, any key without these is a word. -/
lemma tokenize?_quotedKey (hkey : '"' ∉ key.toList) :
    tokenize? ("\"" ++ key ++ "\"") = some [.word key] := by
  have hempty : tokenize? "" = some [] := rfl
  simpa using tokenize?_word hempty hkey hempty

/-- A key that consists of word characters is a word as it is. -/
lemma tokenize?_bareKey (hkey : '"' ∉ key.toList) (hne : key ≠ "")
    (hword : ∀ c ∈ key.toList, isOfWord c = true) : tokenize? key = some [.word key] := by
  have hcollected : ofCollected key.toList.reverse = [.word key] := by
    obtain ⟨c, cs, hcs⟩ : ∃ c cs, key.toList.reverse = c :: cs :=
      List.exists_cons_of_ne_nil (by simpa using hne)
    have hword : ofCollected (c :: cs) = [.word (String.ofList (c :: cs).reverse)] := rfl
    rw [hcs, hword, ← hcs, List.reverse_reverse, String.ofList_toList]
  have heven : Even (key.toList.count '"') := by
    rw [List.count_eq_zero_of_not_mem hkey]
    exact Even.zero
  rw [tokenize?_eq_ite, if_pos heven, List.splitOn_eq_singleton hkey, ofSegments, ofSegments,
    if_neg Bool.false_ne_true, List.append_nil, ofOpen_word hword, hcollected]

end Token

/-! ### Written paths -/

namespace Filter

/-- The text of a path of keys, each of them written in the given way. -/
def keyPath (write : String → String) (keys : List String) : String :=
  String.join (keys.map fun key => "." ++ write key)

variable {write : String → String}

/-- A word in front of a path of keys is read apart from it. -/
lemma separate_keyPath (keys : List String) : Token.Separate (keyPath write keys).toList := by
  cases keys with
  | nil => exact fun collected => by simp [keyPath, Token.readOpen, Token.ofCollected]
  | cons k keys =>
    have hchars : (keyPath write (k :: keys)).toList =
        '.' :: ((write k).toList ++ (keyPath write keys).toList) := by
      simp [keyPath]
    rw [hchars]
    exact Token.separate_endsWord (Or.inl (by decide)) _

/-- A path that is written with a word for each key has the tokens of its steps. -/
lemma tokenize?_keyPath (hwrite : ∀ key ∈ keys, Token.tokenize? (write key) = some [.word key]) :
    Token.tokenize? (keyPath write keys) =
      some ((keys.map PathStep.key).flatMap PathStep.tokens) := by
  have hdot : '.' ∈ Token.delimiters := by decide
  have hempty : Token.readOpen [] [] = some [] := rfl
  induction keys with
  | nil => rfl
  | cons k keys ih =>
    have hchars : (keyPath write (k :: keys)).toList =
        [] ++ '.' :: ((write k).toList ++ (keyPath write keys).toList) := by
      simp [keyPath]
    rw [Token.tokenize?, hchars, Token.readOpen_append_delim hdot hempty,
      Token.readOpen_append (separate_keyPath keys) (hwrite k List.mem_cons_self),
      ← Token.tokenize?, ih fun key hkey => hwrite key (List.mem_cons_of_mem k hkey)]
    rfl

/-- A path that is written with a word for each key finds what looking up the keys does. -/
lemma evaluate_quoted_keyPath {root : Node} (hne : keys ≠ []) (h : root.MeetsNoSequence keys)
    (hwrite : ∀ key ∈ keys, Token.tokenize? (write key) = some [.word key]) :
    evaluate ("'" ++ keyPath write keys ++ "'") root = .ok ((root.getAll? keys).getD .absent) := by
  obtain ⟨k, keys, rfl⟩ := List.exists_cons_of_ne_nil hne
  have hread : PathStep.readRun (((k :: keys).map PathStep.key).flatMap PathStep.tokens ++ []) =
      ((k :: keys).map PathStep.key, []) :=
    PathStep.readRun_eq_iff.mpr
      ⟨_, rfl, .of_tokens _, PathStep.ends_tokens (by simp) (by simp)⟩
  rw [evaluate_quoted_eq_ok_iff (tokenize?_keyPath hwrite) (by simp [PathStep.tokens])]
  refine ⟨[.path ((k :: keys).map .key)], .last (.path hread), ?_⟩
  exact (PathStep.evalAll_keys h).symm

/--
The path of any keys without double quotes, each written between double quotes, is accepted. It
finds what looking up the keys one in the other finds, and nothing where one of them is missing, if
no sequence is met on the way. Keys of word characters can be written without the double quotes.
-/
theorem evaluate_keyPath {root : Node} (hne : keys ≠ []) (hquote : ∀ key ∈ keys, '"' ∉ key.toList)
    (h : root.MeetsNoSequence keys) :
    evaluate ("'" ++ keyPath (fun key => "\"" ++ key ++ "\"") keys ++ "'") root =
        .ok ((root.getAll? keys).getD .absent) ∧
      ((∀ key ∈ keys, key ≠ "" ∧ ∀ c ∈ key.toList, Token.isOfWord c = true) →
        evaluate ("'" ++ keyPath id keys ++ "'") root =
          .ok ((root.getAll? keys).getD .absent)) := by
  refine ⟨?_, fun hbare => ?_⟩
  · exact evaluate_quoted_keyPath hne h fun key hkey => Token.tokenize?_quotedKey (hquote key hkey)
  · refine evaluate_quoted_keyPath hne h fun key hkey => ?_
    exact Token.tokenize?_bareKey (hquote key hkey) (hbare key hkey).1 (hbare key hkey).2

/-- Keys that look like the rest of an expression, and a key that is looked up in a scalar. -/
theorem evaluate_keyPath_punctuation :
    let keys := ["a.b", "", "') | (["]
    let root : Node :=
      .mapping [("a.b", .mapping [("", .mapping [("') | ([", .sequence [.null])])])]
    let keys' := ["a", "b"]
    let root' : Node := .mapping [("a", .string "x")]
    (keys ≠ [] ∧ (∀ key ∈ keys, '"' ∉ key.toList) ∧ root.MeetsNoSequence keys ∧
        evaluate "'.\"a.b\".\"\".\"') | ([\"'" root = .ok (.sequence [.null])) ∧
      keys' ≠ [] ∧ (∀ key ∈ keys', '"' ∉ key.toList) ∧ root'.MeetsNoSequence keys' ∧
        (∀ key ∈ keys', key ≠ "" ∧ ∀ c ∈ key.toList, Token.isOfWord c = true) ∧
        evaluate "'.a.b'" root' = .ok .absent := by
  intro keys root keys' root'
  have hne : keys ≠ [] := by decide
  have hquote : ∀ key ∈ keys, '"' ∉ key.toList := by decide
  have hroot : root.MeetsNoSequence keys := by decide
  have hne' : keys' ≠ [] := by decide
  have hquote' : ∀ key ∈ keys', '"' ∉ key.toList := by decide
  have hroot' : root'.MeetsNoSequence keys' := by decide
  have hbare : ∀ key ∈ keys', key ≠ "" ∧ ∀ c ∈ key.toList, Token.isOfWord c = true := by
    have hall : ∀ key ∈ keys', key ≠ "" ∧ key.toList.all Token.isOfWord = true := by decide
    exact fun key hkey => ⟨(hall key hkey).1, List.all_eq_true.mp (hall key hkey).2⟩
  exact ⟨⟨hne, hquote, hroot, (evaluate_keyPath hne hquote hroot).1⟩, hne', hquote', hroot', hbare,
    (evaluate_keyPath hne' hquote' hroot').2 hbare⟩

end Filter
end YamlSieve
