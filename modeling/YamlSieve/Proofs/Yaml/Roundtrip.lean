import YamlSieve.Proofs.Yaml.NodeSteps
import Mathlib.Data.List.TakeWhile

/-!
# Written documents that are read

A node that is written as a document is read back from it, if its strings are written in styles that
keep them.
-/

namespace YamlSieve.Yaml

open Style (padding)

variable {test : String → Bool}

/-! ### Characters of written documents -/

/-- A text that is read to its end. -/
def IsWhole (cs : List Char) : Prop := '\x00' ∉ cs

lemma isWhole_append {cs ds : List Char} (hcs : IsWhole cs) (hds : IsWhole ds) :
    IsWhole (cs ++ ds) :=
  fun h => (List.mem_append.mp h).elim hcs hds

lemma isWhole_cons {c : Char} {cs : List Char} (hc : c ≠ '\x00') (hcs : IsWhole cs) :
    IsWhole (c :: cs) :=
  fun h => (List.mem_cons.mp h).elim (fun heq => hc heq.symm) hcs

lemma isWhole_nil : IsWhole [] := List.not_mem_nil

lemma isWhole_padding (n : Nat) : IsWhole (padding n) :=
  fun h => absurd (List.mem_replicate.mp h).2 (by decide)

lemma isWhole_flatMap {α : Type} {f : α → List Char} {as : List α} (h : ∀ a ∈ as, IsWhole (f a)) :
    IsWhole (as.flatMap f) := by
  intro hmem
  obtain ⟨a, ha, hmem⟩ := List.mem_flatMap.mp hmem
  exact h a ha hmem

lemma isWhole_of_isClean {cs : List Char} (h : Style.isClean cs) : IsWhole cs :=
  fun hmem => absurd (isPrintable_of_isClean h hmem) (by decide)

lemma isWhole_hexText (n width : Nat) : IsWhole (Style.hexText n width) := by
  induction width generalizing n with
  | zero => exact isWhole_nil
  | succ width ih =>
    refine isWhole_append (ih _) (isWhole_cons ?_ isWhole_nil)
    exact (by decide : ∀ m < 16, Integer.hexDigit 'A' m ≠ '\x00') (n % 16)
      (Nat.mod_lt _ (by decide))

lemma isWhole_escapeOf (c : Char) : IsWhole (Style.escapeOf c) := by
  unfold Style.escapeOf
  split
  case h_16 =>
    split_ifs <;> exact isWhole_cons (by decide) (isWhole_hexText _ _)
  all_goals exact isWhole_cons (by decide) isWhole_nil

lemma isWhole_doubleCode (c : Char) : IsWhole (Quoted.doubleCode c) := by
  rw [Quoted.doubleCode]
  split
  · exact isWhole_cons (by decide) (isWhole_escapeOf c)
  · rename_i hescaped
    refine isWhole_cons ?_ isWhole_nil
    rintro rfl
    exact hescaped rfl

lemma isWhole_singleCode {c : Char} (hc : c ≠ '\x00') : IsWhole (Quoted.singleCode c) := by
  rw [Quoted.singleCode]
  split
  · exact isWhole_cons (by decide) (isWhole_cons (by decide) isWhole_nil)
  · exact isWhole_cons hc isWhole_nil

lemma isWhole_indentLines {cs : List Char} (h : IsWhole cs) (indent : Nat) (lineStart : Bool) :
    IsWhole (Style.indentLines indent lineStart cs) := by
  induction cs generalizing lineStart with
  | nil => exact isWhole_nil
  | cons c cs ih =>
    have hc : c ≠ '\x00' := fun heq => h (heq ▸ List.mem_cons_self)
    have hcs : IsWhole cs := fun hmem => h (List.mem_cons_of_mem c hmem)
    rw [Style.indentLines]
    split_ifs
    · exact isWhole_cons hc (ih hcs true)
    · exact isWhole_append (isWhole_padding indent) (isWhole_cons hc (ih hcs false))
    · exact isWhole_cons hc (ih hcs false)

lemma isWhole_literalText {cs : List Char} (h : IsWhole cs) (indent : Nat) :
    IsWhole (Style.literalText indent cs) := by
  have hchomping : IsWhole (Style.chomping cs) := by
    unfold Style.chomping
    split
    · split_ifs
      · exact isWhole_cons (by decide) isWhole_nil
      · exact isWhole_cons (by decide) isWhole_nil
      · exact isWhole_nil
    · exact isWhole_cons (by decide) isWhole_nil
  have hhint : IsWhole (if cs.head?.any Style.isSpacing then ['2'] else []) := by
    split
    · exact isWhole_cons (by decide) isWhole_nil
    · exact isWhole_nil
  exact isWhole_append (isWhole_append (isWhole_cons (by decide) hhint) hchomping)
    (isWhole_cons (by decide) (isWhole_indentLines h indent true))

lemma Styled.isWhole {text : String} (h : Styled text) (indent : Nat) :
    IsWhole (Style.write indent text) := by
  have hquoted {quote : Quoted.Quote} {code : Char → List Char}
      (hcode : ∀ c ∈ text.toList, IsWhole (code c)) :
      IsWhole (quote.char :: text.toList.flatMap code ++ [quote.char]) := by
    have hchar : quote.char ≠ '\x00' := by cases quote <;> decide
    exact isWhole_append (isWhole_cons hchar (isWhole_flatMap hcode))
      (isWhole_cons hchar isWhole_nil)
  rw [Style.write]
  cases h with
  | plain h hne hallows =>
    simp only [Style.allowsPlain, Bool.and_eq_true] at hallows
    rw [h]
    exact isWhole_of_isClean hallows.1.1.1.1
  | single h hclean hbreak =>
    simp only [h, Quoted.singleText_eq hbreak]
    exact hquoted fun c hc => isWhole_singleCode fun heq => isWhole_of_isClean hclean (heq ▸ hc)
  | double h =>
    simp only [h, Quoted.doubleText_eq]
    exact hquoted fun c _ => isWhole_doubleCode c
  | literal h hmem hclean =>
    rw [h]
    exact isWhole_literalText (isWhole_of_isClean hclean) indent

lemma isWhole_endLine {cs : List Char} (h : IsWhole cs) : IsWhole (endLine cs) := by
  rw [endLine]
  split
  · exact h
  · exact isWhole_append h (isWhole_cons (by decide) isWhole_nil)

lemma isWhole_of_isDecimalChar {cs : List Char} (h : ∀ c ∈ cs, Decimal.isDecimalChar c) :
    IsWhole cs := fun hmem => absurd (h _ hmem) (by decide)

lemma isWhole_integer (i : Int64) : IsWhole (Integer.text i).toList := by
  refine isWhole_of_isDecimalChar fun c hc => ?_
  rcases Value.isDigit_or_sign_of_mem_text hc with hc | rfl
  · exact Decimal.isDecimalChar_of_isDigit hc
  · rfl

lemma isWhole_float {value : Binary64} (h : value ≠ .nan) :
    IsWhole (Layout.yaml.text value).toList := by
  cases value with
  | nan => exact absurd rfl h
  | number negative rank =>
    by_cases hinf : rank.val = Binary64.infinityRank
    · have hrank : rank = ⟨Binary64.infinityRank, by decide⟩ := Fin.ext hinf
      rw [hrank]
      cases negative <;> (rw [IsWhole]; decide)
    · obtain ⟨c, cs, htext, hc, hspells⟩ := Value.text_number negative hinf
      exact isWhole_of_isDecimalChar
        fun a ha => Value.isDecimalChar_of_mem_text negative hspells a (htext ▸ ha)

lemma isWhole_block {column : Nat} {lines : List (List Char)} (h : ∀ line ∈ lines, IsWhole line) :
    IsWhole (block column lines) := by
  cases lines with
  | nil => exact isWhole_nil
  | cons line lines =>
    rw [block, ← List.flatMap_def]
    refine isWhole_append (h line List.mem_cons_self) (isWhole_flatMap fun l hl => ?_)
    exact isWhole_append (isWhole_padding column) (h l (List.mem_cons_of_mem line hl))

lemma isWhole_lead (place : Place) (column? : Option Nat) : IsWhole (place.lead column?) := by
  cases place with
  | top => exact isWhole_nil
  | afterKey indent =>
    cases column? with
    | none => exact isWhole_cons (by decide) isWhole_nil
    | some column => exact isWhole_cons (by decide) (isWhole_padding column)
  | afterIndicator indent => exact isWhole_cons (by decide) isWhole_nil

lemma isWhole_line {cs : List Char} (h : IsWhole cs) : IsWhole (cs ++ ['\n']) :=
  isWhole_append h (isWhole_cons (by decide) isWhole_nil)

lemma isWhole_writeKey {key : String} (h : Styled key) (indent : Nat) :
    IsWhole (writeKey indent key).1 := by
  have hkey := h.isWhole (indent + 2)
  have hcolon : IsWhole [':'] := isWhole_cons (by decide) isWhole_nil
  simp only [writeKey]
  split
  · exact isWhole_append hkey hcolon
  · exact isWhole_append (isWhole_append (isWhole_cons (by decide) (isWhole_cons (by decide)
      (isWhole_endLine hkey))) (isWhole_padding indent)) hcolon

mutual

/-- A portable node is written without the character that ends a text. -/
lemma isWhole_write {node : Node} (h : isPortableIf test node) (place : Place) :
    IsWhole (write place node) := by
  rw [write_eq]
  refine isWhole_append (isWhole_lead place _) ?_
  match node with
  | .mapping [] => exact (by decide : '\x00' ∉ ['\x7b', '\x7d', '\n'])
  | .mapping (e :: es) =>
    simp only [isPortableIf, Bool.and_eq_true] at h
    exact isWhole_block (isWhole_writeEntries h.2 _)
  | .sequence [] => exact (by decide : '\x00' ∉ ['[', ']', '\n'])
  | .sequence (x :: xs) => exact isWhole_block (isWhole_writeItems h _)
  | .string text =>
    simp only [isPortableIf, Bool.and_eq_true] at h
    exact isWhole_endLine ((styled h.1).isWhole _)
  | .integer value => exact isWhole_line (isWhole_integer value)
  | .float value => exact isWhole_line (isWhole_float (of_decide_eq_true h))
  | .boolean value => cases value <;> exact isWhole_line (by rw [IsWhole]; decide)
  | .null => exact isWhole_line (by rw [IsWhole]; decide)
  | .absent => exact absurd h Bool.false_ne_true

lemma isWhole_writeEntries {es : List (String × Node)} (h : arePortableEntriesIf test es)
    (indent : Nat) : ∀ line ∈ writeEntries indent es, IsWhole line := by
  match es with
  | [] => exact nofun
  | (key, value) :: es =>
    simp only [arePortableEntriesIf, Bool.and_eq_true] at h
    exact List.forall_mem_cons.mpr ⟨isWhole_append (isWhole_writeKey (styled h.1.1.1) indent)
      (isWhole_write h.1.2 _), isWhole_writeEntries h.2 indent⟩

lemma isWhole_writeItems {xs : List Node} (h : arePortableItemsIf test xs) (indent : Nat) :
    ∀ line ∈ writeItems indent xs, IsWhole line := by
  match xs with
  | [] => exact nofun
  | x :: xs =>
    simp only [arePortableItemsIf, Bool.and_eq_true] at h
    exact List.forall_mem_cons.mpr
      ⟨isWhole_cons (by decide) (isWhole_write h.1 _), isWhole_writeItems h.2 indent⟩

end

/-! ### Tokens of written documents -/

lemma input_print {node : Node} (h : isPortableIf test node) :
    (Input.ofText (print node)).rest = body .top node ++ (padding (-1 : Int).toNat ++ []) := by
  have hwhole := isWhole_write h .top
  have htake : (write .top node).takeWhile (· != '\x00') = write .top node := by
    exact List.takeWhile_eq_self_iff.mpr fun c hc => bne_iff_ne.mpr fun heq => hwhole (heq ▸ hc)
  show ((print node).toList.takeWhile (· != '\x00')) = _
  rw [print, String.toList_ofList, htake, write_eq]
  exact (List.append_nil _).symm

/-- The tokens of a portable node that is written as a document. -/
theorem Token.ofText_print {node : Node} (h : isPortableIf test node) :
    ∃ tokens, Token.ofText (print node) = .ok tokens ∧
      tokens.map Token.kind = nodeTokens false node ++ [.streamEnd] := by
  have hreadable := Nesting.isReadable h .top
  have hrest := input_print h
  have hstart : (Nesting.ofText (print node)).Is (Input.ofText (print node)) [] true none (-1) [] :=
    ⟨rfl, rfl, rfl, rfl, rfl, rfl, rfl, rfl⟩
  have hstarts : Nesting.Starts .top node 0 true := by
    refine ⟨fun j hj => ⟨?_, rfl⟩, fun _ => by decide⟩
    cases node with
    | mapping es => cases es <;> cases hj; rfl
    | sequence xs => cases xs <;> cases hj; rfl
    | _ => cases hj
  -- the document is a node in column -1 with nothing behind it
  have htail : Nesting.Tail (-1) (-1) [] :=
    ⟨nofun, Int.le_refl _, fun hne => absurd rfl hne, fun _ => rfl⟩
  have hfirst : AtToken (Input.ofText (print node)).rest := hrest ▸ hreadable.atToken _
  obtain ⟨u, hnext, hu⟩ := hstart.next_passed (Nesting.skips_here hfirst true) nofun rfl
  have hcolumn : (-1 : Int) ≤ (Input.ofText (print node)).column :=
    Int.le_trans (by decide) (Int.natCast_nonneg _)
  obtain ⟨t, hrun, hdone⟩ := hreadable.run hu .tight (fun _ => nofun) nofun hcolumn hstarts nofun
    hrest htail (Nat.le_refl _)
  obtain ⟨final, hend, hkinds⟩ := hdone.readHere
  refine ⟨final.tokens.toList, ?_, by rw [← Nesting.kinds, hkinds]; rfl⟩
  have hfuel : u.input.rest.length < (Nesting.ofText (print node)).input.size + 2 := by
    rw [hu.input]
    exact Nat.lt_succ_of_le (Nat.le_succ _)
  have hread := Nesting.readTokens_of_steps hrun hend hnext hfuel
  rw [Token.ofText]
  simp only [hread]
  rfl

/-! ### Documents -/

/-- A portable node is the value of the document that it is written as. -/
theorem Value.ofText_print {node : Node} (h : isPortableIf test node) :
    Value.ofText (print node) = .ok [readBack node] := by
  obtain ⟨tokens, htokens, hkinds⟩ := Token.ofText_print h
  have hbound : 4 * (nodeTokens false node).length ≤
      4 * (tokens.map Token.kind).length + 4 := by
    rw [hkinds, List.length_append]
    omega
  obtain ⟨c, hread, -⟩ := reads_documents h hbound (4 * (tokens.map Token.kind).length + 2)
    ⟨tokens.map Token.kind, [], [], [], 0⟩ hkinds
  rw [Value.ofText, htokens]
  simp only [StateT.run', hread]
  rfl

/-- A document is read as one node: as the one that is written only if this is portable. -/
theorem parse_print {node : Node} (h : isPortableIf test node) :
    ∃ back, parse (print node) = .ok [back] ∧ (back = node ↔ isPortable node) := by
  obtain ⟨back, hback, hiff⟩ := toNode_readBack h
  refine ⟨back, ?_, hiff⟩
  rw [parse, Value.ofText_print h]
  simp only [Value.toNodes, Value.itemNodes, hback]

/--
Where the keys and the separators come back, a node comes back if all its strings do, and only then.
-/
theorem parseFirst_print_iff {node : Node} (h : isPortableIf test node) :
    parseFirst (print node) = .ok node ↔ isPortable node := by
  obtain ⟨back, hback, hiff⟩ := parse_print h
  rw [parseFirst, hback, ← hiff]
  show Except.ok back = .ok node ↔ back = node
  rw [Except.ok.injEq]

/--
A portable node is the first document of the text that it is written as. Strings such as `0x-1`,
`++1` and `1e400` are not portable: they are written plain and read as numbers.
-/
theorem parseFirst_print {node : Node} (h : isPortable node) :
    parseFirst (print node) = .ok node :=
  (parseFirst_print_iff h).mpr h

theorem parseFirst_print_nested :
    let node := Node.mapping [("true", .sequence [.string "1\n\n", .integer (-7), .mapping []]),
      ("a: b", .mapping [("", .null), ("\n", .string "0x1F")])]
    isPortable node ∧ parseFirst (print node) = .ok node :=
  ⟨by decide +kernel, parseFirst_print (by decide +kernel)⟩

/-- The reader admits a sign after the prefix of a hexadecimal integer, the writer does not. -/
theorem parseFirst_print_signed_hexadecimal :
    parseFirst (print (.string "0x-1")) = .ok (.integer (-1)) := by
  decide +kernel

end YamlSieve.Yaml
