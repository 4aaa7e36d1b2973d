import YamlSieve.Json.Printer
import YamlSieve.Proofs.Equivalence
import YamlSieve.Proofs.Number.Numeral

/-!
# What JSON tells of a node

The JSON of a node without floats tells everything about it but whether a null in it is an absent
node (`Json.print_eq_print_iff`).

Texts are compared from the left. What a text stands for and where it stops is settled by its own
characters (`Json.Decides`): the first one tells the type of a node, a string stops at the first
quote that is no part of an escape, and an integer at what is no digit. The induction over nodes
carries this for any two texts that follow. Between brackets it is a matter of what stands behind an
item: a comma, or a line break, or the closing bracket.
-/

namespace YamlSieve

open List (Forall₂)

/-! ### Null for absent -/

namespace Node

mutual

/-- A node with null in place of every absent node. -/
def withNulls : Node → Node
  | mapping es  => mapping (entriesWithNulls es)
  | sequence xs => sequence (itemsWithNulls xs)
  | absent      => null
  | x           => x

def entriesWithNulls : List (String × Node) → List (String × Node)
  | []           => []
  | (k, v) :: es => (k, withNulls v) :: entriesWithNulls es

def itemsWithNulls : List Node → List Node
  | []      => []
  | x :: xs => withNulls x :: itemsWithNulls xs

end

lemma withNulls_mapping (es : List (String × Node)) :
    (mapping es).withNulls = mapping (es.map fun e => (e.1, e.2.withNulls)) := by
  rw [withNulls]
  induction es with
  | nil => rfl
  | cons e es ih =>
    rw [entriesWithNulls, List.map_cons, mapping.inj ih]

lemma withNulls_sequence (xs : List Node) :
    (sequence xs).withNulls = sequence (xs.map withNulls) := by
  rw [withNulls]
  induction xs with
  | nil => rfl
  | cons x xs ih => rw [itemsWithNulls, List.map_cons, sequence.inj ih]

end Node

namespace Json

open Node

/-! ### Texts that decide -/

/-- The characters of a written integer. -/
def isNumberChar (c : Char) : Bool := c.isDigit || c = '-'

/-- Whether a number ends in front of a text. -/
def Ends (r : List Char) : Prop := r.head?.any isNumberChar = false

/--
Two texts that are the same together with what follows them are so only if the given statement
holds, and then what follows is the same.
-/
def Decides (P : Prop) (cs ds : List Char) : Prop :=
  ∀ r s, Ends r → Ends s → cs ++ r = ds ++ s → P ∧ r = s

variable {P Q : Prop} {cs cs' ds ds' r s : List Char} {x y : Node} {spacing : Spacing}
  {depth : Nat}

lemma ends_cons {c : Char} (h : isNumberChar c = false) : Ends (c :: r) := by
  simpa [Ends] using h

lemma decides_of_eq (h : P) : Decides P cs cs :=
  fun _ _ _ _ heq => ⟨h, List.append_cancel_left heq⟩

lemma Decides.imp (h : Decides P cs ds) (hPQ : P → Q) : Decides Q cs ds :=
  fun r s hr hs heq => (h r s hr hs heq).imp_left hPQ

lemma Decides.prepend (h : Decides P cs ds) (mark : List Char) :
    Decides P (mark ++ cs) (mark ++ ds) := by
  intro r s hr hs heq
  rw [List.append_assoc, List.append_assoc] at heq
  exact h r s hr hs (List.append_cancel_left heq)

lemma Decides.append (h : Decides P cs ds) (h' : Decides Q cs' ds') (hcs : ∀ r, Ends (cs' ++ r))
    (hds : ∀ r, Ends (ds' ++ r)) : Decides (P ∧ Q) (cs ++ cs') (ds ++ ds') := by
  intro r s hr hs heq
  rw [List.append_assoc, List.append_assoc] at heq
  obtain ⟨hP, heq⟩ := h _ _ (hcs r) (hds s) heq
  obtain ⟨hQ, hrs⟩ := h' r s hr hs heq
  exact ⟨⟨hP, hQ⟩, hrs⟩

/-! ### Strings -/

/-- Reads what follows a backslash: the character that is meant, and the rest. -/
def readEscape : List Char → Option (Char × List Char)
  | 'b' :: cs => some ('\x08', cs)
  | 'f' :: cs => some ('\x0c', cs)
  | 'n' :: cs => some ('\n', cs)
  | 'r' :: cs => some ('\r', cs)
  | 't' :: cs => some ('\t', cs)
  | 'u' :: '0' :: '0' :: high :: low :: cs =>
    (Integer.readNat? 16 [high, low]).map fun n => (Char.ofNat n, cs)
  | c :: cs   => some (c, cs)
  | []        => none

/-- Reads a character of a string. There is none in front of the closing quote. -/
def readChar : List Char → Option (Char × List Char)
  | '"' :: _   => none
  | '\\' :: cs => readEscape cs
  | c :: cs    => some (c, cs)
  | []         => none

/-- Two digits are read as the number that they are written for. -/
lemma readNat?_hexDigits {n : Nat} (h : n < 256) :
    Integer.readNat? 16 [Integer.hexDigit 'a' (n / 16), Integer.hexDigit 'a' (n % 16)] =
      some n := by
  have hhigh : Integer.digit? 16 (Integer.hexDigit 'a' (n / 16)) = some (n / 16) :=
    Integer.digit?_hexDigit (.inl rfl) (by omega)
  have hlow : Integer.digit? 16 (Integer.hexDigit 'a' (n % 16)) = some (n % 16) :=
    Integer.digit?_hexDigit (.inl rfl) (by omega)
  simp only [Integer.readNat?, Integer.readDigits?, hhigh, hlow, Nat.mul_zero, Nat.zero_add,
    Nat.div_add_mod]

lemma readChar_escape (c : Char) (r : List Char) : readChar (escape c ++ r) = some (c, r) := by
  unfold escape
  split
  case h_8 hquote hslash _ _ _ _ _ =>
    split
    · rename_i hcontrol
      have hread := readNat?_hexDigits (hcontrol.trans (by decide))
      simp only [List.cons_append, List.nil_append, readChar, readEscape, hread, Option.map_some,
        Char.ofNat_toNat]
    · rw [List.singleton_append]
      unfold readChar
      split <;> simp_all
  all_goals rfl

/-- A string stops at the first quote that is not part of an escape. -/
lemma flatMap_escape_inj {as bs : List Char}
    (h : as.flatMap escape ++ '"' :: r = bs.flatMap escape ++ '"' :: s) : as = bs ∧ r = s := by
  induction as generalizing bs with
  | nil =>
    cases bs with
    | nil => exact ⟨rfl, (List.cons.inj h).2⟩
    | cons b bs =>
      have hread := congrArg readChar h
      rw [List.flatMap_cons, List.append_assoc, readChar_escape] at hread
      cases hread
  | cons a as ih =>
    have hread := congrArg readChar h
    rw [List.flatMap_cons, List.append_assoc, readChar_escape] at hread
    cases bs with
    | nil => cases hread
    | cons b bs =>
      rw [List.flatMap_cons, List.append_assoc, readChar_escape] at hread
      obtain ⟨rfl, hrest⟩ := Prod.mk.inj (Option.some.inj hread)
      exact (ih hrest).imp_left (congrArg _)

lemma decides_quote (k l : String) : Decides (k = l) (quote k) (quote l) := by
  intro r s _ _ heq
  simp only [quote, List.cons_append, List.append_assoc, List.nil_append] at heq
  exact (flatMap_escape_inj (List.cons.inj heq).2).imp_left String.toList_inj.mp

/-! ### Integers -/

lemma isNumberChar_of_mem_text {i : Int64} {c : Char} (h : c ∈ (Integer.text i).toList) :
    isNumberChar c = true := by
  rcases Yaml.Value.isDigit_or_sign_of_mem_text h with hc | rfl
  · rw [isNumberChar, hc, Bool.true_or]
  · rfl

lemma takeWhile_text (i : Int64) (hr : Ends r) :
    ((Integer.text i).toList ++ r).takeWhile isNumberChar = (Integer.text i).toList := by
  rw [List.takeWhile_append_of_pos fun c hc => isNumberChar_of_mem_text hc]
  cases r with
  | nil => simp
  | cons c r =>
    have hc : isNumberChar c = false := by simpa [Ends] using hr
    simp [hc]

lemma decides_text (i j : Int64) :
    Decides (i = j) (Integer.text i).toList (Integer.text j).toList := by
  intro r s hr hs heq
  have htext := congrArg (List.takeWhile isNumberChar) heq
  rw [takeWhile_text i hr, takeWhile_text j hs] at htext
  refine ⟨?_, List.append_cancel_left (htext ▸ heq)⟩
  have hread := congrArg (Integer.readInt64? 10) htext
  rw [Integer.readInt64?_text, Integer.readInt64?_text] at hread
  exact Option.some.inj hread

/-! ### Brackets -/

section Brackets

variable {α : Type} {R : α → α → Prop} {f : α → List Char} {xs ys : List α}
  {opening closing : Char} {e : List Char} {es : List (List Char)}

/-- A closing bracket is neither a comma nor a line break, and a number ends in front of it. -/
structure IsClosing (c : Char) : Prop where
  ne_comma : c ≠ ','
  ne_newLine : c ≠ '\n'
  not_number : isNumberChar c = false

/-- What stands behind an item: the items that follow, and the closing bracket. -/
def afterItem (spacing : Spacing) (depth : Nat) (closing : Char) (es : List (List Char)) :
    List Char :=
  es.flatMap ((',' :: spacing.newLine (depth + 1)) ++ ·) ++ (spacing.newLine depth ++ [closing])

lemma afterItem_cons : afterItem spacing depth closing (e :: es) =
    (',' :: spacing.newLine (depth + 1)) ++ (e ++ afterItem spacing depth closing es) := by
  simp only [afterItem, List.flatMap_cons, List.append_assoc]

lemma intercalate_cons {sep : List Char} :
    sep.intercalate (e :: es) = e ++ es.flatMap (sep ++ ·) := by
  induction es generalizing e with
  | nil => simp
  | cons e' es ih =>
    rw [List.intercalate_cons_cons, ih, List.flatMap_cons, List.append_assoc, List.append_assoc]

lemma bracket_cons : spacing.bracket depth opening closing (e :: es) =
    (opening :: spacing.newLine (depth + 1)) ++ (e ++ afterItem spacing depth closing es) := by
  simp only [Spacing.bracket, afterItem, intercalate_cons, List.append_assoc, List.cons_append]

/-- Behind the last item stands a new line or the closing bracket. -/
lemma exists_afterItem_nil (spacing : Spacing) (depth : Nat) :
    ∃ c cs, afterItem spacing depth closing [] = c :: cs ∧ (c = '\n' ∨ c = closing) := by
  cases spacing with
  | compact => exact ⟨_, _, rfl, Or.inr rfl⟩
  | indented => exact ⟨_, _, rfl, Or.inl rfl⟩

lemma ends_afterItem (h : IsClosing closing) (r : List Char) :
    Ends (afterItem spacing depth closing es ++ r) := by
  cases es with
  | nil =>
    obtain ⟨c, cs, heq, hc⟩ := exists_afterItem_nil spacing depth
    rw [heq]
    rcases hc with rfl | rfl
    · exact ends_cons rfl
    · exact ends_cons h.not_number
  | cons e es => exact afterItem_cons ▸ ends_cons rfl

lemma afterItem_nil_ne (h : IsClosing closing) : afterItem spacing depth closing [] ++ r ≠
    afterItem spacing depth closing (e :: es) ++ s := by
  obtain ⟨c, cs, heq, hc⟩ := exists_afterItem_nil spacing depth
  rw [heq, afterItem_cons]
  intro hcons
  obtain rfl := (List.cons.inj hcons).1
  rcases hc with hc | hc
  · cases hc
  · exact h.ne_comma hc.symm

/-- The first items decide about each other, and what stands behind them about the others. -/
lemma decides_item {x y : α} (h : IsClosing closing) (hfirst : Decides (R x y) (f x) (f y))
    (hrest : Decides (Forall₂ R xs ys) (afterItem spacing depth closing (xs.map f))
      (afterItem spacing depth closing (ys.map f))) (mark : List Char) :
    Decides (Forall₂ R (x :: xs) (y :: ys))
      (mark ++ (f x ++ afterItem spacing depth closing (xs.map f)))
      (mark ++ (f y ++ afterItem spacing depth closing (ys.map f))) := by
  have hboth := hfirst.append hrest (ends_afterItem h) (ends_afterItem h)
  exact (hboth.prepend mark).imp fun ⟨hxy, hrest⟩ => .cons hxy hrest

lemma decides_afterItem (h : IsClosing closing)
    (hf : ∀ x ∈ xs, ∀ y ∈ ys, Decides (R x y) (f x) (f y)) :
    Decides (Forall₂ R xs ys) (afterItem spacing depth closing (xs.map f))
      (afterItem spacing depth closing (ys.map f)) := by
  induction xs generalizing ys with
  | nil =>
    cases ys with
    | nil => exact decides_of_eq .nil
    | cons y ys => exact fun r s _ _ heq => absurd heq (afterItem_nil_ne h)
  | cons x xs ih =>
    cases ys with
    | nil => exact fun r s _ _ heq => absurd heq.symm (afterItem_nil_ne h)
    | cons y ys =>
      rw [List.map_cons, List.map_cons, afterItem_cons, afterItem_cons]
      refine decides_item h (hf x List.mem_cons_self y List.mem_cons_self) ?_ _
      exact ih fun x hx y hy => hf x (List.mem_cons_of_mem _ hx) y (List.mem_cons_of_mem _ hy)

/-- Brackets with nothing between them are not those of an item. -/
lemma bracket_nil_ne (h : IsClosing closing) (he : ∃ c ∈ e.head?, c ≠ closing) :
    spacing.bracket depth opening closing [] ++ r ≠
      spacing.bracket depth opening closing (e :: es) ++ s := by
  obtain ⟨c, hmem, hc⟩ := he
  obtain ⟨cs, rfl⟩ := List.head?_eq_some_iff.mp hmem
  rw [bracket_cons]
  intro heq
  have hsecond := (List.cons.inj heq).2
  cases spacing with
  | compact => exact hc (List.cons.inj hsecond).1.symm
  | indented => exact h.ne_newLine (List.cons.inj hsecond).1

lemma decides_bracket (h : IsClosing closing)
    (hf : ∀ x ∈ xs, ∀ y ∈ ys, Decides (R x y) (f x) (f y))
    (hxs : ∀ x ∈ xs, ∃ c ∈ (f x).head?, c ≠ closing)
    (hys : ∀ y ∈ ys, ∃ c ∈ (f y).head?, c ≠ closing) :
    Decides (Forall₂ R xs ys) (spacing.bracket depth opening closing (xs.map f))
      (spacing.bracket depth opening closing (ys.map f)) := by
  cases xs with
  | nil =>
    cases ys with
    | nil => exact decides_of_eq .nil
    | cons y ys =>
      exact fun r s _ _ heq => absurd heq (bracket_nil_ne h (hys y List.mem_cons_self))
  | cons x xs =>
    cases ys with
    | nil =>
      exact fun r s _ _ heq => absurd heq.symm (bracket_nil_ne h (hxs x List.mem_cons_self))
    | cons y ys =>
      rw [List.map_cons, List.map_cons, bracket_cons, bracket_cons]
      refine decides_item h (hf x List.mem_cons_self y List.mem_cons_self) ?_ _
      exact decides_afterItem h
        fun x hx y hy => hf x (List.mem_cons_of_mem _ hx) y (List.mem_cons_of_mem _ hy)

end Brackets

/-! ### Nodes -/

def entryText (spacing : Spacing) (depth : Nat) (e : String × Node) : List Char :=
  quote e.1 ++ (spacing.colon ++ write spacing depth e.2)

lemma writeEntries_eq (es : List (String × Node)) :
    writeEntries spacing depth es = es.map (entryText spacing depth) := by
  induction es with
  | nil => rfl
  | cons e es ih => rw [writeEntries, ih, List.map_cons, entryText, List.append_assoc]

lemma writeItems_eq (xs : List Node) :
    writeItems spacing depth xs = xs.map (write spacing depth) := by
  induction xs with
  | nil => rfl
  | cons x xs ih => rw [writeItems, ih, List.map_cons]

/-- The type of a node whose text starts with the given character, as far as it is no float. -/
def startName? : Char → Option String
  | '\x7b'    => some "mapping"
  | '['       => some "sequence"
  | '"'       => some "string"
  | 't' | 'f' => some "boolean"
  | 'n'       => some "null"
  | c         => if isNumberChar c then some "number" else none

lemma startName?_of_isNumberChar {c : Char} (h : isNumberChar c = true) :
    startName? c = some "number" := by
  unfold startName?
  split <;> exact if_pos h

lemma exists_bracket {opening closing : Char} (es : List (List Char)) :
    ∃ cs, spacing.bracket depth opening closing es = opening :: cs := by
  cases es with
  | nil => exact ⟨_, rfl⟩
  | cons e es => exact ⟨_, bracket_cons⟩

/-- The first character tells the type of a node. -/
lemma exists_write (spacing : Spacing) (depth : Nat) (hx : x.holdsFloat = false) :
    ∃ c cs, write spacing depth x = c :: cs ∧ startName? c = some x.withNulls.typeName := by
  cases x with
  | mapping es =>
    obtain ⟨cs, hcs⟩ := exists_bracket (writeEntries spacing (depth + 1) es)
    exact ⟨_, cs, hcs, rfl⟩
  | sequence xs =>
    obtain ⟨cs, hcs⟩ := exists_bracket (writeItems spacing (depth + 1) xs)
    exact ⟨_, cs, hcs, rfl⟩
  | integer i =>
    rw [write]
    cases htext : (Integer.text i).toList with
    | nil =>
      have hread := Integer.readInt64?_text i
      rw [htext] at hread
      cases hread
    | cons c cs =>
      have hmem : c ∈ (Integer.text i).toList := htext ▸ List.mem_cons_self
      exact ⟨c, cs, rfl, startName?_of_isNumberChar (isNumberChar_of_mem_text hmem)⟩
  | float u => cases hx
  | boolean b => cases b <;> exact ⟨_, _, rfl, rfl⟩
  | string _ | null | absent => exact ⟨_, _, rfl, rfl⟩

/-- Only nodes of one type have to be told apart. -/
lemma decides_of_typeName (hx : x.holdsFloat = false) (hy : y.holdsFloat = false)
    (h : x.withNulls.typeName = y.withNulls.typeName →
      Decides P (write spacing depth x) (write spacing depth y)) :
    Decides P (write spacing depth x) (write spacing depth y) := by
  intro r s hr hs heq
  obtain ⟨c, cs, hwrite, hname⟩ := exists_write spacing depth hx
  obtain ⟨d, ds, hwrite', hname'⟩ := exists_write spacing depth hy
  have hfirst : c :: (cs ++ r) = d :: (ds ++ s) := by
    rw [← List.cons_append, ← List.cons_append, ← hwrite, ← hwrite', heq]
  obtain rfl := (List.cons.inj hfirst).1
  exact h (Option.some.inj (hname.symm.trans hname')) r s hr hs heq

lemma decides_leaf (hmapping : x.isMapping = false) (hsequence : x.isSequence = false)
    (hx : x.holdsFloat = false) (hy : y.holdsFloat = false) :
    Decides (x.withNulls = y.withNulls) (write spacing depth x) (write spacing depth y) := by
  -- texts of different types start with different characters: one type is left for `y`
  refine decides_of_typeName hx hy fun hname => ?_
  cases x with
  | mapping es => cases hmapping
  | sequence xs => cases hsequence
  | float u => cases hx
  | string t =>
    cases y with
    | string u => exact (decides_quote t u).imp (congrArg string)
    | _ => simp [withNulls, typeName] at hname
  | integer i =>
    cases y with
    | integer j => exact (decides_text i j).imp (congrArg integer)
    | float u => cases hy
    | _ => simp [withNulls, typeName] at hname
  | boolean b =>
    cases y with
    | boolean c =>
      by_cases hbc : b = c
      · exact hbc ▸ decides_of_eq rfl
      · intro r s _ _ heq
        cases b <;> cases c <;> first | exact absurd rfl hbc | cases heq
    | _ => simp [withNulls, typeName] at hname
  | null | absent =>
    cases y with
    | null | absent => exact decides_of_eq rfl
    | _ => simp [withNulls, typeName] at hname

lemma decides_entryText {e f : String × Node}
    (h : Decides (e.2.withNulls = f.2.withNulls) (write spacing depth e.2)
      (write spacing depth f.2)) :
    Decides ((e.1, e.2.withNulls) = (f.1, f.2.withNulls)) (entryText spacing depth e)
      (entryText spacing depth f) := by
  have hcolon (r : List Char) : Ends (spacing.colon ++ r) := by
    cases spacing <;> exact ends_cons rfl
  have hends (cs r : List Char) : Ends (spacing.colon ++ cs ++ r) :=
    List.append_assoc _ cs r ▸ hcolon (cs ++ r)
  exact ((decides_quote e.1 f.1).append (h.prepend _) (hends _) (hends _)).imp Prod.mk_inj.mpr

lemma map_eq_map_of_forall₂ {α β : Type} {f : α → β} {xs ys : List α}
    (h : Forall₂ (fun x y => f x = f y) xs ys) : xs.map f = ys.map f := by
  rwa [← List.forall₂_eq_eq_eq, List.forall₂_map_left_iff, List.forall₂_map_right_iff]

/--
The text of a node settles which node it is and where it stops. By induction on the left node: the
right one is of the same type, so its children are written in the same way and at the same depth.
-/
theorem decides_write (hx : x.holdsFloat = false) (hy : y.holdsFloat = false) :
    Decides (x.withNulls = y.withNulls) (write spacing depth x) (write spacing depth y) := by
  induction x using Node.induction generalizing y depth with
  | mapping es ih =>
    refine decides_of_typeName hx hy fun hname => ?_
    cases y with
    | mapping fs =>
      have hentries : ∀ e ∈ es, ∀ f ∈ fs,
          Decides ((e.1, e.2.withNulls) = (f.1, f.2.withNulls))
            (entryText spacing (depth + 1) e) (entryText spacing (depth + 1) f) :=
        fun e he f hf => decides_entryText (ih e he (holdsFloatWith_mapping_iff.mp hx e he)
          (holdsFloatWith_mapping_iff.mp hy f hf))
      -- an entry never starts like the closing bracket, so the number of entries is settled too
      have hstart (e : String × Node) :
          ∃ c ∈ (entryText spacing (depth + 1) e).head?, c ≠ '\x7d' := ⟨'"', rfl, by decide⟩
      rw [write, write, writeEntries_eq, writeEntries_eq, withNulls_mapping, withNulls_mapping]
      exact (decides_bracket ⟨by decide, by decide, rfl⟩ hentries (fun e _ => hstart e)
        fun f _ => hstart f).imp fun h => congrArg mapping (map_eq_map_of_forall₂ h)
    | _ => simp [withNulls, typeName] at hname
  | sequence xs ih =>
    refine decides_of_typeName hx hy fun hname => ?_
    cases y with
    | sequence ys =>
      have hxs := holdsFloatWith_sequence_iff.mp hx
      have hys := holdsFloatWith_sequence_iff.mp hy
      have hitems : ∀ x ∈ xs, ∀ y ∈ ys, Decides (x.withNulls = y.withNulls)
          (write spacing (depth + 1) x) (write spacing (depth + 1) y) :=
        fun x hx y hy => ih x hx (hxs x hx) (hys y hy)
      have hstart {x : Node} (hx : x.holdsFloat = false) :
          ∃ c ∈ (write spacing (depth + 1) x).head?, c ≠ ']' := by
        obtain ⟨c, cs, hcs, hc⟩ := exists_write spacing (depth + 1) hx
        refine ⟨c, by rw [hcs]; rfl, ?_⟩
        rintro rfl
        cases hc
      rw [write, write, writeItems_eq, writeItems_eq, withNulls_sequence, withNulls_sequence]
      exact (decides_bracket ⟨by decide, by decide, rfl⟩ hitems (fun x hx => hstart (hxs x hx))
        fun y hy => hstart (hys y hy)).imp fun h => congrArg sequence (map_eq_map_of_forall₂ h)
    | _ => simp [withNulls, typeName] at hname
  | leaf x hmapping hsequence => exact decides_leaf hmapping hsequence hx hy

/-! ### The text of a node -/

/-- An absent node is written as null. -/
lemma write_withNulls (x : Node) : write spacing depth x.withNulls = write spacing depth x := by
  induction x using Node.induction generalizing depth with
  | mapping es ih =>
    rw [withNulls_mapping, write, write, writeEntries_eq, writeEntries_eq, List.map_map]
    have hentries : ∀ e ∈ es, entryText spacing (depth + 1) (e.1, e.2.withNulls) =
        entryText spacing (depth + 1) e := fun e he => by rw [entryText, entryText, ih e he]
    exact congrArg _ (List.map_congr_left hentries)
  | sequence xs ih =>
    rw [withNulls_sequence, write, write, writeItems_eq, writeItems_eq, List.map_map]
    exact congrArg _ (List.map_congr_left fun x hx => ih x hx)
  | leaf x hmapping hsequence =>
    cases x with
    | mapping es => cases hmapping
    | sequence xs => cases hsequence
    | _ => rfl

/--
Two nodes without floats have the same JSON, in either spacing, if and only if they are the same
tree up to null in place of absent nodes.
-/
theorem print_eq_print_iff (spacing : Spacing) (hx : x.holdsFloat = false)
    (hy : y.holdsFloat = false) :
    print spacing x = print spacing y ↔ x.withNulls = y.withNulls := by
  rw [print, print, String.ofList_inj]
  constructor
  · intro h
    exact (decides_write hx hy [] [] rfl rfl (congrArg (· ++ []) h)).1
  · intro h
    rw [← write_withNulls x, h, write_withNulls y]

/--
An absent node and null are written alike. A string that spells a number, and one that looks like
two items, are told apart from these, and so is the order of the entries.
-/
theorem print_eq_print_iff_nested :
    let items (xs : List Node) : Node := .sequence (.mapping [] :: xs)
    let entry : String × Node := ("\"\\\n", .boolean true)
    let x : Node := .mapping [("a", items [.string "1", .absent]), entry]
    let y : Node := .mapping [("a", items [.string "1", .null]), entry]
    let number : Node := .mapping [("a", items [.integer 1, .null]), entry]
    let joined : Node := .mapping [("a", items [.string "1\",null"]), entry]
    let swapped : Node := .mapping [entry, ("a", items [.string "1", .null])]
    x.holdsFloat = false ∧ y.holdsFloat = false ∧
      number.holdsFloat = false ∧ joined.holdsFloat = false ∧ swapped.holdsFloat = false ∧
      print .indented x = print .indented y ∧ print .compact x = print .compact y ∧
      print .indented x ≠ print .indented number ∧ print .compact x ≠ print .compact joined ∧
      print .compact x ≠ print .compact swapped := by
  intro items entry x y number joined swapped
  have hx : x.holdsFloat = false := by decide +kernel
  have hy : y.holdsFloat = false := by decide +kernel
  have hnumber : number.holdsFloat = false := by decide +kernel
  have hjoined : joined.holdsFloat = false := by decide +kernel
  have hswapped : swapped.holdsFloat = false := by decide +kernel
  have hnulls : x.withNulls = y.withNulls := by decide +kernel
  refine ⟨hx, hy, hnumber, hjoined, hswapped, (print_eq_print_iff _ hx hy).mpr hnulls,
    (print_eq_print_iff _ hx hy).mpr hnulls, ?_, ?_, ?_⟩
  · exact fun h => absurd ((print_eq_print_iff _ hx hnumber).mp h) (by decide +kernel)
  · exact fun h => absurd ((print_eq_print_iff _ hx hjoined).mp h) (by decide +kernel)
  · exact fun h => absurd ((print_eq_print_iff _ hx hswapped).mp h) (by decide +kernel)

end Json
end YamlSieve
