import YamlSieve.Proofs.Yaml.Passing
import YamlSieve.Yaml.TokenStream
import Mathlib.Data.List.InsertIdx

/-!
# Levels of indentation

What is known of a reader between two tokens, and how the levels of indentation change when block
collections are opened and closed.
-/

namespace YamlSieve.Yaml.Nesting

def kinds (s : Nesting) : List TokenKind := s.tokens.toList.map Token.kind

/-- The state of a reader outside of flow collections. -/
structure Is (s : Nesting) (input : Input) (kinds : List TokenKind) (keyAllowed : Bool)
    (key : Option PossibleKey) (indent : Int) (levels : List Level) : Prop where
  input            : s.input = input
  kinds            : s.kinds = kinds
  keyAllowed       : s.keyAllowed = keyAllowed
  keys             : s.keys = [key]
  indent           : s.indent = indent
  levels           : s.levels = levels
  flowLevel        : s.flowLevel = 0
  implicitMappings : s.implicitMappings = []

variable {s : Nesting} {input : Input} {ks : List TokenKind} {allowed : Bool}
  {key : Option PossibleKey} {i k : Int} {L M N : List Level}

lemma Is.inFlow (h : s.Is input ks allowed key i M) : s.inFlow = false := by
  simp [Nesting.inFlow, h.flowLevel]

lemma Is.emit (h : s.Is input ks allowed key i M) (kind : TokenKind) (position : Position) :
    (s.emit kind position).Is input (ks ++ [kind]) allowed key i M := by
  refine ⟨h.input, ?_, h.keyAllowed, h.keys, h.indent, h.levels, h.flowLevel, h.implicitMappings⟩
  rw [← h.kinds]
  simp [Nesting.kinds, Nesting.emit]

lemma Is.withInput (h : s.Is input ks allowed key i M) (input' : Input) :
    Is { s with input := input' } input' ks allowed key i M :=
  ⟨rfl, h.kinds, h.keyAllowed, h.keys, h.indent, h.levels, h.flowLevel, h.implicitMappings⟩

lemma Is.withAllowed (h : s.Is input ks allowed key i M) (allowed' : Bool) :
    Is { s with keyAllowed := allowed' } input ks allowed' key i M :=
  ⟨h.input, h.kinds, rfl, h.keys, h.indent, h.levels, h.flowLevel, h.implicitMappings⟩

lemma Is.withKey (h : s.Is input ks allowed key i M) (key' : Option PossibleKey) :
    (s.withKey key').Is input ks allowed key' i M :=
  ⟨h.input, h.kinds, h.keyAllowed, by simp [Nesting.withKey, h.keys], h.indent, h.levels,
    h.flowLevel, h.implicitMappings⟩

lemma Is.withLevels (h : s.Is input ks allowed key i M) (i' : Int) (M' : List Level) :
    Is { s with indent := i', levels := M' } input ks allowed key i' M' :=
  ⟨h.input, h.kinds, h.keyAllowed, h.keys, rfl, rfl, h.flowLevel, h.implicitMappings⟩

lemma Is.withAdjacent (h : s.Is input ks allowed key i M) (index : Nat) :
    Is { s with adjacentValueAt := index } input ks allowed key i M :=
  ⟨h.input, h.kinds, h.keyAllowed, h.keys, h.indent, h.levels, h.flowLevel, h.implicitMappings⟩

lemma insertIdx_append {α : Type} {front back : List α} {a : α} {index : Nat}
    (h : index = front.length) : (front ++ back).insertIdx index a = front ++ a :: back := by
  subst h
  induction front with
  | nil => rfl
  | cons b front ih => exact congrArg (b :: ·) ih

lemma Is.insert {front back : List TokenKind} (h : s.Is input (front ++ back) allowed key i M)
    {index : Nat} (hindex : index = front.length) (kind : TokenKind) (position : Position) :
    (s.insert index kind position).Is input (front ++ kind :: back) allowed key i M := by
  refine ⟨h.input, ?_, h.keyAllowed, h.keys, h.indent, h.levels, h.flowLevel, h.implicitMappings⟩
  rw [← insertIdx_append hindex, ← h.kinds]
  obtain ⟨_, ⟨tokens⟩, _, _, _, _, _, _, _, _⟩ := s
  simp only [Nesting.kinds, Nesting.insert, List.insertIdxIfInBounds_toArray]
  exact List.map_insertIdx Token.kind tokens index _

/-! ### Closing -/

/--
What is left of the indentation and the levels after closing down to a column, and the tokens with
the ends of the collections that were closed.
-/
def closed (column : Int) : Int → List Level → List TokenKind → Int × List Level × List TokenKind
  | indent, [], ks              => (indent, [], ks)
  | indent, level :: levels, ks =>
    if indent ≤ column then (indent, level :: levels, ks)
    else closed column level.indent levels (if level.collection then ks ++ [.blockEnd] else ks)

lemma Is.leaveLevel {level : Level} (h : s.Is input ks allowed key i (level :: M)) :
    s.leaveLevel.Is input ks allowed key level.indent M := by
  rw [Nesting.leaveLevel, h.levels]
  exact h.withLevels level.indent M

lemma Is.closeLevels (h : s.Is input ks allowed key i M) (column : Int) {fuel : Nat}
    (hfuel : M.length ≤ fuel) {i' : Int} {M' : List Level} {ks' : List TokenKind}
    (hclosed : closed column i M ks = (i', M', ks')) :
    (s.closeLevels column fuel).Is input ks' allowed key i' M' := by
  -- the levels are closed from the innermost one on, up to one that is no further right
  induction M generalizing s i ks fuel with
  | nil =>
    cases hclosed
    cases fuel with
    | zero => exact h
    | succ fuel =>
      rw [Nesting.closeLevels, h.levels]
      split <;> exact h
  | cons level M ih =>
    obtain ⟨fuel, rfl⟩ : ∃ f, fuel = f + 1 := ⟨fuel - 1, by rw [List.length_cons] at hfuel; omega⟩
    rw [closed] at hclosed
    rw [Nesting.closeLevels, h.indent, h.levels]
    split at hclosed
    · rename_i hle
      cases hclosed
      rw [if_pos hle]
      exact h
    · rename_i hnot
      rw [if_neg hnot]
      refine ih ?_ (Nat.le_of_succ_le_succ hfuel) hclosed
      split
      · exact h.leaveLevel.emit _ _
      · exact h.leaveLevel

lemma Is.closeBlocks (h : s.Is input ks allowed key i M) (column : Int)
    {i' : Int} {M' : List Level} {ks' : List TokenKind}
    (hclosed : closed column i M ks = (i', M', ks')) :
    (s.closeBlocks column).Is input ks' allowed key i' M' := by
  rw [Nesting.closeBlocks, h.inFlow, if_neg Bool.false_ne_true]
  exact h.closeLevels column (Nat.le_of_eq (by rw [h.levels])) hclosed

lemma closed_of_le {column : Int} (h : i ≤ column) (M : List Level) (ks : List TokenKind) :
    closed column i M ks = (i, M, ks) := by
  cases M with
  | nil => rfl
  | cons level M => rw [closed, if_pos h]

/-- Closing in steps is closing at once. -/
lemma closed_closed {column column' : Int} (hle : column ≤ column') {i' : Int} {M' : List Level}
    {ks' : List TokenKind} (h : closed column' i M ks = (i', M', ks')) :
    closed column i M ks = closed column i' M' ks' := by
  induction M generalizing i ks with
  | nil => cases h; rfl
  | cons level M ih =>
    rw [closed] at h
    split at h
    · cases h
      rfl
    · rename_i hnot
      -- what is behind `column'` is behind `column` too
      rw [closed, if_neg (by omega)]
      exact ih h

/-! ### Inside of a collection -/

/-- The levels around a place are those of block collections, or there are none. -/
def Outer (L : List Level) : Prop := ∀ level ∈ L.head?, level.collection = true

/-- The indentation and the levels at a place, where one column more may be asked for. -/
inductive Inside (k : Int) (L : List Level) : Int → List Level → Prop where
  | tight : Inside k L k L
  | loose (h : L ≠ []) : Inside k L (k + 1) (⟨k, false⟩ :: L)

lemma Is.inLooseLevel_of_outer (h : s.Is input ks allowed key i L) (hL : Outer L) :
    s.inLooseLevel = false := by
  rw [Nesting.inLooseLevel, h.levels]
  cases L with
  | nil => rfl
  | cons level L => simp [hL level rfl]

lemma Is.inLooseLevel_of_loose (h : s.Is input ks allowed key i (⟨k, false⟩ :: L)) :
    s.inLooseLevel = true := by
  rw [Nesting.inLooseLevel, h.levels]
  rfl

/-- Leaving the loose levels gets back to the collection. -/
lemma Is.leaveLoose (h : s.Is input ks allowed key i M) (hin : Inside k L i M) (hL : Outer L) :
    s.leaveLoose.Is input ks allowed key k L := by
  have htake : L.takeWhile (fun level => !level.collection) = [] := by
    cases L with
    | nil => rfl
    | cons level L => simp [hL level rfl]
  have hdrop : L.dropWhile (fun level => !level.collection) = L := by
    cases L with
    | nil => rfl
    | cons level L => simp [hL level rfl]
  cases hin with
  | tight =>
    rw [Nesting.leaveLoose, h.levels, htake, hdrop, h.indent]
    exact h.withLevels _ _
  | loose =>
    rw [Nesting.leaveLoose, h.levels, List.takeWhile_cons_of_pos rfl, htake,
      List.dropWhile_cons_of_pos rfl, hdrop]
    exact h.withLevels k L

lemma Is.openLoose (h : s.Is input ks allowed key i M) (hin : Inside k L i M) (hL : Outer L) :
    ∃ i' M', Inside k L i' M' ∧ (L ≠ [] → i' = k + 1 ∧ M' = ⟨k, false⟩ :: L) ∧
      s.openLoose.Is input ks allowed key i' M' := by
  cases hin with
  | tight =>
    have hloose := h.inLooseLevel_of_outer hL
    by_cases hne : L = []
    · refine ⟨_, _, .tight, fun hn => absurd hne hn, ?_⟩
      rw [Nesting.openLoose, h.levels, if_neg (by simp [hne])]
      exact h
    · refine ⟨_, _, .loose hne, fun _ => ⟨rfl, rfl⟩, ?_⟩
      rw [Nesting.openLoose, h.inFlow, hloose, h.levels, if_pos (by simp [hne]), h.indent]
      exact h.withLevels _ _
  | loose hne =>
    refine ⟨_, _, .loose hne, fun _ => ⟨rfl, rfl⟩, ?_⟩
    rw [Nesting.openLoose, h.inLooseLevel_of_loose, if_neg (by simp)]
    exact h

/-! ### Opening -/

/--
A block collection whose entries stand in the given column is open at a place, or is opened there
by an entry; then its levels are `N`.
-/
inductive Opens (j : Nat) (N : List Level) : Int → List Level → Bool → Prop where
  | new {k : Int} {L : List Level} (hlt : k < j) (hN : N = ⟨k, true⟩ :: L) : Opens j N k L true
  | same (hne : N ≠ []) : Opens j N j N false

/-- The token of a collection that an entry opens. -/
def startOf (isNew : Bool) (kind : TokenKind) : List TokenKind := if isNew then [kind] else []

lemma Opens.outer {j : Nat} {isNew : Bool} (h : Opens j N k L isNew) (hL : Outer L) : Outer N := by
  cases h with
  | new hlt hN => subst hN; rintro _ ⟨⟩; rfl
  | same => exact hL

lemma Opens.ne_nil {j : Nat} {isNew : Bool} (h : Opens j N k L isNew) : N ≠ [] := by
  cases h with
  | new hlt hN => subst hN; exact List.cons_ne_nil _ _
  | same hne => exact hne

lemma Opens.le {j : Nat} {isNew : Bool} (h : Opens j N k L isNew) : k ≤ j := by
  cases h with
  | new hlt => exact Int.le_of_lt hlt
  | same => exact Int.le_refl _

/-- An entry opens the collection around it, unless that is open. -/
lemma Is.openBlock {front back : List TokenKind} (h : s.Is input (front ++ back) allowed key i M)
    (hin : Inside k L i M) (hL : Outer L) {j : Nat} {isNew : Bool} (hopen : Opens j N k L isNew)
    {index : Nat} (hindex : index = front.length) (kind : TokenKind) (position : Position) :
    ∃ i' M', Inside j N i' M' ∧
      (s.openBlock j index kind position).Is input (front ++ startOf isNew kind ++ back) allowed key
        i' M' := by
  rw [Nesting.openBlock, h.inFlow, if_neg Bool.false_ne_true]
  -- what an entry does at the level of the collection around it, once a loose level is left
  have push {s : Nesting} {k : Int} {L : List Level}
      (h : s.Is input (front ++ back) allowed key k L) (hlt : k < j) (hN : N = ⟨k, true⟩ :: L) :
      (if s.indent < j then
        { s with indent := j, levels := ⟨s.indent, true⟩ :: s.levels }.insert index kind position
      else s).Is input (front ++ startOf true kind ++ back) allowed key j N := by
    rw [h.indent, if_pos hlt, h.levels, ← hN, startOf, if_pos rfl, List.append_assoc]
    exact (h.withLevels j N).insert hindex kind position
  cases hopen with
  | new hlt hN =>
    refine ⟨j, N, .tight, ?_⟩
    cases hin with
    | tight =>
      rw [h.inLooseLevel_of_outer hL, Bool.and_false, if_neg Bool.false_ne_true]
      exact push h hlt hN
    | loose =>
      -- the loose level asks for one column more than `k`, and so it is left
      have hleave : (decide (s.indent ≤ j) && s.inLooseLevel) = true := by
        rw [h.inLooseLevel_of_loose, h.indent, Bool.and_true]
        exact decide_eq_true hlt
      rw [hleave, if_pos rfl]
      exact push h.leaveLevel hlt hN
  | same hne =>
    -- an open collection has its token already
    have hkinds : front ++ startOf false kind ++ back = front ++ back := by
      rw [startOf, if_neg Bool.false_ne_true, List.append_nil]
    rw [hkinds]
    refine ⟨i, M, hin, ?_⟩
    cases hin with
    | tight =>
      rw [h.inLooseLevel_of_outer hL, Bool.and_false, if_neg Bool.false_ne_true,
        if_neg (by rw [h.indent]; exact Int.lt_irrefl _)]
      exact h
    | loose =>
      -- the loose level asks for a column behind `j`, and so it stays
      have hstay : (decide (s.indent ≤ j) && s.inLooseLevel) = false := by
        rw [h.indent, decide_eq_false (by omega), Bool.false_and]
      rw [hstay, if_neg Bool.false_ne_true, if_neg (by rw [h.indent]; omega)]
      exact h

end YamlSieve.Yaml.Nesting
