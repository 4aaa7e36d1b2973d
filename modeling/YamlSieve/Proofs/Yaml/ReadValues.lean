import Mathlib.Data.List.Basic
import YamlSieve.Yaml.ValueStream

/-!
# Values of a text

What all scalars have in common, and what collections inherit from what is in them, all values of a
text have in common (`Value.of_ofText`). An alias adds nothing to this, as it stands for a value
that was read before.
-/

namespace YamlSieve.Yaml

open Composer

/-- A property that scalars have and that collections inherit. -/
structure Value.IsInherited (P : Value → Prop) : Prop where
  invalid : P .invalid
  null : P .null
  scalar : ∀ tag plain text, P (.ofScalar tag plain text)
  sequence : ∀ {items : List Value}, (∀ item ∈ items, P item) → P (.sequence items)
  mapping : ∀ {entries : List (Value × Value)}, (∀ entry ∈ entries, P entry.2) →
    P (.mapping entries)

namespace Composer

/-! ### Readers -/

section

variable {α β : Type} {P : Value → Prop} {Q : α → Prop} {R : β → Prop}

/-- The values of all anchors have a property. -/
def Known (P : Value → Prop) (c : Composer) : Prop := ∀ anchor ∈ c.values, P anchor.2

/-- A reader yields what it should, and the values of anchors keep a property. -/
def Yields (P : Value → Prop) (reader : Reader α) (Q : α → Prop) : Prop :=
  ∀ c a c', c.Known P → reader c = .ok (a, c') → Q a ∧ c'.Known P

lemma Yields.pure {a : α} (h : Q a) : Yields P (pure a) Q := by
  rintro c _ _ hc ⟨⟩
  exact ⟨h, hc⟩

lemma Yields.throw (e : SyntaxError) : Yields P (throw e) Q := by
  rintro c _ _ hc ⟨⟩

lemma Yields.bind {reader : Reader α} {next : α → Reader β} (h : Yields P reader Q)
    (hnext : ∀ a, Q a → Yields P (next a) R) : Yields P (reader >>= next) R := by
  intro c b c' hc hread
  change StateT.bind reader next c = _ at hread
  rw [StateT.bind] at hread
  cases hfirst : reader c with
  | error e =>
    rw [hfirst] at hread
    cases hread
  | ok found =>
    rw [hfirst] at hread
    obtain ⟨ha, hc₁⟩ := h c found.1 found.2 hc hfirst
    exact hnext found.1 ha found.2 b c' hc₁ hread

/-- A reader that is followed whatever it finds. -/
lemma Yields.then {reader : Reader α} {next : α → Reader β}
    (h : Yields P reader fun _ => True) (hnext : ∀ a, Yields P (next a) R) :
    Yields P (reader >>= next) R :=
  h.bind fun a _ => hnext a

lemma yields_get : Yields P get (Known P) := by
  rintro c _ _ hc ⟨⟩
  exact ⟨hc, hc⟩

lemma yields_modify {f : Composer → Composer} (hf : ∀ c, c.Known P → (f c).Known P) :
    Yields P (modify f) fun _ => True := by
  rintro c _ _ hc ⟨⟩
  exact ⟨trivial, hf c hc⟩

lemma yields_set {c : Composer} (hc : c.Known P) : Yields P (set c) fun _ => True := by
  rintro _ _ _ _ ⟨⟩
  exact ⟨trivial, hc⟩

lemma yields_peek : Yields P peek fun _ => True :=
  yields_get.bind fun _ _ => .pure trivial

lemma yields_skip : Yields P skip fun _ => True :=
  yields_modify fun _ hc => hc

lemma yields_expect (kind : TokenKind) : Yields P (expect kind) fun _ => True := by
  refine yields_peek.then fun next => ?_
  split_ifs
  · exact yields_skip
  · exact .throw _

lemma yields_accept (kind : TokenKind) : Yields P (accept kind) fun _ => True := by
  refine yields_peek.then fun next => ?_
  split_ifs
  · exact yields_skip.then fun _ => .pure trivial
  · exact .pure trivial

/-- A reader that is passed over in one case. -/
lemma Yields.guarded (b : Bool) {reader : Reader Unit} {next : Unit → Reader β}
    (h : Yields P reader fun _ => True) (hnext : ∀ u, Yields P (next u) R) :
    Yields P (if b = true then reader >>= next else next ()) R := by
  split_ifs
  · exact h.then hnext
  · exact hnext ()

/-! ### Properties -/

lemma yields_addAnchor (name : String) : Yields P (addAnchor name) fun _ => True := by
  refine yields_get.bind fun c hc => ?_
  refine Yields.then (yields_set ?_) fun _ => .pure trivial
  exact hc

lemma yields_setAnchor (anchor : Option Nat) {value : Value} (h : P value) :
    Yields P (setAnchor anchor value) P := by
  cases anchor with
  | none => exact .pure h
  | some n =>
    refine Yields.then (yields_modify fun c hc => ?_) fun _ => .pure h
    exact List.forall_mem_cons.mpr ⟨h, hc⟩

/-- An alias stands for a value that was read before, or for an invalid one. -/
lemma yields_resolveAlias (hinvalid : P .invalid) (name : String) :
    Yields P (resolveAlias name) P := by
  refine yields_get.bind fun c hc => ?_
  cases c.names.lookup name with
  | none => exact .throw _
  | some n =>
    refine .pure ?_
    cases hvalue : c.values.lookup n with
    | none => exact hinvalid
    | some value =>
      obtain ⟨before, after, hvalues, -⟩ := List.lookup_eq_some_iff.mp hvalue
      exact hc (n, value) (by simp [hvalues])

lemma yields_resolveTag (tag : Tag) : Yields P (resolveTag tag) fun _ => True := by
  refine yields_get.bind fun c _ => ?_
  cases c.handles.lookup tag.handle with
  | some handle => exact .pure trivial
  | none =>
    show Yields P (ite _ _ _) _
    split_ifs
    · exact .pure trivial
    · exact .throw _
    · exact .pure trivial

lemma yields_properties : Yields P properties fun _ => True := by
  refine yields_peek.then fun kind => ?_
  cases kind <;> try exact .pure trivial
  case anchor name =>
    refine yields_skip.then fun _ => (yields_addAnchor name).then fun n => ?_
    refine yields_peek.then fun kind => ?_
    cases kind <;> try exact .pure trivial
    case tag tag =>
      exact yields_skip.then fun _ => (yields_resolveTag tag).then fun _ => .pure trivial
  case tag tag =>
    refine yields_skip.then fun _ => (yields_resolveTag tag).then fun tag => ?_
    refine yields_peek.then fun kind => ?_
    cases kind <;> try exact .pure trivial
    case anchor name =>
      exact yields_skip.then fun _ => (yields_addAnchor name).then fun _ => .pure trivial

end

/-! ### Nodes -/

section

variable {P : Value → Prop}

def All (P : Value → Prop) (row : List Value) : Prop := ∀ value ∈ row, P value

lemma all_cons {value : Value} {row : List Value} (h : P value) (hrow : All P row) :
    All P (value :: row) :=
  List.forall_mem_cons.mpr ⟨h, hrow⟩

lemma of_mem_pairUp {row : List Value} (hrow : All P row) {key : Option Value}
    {entry : Value × Value} (h : entry ∈ Value.pairUp key row) : P entry.2 := by
  induction row generalizing key with
  | nil => cases key <;> cases h
  | cons value row ih =>
    have htail : All P row := fun v hv => hrow v (List.mem_cons_of_mem _ hv)
    cases key with
    | some k =>
      rw [Value.pairUp] at h
      rcases List.mem_cons.mp h with rfl | h
      · exact hrow _ List.mem_cons_self
      · exact ih htail h
    | none =>
      rw [Value.pairUp] at h
      split_ifs at h
      · exact ih htail h
      · exact ih htail h

lemma yields_mappingOf (hP : Value.IsInherited P) {row : List Value} (hrow : All P row) :
    Yields P (mappingOf row) P := by
  rw [mappingOf, Value.mapping?]
  by_cases hkeys : Value.keysDiffer (Value.pairUp none row)
  · rw [if_pos hkeys]
    exact .pure (hP.mapping fun entry hentry => of_mem_pairUp hrow hentry)
  · rw [if_neg hkeys]
    exact .throw _

lemma yields_emptyNode (hP : Value.IsInherited P) (hasProperties : Bool) (tag : Option Tag) :
    Yields P (emptyNode hasProperties tag) P := by
  rw [emptyNode]
  split_ifs
  · exact .pure (hP.scalar tag true "")
  · exact .throw _

mutual

theorem yields_node (hP : Value.IsInherited P) (block indentless : Bool) :
    ∀ fuel, Yields P (node block indentless fuel) P
  | 0 => .throw _
  | fuel + 1 => by
    rw [node]
    refine yields_peek.then fun kind => ?_
    split
    · exact yields_skip.then fun _ => yields_resolveAlias hP.invalid _
    · refine yields_properties.then fun found => ?_
      refine (yields_content hP block indentless _ _ fuel).bind fun value hvalue => ?_
      exact yields_setAnchor _ hvalue

theorem yields_content (hP : Value.IsInherited P) (block indentless hasProperties : Bool)
    (tag : Option Tag) : ∀ fuel, Yields P (content block indentless hasProperties tag fuel) P
  | 0 => .throw _
  | fuel + 1 => by
    rw [content]
    refine yields_peek.then fun kind => ?_
    split
    · exact yields_skip.then fun _ => .pure (hP.scalar _ _ _)
    · split_ifs
      · exact (yields_indentlessEntries hP fuel).bind fun items h => .pure (hP.sequence h)
      · exact yields_emptyNode hP _ _
    · refine yields_skip.then fun _ => ?_
      exact (yields_flowItems hP true fuel).bind fun items h => .pure (hP.sequence h)
    · refine yields_skip.then fun _ => ?_
      exact (yields_flowEntries hP true fuel).bind fun row h => yields_mappingOf hP h
    · split_ifs
      · refine yields_skip.then fun _ => ?_
        exact (yields_blockItems hP fuel).bind fun items h => .pure (hP.sequence h)
      · exact yields_emptyNode hP _ _
    · split_ifs
      · refine yields_skip.then fun _ => ?_
        exact (yields_blockEntries hP fuel).bind fun row h => yields_mappingOf hP h
      · exact yields_emptyNode hP _ _
    · exact yields_emptyNode hP _ _

theorem yields_blockItems (hP : Value.IsInherited P) : ∀ fuel, Yields P (blockItems fuel) (All P)
  | 0 => .throw _
  | fuel + 1 => by
    have hrest (item : Value) (h : P item) := (yields_blockItems hP fuel).bind
      fun items hitems => Yields.pure (all_cons h hitems)
    rw [blockItems]
    refine (yields_accept _).then fun atEnd => ?_
    split_ifs
    · exact .pure (List.forall_mem_nil _)
    refine (yields_expect _).then fun _ => yields_peek.then fun kind => ?_
    split
    · exact (Yields.pure hP.null).bind hrest
    · exact (Yields.pure hP.null).bind hrest
    · exact (yields_node hP true false fuel).bind hrest

theorem yields_indentlessEntries (hP : Value.IsInherited P) :
    ∀ fuel, Yields P (indentlessEntries fuel) (All P)
  | 0 => .throw _
  | fuel + 1 => by
    have hrest (item : Value) (h : P item) := (yields_indentlessEntries hP fuel).bind
      fun items hitems => Yields.pure (all_cons h hitems)
    rw [indentlessEntries]
    refine (yields_accept _).then fun more => ?_
    split_ifs
    · refine yields_peek.then fun kind => ?_
      split
      any_goals exact (Yields.pure hP.null).bind hrest
      exact (yields_node hP true false fuel).bind hrest
    · exact .pure (List.forall_mem_nil _)

theorem yields_blockField (hP : Value.IsInherited P) : ∀ fuel, Yields P (blockField fuel) P
  | 0 => .throw _
  | fuel + 1 => by
    rw [blockField]
    refine yields_peek.then fun kind => ?_
    split
    any_goals exact .pure hP.null
    exact yields_node hP true true fuel

theorem yields_blockEntries (hP : Value.IsInherited P) :
    ∀ fuel, Yields P (blockEntries fuel) (All P)
  | 0 => .throw _
  | fuel + 1 => by
    have hrest (key : Value) (hkey : P key) (value : Value) (hvalue : P value) :=
      (yields_blockEntries hP fuel).bind
        fun row hrow => Yields.pure (all_cons hkey (all_cons hvalue hrow))
    have hfield (key : Value) (hkey : P key) : Yields P (do
        let value ← if ← accept .value then blockField fuel else pure .null
        return key :: value :: (← blockEntries fuel)) (All P) := by
      refine (yields_accept _).then fun more => ?_
      split_ifs
      · exact (yields_blockField hP fuel).bind (hrest key hkey)
      · exact (Yields.pure hP.null).bind (hrest key hkey)
    rw [blockEntries]
    refine (yields_accept _).then fun atEnd => ?_
    split_ifs
    · exact .pure (List.forall_mem_nil _)
    refine (yields_accept _).then fun marked => yields_peek.then fun kind => ?_
    dsimp only
    split_ifs
    · exact (yields_blockField hP fuel).bind hfield
    · exact (Yields.pure hP.null).bind hfield
    · exact (Yields.throw _).bind hfield

theorem yields_flowField (hP : Value.IsInherited P) (close : TokenKind) :
    ∀ fuel, Yields P (flowField close fuel) P
  | 0 => .throw _
  | fuel + 1 => by
    rw [flowField]
    refine yields_peek.then fun kind => ?_
    split_ifs
    · exact .pure hP.null
    · exact yields_node hP false false fuel

theorem yields_flowEntries (hP : Value.IsInherited P) (first : Bool) :
    ∀ fuel, Yields P (flowEntries first fuel) (All P)
  | 0 => .throw _
  | fuel + 1 => by
    have hrest (key : Value) (hkey : P key) (value : Value) (hvalue : P value) :=
      (yields_flowEntries hP false fuel).bind
        fun row hrow => Yields.pure (all_cons hkey (all_cons hvalue hrow))
    rw [flowEntries]
    refine (yields_accept _).then fun atEnd => ?_
    split
    · exact .pure (List.forall_mem_nil _)
    refine Yields.guarded _ (yields_expect _) fun _ => ?_
    refine (yields_accept _).then fun atEnd => ?_
    split
    · exact .pure (List.forall_mem_nil _)
    have hfield (key : Value) (hkey : P key) (hasValue : Bool) : Yields P (do
        let value ←
          if hasValue then
            if ← accept .value then flowField .flowMappingEnd fuel else pure .null
          else
            pure .null
        return key :: value :: (← flowEntries false fuel)) (All P) := by
      cases hasValue with
      | false => exact (Yields.pure hP.null).bind (hrest key hkey)
      | true =>
        refine (yields_accept _).then fun more => ?_
        split_ifs
        · exact (yields_flowField hP _ fuel).bind (hrest key hkey)
        · exact (Yields.pure hP.null).bind (hrest key hkey)
    -- the key is read together with whether a value may follow it
    have hfound (found : Value × Bool) (h : P found.1) := hfield found.1 h found.2
    have hpure {key : Value} (hkey : P key) (hasValue : Bool) :
        Yields P (pure (key, hasValue)) fun found => P found.1 := .pure hkey
    refine (yields_accept _).then fun marked => yields_peek.then fun kind => ?_
    split
    · refine yields_peek.then fun kind => ?_
      split
      · exact (hpure hP.null true).bind hfound
      · exact (yields_flowField hP _ fuel).bind fun key hkey => (hpure hkey true).bind hfound
    · split
      · exact (hpure hP.null true).bind hfound
      · exact (yields_node hP false false fuel).bind fun key hkey => (hpure hkey false).bind hfound

theorem yields_flowItems (hP : Value.IsInherited P) (first : Bool) :
    ∀ fuel, Yields P (flowItems first fuel) (All P)
  | 0 => .throw _
  | fuel + 1 => by
    have hrest (item : Value) (h : P item) := (yields_flowItems hP false fuel).bind
      fun items hitems => Yields.pure (all_cons h hitems)
    rw [flowItems]
    refine (yields_accept _).then fun atEnd => ?_
    split
    · exact .pure (List.forall_mem_nil _)
    refine Yields.guarded _ (yields_expect _) fun _ => ?_
    refine (yields_accept _).then fun atEnd => ?_
    split
    · exact .pure (List.forall_mem_nil _)
    refine (yields_accept _).then fun marked => ?_
    split_ifs
    · exact (yields_flowPair hP fuel).bind hrest
    · exact (yields_node hP false false fuel).bind hrest

theorem yields_flowPair (hP : Value.IsInherited P) : ∀ fuel, Yields P (flowPair fuel) P
  | 0 => .throw _
  | fuel + 1 => by
    have hpair (key : Value) (hkey : P key) (value : Value) (hvalue : P value) :
        Yields P (mappingOf [key, value]) P :=
      yields_mappingOf hP (all_cons hkey (all_cons hvalue (List.forall_mem_nil _)))
    have hfield (key : Value) (hkey : P key) : Yields P (do
        let value ← if ← accept .value then flowField .flowSequenceEnd fuel else pure .null
        mappingOf [key, value]) P := by
      refine (yields_accept _).then fun more => ?_
      split_ifs
      · exact (yields_flowField hP _ fuel).bind (hpair key hkey)
      · exact (Yields.pure hP.null).bind (hpair key hkey)
    rw [flowPair]
    refine yields_peek.then fun kind => ?_
    split
    any_goals exact yields_skip.then fun _ => (Yields.pure hP.null).bind hfield
    exact (yields_node hP false false fuel).bind hfield

end

/-! ### Documents -/

lemma yields_directives (versioned : Bool) :
    ∀ fuel, Yields P (directives versioned fuel) fun _ => True
  | 0 => .pure trivial
  | fuel + 1 => by
    have hmodify (handles : List (String × String)) :
        Yields P (modify fun c => { c with handles }) fun _ => True := yields_modify fun _ hc => hc
    rw [directives]
    refine yields_peek.then fun kind => ?_
    split
    · refine Yields.guarded versioned (.throw _) fun _ => ?_
      exact (hmodify _).then fun _ => yields_skip.then fun _ => yields_directives true fuel
    · exact (hmodify _).then fun _ => yields_skip.then fun _ => yields_directives versioned fuel
    · exact (hmodify _).then fun _ => yields_skip.then fun _ => yields_directives versioned fuel
    · exact .pure trivial

lemma yields_explicitDocument (hP : Value.IsInherited P) (bound : Nat) :
    Yields P (explicitDocument bound) P := by
  refine (yields_directives false bound).then fun _ => (yields_expect _).then fun _ => ?_
  refine yields_peek.then fun kind => ?_
  split
  any_goals exact .pure hP.null
  exact yields_node hP true false bound

lemma yields_skipDocumentEnds : ∀ fuel, Yields P (skipDocumentEnds fuel) fun _ => True
  | 0 => .pure trivial
  | fuel + 1 => by
    rw [skipDocumentEnds]
    refine (yields_accept _).then fun more => ?_
    split
    · exact yields_skipDocumentEnds fuel
    · exact .pure trivial

lemma yields_documentEnd : Yields P documentEnd fun _ => True := by
  refine (yields_accept _).then fun marked => ?_
  refine Yields.then (yields_modify fun c hc => hc) fun _ => yields_peek.then fun kind => ?_
  split
  · split
    · exact .pure trivial
    · exact .throw _
  · exact .pure trivial

theorem yields_documents (hP : Value.IsInherited P) (bound : Nat) (bare : Bool) :
    ∀ fuel, Yields P (documents bound bare fuel) (All P)
  | 0 => .throw _
  | fuel + 1 => by
    have hrest (value : Value) (h : P value) : Yields P (do
        let marked ← documentEnd
        return value :: (← documents bound marked fuel)) (All P) :=
      yields_documentEnd.then fun marked => (yields_documents hP bound marked fuel).bind
        fun values hvalues => .pure (all_cons h hvalues)
    have hdocument (explicit : Bool) : Yields P (do
        let value ← if explicit then explicitDocument bound else node true false bound
        let marked ← documentEnd
        return value :: (← documents bound marked fuel)) (All P) := by
      cases explicit with
      | true => exact (yields_explicitDocument hP bound).bind hrest
      | false => exact (yields_node hP true false bound).bind hrest
    rw [documents]
    refine (yields_skipDocumentEnds bound).then fun _ => yields_peek.then fun kind => ?_
    split
    · exact .pure (List.forall_mem_nil _)
    · exact hdocument _

end

end Composer

lemma map_eq_ok {ε α β : Type} {f : α → β} {outcome : Except ε α} {b : β}
    (h : f <$> outcome = .ok b) : ∃ a, outcome = .ok a ∧ f a = b := by
  cases outcome with
  | error e => cases h
  | ok a => exact ⟨a, rfl, Except.ok.inj h⟩

/-- What scalars have and collections inherit, all values of a text have. -/
theorem Value.of_ofText {P : Value → Prop} (hP : IsInherited P) {text : String}
    {documents : List Value} (h : ofText text = .ok documents) : ∀ value ∈ documents, P value := by
  rw [ofText] at h
  split at h
  · cases h
  · next tokens htokens =>
    obtain ⟨read, hread, rfl⟩ := map_eq_ok h
    have hstart : Known P ⟨tokens.map Token.kind, [], [], [], 0⟩ := List.forall_mem_nil _
    exact (yields_documents hP _ true _ _ read.1 read.2 hstart hread).1

end YamlSieve.Yaml
