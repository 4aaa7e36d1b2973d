import YamlSieve.Proofs.Equality
import YamlSieve.Proofs.Respelling
import YamlSieve.Proofs.Uniformity
import YamlSieve.Proofs.Yaml.DistinctKeys

/-!
# Filters on equal documents

Equal documents have the same keys with equal values, as many items, and scalars that compare equal,
even where these print differently, as the two zeros do. So no filter tells them apart, and neither
documents that differ in nothing but the order of entries (`Filter.apply_same`).
-/

namespace YamlSieve

open List (Forall₂)

/-- Both results are there and related, or both are the same failure. -/
inductive Agree {ε α : Type} (R : α → α → Prop) : Except ε α → Except ε α → Prop
  | ok {a b : α} (h : R a b) : Agree R (.ok a) (.ok b)
  | error (e : ε) : Agree R (.error e) (.error e)

lemma Agree.imp {ε α : Type} {R S : α → α → Prop} {a b : Except ε α} (h : Agree R a b)
    (hRS : ∀ {a b}, R a b → S a b) : Agree S a b := by
  cases h with
  | ok h => exact .ok (hRS h)
  | error e => exact .error e

lemma Agree.map_eq {ε α β : Type} {R : α → α → Prop} {a b : Except ε α} (h : Agree R a b)
    {f : α → β} (hf : ∀ {a b}, R a b → f a = f b) : a.map f = b.map f := by
  cases h with
  | ok h => exact congrArg Except.ok (hf h)
  | error e => rfl

/-- A filter keeps every relation of documents that its items keep. -/
lemma Node.Similarity.apply {R : Node → Node → Prop} (hR : Similarity R) {x y : Node} (h : R x y)
    (filter : Filter) : Agree R (filter.apply x) (filter.apply y) := by
  rcases filter.apply_cases with ⟨error, herror⟩ | ⟨is, hitems⟩
  · rw [herror, herror]
    exact .error error
  · rw [hitems, hitems]
    exact .ok (hR.evalAll is h)

/-! ### Equal scalars -/

/-- Equal numbers compare equal, even if they are written differently. -/
lemma Comparison.holds_text_of_same {u v : Binary64} (h : u.same v = true) :
    equal.holds (Layout.plain.text u) (Layout.plain.text v) = true := by
  rcases Binary64.eq_or_zeros_of_same h with rfl | ⟨negative, rfl, rfl⟩
  · exact equivalence_holds_equal.refl _
  · cases negative <;> decide +kernel

namespace Node

variable {x y v : Node} {key : String} {xs ys : List Node}

lemma scalarText?_rel_self (x : Node) :
    Option.Rel (fun s t => Comparison.equal.holds s t = true) x.scalarText? x.scalarText? := by
  cases x.scalarText? with
  | none => exact .none
  | some text => exact .some (Comparison.equivalence_holds_equal.refl text)

lemma scalarText?_of_same (h : x.same y = true) :
    Option.Rel (fun s t => Comparison.equal.holds s t = true) x.scalarText? y.scalarText? := by
  rcases same_cases h with ⟨es, fs, rfl, rfl, -⟩ | ⟨xs, ys, rfl, rfl, -⟩ | ⟨u, v, rfl, rfl, h⟩ |
    ⟨rfl, -⟩
  · exact .none
  · exact .none
  · exact .some (Comparison.holds_text_of_same h)
  · exact scalarText?_rel_self x

/-! ### Keys and items -/

lemma hasDistinctKeys_of_get? (hx : x.hasDistinctKeys = true) (hv : x.get? key = some v) :
    v.hasDistinctKeys = true := by
  cases x with
  | mapping es => exact (hasDistinctKeys_mapping_iff.mp hx).2 _ (mem_of_lookup hv)
  | _ => cases hv

/--
A relation that is found again under all keys of nodes with distinct keys is kept by filters, on
documents with distinct keys.
-/
lemma similarity_of_distinctKeys {R : Node → Node → Prop}
    (hscalar : ∀ {x y}, R x y → Option.Rel (fun s t => Comparison.equal.holds s t = true)
      x.scalarText? y.scalarText?)
    (hget : ∀ {x y}, x.hasDistinctKeys = true → R x y → ∀ key,
      Option.Rel R (x.get? key) (y.get? key))
    (hitems : ∀ {x y}, R x y → Option.Rel (Forall₂ R) x.items? y.items?)
    (hsequence : ∀ {xs ys}, Forall₂ R xs ys → R (.sequence xs) (.sequence ys))
    (habsent : R .absent .absent) :
    Similarity fun x y => x.hasDistinctKeys = true ∧ R x y where
  scalarText? h := hscalar h.2
  get? {x y} h key := by
    have hchild := hget h.1 h.2 key
    have hkeys : ∀ v, x.get? key = some v → v.hasDistinctKeys = true :=
      fun v => hasDistinctKeys_of_get? h.1
    -- both look-ups fail, or both succeed with related values: `hchild` alone says which
    generalize x.get? key = u, y.get? key = w at hchild hkeys ⊢
    cases hchild with
    | none => exact .none
    | some hvalue => exact .some ⟨hkeys _ rfl, hvalue⟩
  items? {x y} h := by
    obtain ⟨hx, h⟩ := h
    have hrel := hitems h
    cases x with
    | sequence xs =>
      generalize y.items? = ys at hrel ⊢
      obtain ⟨h⟩ := hrel
      exact .some ((List.forall₂_and_left _ _).mpr ⟨hasDistinctKeys_sequence_iff.mp hx, h⟩)
    | _ =>
      generalize y.items? = ys at hrel ⊢
      cases hrel
      exact .none
  sequence h := by
    obtain ⟨hxs, h⟩ := (List.forall₂_and_left _ _).mp h
    exact ⟨hasDistinctKeys_sequence_iff.mpr hxs, hsequence h⟩
  absent := ⟨rfl, habsent⟩

/-! ### Equal documents -/

lemma get?_of_same (hx : x.hasDistinctKeys = true) (h : x.same y = true) (key : String) :
    Option.Rel (fun v w => v.same w = true) (x.get? key) (y.get? key) := by
  rcases same_cases h with ⟨es, fs, rfl, rfl, hlength, hentries⟩ | ⟨xs, ys, rfl, rfl, -⟩ |
    ⟨u, v, rfl, rfl, h⟩ | ⟨rfl, hmapping, -⟩
  · exact lookup_of_sameEntries (hasDistinctKeys_mapping_iff.mp hx).1 hlength hentries key
  · exact .none
  · exact .none
  · cases x with
    | mapping es => cases hmapping
    | _ => exact .none

lemma items?_of_same (h : x.same y = true) :
    Option.Rel (Forall₂ fun x y => x.same y = true) x.items? y.items? := by
  rcases same_cases h with ⟨es, fs, rfl, rfl, -⟩ | ⟨xs, ys, rfl, rfl, hitems⟩ |
    ⟨u, v, rfl, rfl, -⟩ | ⟨rfl, -, hsequence⟩
  · exact .none
  · exact .some hitems
  · exact .none
  · cases x with
    | sequence xs => cases hsequence
    | _ => exact .none

theorem same_similarity :
    Similarity fun x y => x.hasDistinctKeys = true ∧ x.same y = true :=
  similarity_of_distinctKeys scalarText?_of_same get?_of_same items?_of_same
    (fun h => by rwa [same, sameItems_iff]) rfl

/-! ### Reordered documents -/

namespace Reordered

lemma get? (hx : x.hasDistinctKeys = true) (h : x.Reordered y) (key : String) :
    Option.Rel Reordered (x.get? key) (y.get? key) := by
  cases h with
  | refl =>
    cases x.get? key with
    | none => exact .none
    | some v => exact .some (.refl v)
  | sequence => exact .none
  | mapping hkeys hvalues hperm =>
    have hdistinct := (hasDistinctKeys_mapping_iff.mp hx).1
    rw [hkeys] at hdistinct
    rw [Node.get?, Node.get?, ← lookup_eq_of_perm hdistinct hperm]
    exact lookup_of_forall₂ hkeys hvalues key

lemma items? (h : x.Reordered y) : Option.Rel (Forall₂ Reordered) x.items? y.items? := by
  cases h with
  | refl =>
    cases x.items? with
    | none => exact .none
    | some xs => exact .some (List.forall₂_same.mpr fun x _ => .refl x)
  | sequence h => exact .some h
  | mapping => exact .none

lemma scalarText?_eq (h : x.Reordered y) : x.scalarText? = y.scalarText? := by
  cases h <;> rfl

lemma scalarTexts_eq (h : x.Reordered y) : x.scalarTexts = y.scalarTexts := by
  cases h with
  | refl => rfl
  | sequence h =>
    rw [scalarTexts, scalarTexts]
    induction h with
    | nil => rfl
    | cons h _ ih => rw [List.filterMap_cons, List.filterMap_cons, h.scalarText?_eq, ih]
  | mapping => rfl

theorem similarity : Similarity fun x y => x.hasDistinctKeys = true ∧ x.Reordered y :=
  similarity_of_distinctKeys
    (fun h => h.scalarText?_eq ▸ scalarText?_rel_self _) get? items? .sequence (.refl _)

end Reordered
end Node

namespace Filter

variable {x y : Node}

/--
Equal documents have equal results under every filter, or fail with one error, and every predicate
matches both or neither of them. The same holds of documents in which entries are reordered, and
there the texts of scalars that an expression finds are the same as well. The keys of each mapping
are distinct, as they are in all documents that are read (`Yaml.hasDistinctKeys_of_parse`).
-/
theorem apply_same (filter : Filter) (hx : x.hasDistinctKeys = true) :
    (x.same y = true →
      Agree (fun r s => r.same s = true) (filter.apply x) (filter.apply y) ∧
        ∀ predicate : Predicate, predicate.holds x = predicate.holds y) ∧
      (x.Reordered y →
        Agree Node.Reordered (filter.apply x) (filter.apply y) ∧
          (∀ predicate : Predicate, predicate.holds x = predicate.holds y) ∧
          ∀ text, value? text x = value? text y ∧ values text x = values text y) := by
  refine ⟨fun h => ⟨?_, fun predicate => ?_⟩, fun h => ⟨?_, fun predicate => ?_, fun text => ?_⟩⟩
  · exact (Node.same_similarity.apply ⟨hx, h⟩ filter).imp And.right
  · rw [Predicate.holds_eq_accepts]
    exact Node.same_similarity.accepts_eq predicate ⟨hx, h⟩
  · exact (Node.Reordered.similarity.apply ⟨hx, h⟩ filter).imp And.right
  · rw [Predicate.holds_eq_accepts]
    exact Node.Reordered.similarity.accepts_eq predicate ⟨hx, h⟩
  · rw [value?, value?, values, values, evaluate, evaluate]
    cases parse text with
    | error error => exact ⟨rfl, rfl⟩
    | ok filter =>
      have hagree := Node.Reordered.similarity.apply ⟨hx, h⟩ filter
      exact ⟨hagree.map_eq fun h => h.2.scalarText?_eq, hagree.map_eq fun h => h.2.scalarTexts_eq⟩

/-- The two zeros are printed differently, but selected alike, also among reordered entries. -/
theorem apply_same_zeros :
    let expression := "'select(.n == 0) | .b'"
    let ts : List Token := [.delim '\'', .word "select", .delim '(', .delim '.', .word "n",
      .delim '=', .delim '=', .word "0", .delim ')', .delim '|', .delim '.', .word "b",
      .delim '\'']
    let filter : Filter := ⟨expression, ts, Event.ofTokens ts, none⟩
    let zero (negative : Bool) : Node := .float (.number negative 0)
    let x : Node := .sequence [.mapping [("n", zero false), ("b", .string "x")]]
    let y : Node := .sequence [.mapping [("b", .string "x"), ("n", zero true)]]
    let z : Node := .sequence [.mapping [("b", .string "x"), ("n", zero false)]]
    parse expression = .ok filter ∧ Yaml.parse "[{n: 0.0, b: x}]" = .ok [x] ∧
      x.hasDistinctKeys = true ∧ x.same y = true ∧ x.Reordered z ∧
      (zero false).scalarText? = some "0" ∧ (zero true).scalarText? = some "-0" ∧
      filter.apply x = .ok (.sequence [.string "x"]) ∧
      Agree (fun r s => r.same s = true) (filter.apply x) (filter.apply y) ∧
      Agree Node.Reordered (filter.apply x) (filter.apply z) := by
  intro expression ts filter zero x y z
  have hparse : parse "'select(.n == 0) | .b'" = .ok filter := rfl
  have hread : Yaml.parse "[{n: 0.0, b: x}]" = .ok [x] := by decide +kernel
  have hx : x.hasDistinctKeys = true := Yaml.hasDistinctKeys_of_parse hread x List.mem_cons_self
  have hsame : x.same y = true := by decide +kernel
  have hreordered : x.Reordered z := by
    refine .sequence (.cons ?_ .nil)
    exact .mapping rfl (List.forall₂_same.mpr fun v _ => .refl v) (.swap _ _ [])
  exact ⟨hparse, hread, hx, hsame, hreordered, by decide +kernel, by decide +kernel,
    by decide +kernel, ((apply_same filter hx).1 hsame).1, ((apply_same filter hx).2 hreordered).1⟩

end Filter
end YamlSieve
