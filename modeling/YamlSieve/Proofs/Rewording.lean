import YamlSieve.Proofs.Result
import YamlSieve.Proofs.Tokenization

/-!
# Texts of words

The text of a word matters to an expression only in front of an opening parenthesis, where it is
the name of a function. Tokens that are reworded anywhere else spell items of the same form
(`Expression.reworded`), because the grammar looks at delimiters and at what is a word, but not
into words. Words are no events at all. So whatever is written between two double quotes, it is
one word and changes nothing but the keys and literals of a filter (`Filter.parse_word`).
-/

namespace YamlSieve

/-! ### Reworded tokens -/

/-- The lists differ in the texts of words, but not of words in front of an opening parenthesis. -/
inductive Token.Reworded : List Token → List Token → Prop
  | nil : Reworded [] []
  | cons (t : Token) {ts us : List Token} (h : Reworded ts us) : Reworded (t :: ts) (t :: us)
  | word (v w : String) {ts us : List Token} (h : Reworded ts us)
      (hts : ts.head? ≠ some (.delim '(')) : Reworded (.word v :: ts) (.word w :: us)

namespace Token.Reworded

variable {ts us rest : List Token} {c : Char}

lemma refl (ts : List Token) : Reworded ts ts := by
  induction ts with
  | nil => exact nil
  | cons t ts ih => exact cons t ih

lemma append_left (h : Reworded ts us) (before : List Token) :
    Reworded (before ++ ts) (before ++ us) := by
  induction before with
  | nil => exact h
  | cons t before ih => exact cons t ih

lemma eq_nil (h : Reworded [] us) : us = [] := by
  cases h
  rfl

lemma delim_cons (h : Reworded (.delim c :: ts) us) :
    ∃ us', us = .delim c :: us' ∧ Reworded ts us' := by
  cases h with
  | cons t h => exact ⟨_, rfl, h⟩

lemma word_cons {v : String} (h : Reworded (.word v :: ts) us) :
    ∃ w us', us = .word w :: us' ∧ Reworded ts us' ∧ (ts.head? = some (.delim '(') → w = v) := by
  cases h with
  | cons t h => exact ⟨v, _, rfl, h, fun _ => rfl⟩
  | word v w h hts => exact ⟨w, _, rfl, h, fun h => absurd h hts⟩

lemma head?_eq_delim (h : Reworded ts us) :
    us.head? = some (.delim c) ↔ ts.head? = some (.delim c) := by
  cases h <;> simp

lemma symm (h : Reworded ts us) : Reworded us ts := by
  induction h with
  | nil => exact nil
  | cons t h ih => exact cons t ih
  | word v w h hts ih => exact word w v ih (mt h.head?_eq_delim.mp hts)

lemma split (h : Reworded (ts ++ rest) us) :
    ∃ ts' rest', us = ts' ++ rest' ∧ Reworded ts ts' ∧ Reworded rest rest' := by
  induction ts generalizing us with
  | nil => exact ⟨[], us, rfl, nil, h⟩
  | cons t ts ih =>
    rw [List.cons_append] at h
    cases h with
    | cons t h =>
      obtain ⟨ts', rest', rfl, hts, hrest⟩ := ih h
      exact ⟨t :: ts', rest', rfl, cons t hts, hrest⟩
    | word v w h hcall =>
      obtain ⟨ts', rest', rfl, hts, hrest⟩ := ih h
      refine ⟨.word w :: ts', rest', rfl, word v w hts fun hhead => hcall ?_, hrest⟩
      rw [List.head?_append, hhead]
      rfl

lemma delims_eq {cs : List Char} (h : Reworded (cs.map .delim) us) : us = cs.map .delim := by
  induction cs generalizing us with
  | nil => exact h.eq_nil
  | cons c cs ih =>
    obtain ⟨us', rfl, hus'⟩ := delim_cons h
    rw [ih hus', List.map_cons]

/-- Where one list does not start with a pair of brackets, neither does the other. -/
lemma ne_brackets (h : Reworded ts us)
    (hts : ∀ vs, ts = .delim '[' :: .delim ']' :: vs → False) (vs : List Token) :
    us ≠ .delim '[' :: .delim ']' :: vs := by
  rintro rfl
  obtain ⟨_, rfl, h₁⟩ := h.symm.delim_cons
  obtain ⟨ts, rfl, -⟩ := h₁.delim_cons
  exact hts ts rfl

end Token.Reworded

open Token

/-! ### Forms of items -/

/-- The steps differ in their keys only. -/
inductive PathStep.SameForm : PathStep → PathStep → Prop
  | key (k l : String) : SameForm (key k) (key l)
  | flattenKey (k l : String) : SameForm (flattenKey k) (flattenKey l)
  | flatten : SameForm flatten flatten

/-- The items differ in keys and literals only. -/
inductive Item.SameForm : Item → Item → Prop
  | path {steps steps' : List PathStep} (h : List.Forall₂ PathStep.SameForm steps steps') :
      SameForm (path steps) (path steps')
  | select {p q : Predicate} (hpath : List.Forall₂ PathStep.SameForm p.path q.path)
      (hoperator : p.operator = q.operator) : SameForm (select p) (select q)

/-! ### Items -/

/-- Reworded runs of path steps have steps of the same form, and end at the same place. -/
lemma PathStep.readRun_reworded {ts us : List Token} (h : Reworded ts us) :
    List.Forall₂ SameForm (readRun ts).1 (readRun us).1 ∧
      Reworded (readRun ts).2 (readRun us).2 := by
  fun_induction readRun ts generalizing us with
  | case1 k ts steps rest hread ih =>
    obtain ⟨_, rfl, h₁⟩ := h.delim_cons
    obtain ⟨l, _, rfl, h₂, -⟩ := h₁.word_cons
    obtain ⟨_, rfl, h₃⟩ := h₂.delim_cons
    obtain ⟨us, rfl, h₄⟩ := h₃.delim_cons
    obtain ⟨hsteps, hrest⟩ := ih h₄
    rw [hread] at hsteps hrest
    exact ⟨.cons (.flattenKey k l) hsteps, hrest⟩
  | case2 ts steps rest hread ih =>
    obtain ⟨_, rfl, h₁⟩ := h.delim_cons
    obtain ⟨_, rfl, h₂⟩ := h₁.delim_cons
    obtain ⟨us, rfl, h₃⟩ := h₂.delim_cons
    obtain ⟨hsteps, hrest⟩ := ih h₃
    rw [hread] at hsteps hrest
    exact ⟨.cons .flatten hsteps, hrest⟩
  | case3 k ts hts steps rest hread ih =>
    obtain ⟨_, rfl, h₁⟩ := h.delim_cons
    obtain ⟨l, us, rfl, h₂, -⟩ := h₁.word_cons
    obtain ⟨hsteps, hrest⟩ := ih h₂
    rw [hread] at hsteps hrest
    rw [readRun.eq_3 _ _ fun vs hvs => h₂.ne_brackets hts vs hvs]
    exact ⟨.cons (.key k l) hsteps, hrest⟩
  | case4 ts hkey hts hword ih =>
    obtain ⟨us, rfl, h₁⟩ := h.delim_cons
    -- rewording is symmetric: a word on one side would be a word on the other
    have hnoWord : ∀ l vs, us ≠ .word l :: vs := by
      rintro l vs rfl
      obtain ⟨k, ts', rfl, -⟩ := h₁.symm.word_cons
      exact hword k ts' rfl
    rw [readRun.eq_4 _ (fun l vs => hnoWord l _) (fun vs hvs => h₁.ne_brackets hts vs hvs) hnoWord]
    exact ih h₁
  | case5 ts _ _ _ hdot =>
    have hnoDot : ∀ vs, us ≠ .delim '.' :: vs := by
      rintro vs rfl
      obtain ⟨ts', rfl, -⟩ := h.symm.delim_cons
      exact hdot ts' rfl
    rw [readRun.eq_5 us (fun _ _ h => hnoDot _ h) (fun _ h => hnoDot _ h)
      (fun _ _ h => hnoDot _ h) hnoDot]
    exact ⟨.nil, h⟩

lemma Predicate.Spelled.reworded {p : Predicate} {ts us : List Token} (hp : p.Spelled ts)
    (h : Reworded ts us) :
    ∃ q : Predicate, q.Spelled us ∧ List.Forall₂ PathStep.SameForm p.path q.path ∧
      p.operator = q.operator := by
  obtain ⟨hvalid, run, hrun, rfl⟩ := hp
  obtain ⟨front, last, rfl, hfront, hlast⟩ := h.split
  obtain ⟨run', operator, rfl, hrun', hoperator⟩ := hfront.split
  obtain ⟨literal, _, rfl, hnil, -⟩ := hlast.word_cons
  obtain rfl := hnil.eq_nil
  obtain rfl := hoperator.delims_eq
  obtain ⟨hsteps, hrest⟩ := PathStep.readRun_reworded hrun'
  rw [hrun] at hsteps hrest
  refine ⟨⟨(PathStep.readRun run').1, p.operator, literal⟩, ⟨hvalid, run', ?_, rfl⟩, hsteps, rfl⟩
  rw [← hrest.eq_nil]

/-- Where tokens spell an item, reworded ones spell an item of the same form. -/
lemma Item.Spelled.reworded {i : Item} {ts rest us : List Token} (hi : i.Spelled ts rest)
    (h : Reworded (ts ++ rest) us) :
    ∃ j ts' rest', us = ts' ++ rest' ∧ Spelled j ts' rest' ∧ i.SameForm j ∧
      Reworded rest rest' := by
  cases hi with
  | @path ts _ steps hread =>
    obtain ⟨us, rfl, -⟩ := h.delim_cons
    obtain ⟨run, hsplit, hspelled⟩ := of_readRun us
    obtain ⟨hsteps, hrest⟩ := PathStep.readRun_reworded h
    rw [hread] at hsteps hrest
    exact ⟨_, run, _, hsplit, hspelled, .path hsteps, hrest⟩
  | @select argument p hp =>
    rw [List.append_assoc, List.cons_append, List.cons_append] at h
    -- the name of the call stands in front of a parenthesis, and so it is the same
    obtain ⟨name, _, rfl, h₁, hname⟩ := h.word_cons
    obtain rfl := hname rfl
    obtain ⟨_, rfl, h₂⟩ := h₁.delim_cons
    obtain ⟨argument', _, rfl, hargument, h₃⟩ := h₂.split
    obtain ⟨rest', rfl, hrest⟩ := h₃.delim_cons
    obtain ⟨q, hq, hpath, hoperator⟩ := hp.reworded hargument
    refine ⟨.select q, _, rest', ?_, .select hq rest', .select hpath hoperator, hrest⟩
    simp

/-! ### Expressions -/

lemma Body.reworded {is : List Item} {ts us : List Token} (hbody : Body is ts)
    (h : Reworded ts us) : ∃ js, Body js us ∧ List.Forall₂ Item.SameForm is js := by
  induction hbody generalizing us with
  | @last i ts hi =>
    rw [← List.append_nil ts] at h
    obtain ⟨j, ts', rest', rfl, hj, hform, hrest⟩ := hi.reworded h
    obtain rfl := hrest.eq_nil
    rw [List.append_nil]
    exact ⟨[j], .last hj, .cons hform .nil⟩
  | next hi _ ih =>
    obtain ⟨j, ts', rest', rfl, hj, hform, hrest⟩ := hi.reworded h
    obtain ⟨js, hjs, hforms⟩ := ih hrest
    exact ⟨j :: js, .next hj hjs, .cons hform hforms⟩
  | piped hi _ ih =>
    obtain ⟨j, ts', _, rfl, hj, hform, hpiped⟩ := hi.reworded h
    obtain ⟨rest', rfl, hrest⟩ := hpiped.delim_cons
    obtain ⟨js, hjs, hforms⟩ := ih hrest
    exact ⟨j :: js, .piped hj hjs, .cons hform hforms⟩

/-- A reworded expression is one of items of the same form. -/
theorem Expression.reworded {is : List Item} {ts us : List Token} (hexpression : Expression is ts)
    (h : Reworded ts us) : ∃ js, Expression js us ∧ List.Forall₂ Item.SameForm is js := by
  cases hexpression with
  | empty =>
    have hquotes : [Token.delim '\'', .delim '\''] = ['\'', '\''].map .delim := rfl
    rw [hquotes] at h
    obtain rfl := h.delims_eq
    exact ⟨[], .empty, .nil⟩
  | body hbody =>
    rw [List.cons_append] at h
    obtain ⟨_, rfl, h₁⟩ := h.delim_cons
    obtain ⟨us, quote, rfl, hus, hquote⟩ := h₁.split
    obtain ⟨_, rfl, hnil⟩ := hquote.delim_cons
    obtain rfl := hnil.eq_nil
    obtain ⟨js, hjs, hforms⟩ := hbody.reworded hus
    exact ⟨js, .body hjs, hforms⟩

/-! ### Events -/

namespace Event

/-- A word is no event, and none of the events around it depends on it. -/
lemma ofSteps_word (inRun : Bool) (depth : Nat) (before after : List Token) (w : String) :
    ofSteps inRun depth (before ++ .word w :: after) = ofSteps inRun depth (before ++ after) := by
  fun_induction ofSteps inRun depth before with
  | case1 inRun depth => rfl
  | case6 inRun depth before hdot ih =>
    rw [List.cons_append, List.cons_append, ofSteps, ofSteps, if_neg hdot, if_neg hdot, ih]
  | case10 inRun depth t ts hquote hpipe hdot hopen hclose ih =>
    rw [List.cons_append, List.cons_append, ofSteps, ofSteps, ih] <;> assumption
  | _ => simp_all [ofSteps]

lemma ofTokens_word (before after : List Token) (v w : String) :
    ofTokens (before ++ .word v :: after) = ofTokens (before ++ .word w :: after) := by
  have hsteps : ∀ before, ofSteps false 0 (before ++ .word v :: after) =
      ofSteps false 0 (before ++ .word w :: after) := by
    intro before
    rw [ofSteps_word, ofSteps_word]
  cases before with
  | nil => rfl
  | cons t before =>
    by_cases ht : t = .delim '\''
    · subst ht
      exact congrArg (boundary :: ·) (hsteps before)
    · rw [ofTokens, ofTokens, hsteps]
      · exact fun us h => ht (List.cons.inj h).1
      · exact fun us h => ht (List.cons.inj h).1

end Event

/-! ### Filters -/

namespace Filter

/--
Whatever stands between two double quotes is one word of an expression and no event. Writing
another text there keeps all other tokens and all events. Where no opening parenthesis comes next,
it keeps whether the filter is accepted as well, and the form of its items.
-/
theorem parse_word {pre post u v : String} {after : List Token}
    (hpre : Even (pre.toList.count '"')) (hpost : Token.tokenize? post = some after)
    (hu : '"' ∉ u.toList) (hv : '"' ∉ v.toList) :
    ∃ before f g, Token.tokenize? pre = some before ∧
      parse (pre ++ "\"" ++ u ++ "\"" ++ post) = .ok f ∧ f.tokens = before ++ .word u :: after ∧
      parse (pre ++ "\"" ++ v ++ "\"" ++ post) = .ok g ∧ g.tokens = before ++ .word v :: after ∧
      f.events = g.events ∧
      (after.head? ≠ some (.delim '(') →
        (∀ root, (∃ r, f.apply root = .ok r) ↔ ∃ r, g.apply root = .ok r) ∧
          ∀ is, Expression is f.tokens →
            ∃ js, Expression js g.tokens ∧ List.Forall₂ Item.SameForm is js) := by
  obtain ⟨before, hbefore⟩ := Option.isSome_iff_exists.mp (Token.tokenize?_isSome_iff.mpr hpre)
  have hf := parse_eq_ok_iff.mpr ⟨_, Token.tokenize?_word hbefore hu hpost, rfl⟩
  have hg := parse_eq_ok_iff.mpr ⟨_, Token.tokenize?_word hbefore hv hpost, rfl⟩
  refine ⟨before, _, _, hbefore, hf, rfl, hg, rfl, Event.ofTokens_word before after u v, ?_⟩
  intro hcall
  have hreworded : Reworded (before ++ .word u :: after) (before ++ .word v :: after) :=
    (Reworded.word u v (.refl after) hcall).append_left before
  refine ⟨fun root => ⟨?_, ?_⟩, fun is his => his.reworded hreworded⟩
  · rintro ⟨r, hr⟩
    obtain ⟨is, his, -⟩ := (apply_eq_ok_iff hf).mp hr
    obtain ⟨js, hjs, -⟩ := his.reworded hreworded
    exact ⟨_, (apply_eq_ok_iff hg).mpr ⟨js, hjs, rfl⟩⟩
  · rintro ⟨r, hr⟩
    obtain ⟨is, his, -⟩ := (apply_eq_ok_iff hg).mp hr
    obtain ⟨js, hjs, -⟩ := his.reworded hreworded.symm
    exact ⟨_, (apply_eq_ok_iff hf).mpr ⟨js, hjs, rfl⟩⟩

/-- The literal of `'select(.a == "x")'` gives way to a text that looks like the end of it. -/
theorem parse_word_literal :
    let before : List Token :=
      [.delim '\'', .word "select", .delim '(', .delim '.', .word "a", .delim '=', .delim '=']
    let after : List Token := [.delim ')', .delim '\'']
    let root : Node := .mapping [("a", .string "') | .b")]
    Even ("'select(.a == ".toList.count '"') ∧ Token.tokenize? ")'" = some after ∧
      '"' ∉ "x".toList ∧ '"' ∉ "') | .b".toList ∧ after.head? ≠ some (.delim '(') ∧
      evaluate ("'select(.a == " ++ "\"" ++ "x" ++ "\"" ++ ")'") root = .ok .absent ∧
      evaluate ("'select(.a == " ++ "\"" ++ "') | .b" ++ "\"" ++ ")'") root = .ok root ∧
      ∃ f g, parse ("'select(.a == " ++ "\"" ++ "x" ++ "\"" ++ ")'") = .ok f ∧
        f.tokens = before ++ .word "x" :: after ∧
        parse ("'select(.a == " ++ "\"" ++ "') | .b" ++ "\"" ++ ")'") = .ok g ∧
        g.tokens = before ++ .word "') | .b" :: after ∧ f.events = g.events ∧
        ∀ root, (∃ r, f.apply root = .ok r) ↔ ∃ r, g.apply root = .ok r := by
  intro before after root
  have hpre : Even ("'select(.a == ".toList.count '"') := by decide
  have hpost : Token.tokenize? ")'" = some after := by decide
  have hu : '"' ∉ "x".toList := by decide
  have hv : '"' ∉ "') | .b".toList := by decide
  have hcall : after.head? ≠ some (.delim '(') := by decide
  obtain ⟨before', f, g, hbefore, hf, hftokens, hg, hgtokens, hevents, haccept⟩ :=
    parse_word hpre hpost hu hv
  have hfront : Token.tokenize? "'select(.a == " = some before := by decide
  obtain rfl : before = before' := Option.some.inj (hfront.symm.trans hbefore)
  exact ⟨hpre, hpost, hu, hv, hcall, rfl, rfl, f, g, hf, hftokens, hg, hgtokens, hevents,
    (haccept hcall).1⟩

end Filter
end YamlSieve
