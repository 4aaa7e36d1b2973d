import YamlSieve.Proofs.Composition

/-!
# Bodies side by side

Two bodies side by side are a body that means the first and then the second, as if a `|` stood
between them (`Body.append`): where two paths meet, they are one longer path. Only if the first
body ends in a dot and the second starts with the name of a function, that name is taken for a key,
and there is no such body (`Body.not_append`).
-/

namespace YamlSieve

variable {ts us : List Token} {steps : List PathStep} {w : String}

/-! ### Runs of path steps -/

namespace PathStep

lemma readRun_dot_dot (ts : List Token) :
    readRun (.delim '.' :: .delim '.' :: ts) = readRun (.delim '.' :: ts) :=
  readRun.eq_4 _ (by simp) (by simp) (by simp)

/-- What is a run as a whole is empty or starts with a dot. -/
lemma eq_nil_or_dot_of_readRun (h : (readRun ts).2 = []) :
    ts = [] ∨ ∃ us, ts = .delim '.' :: us := by
  by_contra! hne
  rw [readRun_of_ne_dot hne.2] at h
  exact hne.1 h

/-- A dot goes on with a run that ends in front of it. -/
lemma readRun_append_dot (h : (readRun ts).2 = []) (us : List Token) :
    readRun (ts ++ .delim '.' :: us) =
      ((readRun ts).1 ++ (readRun (.delim '.' :: us)).1, (readRun (.delim '.' :: us)).2) := by
  fun_induction readRun ts with
  | case1 k ts steps rest hread ih =>
    obtain rfl : rest = [] := h
    simp only [hread, forall_const] at ih
    simp only [List.cons_append, readRun, ih]
  | case2 ts steps rest hread ih =>
    obtain rfl : rest = [] := h
    simp only [hread, forall_const] at ih
    simp only [List.cons_append, readRun, ih]
  | case3 k ts _ steps rest hread ih =>
    obtain rfl : rest = [] := h
    simp only [hread, forall_const] at ih
    have hbrackets : ∀ vs, ts ++ .delim '.' :: us = .delim '[' :: .delim ']' :: vs → False := by
      rcases eq_nil_or_dot_of_readRun (congrArg Prod.snd hread) with rfl | ⟨ts, rfl⟩ <;> simp
    simp only [List.cons_append, readRun.eq_3 k _ hbrackets, ih]
  | case4 ts _ _ _ ih =>
    rcases eq_nil_or_dot_of_readRun h with rfl | ⟨ts, rfl⟩
    · simp [readRun]
    · rw [List.cons_append, List.cons_append, readRun_dot_dot, ← List.cons_append, ih h]
  | case5 ts _ _ _ _ =>
    obtain rfl : ts = [] := h
    rfl

/-- A word goes on with a run that ends in a dot, and stands behind any other run. -/
lemma readRun_append_word (h : (readRun ts).2 = []) (w : String) (us : List Token) :
    readRun (ts ++ .word w :: us) =
      if ts.getLast? = some (.delim '.') then
        ((readRun ts).1 ++ (readRun (.delim '.' :: .word w :: us)).1,
          (readRun (.delim '.' :: .word w :: us)).2)
      else
        ((readRun ts).1, .word w :: us) := by
  have hlast : ∀ {t : Token} {ts : List Token}, t ≠ .delim '.' →
      ((t :: ts).getLast? = some (.delim '.') ↔ ts.getLast? = some (.delim '.')) := by
    intro t ts ht
    cases ts with
    | nil => simp [ht]
    | cons u ts => rw [List.getLast?_cons_cons]
  fun_induction readRun ts with
  | case1 k ts steps rest hread ih =>
    obtain rfl : rest = [] := h
    simp only [hread, forall_const] at ih
    simp only [List.getLast?_cons_cons, hlast (t := .delim ']') (by simp), List.cons_append,
      readRun, ih]
    split_ifs <;> rfl
  | case2 ts steps rest hread ih =>
    obtain rfl : rest = [] := h
    simp only [hread, forall_const] at ih
    simp only [List.getLast?_cons_cons, hlast (t := .delim ']') (by simp), List.cons_append,
      readRun, ih]
    split_ifs <;> rfl
  | case3 k ts _ steps rest hread ih =>
    obtain rfl : rest = [] := h
    simp only [hread, forall_const] at ih
    -- the run ends with the word or goes on with a dot, so no brackets follow the word
    have hbrackets : ∀ vs, ts ++ .word w :: us = .delim '[' :: .delim ']' :: vs → False := by
      rcases eq_nil_or_dot_of_readRun (congrArg Prod.snd hread) with rfl | ⟨ts, rfl⟩ <;> simp
    simp only [List.getLast?_cons_cons, hlast (t := .word k) (by simp), List.cons_append,
      readRun.eq_3 k _ hbrackets, ih]
    split_ifs <;> rfl
  | case4 ts _ _ _ ih =>
    -- a lone dot: at the end it takes the word as a key, in front of another dot it is dropped
    rcases eq_nil_or_dot_of_readRun h with rfl | ⟨ts, rfl⟩
    · simp [readRun]
    · rw [List.cons_append, List.cons_append, readRun_dot_dot, ← List.cons_append, ih h]
      rfl
  | case5 ts _ _ _ _ =>
    obtain rfl : ts = [] := h
    exact readRun_of_ne_dot fun _ => by simp

/-- Where a run ends in front of a word, it does so whatever comes after. -/
lemma readRun_append_of_word {rest : List Token} (h : readRun ts = (steps, .word w :: rest))
    (us : List Token) : readRun (ts ++ us) = (steps, .word w :: rest ++ us) := by
  -- what is appended cannot complete brackets, since a word ends the run before
  have hbrackets : ∀ {ts : List Token} {steps : List PathStep},
      readRun ts = (steps, .word w :: rest) →
      (∀ vs, ts = .delim '[' :: .delim ']' :: vs → False) →
      ∀ vs, ts ++ us ≠ .delim '[' :: .delim ']' :: vs := by
    intro ts steps hread hts vs hvs
    rcases ts with _ | ⟨a, _ | ⟨b, ts⟩⟩
    · simp [readRun] at hread
    · obtain ⟨rfl, -⟩ := List.cons.inj hvs
      simp [readRun] at hread
    · simp only [List.cons_append, List.cons.injEq] at hvs
      obtain ⟨rfl, rfl, -⟩ := hvs
      exact hts ts rfl
  fun_induction readRun ts generalizing steps with
  | case1 k ts steps rest hread ih => simp_all [readRun]
  | case2 ts steps rest hread ih => simp_all [readRun]
  | case3 k ts hts steps' rest' hread ih =>
    obtain ⟨rfl, rfl⟩ := Prod.mk.inj h
    rw [List.cons_append, List.cons_append, readRun.eq_3 k _ (hbrackets hread hts), ih hread]
  | case4 ts _ hts hword ih =>
    have hnoWord : ∀ k vs, ts ++ us ≠ .word k :: vs := by
      intro k vs hvs
      cases ts with
      | nil => simp [readRun] at h
      | cons t ts => exact hword k ts (by rw [(List.cons.inj hvs).1])
    rw [List.cons_append, readRun.eq_4 _ (fun k _ => hnoWord k _) (hbrackets h hts) hnoWord, ih h]
  | case5 ts _ _ _ _ =>
    obtain ⟨rfl, rfl⟩ := Prod.mk.inj h
    exact readRun_of_ne_dot fun _ => by simp

end PathStep

/-! ### Bodies -/

namespace Item.Spelled

variable {i : Item} {is : List Item} {rest : List Token}

/-- In front of more items, an item does not depend on what comes after those. -/
lemma append (h : i.Spelled ts rest) (htail : Body.Tail is rest) (hrest : rest ≠ [])
    (us : List Token) : i.Spelled ts (rest ++ us) := by
  have hpipe : (Token.delim '|').isOfPath = false := rfl
  cases h with
  | select h => exact select h _
  | path h =>
    refine path ?_
    rcases htail with ⟨-, rfl⟩ | hbody | ⟨vs, rfl, -⟩
    · exact absurd rfl hrest
    · obtain ⟨t, vs, rfl, rfl | rfl⟩ := hbody.ts_eq_cons
      · exact absurd (congrArg Prod.snd h) (PathStep.readRun_rest_ne_dot _ vs)
      · rw [← List.append_assoc]
        exact PathStep.readRun_append_of_word h us
    · rw [← List.nil_append (.delim '|' :: vs)] at h
      have hrun := (PathStep.readRun_append_delim_iff hpipe).mp h
      exact (PathStep.readRun_append_delim_iff hpipe).mpr hrun

end Item.Spelled

namespace Body

variable {is js ks : List Item} {rest : List Token}

/-- A path next to a body that starts with a path is one path with it. -/
lemma append_path (hrun : PathStep.readRun ts = (steps, [])) (hts : ts ≠ [])
    (h : Body js (.delim '.' :: us)) :
    ∃ ks, Body ks (ts ++ .delim '.' :: us) ∧
      ∀ d, Item.evalAll ks d = Item.evalAll (.path steps :: js) d := by
  obtain ⟨j, js', vs, rest, rfl, hsplit, hj, htail⟩ := h.uncons
  cases hj with
  | select hj => simp at hsplit
  | @path vs rest steps' hj =>
    obtain ⟨ts, rfl⟩ : ∃ ts', ts = .delim '.' :: ts' := by
      have hdot := PathStep.eq_nil_or_dot_of_readRun (congrArg Prod.snd hrun)
      exact hdot.resolve_left hts
    have happend := PathStep.readRun_append_dot (congrArg Prod.snd hrun) us
    rw [hsplit, hj, hrun, List.cons_append, ← List.append_assoc] at happend
    refine ⟨.path (steps ++ steps') :: js', ?_, fun d => ?_⟩
    · rw [hsplit, ← List.append_assoc]
      exact cons (Item.Spelled.path happend) htail
    · have hpath : PathStep.evalAll (steps ++ steps') d =
          PathStep.evalAll steps' (PathStep.evalAll steps d) := List.foldl_append
      exact congrArg (Item.evalAll js') hpath

/-- Two bodies side by side are a body, unless a dot in front of a name joins them. -/
theorem append (h : Body is ts) (h' : Body js us)
    (hjoin : ts.getLast? ≠ some (.delim '.') ∨ ∀ w, us.head? ≠ some (.word w)) :
    ∃ ks, Body ks (ts ++ us) ∧ ∀ d, Item.evalAll ks d = Item.evalAll js (Item.evalAll is d) := by
  induction h with
  | @last i ts h =>
    cases h with
    | select h => exact ⟨_, .next (.select h us) h', fun d => rfl⟩
    | @path ts _ steps h =>
      rw [List.append_nil] at h
      -- the next body starts with a dot, which the path takes in, or with a call
      obtain ⟨t, us, rfl, rfl | rfl⟩ := h'.ts_eq_cons
      · exact append_path h (List.cons_ne_nil _ _) h'
      · have hdot := hjoin.resolve_right fun hword => hword "select" rfl
        have hrun := PathStep.readRun_append_word (congrArg Prod.snd h) "select" us
        rw [if_neg hdot, h] at hrun
        exact ⟨_, .next (.path hrun) h', fun d => rfl⟩
  | @next i is ts rest h hrest ih =>
    rw [List.getLast?_append_of_ne_nil _ hrest.ts_ne_nil] at hjoin
    obtain ⟨ks, hks, heval⟩ := ih hjoin
    rw [List.append_assoc]
    refine ⟨i :: ks, .next (h.append (Or.inr (Or.inl hrest)) hrest.ts_ne_nil us) hks, ?_⟩
    exact fun d => heval _
  | @piped i is ts rest h hrest ih =>
    rw [List.append_cons, List.getLast?_append_of_ne_nil _ hrest.ts_ne_nil] at hjoin
    obtain ⟨ks, hks, heval⟩ := ih hjoin
    have htail : Tail is (.delim '|' :: rest) := Or.inr (Or.inr ⟨rest, rfl, hrest⟩)
    rw [List.append_assoc]
    refine ⟨i :: ks, .piped (h.append htail (List.cons_ne_nil _ _) us) hks, ?_⟩
    exact fun d => heval _

/-- A word at the front of a body is the name of a function. -/
lemma word_eq_cons (h : Body js (.word w :: us)) : ∃ us', us = .delim '(' :: us' := by
  obtain ⟨j, js', vs, rest, rfl, hsplit, hj, -⟩ := h.uncons
  cases hj with
  | path hj => simp at hsplit
  | select hj => exact ⟨_, (List.cons.inj hsplit).2⟩

/-- An item at the front of a body leaves the tail of a body. -/
lemma tail_of_spelled {i : Item} (hi : i.Spelled ts rest) (h : Body ks (ts ++ rest)) :
    ∃ ks', Tail ks' rest := by
  obtain ⟨j, ks', us, rest', -, hsplit, hj, htail⟩ := h.uncons
  obtain ⟨-, rfl⟩ := hi.unique hj hsplit
  exact ⟨ks', htail⟩

/-- The name of a function behind a dot is a key, and its parenthesis starts no item. -/
theorem not_append (h : Body is ts) (hdot : ts.getLast? = some (.delim '.')) (w : String)
    (us : List Token) : ¬Body ks (ts ++ .word w :: .delim '(' :: us) := by
  intro hks
  induction h generalizing ks with
  | @last i ts h =>
    cases h with
    | select h =>
      rw [List.getLast?_append_of_ne_nil _ (List.cons_ne_nil _ _)] at hdot
      simp at hdot
    | @path ts _ steps h =>
      rw [List.append_nil] at h
      -- the word becomes the last key of the path, and the parenthesis is left alone
      have hkey : PathStep.readRun (.delim '.' :: .word w :: .delim '(' :: us) =
          ([.key w], .delim '(' :: us) := by simp [PathStep.readRun]
      have hrun := PathStep.readRun_append_word (congrArg Prod.snd h) w (.delim '(' :: us)
      rw [if_pos hdot, hkey] at hrun
      obtain ⟨run, hsplit, hi⟩ := Item.Spelled.of_readRun (ts ++ .word w :: .delim '(' :: us)
      rw [← List.cons_append, hrun] at hsplit hi
      rw [hsplit] at hks
      obtain ⟨ks', ⟨-, hnil⟩ | hbody | ⟨vs, hvs, -⟩⟩ := tail_of_spelled hi hks
      · simp at hnil
      · obtain ⟨t, us', hcons, rfl | rfl⟩ := hbody.ts_eq_cons
        · simp at hcons
        · simp at hcons
      · simp at hvs
  | @next i is ts rest h hrest ih =>
    rw [List.getLast?_append_of_ne_nil _ hrest.ts_ne_nil] at hdot
    rw [List.append_assoc] at hks
    have hi := h.append (Or.inr (Or.inl hrest)) hrest.ts_ne_nil (.word w :: .delim '(' :: us)
    obtain ⟨ks', ⟨-, hnil⟩ | hbody | ⟨vs, hvs, hbody⟩⟩ := tail_of_spelled hi hks
    · simp at hnil
    · exact ih hdot hbody
    · obtain ⟨t, rest, rfl, rfl | rfl⟩ := hrest.ts_eq_cons
      · simp at hvs
      · simp at hvs
  | @piped i is ts rest h hrest ih =>
    rw [List.append_cons, List.getLast?_append_of_ne_nil _ hrest.ts_ne_nil] at hdot
    rw [List.append_assoc] at hks
    have htail : Tail is (.delim '|' :: rest) := Or.inr (Or.inr ⟨rest, rfl, hrest⟩)
    have hi := h.append htail (List.cons_ne_nil _ _) (.word w :: .delim '(' :: us)
    obtain ⟨ks', ⟨-, hnil⟩ | hbody | ⟨vs, hvs, hbody⟩⟩ := tail_of_spelled hi hks
    · simp at hnil
    · exact absurd rfl (hbody.ts_ne_pipe _)
    · obtain ⟨-, rfl⟩ := List.cons.inj hvs
      exact ih hdot hbody

end Body

/-! ### Filters -/

namespace Filter

variable {a b : String} {d : Node}

lemma tokenize?_juxtaposed (ha : Token.tokenize? a = some ts) (hb : Token.tokenize? b = some us) :
    Token.tokenize? (a ++ " " ++ b) = some (ts ++ us) := by
  have hchars : (a ++ " " ++ b).toList = a.toList ++ ' ' :: b.toList := by simp
  rw [Token.tokenize?] at hb
  rw [Token.tokenize?, hchars, Token.readOpen_append_space ha, hb]
  rfl

/--
The `|` between two accepted bodies that are not empty can be left out, and the result is the same
on every document. Only if the first body ends in a dot and the second starts with a word, then the
expression without the `|` is refused.
-/
theorem evaluate_juxtaposed (ha : Token.tokenize? a = some ts) (hts : ts ≠ [])
    (hb : Token.tokenize? b = some us) (hus : us ≠ [])
    (haccept : ∃ d r, evaluate ("'" ++ a ++ "'") d = .ok r)
    (haccept' : ∃ d r, evaluate ("'" ++ b ++ "'") d = .ok r) (d : Node) :
    ((ts.getLast? ≠ some (.delim '.') ∨ ∀ w, us.head? ≠ some (.word w)) →
        ∃ r, evaluate ("'" ++ (a ++ " " ++ b) ++ "'") d = .ok r ∧
          evaluate ("'" ++ (a ++ " | " ++ b) ++ "'") d = .ok r) ∧
      (ts.getLast? = some (.delim '.') → (∃ w, us.head? = some (.word w)) →
        ∃ error, evaluate ("'" ++ (a ++ " " ++ b) ++ "'") d = .error error ∧
          error.kind = .grammatical) := by
  obtain ⟨_, _, hok⟩ := haccept
  obtain ⟨_, _, hok'⟩ := haccept'
  obtain ⟨is, his, -⟩ := (evaluate_quoted_eq_ok_iff ha hts).mp hok
  obtain ⟨js, hjs, -⟩ := (evaluate_quoted_eq_ok_iff hb hus).mp hok'
  have htokens := tokenize?_juxtaposed ha hb
  have hne : ts ++ us ≠ [] := by simp [hts]
  refine ⟨fun hjoin => ?_, fun hdot hword => ?_⟩
  · obtain ⟨ks, hks, heval⟩ := his.append hjs hjoin
    refine ⟨Item.evalAll js (Item.evalAll is d), ?_, ?_⟩
    · exact (evaluate_quoted_eq_ok_iff htokens hne).mpr ⟨ks, hks, (heval d).symm⟩
    · exact (evaluate_piped_eq_ok_iff ha hb).mpr ⟨is, js, his, hjs, rfl⟩
  · obtain ⟨w, hw⟩ := hword
    obtain ⟨us, rfl⟩ := List.head?_eq_some_iff.mp hw
    obtain ⟨us, rfl⟩ := hjs.word_eq_cons
    refine evaluate_of_not_expression (Token.tokenize?_quoted htokens) (fun ks hks => ?_) d
    exact his.not_append hdot w us ((Expression.quoted_iff hne).mp hks)

/--
Two paths that meet as in `'.a. .b[]'`, and a call behind a dot as in `'.a. select(.b == x)'`.
-/
theorem evaluate_juxtaposed_dot :
    let items : List Node := [.mapping [("b", .string "x")], .mapping [("b", .string "y")]]
    let d : Node := .mapping [("a", .mapping [("b", .sequence items)])]
    Token.tokenize? ".a." = some [.delim '.', .word "a", .delim '.'] ∧
      Token.tokenize? ".b[]" = some [.delim '.', .word "b", .delim '[', .delim ']'] ∧
      evaluate ("'" ++ (".a." ++ " " ++ ".b[]") ++ "'") d = .ok (.sequence items) ∧
      (∃ r, evaluate ("'" ++ (".a." ++ " " ++ ".b[]") ++ "'") d = .ok r ∧
        evaluate ("'" ++ (".a." ++ " | " ++ ".b[]") ++ "'") d = .ok r) ∧
      evaluate ("'" ++ (".a." ++ " | " ++ "select(.b == x)") ++ "'") d = .ok .absent ∧
      ∃ error, evaluate ("'" ++ (".a." ++ " " ++ "select(.b == x)") ++ "'") d = .error error ∧
        error.kind = .grammatical := by
  intro items d
  have ha : Token.tokenize? ".a." = some [.delim '.', .word "a", .delim '.'] := by decide
  have hb : Token.tokenize? ".b[]" =
      some [.delim '.', .word "b", .delim '[', .delim ']'] := by decide
  have hc : Token.tokenize? "select(.b == x)" = some [.word "select", .delim '(', .delim '.',
      .word "b", .delim '=', .delim '=', .word "x", .delim ')'] := by decide
  have haccept : evaluate ("'" ++ ".a." ++ "'") d = .ok (.mapping [("b", .sequence items)]) := rfl
  have haccept' : evaluate ("'" ++ ".b[]" ++ "'") d = .ok .absent := rfl
  have haccept'' : evaluate ("'" ++ "select(.b == x)" ++ "'") d = .ok .absent := rfl
  have hne : ∀ {t : Token} {ts : List Token}, t :: ts ≠ [] := by simp
  refine ⟨ha, hb, rfl, ?_, rfl, ?_⟩
  · exact (evaluate_juxtaposed ha hne hb hne ⟨d, _, haccept⟩ ⟨d, _, haccept'⟩ d).1
      (Or.inr (by simp))
  · exact (evaluate_juxtaposed ha hne hc hne ⟨d, _, haccept⟩ ⟨d, _, haccept''⟩ d).2 rfl ⟨_, rfl⟩

end Filter
end YamlSieve
