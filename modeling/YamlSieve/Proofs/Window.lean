import Mathlib.Algebra.Order.Ring.Nat
import YamlSieve.Proofs.Argument

/-!
# Sessions and their windows

Sessions are used side by side: requests go to the session at a place, and a window that one of them
opens joins the others. But for a sum of a position and a count that is no word, which stops them
all (`Session.Request.serveAll_isSome`), a session is no more than its remaining tokens
(`Session.Operation.perform_eq`), and whatever the others are asked in between, it only answers its
own requests (`Session.Request.serveAll_at`). So positions only move forward, and a window shows
nothing but its own tokens (`Session.Request.serveAll_forward`). A call takes no sum that is no
word, and it reads its argument in a window (`Session.apply_select_eq`).
-/

namespace YamlSieve.Session

variable {s next : Session} {count : UInt64} {n : Nat}

/-! ### Counts -/

/-- Whether the sum of the position and a count is a word. -/
def fits (s : Session) (count : UInt64) : Bool := s.position + count.toNat < UInt64.size

lemma offset?_eq (s : Session) (count : UInt64) :
    s.offset? count = if s.fits count then some (s.position + count.toNat) else none := by
  simp only [offset?, fits, decide_eq_true_eq]

lemma length_remaining (s : Session) : s.remaining.length = s.length := List.length_drop

/-- Passing tokens leaves the others, and beyond the end there is nothing to pass. -/
lemma moveTo_add (s : Session) (n : Nat) :
    s.moveTo (s.position + n) = s.leaving (s.remaining.drop n) := by
  have hposition := s.position_le
  have hplace : min (s.position + n) s.tokens.length =
      min (s.tokens.length - (s.remaining.drop n).length) s.tokens.length := by
    rw [List.length_drop, length_remaining, length]
    omega
  simp only [leaving, moveTo, hplace]

lemma advance?_eq (s : Session) (count : UInt64) :
    s.advance? count =
      if s.fits count then some (s.leaving (s.remaining.drop count.toNat)) else none := by
  rw [advance?, offset?_eq, ← moveTo_add]
  split <;> rfl

lemma peekNth?_eq (s : Session) (count : UInt64) :
    s.peekNth? count = if s.fits count then some s.remaining[count.toNat]? else none := by
  rw [peekNth?, offset?_eq, remaining, List.getElem?_drop]
  split <;> rfl

lemma window?_eq (s : Session) (count : UInt64) :
    s.window? count =
      if s.fits count then some (new (s.remaining.take count.toNat)) else none := by
  rw [window?, offset?_eq]
  split
  · rw [Option.map_some, Nat.add_sub_cancel_left]
  · rfl

lemma peek?_eq_head? (s : Session) : s.peek? = s.remaining.head? := by
  rw [peek?, remaining, List.head?_drop]

lemma find?_eq_some_iff {test : Token → Bool} :
    s.find? test = some n ↔ (∃ t, s.remaining[n]? = some t ∧ test t = true) ∧
      ∀ m < n, ∀ t, s.remaining[m]? = some t → test t = false := by
  rw [find?, List.findIdx?_eq_some_iff_getElem]
  constructor
  · rintro ⟨hn, htest, hbefore⟩
    refine ⟨⟨_, List.getElem?_eq_getElem hn, htest⟩, fun m hm t ht => ?_⟩
    obtain ⟨hlt, rfl⟩ := List.getElem?_eq_some_iff.mp ht
    exact Bool.eq_false_iff.mpr (hbefore m hm)
  · rintro ⟨⟨t, ht, htest⟩, hbefore⟩
    obtain ⟨hn, rfl⟩ := List.getElem?_eq_some_iff.mp ht
    refine ⟨hn, htest, fun m hm => Bool.eq_false_iff.mp ?_⟩
    exact hbefore m hm _ (List.getElem?_eq_getElem (hm.trans hn))

/-- Where tokens are left, the position is no further back. -/
lemma position_le_leaving {ts : List Token} (h : ts <:+ s.remaining) :
    s.position ≤ (s.leaving ts).position := by
  have hlength := h.length_le
  have hposition := s.position_le
  rw [length_remaining, length] at hlength
  show s.position ≤ min (s.tokens.length - ts.length) s.tokens.length
  omega

/-! ### Operations -/

/-- An operation on a session. -/
inductive Operation where
  | advance (count : UInt64)
  | peek
  | peekNth (count : UInt64)
  | last
  | length
  | remaining
  | find (test : Token → Bool)
  | window (count : UInt64)
  | readRun
  | readPredicate
  | follow (cursor : Cursor)
  | apply (name : String) (cursor : Cursor)

/-- What an operation gives. -/
inductive Answer where
  | moved
  | token (token : Option Token)
  | length (length : Nat)
  | tokens (tokens : List Token)
  | offset (offset : Option Nat)
  | window (window : Session)
  | steps (steps : List PathStep)
  | predicate (result : Except FilterError Predicate)
  | cursor (cursor : Cursor)
  | result (result : Except FilterError Cursor)

/-- The session that is opened with an answer. -/
def Answer.window? : Answer → Option Session
  | window w => some w
  | _        => none

namespace Operation

/-- The answer to an operation, and the session after it; nothing if the operation overflows. -/
def perform (s : Session) : Operation → Option (Answer × Session)
  | advance count     => (s.advance? count).map fun next => (.moved, next)
  | peek              => some (.token s.peek?, s)
  | peekNth count     => (s.peekNth? count).map fun t => (.token t, s)
  | last              => some (.token s.last?, s)
  | length            => some (.length s.length, s)
  | remaining         => some (.tokens s.remaining, s)
  | find test         => some (.offset (s.find? test), s)
  | window count      => (s.window? count).map fun w => (.window w, s)
  | readRun           => some (.steps s.readRun.1, s.readRun.2)
  | readPredicate     => some (.predicate s.readPredicate.1, s.readPredicate.2)
  | follow cursor     => some (.cursor (s.follow cursor).1, (s.follow cursor).2)
  | apply name cursor => some (.result (s.apply name cursor).1, (s.apply name cursor).2)

/-- The answer to an operation where the given tokens remain, and those that remain after it. -/
def eval (ts : List Token) : Operation → Answer × List Token
  | advance count     => (.moved, ts.drop count.toNat)
  | peek              => (.token ts.head?, ts)
  | peekNth count     => (.token ts[count.toNat]?, ts)
  | last              => (.token ts.getLast?, ts)
  | length            => (.length ts.length, ts)
  | remaining         => (.tokens ts, ts)
  | find test         => (.offset (ts.findIdx? test), ts)
  | window count      => (.window (new (ts.take count.toNat)), ts)
  | readRun           => (.steps (PathStep.readRun ts).1, (PathStep.readRun ts).2)
  | readPredicate     => (.predicate (Predicate.read ts).1, (Predicate.read ts).2)
  | follow cursor     =>
    (.cursor (PathStep.applyAll cursor (PathStep.readRun ts).1), (PathStep.readRun ts).2)
  | apply name cursor =>
    match Function.apply name cursor ts with
    | .ok (cursor, rest) => (.result (.ok cursor), rest)
    | .error e           => (.result (.error e), ts)

/-- The answers to operations one after the other, and the tokens that remain after them. -/
def evalAll : List Operation → List Token → List Answer × List Token
  | [],        ts => ([], ts)
  | op :: ops, ts =>
    let later := evalAll ops (op.eval ts).2
    ((op.eval ts).1 :: later.1, later.2)

/-- Whether the sum of the position and the count of an operation, if it has one, is a word. -/
def fits (s : Session) : Operation → Bool
  | advance count | peekNth count | window count => s.fits count
  | _                                            => true

/-- How many tokens an operation passes, unless it is one that reads them. -/
def count? : Operation → Option Nat
  | advance count                                  => some count.toNat
  | readRun | readPredicate | follow _ | apply _ _ => none
  | _                                              => some 0

/--
A session answers as its remaining tokens tell and leaves what they tell, but for an overflow, which
stops it.
-/
lemma perform_eq (op : Operation) (s : Session) :
    op.perform s = if op.fits s then
        some ((op.eval s.remaining).1, s.leaving (op.eval s.remaining).2)
      else none := by
  -- most operations only look: the session is left where it is
  have hstay {a b : Answer} (h : a = b) : some (a, s) = some (b, s.leaving s.remaining) := by
    rw [h, leaving_remaining]
  cases op with
  | advance count =>
    rw [perform, advance?_eq, fits]
    split <;> rfl
  | peekNth count =>
    rw [perform, peekNth?_eq, fits]
    split
    · exact hstay rfl
    · rfl
  | window count =>
    rw [perform, window?_eq, fits]
    split
    · exact hstay rfl
    · rfl
  | peek => exact hstay (congrArg _ s.peek?_eq_head?)
  | length => exact hstay (congrArg _ s.length_remaining.symm)
  | last | remaining | find => exact hstay rfl
  | readRun | readPredicate | follow => rfl
  | apply name cursor =>
    show some _ = some _
    rw [Session.apply, eval]
    cases Function.apply name cursor s.remaining with
    | error e => exact hstay rfl
    | ok passed => rfl

lemma eq_of_perform {op : Operation} {answer : Answer} (h : op.perform s = some (answer, next)) :
    answer = (op.eval s.remaining).1 ∧ next = s.leaving (op.eval s.remaining).2 := by
  rw [perform_eq] at h
  split at h
  · cases h
    exact ⟨rfl, rfl⟩
  · cases h

lemma eval_suffix (op : Operation) (ts : List Token) : (op.eval ts).2 <:+ ts := by
  cases op with
  | advance count => exact List.drop_suffix _ _
  | readRun | follow => exact PathStep.readRun_suffix ts
  | readPredicate => exact Predicate.read_suffix ts
  | apply name cursor =>
    rw [eval]
    split
    · next happly => exact Function.suffix_of_apply happly
    · exact List.suffix_rfl
  | _ => exact List.suffix_rfl

lemma eval_drop {op : Operation} (h : op.count? = some n) (ts : List Token) :
    (op.eval ts).2 = ts.drop n := by
  cases op with
  | readRun | readPredicate | follow | apply => cases h
  | _ =>
    cases h
    rfl

/-- Operations that read nothing pass as many tokens as their counts add up to. -/
lemma evalAll_drop {ops : List Operation} {counts : List Nat}
    (h : ops.map count? = counts.map some) (ts : List Token) :
    (evalAll ops ts).2 = ts.drop counts.sum := by
  induction ops generalizing counts ts with
  | nil =>
    obtain rfl : counts = [] := List.map_eq_nil_iff.mp h.symm
    rfl
  | cons op ops ih =>
    obtain ⟨n, counts, rfl, hop, hops⟩ := List.map_eq_cons_iff.mp h.symm
    rw [evalAll, ih hops.symm, eval_drop hop.symm, List.drop_drop, List.sum_cons]

end Operation

/-! ### Sessions side by side -/

/-- An operation that is asked of the session at a place. -/
structure Request where
  place     : Nat
  operation : Operation

namespace Request

/--
The answer to a request, with its place, and the sessions after it: the one at the place went on,
and if it opened a window, this stands behind all others. At a place without a session nothing is
done.
-/
def serve (r : Request) (sessions : List Session) :
    Option (List (Nat × Answer) × List Session) :=
  match sessions[r.place]? with
  | none   => some ([], sessions)
  | some s => (r.operation.perform s).map fun served =>
    ([(r.place, served.1)], sessions.set r.place served.2 ++ served.1.window?.toList)

/-- The answers to requests one after the other, and the sessions after them. -/
def serveAll : List Request → List Session → Option (List (Nat × Answer) × List Session)
  | [],      sessions => some ([], sessions)
  | r :: rs, sessions =>
    (r.serve sessions).bind fun first =>
      (serveAll rs first.2).map fun later => (first.1 ++ later.1, later.2)

/-- Whether every sum of a position and a count that the requests ask for is a word. -/
def fitAll : List Request → List Session → Bool
  | [],      _        => true
  | r :: rs, sessions =>
    sessions[r.place]?.all (r.operation.fits ·) &&
      (r.serve sessions).all fun first => fitAll rs first.2

/-- The operations that are asked of the session at a place. -/
def operationsAt (place : Nat) (requests : List Request) : List Operation :=
  (requests.filter (·.place = place)).map operation

/-- The answers of the session at a place. -/
def answersAt (place : Nat) (answers : List (Nat × Answer)) : List Answer :=
  (answers.filter (·.1 = place)).map (·.2)

variable {r : Request} {requests : List Request} {sessions last : List Session} {place : Nat}
  {answers : List (Nat × Answer)}

lemma operationsAt_cons_self (h : r.place = place) (rs : List Request) :
    operationsAt place (r :: rs) = r.operation :: operationsAt place rs := by
  simp [operationsAt, h]

lemma operationsAt_cons_ne (h : r.place ≠ place) (rs : List Request) :
    operationsAt place (r :: rs) = operationsAt place rs := by
  simp [operationsAt, h]

lemma answersAt_append (xs ys : List (Nat × Answer)) :
    answersAt place (xs ++ ys) = answersAt place xs ++ answersAt place ys := by
  simp [answersAt]

lemma serve_isSome (r : Request) (sessions : List Session) :
    (r.serve sessions).isSome = sessions[r.place]?.all (r.operation.fits ·) := by
  rw [serve]
  cases sessions[r.place]? with
  | none => rfl
  | some s =>
    rw [Option.all_some, Option.isSome_map, Operation.perform_eq]
    cases r.operation.fits s <;> rfl

/-- The session at the place of a request performs the operation. -/
lemma serve_self (hs : sessions[place]? = some s) (h : r.place = place)
    (hserve : r.serve sessions = some (answers, last)) :
    answersAt place answers = [(r.operation.eval s.remaining).1] ∧
      last[place]? = some (s.leaving (r.operation.eval s.remaining).2) := by
  subst h
  obtain ⟨hlt, -⟩ := List.getElem?_eq_some_iff.mp hs
  rw [serve, hs] at hserve
  obtain ⟨⟨answer, next⟩, hperform, hserved⟩ := Option.map_eq_some_iff.mp hserve
  obtain ⟨rfl, rfl⟩ := Operation.eq_of_perform hperform
  obtain ⟨rfl, rfl⟩ := Prod.mk.inj hserved
  refine ⟨by simp [answersAt], ?_⟩
  rw [List.getElem?_append_left (by rwa [List.length_set]), List.getElem?_set_self hlt]

/-- Sessions at other places are left as they are. -/
lemma serve_ne (hs : sessions[place]? = some s) (h : r.place ≠ place)
    (hserve : r.serve sessions = some (answers, last)) :
    answersAt place answers = [] ∧ last[place]? = some s := by
  obtain ⟨hlt, -⟩ := List.getElem?_eq_some_iff.mp hs
  rw [serve] at hserve
  split at hserve
  · cases hserve
    exact ⟨rfl, hs⟩
  · obtain ⟨served, -, hserved⟩ := Option.map_eq_some_iff.mp hserve
    obtain ⟨rfl, rfl⟩ := Prod.mk.inj hserved
    refine ⟨by simp [answersAt, h], ?_⟩
    rw [List.getElem?_append_left (by rwa [List.length_set]), List.getElem?_set_ne h, hs]

/--
Whatever the others are asked in between, the session at a place answers its own requests as its
remaining tokens tell, and it only moves forward.
-/
lemma serveAll_at (hs : sessions[place]? = some s)
    (hserve : serveAll requests sessions = some (answers, last)) :
    let own := operationsAt place requests
    answersAt place answers = (Operation.evalAll own s.remaining).1 ∧
      ∃ next, last[place]? = some next ∧ next.tokens = s.tokens ∧ s.position ≤ next.position ∧
        next.remaining = (Operation.evalAll own s.remaining).2 ∧ (own = [] → next = s) := by
  intro own
  induction requests generalizing sessions s answers with
  | nil =>
    cases hserve
    exact ⟨rfl, s, hs, rfl, Nat.le_refl _, rfl, fun _ => rfl⟩
  | cons r rs ih =>
    obtain ⟨⟨first, middle⟩, hfirst, hrest⟩ := Option.bind_eq_some_iff.mp hserve
    obtain ⟨⟨later, final⟩, hlater, hboth⟩ := Option.map_eq_some_iff.mp hrest
    obtain ⟨rfl, rfl⟩ := Prod.mk.inj hboth
    rw [answersAt_append]
    -- a request elsewhere neither answers for this session nor touches it
    by_cases hplace : r.place = place
    · obtain ⟨hanswer, hmiddle⟩ := serve_self hs hplace hfirst
      obtain ⟨hanswers, next, hnext, htokens, hposition, hremaining, -⟩ := ih hmiddle hlater
      have hsuffix := Operation.eval_suffix r.operation s.remaining
      rw [remaining_leaving hsuffix] at hanswers hremaining
      have hown : own = r.operation :: operationsAt place rs := operationsAt_cons_self hplace rs
      rw [hown, Operation.evalAll, hanswer, hanswers]
      exact ⟨rfl, next, hnext, htokens, (position_le_leaving hsuffix).trans hposition, hremaining,
        fun hnil => absurd hnil (List.cons_ne_nil _ _)⟩
    · obtain ⟨hanswer, hmiddle⟩ := serve_ne hs hplace hfirst
      have hown : own = operationsAt place rs := operationsAt_cons_ne hplace rs
      rw [hanswer, hown]
      exact ih hmiddle hlater

/--
Requests are served to the last one if every sum of a position and a count is a word; the first sum
that is none stops them all.
-/
theorem serveAll_isSome (requests : List Request) (sessions : List Session) :
    (serveAll requests sessions).isSome = fitAll requests sessions := by
  induction requests generalizing sessions with
  | nil => rfl
  | cons r rs ih =>
    rw [serveAll, fitAll, ← serve_isSome]
    cases r.serve sessions with
    | none => rfl
    | some first =>
      rw [Option.bind_some, Option.isSome_map, ih, Option.all_some]
      rfl

/-- At the second token of `.a`, the greatest count stops the program. -/
example :
    serveAll [⟨0, .advance 1⟩, ⟨0, .advance 18446744073709551615⟩]
      [new [.delim '.', .word "a"]] = none := rfl

/-- A window joins the sessions behind all others, and the one it is taken from stays as it is. -/
lemma serve_window (hs : sessions[place]? = some s) (hfit : s.fits count) :
    serve ⟨place, .window count⟩ sessions =
      some ([(place, .window (new (s.remaining.take count.toNat)))],
        sessions ++ [new (s.remaining.take count.toNat)]) := by
  obtain ⟨hlt, rfl⟩ := List.getElem?_eq_some_iff.mp hs
  rw [serve, hs]
  simp only [Operation.perform, window?_eq, hfit, if_true, Option.map_some, List.set_getElem_self]
  rfl

/-- A window answers as its own tokens tell, and requests to it do not move the outer session. -/
lemma serveAll_window (hs : sessions[place]? = some s) (hfit : s.fits count)
    (hserve : serveAll (⟨place, .window count⟩ :: requests) sessions = some (answers, last)) :
    answersAt sessions.length answers =
        (Operation.evalAll (operationsAt sessions.length requests)
          (s.remaining.take count.toNat)).1 ∧
      (∃ w, last[sessions.length]? = some w ∧ w.tokens = s.remaining.take count.toNat) ∧
      (operationsAt place requests = [] → last[place]? = some s) := by
  obtain ⟨hlt, -⟩ := List.getElem?_eq_some_iff.mp hs
  have houter : (sessions ++ [new (s.remaining.take count.toNat)])[place]? = some s := by
    rw [List.getElem?_append_left hlt, hs]
  rw [serveAll, serve_window hs hfit, Option.bind_some] at hserve
  obtain ⟨⟨later, final⟩, hlater, hboth⟩ := Option.map_eq_some_iff.mp hserve
  obtain ⟨rfl, rfl⟩ := Prod.mk.inj hboth
  obtain ⟨hanswers, w, hw, htokens, -⟩ := serveAll_at List.getElem?_concat_length hlater
  obtain ⟨-, next, hnext, -, -, -, hidle⟩ := serveAll_at houter hlater
  have hfirst (answer : Answer) : answersAt sessions.length [(place, answer)] = [] := by
    simp [answersAt, hlt.ne]
  rw [answersAt_append, hfirst, List.nil_append]
  exact ⟨hanswers, ⟨w, hw, htokens⟩, fun hown => hnext.trans (congrArg some (hidle hown))⟩

/--
`s` stands at a place among the sessions. Requests are all served if every sum of a position and a
count is a word, and only then: `s` answers its own as its remaining tokens tell, and it goes
neither back nor past the end of its tokens; if it reads none of them, it passes as many as its
counts add up to, or all. What is searched for is found at the first of the remaining tokens that
passes the test. The token a count further is the remaining token of this number, and a window is a
new session on that many of the remaining tokens, or on all: its tokens alone tell what it will
answer, and what is requested of it, or of others, does not move `s`.
-/
theorem serveAll_forward (hs : sessions[place]? = some s) :
    (∀ requests, (serveAll requests sessions).isSome = fitAll requests sessions) ∧
    (∀ requests, fitAll requests sessions = true →
      ∃ answers last, serveAll requests sessions = some (answers, last) ∧
        let own := operationsAt place requests
        answersAt place answers = (Operation.evalAll own s.remaining).1 ∧
        ∃ next, last[place]? = some next ∧ next.tokens = s.tokens ∧
          s.position ≤ next.position ∧ next.position ≤ s.tokens.length ∧
          next.remaining = (Operation.evalAll own s.remaining).2 ∧
          ∀ counts : List Nat, own.map Operation.count? = counts.map some →
            next.remaining = s.remaining.drop (min counts.sum s.length)) ∧
    (∀ test,
      (∀ n, s.find? test = some n ↔ (∃ t, s.remaining[n]? = some t ∧ test t = true) ∧
        ∀ m < n, ∀ t, s.remaining[m]? = some t → test t = false) ∧
      (s.find? test = none ↔ ∀ t ∈ s.remaining, test t = false)) ∧
    ∀ count, s.fits count = true →
      s.peekNth? count = some s.remaining[count.toNat]? ∧
      s.window? count = some (new (s.remaining.take (min count.toNat s.length))) ∧
      ∀ requests, fitAll (⟨place, .window count⟩ :: requests) sessions = true →
        ∃ answers last,
          serveAll (⟨place, .window count⟩ :: requests) sessions = some (answers, last) ∧
          answersAt sessions.length answers =
            (Operation.evalAll (operationsAt sessions.length requests)
              (s.remaining.take count.toNat)).1 ∧
          (∃ w, last[sessions.length]? = some w ∧ w.tokens = s.remaining.take count.toNat) ∧
          (operationsAt place requests = [] → last[place]? = some s) := by
  -- that all sums are words is what lets every request be answered
  have hserved {requests : List Request} (hfits : fitAll requests sessions = true) :
      ∃ answers last, serveAll requests sessions = some (answers, last) := by
    rw [← serveAll_isSome, Option.isSome_iff_exists] at hfits
    obtain ⟨⟨answers, last⟩, hserve⟩ := hfits
    exact ⟨answers, last, hserve⟩
  refine ⟨fun requests => serveAll_isSome requests sessions, fun requests hfits => ?_,
    fun test => ⟨fun n => find?_eq_some_iff, List.findIdx?_eq_none_iff⟩,
    fun count hfit => ⟨?_, ?_, fun requests hfits => ?_⟩⟩
  · obtain ⟨answers, last, hserve⟩ := hserved hfits
    obtain ⟨hanswers, next, hnext, htokens, hposition, hremaining, -⟩ := serveAll_at hs hserve
    refine ⟨answers, last, hserve, hanswers, next, hnext, htokens, hposition,
      htokens ▸ next.position_le, hremaining, fun counts hcounts => ?_⟩
    rw [hremaining, Operation.evalAll_drop hcounts, ← length_remaining]
    exact List.drop_eq_drop_min
  · rw [peekNth?_eq, if_pos hfit]
  · rw [window?_eq, if_pos hfit, ← length_remaining, ← List.take_eq_take_min]
  · obtain ⟨answers, last, hserve⟩ := hserved hfits
    exact ⟨answers, last, hserve, serveAll_window hs hfit hserve⟩

/-- A window of `.a.b[` is read while the outer session goes to the end by a count close to 2^64. -/
theorem serveAll_forward_beside_window :
    let ts : List Token := [.delim '.', .word "a", .delim '.', .word "b", .delim '[']
    let requests : List Request := [⟨0, .advance 2⟩, ⟨0, .window 2⟩, ⟨1, .readRun⟩,
      ⟨0, .advance 18446744073709551613⟩, ⟨1, .peek⟩]
    let others : List Request := [⟨1, .advance 18446744073709551615⟩, ⟨1, .peekNth 0⟩]
    [new ts][0]? = some (new ts) ∧ fitAll requests [new ts] = true ∧
      (new ts).fits 4 = true ∧ fitAll (⟨0, .window 4⟩ :: others) [new ts] = true ∧
      (∃ answers last, serveAll requests [new ts] = some (answers, last) ∧
        answersAt 0 answers = [.moved, .window (new [.delim '.', .word "b"]), .moved] ∧
        ∃ next, last[0]? = some next ∧ next.remaining = []) ∧
      ∃ answers last, serveAll (⟨0, .window 4⟩ :: others) [new ts] = some (answers, last) ∧
        answersAt 1 answers = [.moved, .token none] ∧ last[0]? = some (new ts) := by
  intro ts requests others
  have hs : [new ts][0]? = some (new ts) := rfl
  have hfits : fitAll requests [new ts] = true := by decide
  have hfit : (new ts).fits 4 = true := by decide
  have hothers : fitAll (⟨0, .window 4⟩ :: others) [new ts] = true := by decide
  obtain ⟨-, hrun, -, hcounts⟩ := serveAll_forward hs
  obtain ⟨answers, last, hserve, hanswers, next, hnext, -, -, -, -, hpassed⟩ := hrun requests hfits
  obtain ⟨-, -, hwindow⟩ := hcounts 4 hfit
  obtain ⟨inner, final, hboth, hinner, -, houter⟩ := hwindow others hothers
  exact ⟨hs, hfits, hfit, hothers,
    ⟨answers, last, hserve, hanswers, next, hnext, hpassed [2, 0, 18446744073709551613] rfl⟩,
    inner, final, hboth, hinner, houter rfl⟩

end Request

/-! ### Calls -/

/-- Up to a remaining token every sum is a word, where a word can count the tokens. -/
lemma fits_of_lt (hlength : s.tokens.length < UInt64.size) (hn : n < s.remaining.length) :
    (UInt64.ofNat n).toNat = n ∧ s.fits (.ofNat n) := by
  have hposition := s.position_le
  rw [length_remaining, length] at hn
  have hword : n < UInt64.size := by omega
  have hcount := UInt64.toNat_ofNat_of_lt' hword
  refine ⟨hcount, decide_eq_true ?_⟩
  rw [hcount]
  omega

/-- The remaining tokens are cut at the first closing parenthesis that is found among them. -/
lemma splitAtClose?_of_find? (h : s.find? (· = .delim ')') = some n) :
    Function.splitAtClose? s.remaining = some (s.remaining.take n, s.remaining.drop n) := by
  obtain ⟨⟨t, ht, hclose⟩, hbefore⟩ := find?_eq_some_iff.mp h
  obtain ⟨hn, rfl⟩ := List.getElem?_eq_some_iff.mp ht
  have hsplit := (List.take_append_drop n s.remaining).symm
  refine Function.splitAtClose?_eq_some_iff.mpr ⟨fun hmem => ?_, hsplit, ?_⟩
  · obtain ⟨m, hm, hget⟩ := List.mem_take_iff_getElem.mp hmem
    obtain ⟨hmn, hmlength⟩ := lt_min_iff.mp hm
    exact of_decide_eq_false (hbefore m hmn _ (List.getElem?_eq_getElem hmlength)) hget
  · rw [List.drop_eq_getElem_cons hn, of_decide_eq_true hclose]
    exact ⟨_, rfl⟩

lemma splitAtClose?_of_find?_eq_none (h : s.find? (· = .delim ')') = none) :
    Function.splitAtClose? s.remaining = none := by
  cases hsplit : Function.splitAtClose? s.remaining with
  | none => rfl
  | some parts =>
    obtain ⟨-, hremaining, us, hrest⟩ := Function.splitAtClose?_eq_some_iff.mp hsplit
    have hmem : .delim ')' ∈ s.remaining := by
      rw [hremaining, hrest]
      exact List.mem_append_cons_self
    exact absurd rfl (of_decide_eq_false (List.findIdx?_eq_none_iff.mp h _ hmem))

/--
A call looks for the closing parenthesis, reads its argument in a window up to there, and moves on
to the parenthesis once it has read it. Neither the window nor the move overflows.
-/
theorem apply_select_eq (hlength : s.tokens.length < UInt64.size) (cursor : Cursor) :
    (s.find? (· = .delim ')') = none →
      s.apply "select" cursor = (.error .unterminatedCall, s)) ∧
    ∀ n, s.find? (· = .delim ')') = some n →
      ∃ w next, s.window? (.ofNat n) = some w ∧ s.advance? (.ofNat n) = some next ∧
        s.apply "select" cursor =
          match w.readPredicate.1 with
          | .error e      => (.error e, s)
          | .ok predicate => (.ok (cursor.select predicate), next) := by
  have hname : Function.ofName "select" = .select := rfl
  rw [apply, Function.apply, hname]
  refine ⟨fun hfind => ?_, fun n hfind => ?_⟩
  · rw [splitAtClose?_of_find?_eq_none hfind]
  · obtain ⟨⟨t, ht, -⟩, -⟩ := find?_eq_some_iff.mp hfind
    obtain ⟨hn, -⟩ := List.getElem?_eq_some_iff.mp ht
    obtain ⟨hcount, hfit⟩ := fits_of_lt hlength hn
    refine ⟨new (s.remaining.take n), s.leaving (s.remaining.drop n), ?_, ?_, ?_⟩
    · rw [window?_eq, if_pos hfit, hcount]
    · rw [advance?_eq, if_pos hfit, hcount]
    · have hread : (new (s.remaining.take n)).readPredicate.1 =
          (Predicate.read (s.remaining.take n)).1 := rfl
      simp only [splitAtClose?_of_find? hfind, hread]
      cases (Predicate.read (s.remaining.take n)).1 with
      | error e => rfl
      | ok predicate => rfl

end YamlSieve.Session
