import Reckon.Proofs.Session.Actions
import Reckon.Proofs.Session.Signals
import Reckon.Proofs.Session.Stack
import Reckon.Service.Calculator

/-!
# The books of a calculator

A calculator is called again and again, and all it remembers are its board and the number of draws
that were taken. `Calculator.visits` lists what became of each call. At standard precision a call
that is not blank leaves one record unless it exhausts the stack (`Calculator.kept_calculate`), and
those that came to a random number are added up for their clients, each client's numbers by
themselves (`Calculator.visits_books`).

A call that exhausts the stack ends with a signal and leaves no record, and the settings do not keep
a client from making one (`Calculator.exists_unrecorded`).
-/

namespace Reckon

/-! ## The board -/

namespace Double

/-- The lesser of two doubles; the first one unless the second one is less. -/
def lesser (x y : Double) : Double := if y.less x then y else x

/-- The greater of two doubles; the first one unless it is less. -/
def greater (x y : Double) : Double := if x.less y then y else x

end Double

namespace Entry

/-- An aggregate with more results, one after the other. -/
def addAll (e : Entry) (draws : List (Double × Text)) : Entry :=
  draws.foldl (fun e d => e.add d.1 d.2) e

/-- The aggregate of a client with one more result, which may be its first. -/
def joined (client : Text) (x : Double) (t : Text) : Option Entry → Entry
  | none => first client x t
  | some e => e.add x t

/-- The aggregate of the results of a client, if there are any. -/
def ofDraws (client : Text) : List (Double × Text) → Option Entry
  | [] => none
  | d :: rest => some ((Entry.first client d.1 d.2).addAll rest)

variable (e : Entry) (draws : List (Double × Text))

theorem count_addAll : (e.addAll draws).count = e.count + draws.length := by
  induction draws generalizing e with
  | nil => rfl
  | cons d draws ih =>
    have hcount : (e.add d.1 d.2).count = e.count + 1 := rfl
    rw [addAll, List.foldl_cons, ← addAll, ih, hcount, List.length_cons]
    omega

theorem total_addAll :
    (e.addAll draws).total = (draws.map Prod.fst).foldl Double.add e.total := by
  induction draws generalizing e with
  | nil => rfl
  | cons d draws ih => exact ih (e.add d.1 d.2)

theorem least_addAll :
    (e.addAll draws).least = (draws.map Prod.fst).foldl Double.lesser e.least := by
  induction draws generalizing e with
  | nil => rfl
  | cons d draws ih => exact ih (e.add d.1 d.2)

theorem greatest_addAll :
    (e.addAll draws).greatest = (draws.map Prod.fst).foldl Double.greater e.greatest := by
  induction draws generalizing e with
  | nil => rfl
  | cons d draws ih => exact ih (e.add d.1 d.2)

/-- One more result is added to the aggregate, or begins one. -/
theorem ofDraws_append_singleton (client : Text) (d : Double × Text) :
    ofDraws client (draws ++ [d]) = some (joined client d.1 d.2 (ofDraws client draws)) := by
  cases draws with
  | nil => rfl
  | cons d' draws =>
    rw [List.cons_append, ofDraws, ofDraws, addAll, List.foldl_append]
    rfl

end Entry

namespace Board

variable (b : Board) (client : Text) (x : Double) (t : Text)

/-- A result is added to the aggregate of its client, or begins one. -/
theorem entry_draw_self :
    Board.entry? (b.draw client x t) client =
      some (Entry.joined client x t <| b.entry? client) := by
  obtain ⟨history, entries⟩ := b
  unfold draw entry?
  induction entries with
  | nil => simp [drawInto, Entry.joined, Entry.first]
  | cons e rest ih =>
    rw [drawInto]
    by_cases he : e.client = client
    · simp [he, Entry.joined, Entry.add]
    · have hne : (e.client == client) = false := beq_eq_false_iff_ne.2 he
      simp only [if_neg he, List.find?_cons, hne]
      exact ih

/-- No other aggregate changes. -/
theorem entry_draw_of_ne {d : Text} (h : client ≠ d) :
    Board.entry? (b.draw client x t) d = b.entry? d := by
  obtain ⟨history, entries⟩ := b
  unfold draw entry?
  have hne : (client == d) = false := beq_eq_false_iff_ne.2 h
  induction entries with
  | nil => simp [drawInto, Entry.first, hne]
  | cons e rest ih =>
    rw [drawInto]
    split
    · rename_i he
      subst he
      have hadd : (e.add x t).client = e.client := rfl
      simp only [List.find?_cons, hadd, hne]
    · simp only at ih
      simp only [List.find?_cons, ih]

end Board

/-! ## Calls and what became of them -/

/-- What a client asks for. -/
structure Call where
  /-- The expression. -/
  expression : Text
  /-- The client. -/
  client : Text
  deriving DecidableEq, Repr

/-- A call with the desk before it and what became of it. -/
structure Visit where
  /-- The call. -/
  call : Call
  /-- The desk before it. -/
  before : Desk
  /-- What became of it. -/
  calculation : Calculation

namespace Calculator

variable (stack : ℕ) (c : Calculator)

/-- Calls one after the other, each at the desk that the one before it left. -/
def visits : Desk → List Call → List Visit
  | _, [] => []
  | desk, call :: rest =>
    let calculation := c.calculateOn stack desk call.expression call.client
    ⟨call, desk, calculation⟩ :: visits calculation.desk rest

/-- The desk behind the calls. -/
def deskAfter (desk : Desk) (calls : List Call) : Desk :=
  calls.foldl (fun desk call => (c.calculateOn stack desk call.expression call.client).desk) desk

end Calculator

namespace Visit

variable (stack : ℕ) (c : Calculator) (v : Visit)

/-- The client is told that the result counts for the leaderboard. -/
def IsRanked : Prop := ∃ value, v.calculation.outcome = .ok (.success value true)

/-- The record that the call leaves, if it is not blank and the client is told something : the
result that the client is told, or the marker of failures. -/
def record? : Option Record :=
  if v.call.expression.isBlank then none
  else
    match v.calculation.outcome with
    | .ok (.success value _) => some ⟨v.call.client, v.call.expression, value⟩
    | .ok (.failure ..) => some ⟨v.call.client, v.call.expression, c.settings.failureMarker⟩
    | .error _ => none

/-- The evaluation of the expression. -/
def evaluation : Except Failure Answer × Session :=
  answerOn stack c.rules v.call.expression { drawn := v.before.drawn }

/-- The expression is evaluated and exhausts the stack. -/
def Exhausts : Prop :=
  v.call.expression.isBlank = false ∧
    v.call.expression.Exhausts stack c.rules { drawn := v.before.drawn }

/-- The random number that the call came to, if it succeeds with a number and called `rand`. -/
def draw? : Option Double :=
  if v.call.expression.isBlank then none
  else
    match v.evaluation stack c with
    | (.ok ⟨.number r _ _, _⟩, s) =>
      if Calculator.randomName ∈ s.called then some (Double.ofDecimal r) else none
    | _ => none

/-- The results of a client that count, with their expressions. -/
def drawsOf (client : Text) (visits : List Visit) : List (Double × Text) :=
  (visits.filter fun v => v.call.client = client).filterMap fun v =>
    (v.draw? stack c).map fun x => (x, v.call.expression)

theorem drawsOf_cons (client : Text) (vs : List Visit) :
    drawsOf stack c client (v :: vs) =
      drawsOf stack c client [v] ++ drawsOf stack c client vs := by
  rw [drawsOf, ← List.singleton_append, List.filter_append, List.filterMap_append]
  rfl

/-- A call comes to a random number if it succeeds with a number and one of the statements that are
executed calls `rand`. -/
theorem draw?_eq_some_iff {x : Double} : v.draw? stack c = some x ↔
    v.call.expression.isBlank = false ∧ ∃ r i k t,
      (v.evaluation stack c).1 = .ok ⟨.number r i k, t⟩ ∧ x = Double.ofDecimal r ∧
      ∃ st ∈ Statement.executed c.rules.limits v.call.expression.sources,
        Calculator.randomName ∈ st.expression.calls := by
  have hcalled : ∀ {a s}, v.evaluation stack c = (.ok a, s) → (Calculator.randomName ∈ s.called ↔
      ∃ st ∈ Statement.executed c.rules.limits v.call.expression.sources,
        Calculator.randomName ∈ st.expression.calls) := by
    intro a s h
    rw [answer_called (answer_of_answerOn h), mem_foldl_addName, List.mem_flatMap]
    exact or_iff_right List.not_mem_nil
  unfold draw?
  by_cases hblank : v.call.expression.isBlank = true
  · simp [hblank]
  rw [if_neg hblank]
  rcases hx : v.evaluation stack c with ⟨f | ⟨⟨r, i, k⟩ | u, t⟩, s⟩
  · simp
  · simp only [← hcalled hx]
    constructor
    · intro h
      split at h
      · rename_i hrand
        exact ⟨Bool.eq_false_of_not_eq_true hblank, r, i, k, t, rfl, (Option.some.inj h).symm,
          hrand⟩
      · cases h
    · rintro ⟨-, _, _, _, _, ⟨⟩, rfl, hrand⟩
      rw [if_pos hrand]
  · simp

end Visit

/-! ## One call -/

namespace Calculator

variable {stack : ℕ} {c : Calculator}

/-- What a call does to the books. -/
structure Kept (stack : ℕ) (c : Calculator) (v : Visit) : Prop where
  /-- A blank call is refused and changes nothing. -/
  blank : v.call.expression.isBlank = true →
    v.calculation = ⟨.ok (.failure blankMessage none), v.before, []⟩
  /-- The client is told something, unless the call exhausts the stack. -/
  ended : (v.Exhausts stack c ∧ v.calculation.outcome = .error .stackExhausted) ∨
    (¬v.Exhausts stack c ∧ ∃ response, v.calculation.outcome = .ok response)
  /-- A result counts if it is a random number. -/
  ranked : v.IsRanked ↔ ∃ x, v.draw? stack c = some x
  /-- The call leaves its record. -/
  history : v.calculation.desk.board.history = v.before.board.history ++ (v.record? c).toList
  /-- A random number is added up for its client. -/
  entries : ∀ client, v.calculation.desk.board.entry? client =
    match v.draw? stack c with
    | none => v.before.board.entry? client
    | some x => Board.entry? (v.before.board.draw v.call.client x v.call.expression) client

/-- The random number of a call is one more result of its client. -/
theorem Kept.entry_eq {v : Visit} (h : Kept stack c v) {client : Text}
    {draws : List (Double × Text)}
    (hbefore : v.before.board.entry? client = Entry.ofDraws client draws) :
    v.calculation.desk.board.entry? client =
      Entry.ofDraws client (draws ++ Visit.drawsOf stack c client [v]) := by
  have hentry := h.entries client
  by_cases hclient : v.call.client = client
  · cases hdraw : v.draw? stack c with
    | none => simpa [hdraw, Visit.drawsOf, hclient, hbefore] using hentry
    | some x =>
      have hdraws : Visit.drawsOf stack c client [v] = [(x, v.call.expression)] := by
        simp [Visit.drawsOf, hclient, hdraw]
      rw [hdraws, Entry.ofDraws_append_singleton, ← hbefore, hentry, hdraw]
      simp only [hclient, Board.entry_draw_self]
  · have hdraws : Visit.drawsOf stack c client [v] = [] := by simp [Visit.drawsOf, hclient]
    rw [hdraws, List.append_nil, ← hbefore, hentry]
    split
    · rfl
    · exact Board.entry_draw_of_ne _ _ _ _ hclient

/-- A call leaves no record if and only if it is blank or exhausts the stack. -/
theorem Kept.record?_eq_none_iff {v : Visit} (h : Kept stack c v) :
    v.record? c = none ↔ v.call.expression.isBlank = true ∨ v.Exhausts stack c := by
  unfold Visit.record?
  cases hblank : v.call.expression.isBlank with
  | true => simp
  | false =>
    rcases h.ended with ⟨hexhausts, houtcome⟩ | ⟨hfits, response, houtcome⟩
    · simp [houtcome, hexhausts]
    · cases response <;> simp [houtcome, hfits]

theorem recordDraw_eq (hsink : c.sink = .board) (b : Board) (client : Text) (x : Double)
    (t : Text) : (c.recordDraw b client x t).1 = b.draw client x t := by
  unfold recordDraw
  rw [hsink]
  simp only
  split <;> rfl

theorem record_eq (hsink : c.sink = .board) (b : Board) (r : Record) :
    c.record b r = b.record r := by
  rw [record, hsink]

/-- A call that is not blank ends as the evaluation of its expression does. -/
theorem calculateOn_eq {desk : Desk} {call : Call} (h : call.expression.isBlank = false) :
    c.calculateOn stack desk call.expression call.client =
      match answerOn stack c.rules call.expression { drawn := desk.drawn } with
      | (.ok a, s) => c.succeeded { desk with drawn := s.drawn } call.client call.expression
          s.journal a s.called
      | (.error (.report r), s) =>
        c.failed { desk with drawn := s.drawn } call.client call.expression s.journal r
      | (.error (.signal e), s) => ⟨.error e, { desk with drawn := s.drawn }, s.journal⟩ := by
  rw [calculateOn, h, if_neg Bool.false_ne_true]
  rcases answerOn stack c.rules call.expression { drawn := desk.drawn } with
    ⟨(r | e) | a, s⟩ <;> rfl

/-- A call that leaves its record, if it leaves one, and nothing else keeps the books. -/
theorem kept_of_unranked {v : Visit}
    (hblank : v.call.expression.isBlank = true →
      v.calculation = ⟨.ok (.failure blankMessage none), v.before, []⟩)
    (hended : (v.Exhausts stack c ∧ v.calculation.outcome = .error .stackExhausted) ∨
      (¬v.Exhausts stack c ∧ ∃ response, v.calculation.outcome = .ok response))
    (hranked : ¬v.IsRanked) (hdraw : v.draw? stack c = none)
    (hboard : v.calculation.desk.board =
      (v.record? c).toList.foldl Board.record v.before.board) : Kept stack c v where
  blank := hblank
  ended := hended
  ranked := by
    rw [hdraw]
    constructor
    · exact fun h => (hranked h).elim
    · rintro ⟨x, h⟩
      cases h
  history := by
    rw [hboard]
    cases v.record? c with
    | none => exact (List.append_nil _).symm
    | some r => rfl
  entries client := by
    rw [hdraw, hboard]
    cases v.record? c <;> rfl

/-- An answered call that leaves its record and nothing else keeps the books. -/
theorem kept_of_response {v : Visit} {response : Response}
    (hblank : v.call.expression.isBlank = false) (hfits : ¬v.Exhausts stack c)
    (houtcome : v.calculation.outcome = .ok response)
    (hresponse : ∀ value, response ≠ .success value true) (hdraw : v.draw? stack c = none)
    (hboard : v.calculation.desk.board =
      (v.record? c).toList.foldl Board.record v.before.board) : Kept stack c v := by
  refine kept_of_unranked (fun h => absurd h (by rw [hblank]; exact Bool.false_ne_true))
    (.inr ⟨hfits, _, houtcome⟩) ?_ hdraw hboard
  rintro ⟨value, h⟩
  exact hresponse value (Except.ok.inj (houtcome.symm.trans h))

/-- A call that leaves its record and a random number keeps the books. -/
theorem kept_of_ranked {v : Visit} {value : Text} {x : Double}
    (hblank : v.call.expression.isBlank = false) (hfits : ¬v.Exhausts stack c)
    (houtcome : v.calculation.outcome = .ok (.success value true))
    (hdraw : v.draw? stack c = some x)
    (hboard : v.calculation.desk.board =
      (v.before.board.record ⟨v.call.client, v.call.expression, value⟩).draw
        v.call.client x v.call.expression) : Kept stack c v where
  blank h := absurd h (by rw [hblank]; exact Bool.false_ne_true)
  ended := .inr ⟨hfits, _, houtcome⟩
  ranked := ⟨fun _ => ⟨x, hdraw⟩, fun _ => ⟨value, houtcome⟩⟩
  history := by
    rw [hboard, Visit.record?, hblank, houtcome]
    rfl
  entries client := by
    rw [hdraw, hboard]
    rfl

/-- A blank call keeps the books. -/
theorem kept_of_blank (desk : Desk) {call : Call} (h : call.expression.isBlank = true) :
    Kept stack c ⟨call, desk, c.calculateOn stack desk call.expression call.client⟩ := by
  have hcalculate : c.calculateOn stack desk call.expression call.client =
      ⟨.ok (.failure blankMessage none), desk, []⟩ := if_pos h
  rw [hcalculate]
  refine kept_of_unranked (fun _ => rfl) (.inr ⟨fun hexhausts => ?_, _, rfl⟩) ?_ (if_pos h) ?_
  · cases h.symm.trans hexhausts.1
  · rintro ⟨value, houtcome⟩
    cases houtcome
  · rw [Visit.record?, if_pos h]
    rfl

variable (hstack : 3 * c.rules.limits.nodes ≤ stack)
  (hprecision : c.settings.precision = .standard) (hsink : c.sink = .board)

include hstack hprecision hsink in
/-- Each call keeps the books. -/
theorem kept_calculate (desk : Desk) (call : Call) :
    Kept stack c ⟨call, desk, c.calculateOn stack desk call.expression call.client⟩ := by
  by_cases hblank : call.expression.isBlank = true
  · exact kept_of_blank desk hblank
  have hfilled := Bool.eq_false_of_not_eq_true hblank
  have hmoderate : call.expression.Moderate c.rules := fun hhigh => by
    rw [rules, hprecision] at hhigh
    cases hhigh
  have hreports := answer_reports hmoderate (s := { drawn := desk.drawn }) rfl
  have hdraw : ∀ calculation, Visit.draw? stack c ⟨call, desk, calculation⟩ =
      match answerOn stack c.rules call.expression { drawn := desk.drawn } with
      | (.ok ⟨.number r _ _, _⟩, s) =>
        if randomName ∈ s.called then some (Double.ofDecimal r) else none
      | _ => none := fun _ => if_neg hblank
  have hrecord : ∀ calculation, Visit.record? c ⟨call, desk, calculation⟩ = _ := fun _ =>
    if_neg hblank
  rw [calculateOn_eq hfilled]
  rcases answerOn_cases stack c.rules call.expression { drawn := desk.drawn } with
    ⟨hstrains, hsignal⟩ | ⟨hfits, hanswer⟩
  · rcases hx : answerOn stack c.rules call.expression { drawn := desk.drawn } with ⟨o, s⟩
    rw [hx] at hsignal hdraw
    obtain rfl : o = _ := hsignal
    have hexhausts := hstrains.exhausts hstack
    refine kept_of_unranked (fun h => (hblank h).elim) (.inl ⟨⟨hfilled, hexhausts⟩, rfl⟩) ?_
      (hdraw _) ?_
    · rintro ⟨value, houtcome⟩
      cases houtcome
    · rw [hrecord]
      rfl
  have hfits : ∀ calculation, ¬Visit.Exhausts stack c ⟨call, desk, calculation⟩ :=
    fun _ h => hfits h.2
  rw [hanswer] at hdraw ⊢
  rcases hx : answer c.rules call.expression { drawn := desk.drawn } with
    ⟨(r | e) | ⟨⟨r, i, k⟩ | u, t⟩, s⟩
  · rw [hx] at hdraw
    refine kept_of_response hfilled (hfits _) rfl (fun _ => nofun) (hdraw _) ?_
    rw [hrecord]
    exact record_eq hsink _ _
  · rw [hx] at hreports
    exact hreports.elim
  · rw [hx] at hdraw
    by_cases hrand : randomName ∈ s.called
    · simp only [succeeded, if_pos hrand]
      refine kept_of_ranked hfilled (hfits _) rfl ((hdraw _).trans (if_pos hrand)) ?_
      rw [recordDraw_eq hsink, record_eq hsink]
    · simp only [succeeded, if_neg hrand]
      refine kept_of_response hfilled (hfits _) rfl (fun _ => nofun)
        ((hdraw _).trans (if_neg hrand)) ?_
      rw [hrecord]
      exact record_eq hsink _ _
  · rw [hx] at hdraw
    refine kept_of_response hfilled (hfits _) rfl (fun _ => nofun) (hdraw _) ?_
    rw [hrecord]
    exact record_eq hsink _ _

/-! ## All calls -/

theorem map_call_visits : ∀ (calls : List Call) (desk : Desk),
    (c.visits stack desk calls).map Visit.call = calls
  | [], _ => rfl
  | call :: rest, _ => congrArg (call :: ·) (map_call_visits rest _)

include hstack hprecision hsink

theorem kept_visits : ∀ (calls : List Call) (desk : Desk),
    ∀ v ∈ c.visits stack desk calls, Kept stack c v
  | call :: rest, desk, v, hv => by
    rcases List.mem_cons.1 hv with rfl | hv
    · exact kept_calculate hstack hprecision hsink desk call
    · exact kept_visits rest _ v hv

/-- The history goes on with the records of the calls. -/
theorem history_deskAfter : ∀ (calls : List Call) (desk : Desk),
    (c.deskAfter stack desk calls).board.history = desk.board.history ++
      (c.visits stack desk calls).filterMap (Visit.record? c)
  | [], desk => (List.append_nil _).symm
  | call :: rest, desk => by
    have hkept := kept_calculate hstack hprecision hsink desk call
    rw [deskAfter, List.foldl_cons, ← deskAfter, history_deskAfter rest, hkept.history, visits,
      List.append_assoc, ← List.singleton_append, List.filterMap_append]
    rfl

/-- The aggregate of a client goes on with the random numbers of its calls. -/
theorem entry_deskAfter (client : Text) : ∀ (calls : List Call) (desk : Desk)
    (draws : List (Double × Text)), desk.board.entry? client = Entry.ofDraws client draws →
    Board.entry? (c.deskAfter stack desk calls).board client =
      Entry.ofDraws client (draws ++ Visit.drawsOf stack c client (c.visits stack desk calls))
  | [], desk, draws, h => by
    rw [visits, Visit.drawsOf, List.filter_nil, List.filterMap_nil, List.append_nil]
    exact h
  | call :: rest, desk, draws, h => by
    rw [deskAfter, List.foldl_cons, ← deskAfter, visits, Visit.drawsOf_cons, ← List.append_assoc]
    exact entry_deskAfter client rest _ _
      (Kept.entry_eq (kept_calculate hstack hprecision hsink desk call) h)

/-- The books of a calculator at standard precision with a board of its own, after any calls, and
with any functions, draws, limit and marker, on a stack with room for evaluating the greatest tree.
A call is answered unless it exhausts the stack, as no call does whose statements are not longer
than the stack is high. It counts for the leaderboard if it succeeds with a number and called `rand`;
a blank call changes nothing. The history has the records of the calls, in order, and a call has one
if it is not blank and does not exhaust the stack. The aggregate of a client is that of its own
random numbers, and there is none if there are no such numbers. -/
theorem visits_books (calls : List Call) :
    let visits := c.visits stack {} calls
    let board := (c.deskAfter stack {} calls).board
    visits.map Visit.call = calls ∧
    board.history = visits.filterMap (Visit.record? c) ∧
    (∀ v ∈ visits,
      ((∃ response, v.calculation.outcome = .ok response) ↔ ¬v.Exhausts stack c) ∧
      (v.Exhausts stack c → v.calculation.outcome = .error .stackExhausted) ∧
      ((∀ source ∈ v.call.expression.sources, source.length ≤ stack) → ¬v.Exhausts stack c) ∧
      (v.record? c = none ↔ v.call.expression.isBlank = true ∨ v.Exhausts stack c) ∧
      (v.call.expression.isBlank = true →
        v.calculation = ⟨.ok (.failure blankMessage none), v.before, []⟩) ∧
      (v.IsRanked ↔ ∃ x, v.draw? stack c = some x) ∧
      ∀ x, v.draw? stack c = some x ↔ v.call.expression.isBlank = false ∧ ∃ r i k t,
        (v.evaluation stack c).1 = .ok ⟨.number r i k, t⟩ ∧ x = Double.ofDecimal r ∧
        ∃ st ∈ Statement.executed c.rules.limits v.call.expression.sources,
          randomName ∈ st.expression.calls) ∧
    ∀ client, match Visit.drawsOf stack c client visits with
      | [] => board.entry? client = none
      | d :: rest => ∃ e, board.entry? client = some e ∧ e.count = rest.length + 1 ∧
        e.total = (rest.map Prod.fst).foldl Double.add d.1 ∧
        e.least = (rest.map Prod.fst).foldl Double.lesser d.1 ∧
        e.greatest = (rest.map Prod.fst).foldl Double.greater d.1 := by
  intro visits board
  refine ⟨map_call_visits calls {}, history_deskAfter hstack hprecision hsink calls {},
    fun v hv => ?_, fun client => ?_⟩
  · have hkept := kept_visits hstack hprecision hsink calls {} v hv
    have hanswered : (∃ response, v.calculation.outcome = .ok response) ↔
        ¬v.Exhausts stack c := by
      rcases hkept.ended with ⟨hexhausts, houtcome⟩ | ⟨hfits, hanswered⟩
      · simp [houtcome, hexhausts]
      · exact iff_of_true hanswered hfits
    have hsignal : v.Exhausts stack c → v.calculation.outcome = .error .stackExhausted :=
      fun hexhausts => (hkept.ended.resolve_right fun h => h.1 hexhausts).2
    have hshort : (∀ source ∈ v.call.expression.sources, source.length ≤ stack) →
        ¬v.Exhausts stack c := by
      have hdepth : c.rules.limits.depth = 32 := rfl
      have hnodes : c.rules.limits.nodes = 256 := rfl
      exact fun hlength h => Text.not_exhausts (by omega) (by omega) hlength h.2
    exact ⟨hanswered, hsignal, hshort,
      hkept.record?_eq_none_iff, hkept.blank, hkept.ranked, fun x => v.draw?_eq_some_iff stack c⟩
  · have hentry : board.entry? client =
        Entry.ofDraws client (Visit.drawsOf stack c client visits) :=
      entry_deskAfter hstack hprecision hsink client calls {} [] rfl
    split
    · rename_i hdraws
      rw [hentry, hdraws]
      rfl
    · rename_i d rest hdraws
      rw [hdraws] at hentry
      refine ⟨_, hentry, ?_, Entry.total_addAll _ _, Entry.least_addAll _ _,
        Entry.greatest_addAll _ _⟩
      rw [Entry.count_addAll, Nat.add_comm]
      rfl

omit hstack hprecision hsink

attribute [local instance] Library.rounded

/-- Of five calls by two clients one is blank and one fails after a draw; the first client has two
results that count. -/
theorem visits_books_clients :
    let c : Calculator := ⟨{}, .board, .standard, fun _ => .one⟩
    let calls : List Call := [⟨" ", "a"⟩, ⟨"rand()", "a"⟩, ⟨"rand()/0", "a"⟩, ⟨"rand()", "b"⟩,
      ⟨"x=rand();x*2", "a"⟩]
    (3 * c.rules.limits.nodes ≤ usualStack ∧ c.settings.precision = .standard ∧
        c.sink = .board) ∧
      ∃ e, Board.entry? (c.deskAfter usualStack {} calls).board "a" = some e ∧ e.count = 2 ∧
        e.total = Double.one.add (Double.one.add .one) := by
  intro c calls
  have hdraws : Visit.drawsOf usualStack c "a" (c.visits usualStack {} calls) =
      [(.one, Text.ofString "rand()"),
        (Double.one.add .one, Text.ofString "x=rand();x*2")] := by decide +kernel
  have hstack : 3 * c.rules.limits.nodes ≤ usualStack := by decide
  have h := (visits_books (c := c) hstack rfl rfl calls).2.2.2 "a"
  rw [hdraws] at h
  obtain ⟨e, hentry, hcount, htotal, -⟩ := h
  simp only [List.map_cons, List.map_nil, List.foldl_cons, List.foldl_nil] at htotal
  exact ⟨⟨hstack, rfl, rfl⟩, e, hentry, hcount, htotal⟩

/-- A call can leave no record though its expression is not blank : a sum of ones exhausts the usual
stack within the usual limits. -/
theorem exists_unrecorded : ¬∀ (c : Calculator) (calls : List Call),
    c.settings.precision = .standard → c.sink = .board →
    (c.deskAfter usualStack {} calls).board.history.map Record.expression =
      (calls.map Call.expression).filter fun t => !t.isBlank := by
  intro h
  let c : Calculator := ⟨{}, .board, .standard, fun _ => .one⟩
  let call : Call := ⟨Text.sum 1000, "a"⟩
  have hfilled : call.expression.isBlank = false := rfl
  have hexhausts : call.expression.Exhausts usualStack c.rules { drawn := 0 } :=
    Text.exhausts_sum (by decide) (by rw [Text.length_sum]; decide) (by decide)
  have hhistory := h c [call] rfl rfl
  have hstack : 3 * c.rules.limits.nodes ≤ usualStack := by decide
  have hkept := kept_calculate hstack rfl rfl {} call
  have hrecord := hkept.record?_eq_none_iff.2 (.inr ⟨hfilled, hexhausts⟩)
  have hvisits : c.visits usualStack {} [call] =
      [⟨call, {}, c.calculateOn usualStack {} call.expression call.client⟩] := rfl
  rw [history_deskAfter hstack rfl rfl [call] {}, hvisits, List.filterMap_cons_none hrecord,
    List.map_singleton, List.filter_singleton, hfilled] at hhistory
  cases hhistory

end Calculator

end Reckon
