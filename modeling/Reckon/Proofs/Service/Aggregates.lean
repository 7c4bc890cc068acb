import Reckon.Proofs.Service.Bookkeeping

/-!
# Aggregates of random results

Random results of many clients arrive one after the other. Each of them touches the aggregate of
its own client only, so an aggregate depends on the results of its client alone
(`Board.entry_drawAll`). `Entry.Aggregates` says what it holds of them : their number, their sum,
and the earliest of the least and of the greatest ones. One more result keeps this
(`Entry.Aggregates.add`), and so do all of them (`Board.drawAll_aggregates`).
-/

namespace Reckon

/-- A random result : who asked, the number, and what was asked. -/
structure Draw where
  /-- The client. -/
  client : Text
  /-- The number. -/
  value : Double
  /-- The expression. -/
  expression : Text
  deriving DecidableEq, Repr

namespace Double

/-- `x` is at most `y`. A missing number is not at most anything nor anything at most it. -/
def atMost (x y : Double) : Bool :=
  match x.key, y.key with
  | some a, some b => decide (a ≤ b)
  | _, _ => false

/-- `x` is at least `y`. -/
def atLeast (x y : Double) : Bool := y.atMost x

/-- The sum from left to right. -/
def addUp : List Double → Double
  | [] => zero false
  | x :: rest => rest.foldl add x

theorem addUp_append_singleton {l : List Double} (h : l ≠ []) (x : Double) :
    addUp (l ++ [x]) = (addUp l).add x := by
  cases l with
  | nil => exact absurd rfl h
  | cons y rest => exact List.foldl_append

variable {x y z : Double}

theorem exists_key (h : x.isNumber) : ∃ a, x.key = some a := Option.isSome_iff_exists.1 h

theorem atMost_eq {a b : Int} (hx : x.key = some a) (hy : y.key = some b) :
    x.atMost y = decide (a ≤ b) := by
  rw [atMost, hx, hy]

/-- Of two numbers one is at most the other. -/
theorem atMost_total (hx : x.isNumber) (hy : y.isNumber) : x.atMost y ∨ y.atMost x := by
  obtain ⟨a, ha⟩ := exists_key hx
  obtain ⟨b, hb⟩ := exists_key hy
  rw [atMost_eq ha hb, atMost_eq hb ha, decide_eq_true_iff, decide_eq_true_iff]
  exact le_total a b

theorem atMost_trans (hxy : x.atMost y) (hyz : y.atMost z) : x.atMost z := by
  unfold atMost at *
  split at hxy
  · rename_i a b hx hy
    rw [hy] at hyz
    rw [hx]
    split at hyz
    · rename_i c hc hz
      rw [hz]
      cases hc
      exact decide_eq_true ((of_decide_eq_true hxy).trans (of_decide_eq_true hyz))
    · cases hyz
  · cases hxy

/-- Of two numbers one is less unless the other is at most it. -/
theorem less_eq_not_atMost (hx : x.isNumber) (hy : y.isNumber) : x.less y = !y.atMost x := by
  obtain ⟨a, ha⟩ := exists_key hx
  obtain ⟨b, hb⟩ := exists_key hy
  rw [atMost_eq hb ha, less, ha, hb, Bool.eq_iff_iff]
  simp

end Double

/-! ## The earliest of the foremost results -/

namespace Draw

/-- The earliest result that comes before all of them by its value. -/
def earliest (before : Double → Double → Bool) (draws : List Draw) : Option Draw :=
  draws.find? fun d => draws.all fun o => before d.value o.value

variable {before : Double → Double → Bool}

/-- One more result is the earliest of the foremost ones only if the one so far does not come before
it. -/
theorem earliest_append_singleton {draws : List Draw} {d o : Draw}
    (h : earliest before draws = some d) (htrans : ∀ x y z, before x y → before y z → before x z)
    (htotal : before d.value o.value ∨ before o.value d.value) (hself : before o.value o.value) :
    earliest before (draws ++ [o]) = some (if before d.value o.value then d else o) := by
  obtain ⟨hfirst, pre, post, rfl, hpre⟩ := List.find?_eq_some_iff_append.1 h
  have hfirst : ∀ p ∈ pre ++ d :: post, before d.value p.value := List.all_eq_true.1 hfirst
  have hpre : ∀ p ∈ pre, ((pre ++ d :: post).all fun o => before p.value o.value) = false :=
    fun p hp => Bool.not_eq_eq_eq_not.1 (hpre p hp)
  rw [earliest, List.find?_eq_some_iff_append]
  by_cases hd : before d.value o.value
  · rw [if_pos hd, List.all_append, List.all_eq_true.2 hfirst]
    refine ⟨by simp [hd], pre, post ++ [o], by simp, fun p hp => ?_⟩
    rw [List.all_append, hpre p hp]
    rfl
  · rw [if_neg hd]
    have hod : before o.value d.value := htotal.resolve_left hd
    refine ⟨List.all_eq_true.2 fun p hp => ?_, pre ++ d :: post, [], by simp, fun p hp => ?_⟩
    · rcases List.mem_append.1 hp with hp | hp
      · exact htrans _ _ _ hod (hfirst p hp)
      · rw [List.mem_singleton.1 hp]
        exact hself
    · have hpo : ¬ before p.value o.value := fun hpo => hd (htrans _ _ _ (hfirst p hp) hpo)
      simp [List.all_append, hpo]

end Draw

/-! ## One aggregate -/

namespace Entry

/-- What an aggregate holds of the results of its client. -/
structure Aggregates (e : Entry) (client : Text) (own : List Draw) : Prop where
  /-- The client. -/
  client_eq : e.client = client
  /-- The number of results. -/
  count_eq : e.count = own.length
  /-- Their sum from left to right. -/
  total_eq : e.total = Double.addUp (own.map Draw.value)
  /-- The earliest of the results that are at most all of them. -/
  least_eq : ∃ d, Draw.earliest Double.atMost own = some d ∧ e.least = d.value ∧
    e.leastExpression = d.expression
  /-- The earliest of the results that are at least all of them. -/
  greatest_eq : ∃ d, Draw.earliest Double.atLeast own = some d ∧ e.greatest = d.value ∧
    e.greatestExpression = d.expression

/-- The aggregate of one number. -/
theorem aggregates_first {d : Draw} (hd : d.value.isNumber) (client : Text) :
    (first client d.value d.expression).Aggregates client [d] := by
  have hself : d.value.atMost d.value := (or_self_iff.1 (Double.atMost_total hd hd))
  refine ⟨rfl, rfl, rfl, ⟨d, ?_, rfl, rfl⟩, ⟨d, ?_, rfl, rfl⟩⟩
  · simp [Draw.earliest, hself]
  · simp [Draw.earliest, Double.atLeast, hself]

variable {e : Entry} {client : Text} {own : List Draw} {d : Draw}

/-- The aggregate of numbers with one more number. -/
theorem Aggregates.add (h : e.Aggregates client own) (hown : ∀ d ∈ own, d.value.isNumber)
    (hd : d.value.isNumber) : (e.add d.value d.expression).Aggregates client (own ++ [d]) := by
  obtain ⟨hclient, hcount, htotal, ⟨l, hl, hleast, hleastExpression⟩,
    ⟨g, hg, hgreatest, hgreatestExpression⟩⟩ := h
  have hlMem : l ∈ own := List.mem_of_find?_eq_some hl
  have hgMem : g ∈ own := List.mem_of_find?_eq_some hg
  have hself : d.value.atMost d.value := or_self_iff.1 (Double.atMost_total hd hd)
  have hlowest := Draw.earliest_append_singleton hl (fun _ _ _ => Double.atMost_trans)
    (Double.atMost_total (hown l hlMem) hd) hself
  have hhighest := Draw.earliest_append_singleton hg
    (fun _ _ _ hxy hyz => Double.atMost_trans hyz hxy) (Double.atMost_total hd (hown g hgMem)) hself
  have hlower : d.value.less l.value = !l.value.atMost d.value :=
    Double.less_eq_not_atMost hd (hown l hlMem)
  have hhigher : g.value.less d.value = !g.value.atLeast d.value :=
    Double.less_eq_not_atMost (hown g hgMem) hd
  refine ⟨hclient, ?_, ?_, ⟨_, hlowest, ?_, ?_⟩, ⟨_, hhighest, ?_, ?_⟩⟩
  · rw [List.length_append, ← hcount]
    rfl
  · have hne : own.map Draw.value ≠ [] := List.map_eq_nil_iff.not.2 (List.ne_nil_of_mem hlMem)
    rw [List.map_append, List.map_singleton, Double.addUp_append_singleton hne, ← htotal]
    rfl
  · simp only [Entry.add, hleast, hlower]
    cases l.value.atMost d.value <;> rfl
  · simp only [Entry.add, hleast, hlower, hleastExpression]
    cases l.value.atMost d.value <;> rfl
  · simp only [Entry.add, hgreatest, hhigher]
    cases g.value.atLeast d.value <;> rfl
  · simp only [Entry.add, hgreatest, hhigher, hgreatestExpression]
    cases g.value.atLeast d.value <;> rfl

end Entry

/-! ## All aggregates -/

namespace Board

/-- The board with more random results, one after the other. -/
def drawAll (b : Board) (draws : List Draw) : Board :=
  draws.foldl (fun b d => b.draw d.client d.value d.expression) b

/-- The aggregate of a client goes on with the results of that client. -/
theorem entry_drawAll (client : Text) : ∀ (draws : List Draw) (b : Board),
    Board.entry? (b.drawAll draws) client = (draws.filter fun d => d.client = client).foldl
      (fun e d => some (Entry.joined client d.value d.expression e)) (b.entry? client)
  | [], _ => rfl
  | d :: draws, b => by
    rw [drawAll, List.foldl_cons, ← drawAll, entry_drawAll client draws]
    by_cases hclient : d.client = client
    · rw [List.filter_cons_of_pos (by simpa using hclient), List.foldl_cons, hclient,
        entry_draw_self]
    · rw [List.filter_cons_of_neg (by simpa using hclient), entry_draw_of_ne _ _ _ _ hclient]

/-- More numbers of a client go into its aggregate. -/
theorem aggregates_foldl {client : Text} : ∀ {rest own : List Draw} {e : Entry},
    e.Aggregates client own → (∀ d ∈ own ++ rest, d.value.isNumber) →
    ∃ e', rest.foldl (fun e d => some (Entry.joined client d.value d.expression e)) (some e) =
      some e' ∧ e'.Aggregates client (own ++ rest)
  | [], own, e, h, _ => ⟨e, rfl, by rwa [List.append_nil]⟩
  | d :: rest, own, e, h, hnumber => by
    have hown : ∀ p ∈ own, p.value.isNumber := fun p hp => hnumber p (List.mem_append_left _ hp)
    have hd : d.value.isNumber := hnumber d (by simp)
    have hadd := h.add hown hd
    rw [List.append_cons] at hnumber ⊢
    exact aggregates_foldl hadd hnumber

/-- The aggregates after any random results that are all numbers, in any order of the clients. A
client without results has no aggregate. The aggregate of any other client holds the number of its
results, their sum from left to right, and the earliest of its least and of its greatest results
with their expressions. It is the same as if there were no other clients. -/
theorem drawAll_aggregates {draws : List Draw} (hnumber : ∀ d ∈ draws, d.value.isNumber)
    (client : Text) :
    let own := draws.filter fun d => d.client = client
    let entry := Board.entry? (drawAll {} draws) client
    (own = [] → entry = none) ∧
    (own ≠ [] → ∃ e, entry = some e ∧ e.Aggregates client own) ∧
    entry = Board.entry? (drawAll {} own) client := by
  intro own entry
  have hentry : entry = own.foldl
      (fun e d => some (Entry.joined client d.value d.expression e)) none :=
    entry_drawAll client draws {}
  have hown : ∀ d ∈ own, d.value.isNumber := fun d hd => hnumber d (List.mem_of_mem_filter hd)
  refine ⟨fun hnil => ?_, fun hne => ?_, ?_⟩
  · rw [hentry, hnil]
    rfl
  · obtain ⟨d, rest, heq⟩ := List.exists_cons_of_ne_nil hne
    rw [heq] at hown hentry ⊢
    rw [hentry]
    exact aggregates_foldl (Entry.aggregates_first (hown d List.mem_cons_self) client) hown
  · rw [hentry, entry_drawAll client own {}, List.filter_filter]
    simp only [Bool.and_self]
    rfl

/-- Zeros of both signs tie, so the first one remains the greatest result while the least one
changes. -/
theorem drawAll_aggregates_zeros :
    let draws : List Draw := [⟨"a", .zero false, "rand()*0"⟩, ⟨"b", .one, "rand()"⟩,
      ⟨"a", .zero true, "-rand()*0"⟩, ⟨"a", Double.one.negate, "-rand()"⟩,
      ⟨"b", .zero true, "0*rand()"⟩, ⟨"a", .zero true, "rand()*-0"⟩]
    (∀ d ∈ draws, d.value.isNumber) ∧
      ∃ e, Board.entry? (drawAll {} draws) "a" = some e ∧ e.count = 4 ∧
        e.total = Double.one.negate ∧ e.least = Double.one.negate ∧ e.leastExpression = "-rand()" ∧
        e.greatest = .zero false ∧ e.greatestExpression = "rand()*0" := by
  intro draws
  have hnumber : ∀ d ∈ draws, d.value.isNumber := by decide +kernel
  obtain ⟨e, hentry, he⟩ := (drawAll_aggregates hnumber "a").2.1 (by decide +kernel)
  obtain ⟨l, hl, hleast, hleastExpression⟩ := he.least_eq
  obtain ⟨g, hg, hgreatest, hgreatestExpression⟩ := he.greatest_eq
  have hl' : Draw.earliest Double.atMost (draws.filter fun d => d.client = "a") =
      some ⟨"a", Double.one.negate, "-rand()"⟩ := by decide +kernel
  have hg' : Draw.earliest Double.atLeast (draws.filter fun d => d.client = "a") =
      some ⟨"a", .zero false, "rand()*0"⟩ := by decide +kernel
  rw [Option.some.inj (hl.symm.trans hl')] at hleast hleastExpression
  rw [Option.some.inj (hg.symm.trans hg')] at hgreatest hgreatestExpression
  exact ⟨hnumber, e, hentry, he.count_eq.trans (by decide +kernel),
    he.total_eq.trans (by decide +kernel), hleast, hleastExpression, hgreatest,
    hgreatestExpression⟩

end Board

end Reckon
