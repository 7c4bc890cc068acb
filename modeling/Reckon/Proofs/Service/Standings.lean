import Mathlib.Data.List.Nodup
import Reckon.Proofs.Service.Aggregates
import Reckon.Proofs.Service.Rearrangement

/-!
# Standings

The board lists the aggregates of the clients in the order of their first results
(`Board.map_client_drawAll`), and the ranking rearranges them (`Board.ranking_perm`). As long as
every sum is a number, a greater sum goes ahead of a lesser one, and of equal sums the one whose
client came first (`Board.ranking_pairwise`). A sum that is no number compares with nothing, and
then numbers may stand in the wrong order too (`Board.not_ranked_beside_nan`).
-/

open scoped List

namespace Reckon

/-! ## Lists -/

section

variable {α : Type}

/-- The elements of a list without repetitions come in the order of their first places. -/
theorem pairwise_eraseDups [BEq α] [LawfulBEq α] (l : List α) :
    l.eraseDups.Pairwise fun a b => l.idxOf a < l.idxOf b := by
  induction l using List.reverseRecOn with
  | nil => exact .nil
  | append_singleton l x ih =>
    have hidx : ∀ a ∈ l.eraseDups, (l ++ [x]).idxOf a = l.idxOf a := fun a ha =>
      List.idxOf_append_of_mem (List.mem_eraseDups.1 ha)
    have hbefore : l.eraseDups.Pairwise fun a b => (l ++ [x]).idxOf a < (l ++ [x]).idxOf b :=
      ih.imp_of_mem fun {a b} ha hb hlt => by rwa [hidx a ha, hidx b hb]
    rw [eraseDups_append_singleton]
    split
    · exact hbefore
    · rename_i hx
      refine List.pairwise_append.2 ⟨hbefore, List.pairwise_singleton _ _, fun a ha b hb => ?_⟩
      rw [List.mem_singleton.1 hb, hidx a ha, List.idxOf_append_of_notMem hx]
      exact (List.idxOf_lt_length_of_mem (List.mem_eraseDups.1 ha)).trans_le (Nat.le_add_right _ _)

theorem mergeSort_congr {le le' : α → α → Bool} {l : List α}
    (h : ∀ a ∈ l, ∀ b ∈ l, le a b = le' a b) : l.mergeSort le = l.mergeSort le' := by
  simpa using List.map_mergeSort (f := id) (s := le') h

/-- Sorting keeps the order of elements that all come before each other. -/
theorem filter_mergeSort {le : α → α → Bool} (htrans : ∀ a b c, le a b → le b c → le a c)
    (htotal : ∀ a b, le a b || le b a) (l : List α) {p : α → Bool}
    (hp : ∀ a b, p a → p b → le a b) : (l.mergeSort le).filter p = l.filter p := by
  have hties : (l.filter p).Pairwise fun a b => le a b :=
    List.pairwise_filter.2 (List.pairwise_of_forall hp)
  have hsub := (List.sublist_mergeSort htrans htotal hties List.filter_sublist).filter p
  rw [List.filter_filter] at hsub
  simp only [Bool.and_self] at hsub
  exact (hsub.eq_of_length ((List.mergeSort_perm l le).filter p).length_eq.symm).symm

/-- Elements sorted from the greatest key on come in the order of their keys, and those of one key
in the order that they had. -/
theorem pairwise_mergeSort_key (key : α → Int) {R : α → α → Prop} {l : List α} (h : l.Pairwise R) :
    (l.mergeSort fun x y => decide (key y ≤ key x)).Pairwise fun x y =>
      key y < key x ∨ key x = key y ∧ R x y := by
  have htrans : ∀ x y z : α, decide (key y ≤ key x) → decide (key z ≤ key y) →
      decide (key z ≤ key x) := by
    simp only [decide_eq_true_iff]
    exact fun x y z hxy hyz => hyz.trans hxy
  have htotal : ∀ x y : α, decide (key y ≤ key x) || decide (key x ≤ key y) := by
    simp only [Bool.or_eq_true, decide_eq_true_iff]
    exact fun x y => le_total _ _
  have hfalling := List.pairwise_mergeSort htrans htotal l
  refine List.pairwise_iff_forall_sublist.2 fun {x y} hxy => ?_
  have hle : key y ≤ key x := of_decide_eq_true (List.pairwise_iff_forall_sublist.1 hfalling hxy)
  rcases hle.lt_or_eq with hlt | heq
  · exact Or.inl hlt
  · -- The elements with the key of `x` and `y` are the same list before and after.
    have hties := filter_mergeSort htrans htotal l (p := fun e => decide (key e = key x))
      fun a b ha hb => by
        simp only [decide_eq_true_iff] at ha hb ⊢
        rw [ha, hb]
    have hsub := hxy.filter fun e => decide (key e = key x)
    rw [hties] at hsub
    have hbefore : [x, y] <+ l := by simpa [heq] using hsub.trans List.filter_sublist
    exact Or.inr ⟨heq.symm, List.pairwise_iff_forall_sublist.1 h hbefore⟩

end

namespace Double

/-- The signed rank, which is zero if the number is missing. -/
def signedRank (x : Double) : Int := x.key.getD 0

theorem less_eq_decide {x y : Double} (hx : x.isNumber) (hy : y.isNumber) :
    x.less y = decide (x.signedRank < y.signedRank) := by
  obtain ⟨a, ha⟩ := exists_key hx
  obtain ⟨b, hb⟩ := exists_key hy
  rw [less, signedRank, signedRank, ha, hb]
  rfl

end Double

/-! ## The clients -/

namespace Board

theorem map_client_drawInto (client : Text) (x : Double) (t : Text) (entries : List Entry) :
    (drawInto client x t entries).map Entry.client =
      if client ∈ entries.map Entry.client then entries.map Entry.client
      else entries.map Entry.client ++ [client] := by
  induction entries with
  | nil => rfl
  | cons e rest ih =>
    rw [drawInto]
    by_cases he : e.client = client
    · simp [he, Entry.add]
    · rw [if_neg he, List.map_cons, ih]
      by_cases hrest : client ∈ rest.map Entry.client
      · simp [hrest]
      · simp [hrest, Ne.symm he]

/-- The aggregates are listed in the order of the first results of their clients. -/
theorem map_client_drawAll (draws : List Draw) :
    (drawAll {} draws).entries.map Entry.client = (draws.map Draw.client).eraseDups := by
  induction draws using List.reverseRecOn with
  | nil => rfl
  | append_singleton draws d ih =>
    have hdraw : drawAll {} (draws ++ [d]) =
        (drawAll {} draws).draw d.client d.value d.expression := List.foldl_append
    rw [hdraw, draw, map_client_drawInto, ih, List.map_append, List.map_singleton,
      eraseDups_append_singleton]
    simp only [List.mem_eraseDups]

/-- Of two aggregates the one with the greater sum goes ahead, and of equal sums the one whose
client came first. -/
def Ahead (draws : List Draw) (x y : Entry) : Prop :=
  y.total.less x.total ∨ x.total.less y.total = false ∧
    (draws.map Draw.client).idxOf x.client < (draws.map Draw.client).idxOf y.client

/-- A list of the aggregates after some draws : each client that has results stands in it once. -/
structure Lists (draws : List Draw) (l : List Entry) : Prop where
  /-- No client stands there twice. -/
  nodup : (l.map Entry.client).Nodup
  /-- The clients are those that have results. -/
  clients : ∀ client, client ∈ l.map Entry.client ↔ client ∈ draws.map Draw.client
  /-- The aggregates are those of the clients. -/
  mem_iff : ∀ e, e ∈ l ↔ Board.entry? (drawAll {} draws) e.client = some e

theorem entries_nodup (draws : List Draw) :
    ((drawAll {} draws).entries.map Entry.client).Nodup := by
  rw [map_client_drawAll]
  exact (pairwise_eraseDups _).imp fun hlt heq => by rw [heq] at hlt; exact lt_irrefl _ hlt

/-- An aggregate of the board is the one that is found for its client. -/
theorem mem_entries_iff {b : Board} (h : (b.entries.map Entry.client).Nodup) {e : Entry} :
    e ∈ b.entries ↔ b.entry? e.client = some e := by
  constructor
  · intro he
    obtain ⟨e', he'⟩ := Option.isSome_iff_exists.1
      (List.find?_isSome (p := fun e' => e'.client == e.client) |>.2 ⟨e, he, beq_self_eq_true _⟩)
    have hclient : e'.client = e.client := by simpa using List.find?_some he'
    have heq : e' = e :=
      List.inj_on_of_nodup_map h (List.mem_of_find?_eq_some he') he hclient
    rwa [heq] at he'
  · exact List.mem_of_find?_eq_some

theorem lists_of_perm {draws : List Draw} {l : List Entry} (h : l ~ (drawAll {} draws).entries) :
    Lists draws l where
  nodup := (h.map Entry.client).nodup_iff.2 (entries_nodup draws)
  clients client := by
    rw [(h.map Entry.client).mem_iff, map_client_drawAll, List.mem_eraseDups]
  mem_iff e := by rw [h.mem_iff, mem_entries_iff (entries_nodup draws)]

/-! ## The ranking -/

/-- The ranking rearranges the aggregates, whether the sums are numbers or not. -/
theorem ranking_perm (b : Board) : b.ranking ~ b.entries := by
  unfold ranking
  split
  · exact List.mergeSort_perm _ _
  · exact Ranking.rankedDown_perm _ _

/-- Sums that are numbers are compared by their signed ranks. -/
theorem ranking_eq {b : Board} (h : ∀ e ∈ b.entries, e.total.isNumber) :
    b.ranking =
      b.entries.mergeSort fun x y => decide (y.total.signedRank ≤ x.total.signedRank) := by
  rw [ranking, if_pos (List.all_eq_true.2 h)]
  refine mergeSort_congr fun x hx y hy => ?_
  rw [Double.less_eq_decide (h x hx) (h y hy), ← decide_not, decide_eq_decide, not_lt]

/-- Where all sums are numbers, a greater sum goes ahead of a lesser one, and of equal sums the one
whose client came first. -/
theorem ranking_pairwise {draws : List Draw}
    (h : ∀ e ∈ (drawAll {} draws).entries, e.total.isNumber) :
    (drawAll {} draws).ranking.Pairwise (Ahead draws) := by
  have hperm := ranking_perm (drawAll {} draws)
  have horder : (drawAll {} draws).entries.Pairwise fun x y =>
      (draws.map Draw.client).idxOf x.client < (draws.map Draw.client).idxOf y.client := by
    have hfirst := pairwise_eraseDups (draws.map Draw.client)
    rwa [← map_client_drawAll, List.pairwise_map] at hfirst
  have hsorted := pairwise_mergeSort_key (fun e : Entry => e.total.signedRank) horder
  rw [← ranking_eq h] at hsorted
  refine hsorted.imp_of_mem fun {x y} hx hy hxy => ?_
  have hx := h x (hperm.mem_iff.1 hx)
  have hy := h y (hperm.mem_iff.1 hy)
  rw [Ahead, Double.less_eq_decide hx hy, Double.less_eq_decide hy hx, decide_eq_true_iff,
    decide_eq_false_iff_not]
  exact hxy.imp_right fun ⟨heq, hlt⟩ => ⟨heq.not_lt, hlt⟩

/-- The standings after any draws, up to any limit that is not negative, are the start of a list in
which each client that has results stands once with its aggregate. If all sums are numbers, the list
is ranked by them, and equal sums stand in the order of the first results of their clients. -/
theorem standings_drawAll (draws : List Draw) (limit : Int) (hlimit : 0 ≤ limit) :
    let board := drawAll {} draws
    board.standings limit = board.ranking.take limit.toNat ∧ Lists draws board.ranking ∧
    ((∀ e ∈ board.entries, e.total.isNumber) → board.ranking.Pairwise (Ahead draws)) :=
  ⟨if_pos hlimit, lists_of_perm (ranking_perm _), ranking_pairwise⟩

/-- The second and the third client tie, and the limit leaves out the first one. -/
theorem standings_drawAll_ties :
    let draws : List Draw := [⟨"a", .one, "1+0*rand()"⟩, ⟨"b", Double.one.add .one, "2+0*rand()"⟩,
      ⟨"c", .one, "1+0*rand()"⟩, ⟨"c", .one, "1+0*rand()"⟩]
    (0 : Int) ≤ 2 ∧ (∀ e ∈ (drawAll {} draws).entries, e.total.isNumber) ∧
      (drawAll {} draws).ranking.Pairwise (Ahead draws) ∧
      ((drawAll {} draws).standings 2).map Entry.client =
        [Text.ofString "b", Text.ofString "c"] := by
  intro draws
  obtain ⟨htake, -, hpairwise⟩ := standings_drawAll draws 2 (by decide)
  have hnumber : ∀ e ∈ (drawAll {} draws).entries, e.total.isNumber := by decide +kernel
  refine ⟨by decide, hnumber, hpairwise hnumber, ?_⟩
  have hentries : (drawAll {} draws).entries = [.first "a" .one "1+0*rand()",
      .first "b" (Double.one.add .one) "2+0*rand()",
      (Entry.first "c" .one "1+0*rand()").add .one "1+0*rand()"] := by decide +kernel
  have hless : Double.one.less (Double.one.add .one) = true := by decide +kernel
  have hranking : (drawAll {} draws).ranking = [.first "b" (Double.one.add .one) "2+0*rand()",
      (Entry.first "c" .one "1+0*rand()").add .one "1+0*rand()", .first "a" .one "1+0*rand()"] := by
    rw [ranking, if_pos (List.all_eq_true.2 hnumber), hentries]
    simp [List.mergeSort, List.MergeSort.Internal.splitInTwo, Entry.first, Entry.add, hless,
      Double.less_irrefl]
  rw [htake, hranking]
  rfl

/-- Beside a sum that is no number, a lesser sum may stand before a greater one : of three clients
with `1`, no number and `2` none moves. -/
theorem not_ranked_beside_nan :
    ¬ ∀ (draws : List Draw) (limit : Int), 0 ≤ limit → ∃ l, Lists draws l ∧
      (l.filter fun e => e.total.isNumber).Pairwise (Ahead draws) ∧
      (drawAll {} draws).standings limit = l.take limit.toNat := by
  intro h
  let draws : List Draw := [⟨"a", .one, "1+0*rand()"⟩, ⟨"b", .nan, "rand()+log(-1)"⟩,
    ⟨"c", Double.one.add .one, "2+0*rand()"⟩]
  obtain ⟨l, -, hranked, hl⟩ := h draws 4 (by decide)
  have hstandings : (drawAll {} draws).standings 4 = (drawAll {} draws).entries := by decide +kernel
  have hlength := congrArg List.length (hstandings.symm.trans hl)
  have hthree : (drawAll {} draws).entries.length = 3 := by decide +kernel
  rw [hthree, List.length_take] at hlength
  have hshort : l.length ≤ Int.toNat 4 := by
    change 3 = min 4 l.length at hlength
    change l.length ≤ 4
    omega
  rw [List.take_of_length_le hshort] at hl
  rw [← hl, hstandings] at hranked
  have hnumbers : (drawAll {} draws).entries.filter (fun e => e.total.isNumber) =
      [.first "a" .one "1+0*rand()", .first "c" (Double.one.add .one) "2+0*rand()"] := by
    decide +kernel
  rw [hnumbers, List.pairwise_pair] at hranked
  exact absurd hranked (by unfold Ahead; decide +kernel)

end Board

end Reckon
