import Reckon.Number.Double.Basic
import Reckon.Service.Ranking
import Reckon.Text.Basic

/-!
# History and leaderboard

The board keeps what was calculated, in order, and for each client the aggregate of its
random results : their number, their sum, and the least and the greatest with the
expressions that gave them. Of equal results the earlier one keeps its place. The clients
stand in the order of their first results, and `Board.standings` ranks them by their sums.
-/

namespace Reckon

/-- One calculation : who asked, what was asked, and what came of it. -/
structure Record where
  /-- The client. -/
  client : Text
  /-- The expression. -/
  expression : Text
  /-- The result, or the marker of a failure. -/
  result : Text
  deriving DecidableEq, Repr

/-- The aggregate of the random results of one client. -/
structure Entry where
  /-- The client. -/
  client : Text
  /-- The sum of the results. -/
  total : Double
  /-- The number of results. -/
  count : Nat
  /-- The least result. -/
  least : Double
  /-- The expression of the least result. -/
  leastExpression : Text
  /-- The greatest result. -/
  greatest : Double
  /-- The expression of the greatest result. -/
  greatestExpression : Text
  deriving DecidableEq, Repr

namespace Entry

/-- The aggregate of one result. -/
def first (client : Text) (value : Double) (expression : Text) : Entry :=
  ⟨client, value, 1, value, expression, value, expression⟩

/-- The aggregate with one more result. -/
def add (e : Entry) (value : Double) (expression : Text) : Entry :=
  let lower := value.less e.least
  let higher := e.greatest.less value
  { e with
    total := e.total.add value
    count := e.count + 1
    least := if lower then value else e.least
    leastExpression := if lower then expression else e.leastExpression
    greatest := if higher then value else e.greatest
    greatestExpression := if higher then expression else e.greatestExpression }

end Entry

/-- The history of calculations and the aggregates of the clients. -/
structure Board where
  /-- The calculations, in order. -/
  history : List Record := []
  /-- The aggregates, in the order of the first results. -/
  entries : List Entry := []
  deriving DecidableEq, Repr

namespace Board

variable (b : Board)

/-- The board with one more calculation. -/
def record (r : Record) : Board := { b with history := b.history ++ [r] }

/-- The aggregate of a client. -/
def entry? (client : Text) : Option Entry := b.entries.find? fun e => e.client == client

/-- The aggregates with one more result of a client. -/
def drawInto (client : Text) (value : Double) (expression : Text) : List Entry → List Entry
  | [] => [Entry.first client value expression]
  | e :: rest =>
    if e.client = client then e.add value expression :: rest
    else e :: drawInto client value expression rest

/-- The board with one more random result. -/
def draw (client : Text) (value : Double) (expression : Text) : Board :=
  { b with entries := drawInto client value expression b.entries }

/-- The number of standings that are listed if nothing else is asked for. -/
def usualLimit : Int := 1000

/-- The start of a list up to a limit; a negative limit leaves out as many at the end. -/
def upTo {α : Type} (limit : Int) (l : List α) : List α :=
  if 0 ≤ limit then l.take limit.toNat else l.take (l.length - limit.natAbs)

/-- The aggregates with the greatest sums first; equal sums keep their order. Where some sum
is no number, the order is that of `Ranking.rankedDown`. -/
def ranking : List Entry :=
  if b.entries.all fun e => e.total.isNumber then
    b.entries.mergeSort fun x y => !x.total.less y.total
  else Ranking.rankedDown (fun x y => x.total.less y.total) b.entries

/-- The ranking up to a limit. -/
def standings (limit : Int) : List Entry := upTo limit b.ranking

end Board

end Reckon
