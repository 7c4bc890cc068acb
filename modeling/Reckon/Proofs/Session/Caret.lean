import Reckon.Proofs.Session.Faults

/-!
# Where the caret is

A report with a position shows its statement, and a caret below it (`Report.context`). Where a code
point is shown depends on what is in front of it : its row counts the line ends there (`Text.row`),
and its column the code points behind the last of them (`Text.column`).

The caret stands behind as many blanks as the position says, in the line behind the whole statement.
So it is under the code point at this position if the statement is a single line, and under
something else if it has a line end as white space between its tokens (`Report.caretUnder_iff`).
Every report with a position is on a statement of the expression, and the position is in it or at
its end, whatever the functions are (`evaluate_caret`).
-/

namespace Reckon

/-! ## Rows and columns -/

/-- A line ends with the code point. -/
def CodePoint.endsLine (c : CodePoint) : Bool := c == ofChar '\n' || c == ofChar '\r'

namespace Text

/-- The row of what comes behind the text. -/
def row (t : Text) : Nat := t.countP CodePoint.endsLine

/-- The column of what comes behind the text. -/
def column (t : Text) : Nat := (t.reverse.takeWhile fun c => !c.endsLine).length

/-- The text is a single line. -/
def IsLine (t : Text) : Prop := ∀ c ∈ t, c.endsLine = false

variable {t u : Text}

theorem row_append (t u : Text) : row (t ++ u) = row t + row u := List.countP_append

theorem row_eq_zero_iff : t.row = 0 ↔ t.IsLine := by
  simp [row, IsLine, List.countP_eq_zero]

theorem isLine_append_iff : IsLine (t ++ u) ↔ t.IsLine ∧ u.IsLine := List.forall_mem_append

theorem isLine_spaces (n : Nat) : (spaces n).IsLine := fun c hc => by
  obtain rfl := List.eq_of_mem_replicate hc
  rfl

/-- What is in the line of a text moves on with its length. -/
theorem column_append_of_isLine (hu : u.IsLine) : column (t ++ u) = column t + u.length := by
  have hall : ∀ c ∈ u.reverse, (!c.endsLine) = true := fun c hc => by
    rw [hu c (List.mem_reverse.1 hc)]
    rfl
  rw [column, List.reverse_append, List.takeWhile_append_of_pos hall, List.length_append,
    List.length_reverse, Nat.add_comm]
  rfl

/-- What is in front of a line end does not count. -/
theorem column_append_of_not_isLine (hu : ¬ u.IsLine) : column (t ++ u) = column u := by
  rw [column, List.reverse_append, List.takeWhile_append, if_neg]
  · rfl
  · intro hlength
    have hall := (List.takeWhile_prefix _).eq_of_length hlength
    refine hu fun c hc => ?_
    have hc' := List.all_eq_true.1 (hall ▸ List.all_takeWhile) c (List.mem_reverse.2 hc)
    simpa using hc'

theorem column_le (t : Text) : t.column ≤ t.length := by
  have hle := (List.takeWhile_prefix (l := t.reverse) fun c => !c.endsLine).length_le
  rwa [List.length_reverse] at hle

end Text

/-! ## The caret under a statement -/

/-- The text shows the statement from `b` on and ends with a caret, which is in the line below the
code point at the position, and in the same column. -/
structure CaretUnder (shown statement : Text) (b position : Nat) : Prop where
  /-- The statement is shown. -/
  statement : statement <+: shown.drop b
  /-- The caret is. -/
  caret : shown.getLast? = some (CodePoint.ofChar '^')
  /-- The line of the position is the one above the caret. -/
  row : Text.row shown.dropLast = Text.row (shown.take (b + position)) + 1
  /-- The column is that of the position. -/
  column : Text.column shown.dropLast = Text.column (shown.take (b + position))

instance (shown statement : Text) (b position : Nat) :
    Decidable (CaretUnder shown statement b position) :=
  decidable_of_iff (statement <+: shown.drop b ∧ shown.getLast? = some (CodePoint.ofChar '^') ∧
      Text.row shown.dropLast = Text.row (shown.take (b + position)) + 1 ∧
      Text.column shown.dropLast = Text.column (shown.take (b + position)))
    ⟨fun h => ⟨h.1, h.2.1, h.2.2.1, h.2.2.2⟩, fun h => ⟨h.statement, h.caret, h.row, h.column⟩⟩

namespace Report

/-- What comes behind a line end and two blanks. -/
theorem column_indented (t : Text) {u : Text} (hu : u.IsLine) :
    Text.column (t ++ Text.ofString "\n  " ++ u) = 2 + u.length := by
  have hindent : ¬ (Text.ofString "\n  ").IsLine := fun h => by
    have hend := h (CodePoint.ofChar '\n') (by decide)
    cases hend
  rw [Text.column_append_of_isLine hu, Text.column_append_of_not_isLine hindent]
  rfl

variable (message statement : Text) (k : Nat)

theorem dropLast_pointing : (pointing message statement k).dropLast =
    message ++ Text.ofString "\n  " ++ statement ++ Text.ofString "\n  " ++ Text.spaces k :=
  List.dropLast_concat

theorem getLast?_pointing : (pointing message statement k).getLast? = some (CodePoint.ofChar '^') :=
  List.getLast?_concat

/-- The statement is shown behind the message, a line end and two blanks. -/
theorem pointing_eq_append : pointing message statement k = message ++ Text.ofString "\n  " ++
    (statement ++ (Text.ofString "\n  " ++ (Text.spaces k ++ [CodePoint.ofChar '^']))) := by
  simp only [pointing, List.append_assoc]
  rfl

theorem length_indented : (message ++ Text.ofString "\n  ").length = message.length + 3 :=
  List.length_append

theorem drop_pointing : (pointing message statement k).drop (message.length + 3) =
    statement ++ (Text.ofString "\n  " ++ (Text.spaces k ++ [CodePoint.ofChar '^'])) := by
  rw [pointing_eq_append, ← length_indented, List.drop_left]

variable {statement k}

theorem take_pointing (hk : k ≤ statement.length) :
    (pointing message statement k).take (message.length + 3 + k) =
      message ++ Text.ofString "\n  " ++ statement.take k := by
  rw [List.take_add, drop_pointing, List.take_append_of_le_length hk, pointing_eq_append,
    ← length_indented, List.take_left]

/-- The caret is under the position of a report if and only if the statement is a single line. -/
theorem caretUnder_iff (hk : k ≤ statement.length) :
    CaretUnder (pointing message statement k) statement (message.length + 3) k ↔
      statement.IsLine := by
  have hcolumn : Text.column (pointing message statement k).dropLast = 2 + k := by
    rw [dropLast_pointing, column_indented _ (Text.isLine_spaces k), Text.length_spaces]
  have hrow : Text.row (pointing message statement k).dropLast = Text.row
      (message ++ Text.ofString "\n  " ++ statement.take k) + Text.row (statement.drop k) + 1 := by
    rw [dropLast_pointing, Text.row_append, Text.row_append,
      Text.row_eq_zero_iff.2 (Text.isLine_spaces k), ← Text.row_append _ (statement.drop k),
      List.append_assoc _ (statement.take k), List.take_append_drop]
    rfl
  have hline : statement.IsLine ↔
      Text.IsLine (statement.take k) ∧ Text.IsLine (statement.drop k) := by
    rw [← Text.isLine_append_iff, List.take_append_drop]
  rw [hline]
  constructor
  · intro h
    constructor
    · -- A line end in front of the position moves it to the left, and the caret stays.
      by_contra hbreak
      have hunder := h.column
      have hle := Text.column_le (statement.take k)
      rw [hcolumn, take_pointing message hk, Text.column_append_of_not_isLine hbreak] at hunder
      rw [List.length_take_of_le hk] at hle
      omega
    · -- A line end behind the position comes between it and the caret.
      have hunder := h.row
      rw [hrow, take_pointing message hk] at hunder
      exact Text.row_eq_zero_iff.1 (by omega)
  · rintro ⟨hfore, hrest⟩
    refine ⟨?_, getLast?_pointing message statement k, ?_, ?_⟩
    · rw [drop_pointing]
      exact List.prefix_append _ _
    · rw [hrow, take_pointing message hk, Text.row_eq_zero_iff.2 hrest]
    · rw [hcolumn, take_pointing message hk, column_indented _ hfore, List.length_take_of_le hk]

/-- A position in the report is one in the statement or its end, and the report names the
statement. -/
def PointsInto (source : Text) (r : Report) : Prop :=
  ∀ p, r.position = some p → r.statement = some source ∧ ∃ k : Nat, k ≤ source.length ∧ p = k

theorem pointsInto_ofExcess (source : Text) (x : Excess) : (ofExcess x).PointsInto source :=
  fun _ hp => (Option.some_ne_none _ hp.symm).elim

end Report

/-! ## Evaluations that fail -/

/-- A report points into the statement; a signal has no place. -/
def Failure.PointsInto (source : Text) : Failure → Prop
  | .report r => r.PointsInto source
  | .signal _ => True

/-- What goes wrong at a position of the statement is reported there. -/
theorem Trouble.located_pointsInto {source : Text} {p : Nat} (hp : p ≤ source.length) :
    ∀ t : Trouble, (t.located source p).PointsInto source
  | .fault _ => fun _ hq => ⟨rfl, p, hp, (Option.some.inj hq).symm⟩
  | .exceeded x => Report.pointsInto_ofExcess source x
  | .signal _ => trivial

namespace Session

variable {rules : Rules} {source : Text} {r : Report}

theorem pointsInto_of_parse {limits : Limits} (h : Statement.parse limits source = .error r) :
    r.PointsInto source := by
  rcases report_of_parse h with ⟨x, rfl⟩ | ⟨f, p, -, hp, rfl⟩
  · exact Report.pointsInto_ofExcess source x
  · exact fun q hq => ⟨rfl, p, hp, (Option.some.inj hq).symm⟩

theorem pointsInto_of_execute {st : Statement} (hst : Statement.parse rules.limits source = .ok st)
    {index : Nat} {s t : Session} (h : execute rules index st s = (.error (.report r), t)) :
    r.PointsInto source :=
  failure_of_execute (F := Failure.PointsInto source) rules.blames_any (fun _ => trivial)
    (fun _ _ hw t _ => t.located_pointsInto (Nat.le_of_lt hw.1)) hst h

end Session

/-- A report with a position is on a statement of the expression, and the position is in it or at
its end. The report is shown as its message, the statement and a caret, each in a line of its own;
the caret is in the line below the position and in its column if and only if the statement is a
single line. -/
theorem evaluate_caret {rules : Rules} {t : Text} {r : Report} {p : Int}
    (h : (evaluate rules t).1 = .error (.report r)) (hp : r.position = some p) :
    ∃ source ∈ t.sources, ∃ k : Nat, k ≤ source.length ∧ p = k ∧ r.statement = some source ∧
      r.context = r.message ++ Text.ofString "\n  " ++ source ++ Text.ofString "\n  " ++
        Text.spaces k ++ [CodePoint.ofChar '^'] ∧
      (CaretUnder r.context source (r.message.length + 3) k ↔ source.IsLine) := by
  obtain ⟨source, hsource, hpoints⟩ : ∃ source ∈ t.sources, r.PointsInto source := by
    rcases report_cases h with ⟨x, rfl⟩ | rfl | hrun
    · cases hp
    · cases hp
    rcases Session.exists_of_runFrom_error t.sources hrun with
      ⟨-, -, hempty⟩ | ⟨before, source, after, sts, hsplit, -, -, -, hsource⟩
    · obtain rfl := Failure.report.inj hempty
      cases hp
    refine ⟨source, by simp [hsplit], ?_⟩
    rcases hsource with ⟨r', hr', hreport, -⟩ | ⟨st, i, hst, hx⟩
    · obtain rfl := Failure.report.inj hreport
      exact Session.pointsInto_of_parse hr'
    · exact Session.pointsInto_of_execute hst hx
  obtain ⟨hstatement, k, hk, rfl⟩ := hpoints p hp
  have hcontext : r.context = Report.pointing r.message source k := by
    rw [Report.context, hstatement, hp]
  refine ⟨source, hsource, k, hk, rfl, hstatement, hcontext, ?_⟩
  rw [hcontext]
  exact Report.caretUnder_iff r.message hk

attribute [local instance] Library.rounded

/-- A variable in the second line of the second statement. -/
theorem evaluate_caret_second_line :
    let rules : Rules := ⟨.standard, {}, .standard, fun _ => .one⟩
    let t : Text := "x := 2; x +\ny"
    let r : Report := ⟨.undefinedVariable "y", some 4, some "x +\ny"⟩
    (evaluate rules t).1 = .error (.report r) ∧ r.position = some 4 ∧
      ∃ source ∈ t.sources, ∃ k : Nat, k ≤ source.length ∧ (4 : Int) = k ∧
        r.statement = some source ∧
        r.context = r.message ++ Text.ofString "\n  " ++ source ++ Text.ofString "\n  " ++
          Text.spaces k ++ [CodePoint.ofChar '^'] ∧
        (CaretUnder r.context source (r.message.length + 3) k ↔ source.IsLine) := by
  intro rules t r
  have h : (evaluate rules t).1 = .error (.report r) := by decide +kernel
  exact ⟨h, rfl, evaluate_caret h rfl⟩

/-- A statement of two lines has its caret in another column, wherever one looks for it. -/
theorem not_caretUnder_of_two_lines : ¬ ∀ (rules : Rules) (t : Text) (r : Report) (source : Text)
    (k : Nat), (evaluate rules t).1 = .error (.report r) → r.position = some (k : Int) →
      r.statement = some source → ∃ b, CaretUnder r.context source b k := by
  intro h
  obtain ⟨b, hb⟩ := h ⟨.standard, {}, .standard, fun _ => .one⟩ "1 +\nx"
    ⟨.undefinedVariable "x", some 4, some "1 +\nx"⟩ "1 +\nx" 4 (by decide +kernel) rfl rfl
  have hlt : b < 38 := by
    by_contra hge
    have hstatement := hb.statement
    rw [List.drop_of_length_le (Nat.le_trans (by decide +kernel) (Nat.le_of_not_lt hge))]
      at hstatement
    exact absurd hstatement (by decide)
  have hnone : ∀ b < 38, ¬ CaretUnder (Report.context
      ⟨.undefinedVariable "x", some 4, some "1 +\nx"⟩) "1 +\nx" b 4 := by decide +kernel
  exact hnone b hlt hb

end Reckon
