import Mathlib.Data.List.Chain
import Reckon.Grammar.Levels
import Reckon.Proofs.Grammar.Completeness
import Reckon.Proofs.Grammar.Munch

/-!
# Statements are read in every layout

A text lays out tokens if it holds them as they are written, with gaps of any length in front
of them and at the end (`Laid`). A gap may be empty, unless it stands between two words
(`Token.Apart`); in a statement that is the case only behind `return`, for two words never
meet in an expression (`Expr.isChain_lexemes`).

The scanner finds the tokens of every layout, and the one thing it can object to is the
length of a string (`Scan.tokensFrom_laid`). So a statement over a canonical tree is read in
every layout if it keeps the limits, and else the report is one of a limit, if there is enough stack
to come to it (`Statement.parse_laid`).
-/

namespace Reckon

/-! ## Layouts -/

/-- The position behind a token. -/
def Token.stop (t : Token) : Nat := t.position + t.lexeme.written.length

/-- There is a gap between the tokens if both are words. -/
def Token.Apart (t u : Token) : Prop := t.lexeme.IsWord → u.lexeme.IsWord → t.stop < u.position

/-- The text, that starts at a position, holds the tokens as they are written, each where its
position says, and gaps around them. -/
inductive Laid : Nat → List Token → Text → Prop
  | nil (p : Nat) {gap : Text} (hg : ∀ c ∈ gap, c.isGap = true) : Laid p [] gap
  | cons {p : Nat} (gap : Text) {text : Text} (l : Lexeme) {ts : List Token}
    (hg : ∀ c ∈ gap, c.isGap = true) (h : Laid (p + gap.length + l.written.length) ts text) :
    Laid p (⟨l, p + gap.length⟩ :: ts) (gap ++ (l.written ++ text))

theorem CodePoint.continuesWord_of_isGap {c : CodePoint} (h : c.isGap = true) :
    c.continuesWord = false := by
  simp only [isGap, Bool.or_eq_true, beq_iff_eq] at h
  rcases h with ((rfl | rfl) | rfl) | rfl <;> decide

/-- A gap ends every word. -/
theorem Text.endsWord_of_isGap {c : CodePoint} {t : Text} (h : c.isGap = true) :
    Text.EndsWord (c :: t) := by
  intro d hd
  obtain rfl := Option.some.inj hd
  exact CodePoint.continuesWord_of_isGap h

/-- A word ends in front of a layout that keeps its first word apart. -/
theorem Laid.endsWord {p : Nat} {ts : List Token} {text : Text} (h : Laid p ts text)
    (hw : ∀ t ∈ ts, t.lexeme.WellFormed) (hp : ∀ t ∈ ts.head?, t.lexeme.IsWord → p < t.position) :
    text.EndsWord := by
  cases h with
  | nil p hg =>
    intro c hc
    exact CodePoint.continuesWord_of_isGap (hg c (List.mem_of_mem_head? hc))
  | @cons p gap text l ts hg h =>
    rcases gap with - | ⟨c, gap⟩
    · have hl : ¬l.IsWord := fun hl => Nat.lt_irrefl _ (hp _ rfl hl)
      obtain ⟨c, tail, hc, -, hend, -⟩ :=
        Scan.scan_written (hw _ List.mem_cons_self) text fun h => (hl h).elim
      intro d hd
      rw [List.nil_append, hc] at hd
      obtain rfl := Option.some.inj hd
      exact hend hl
    · exact Text.endsWord_of_isGap (hg c List.mem_cons_self)

namespace Scan

variable (limits : Limits)

/-- The checks of the strings among some tokens, in their order. -/
def checkStrings : List Token → Except Halt Unit
  | [] => .ok ()
  | t :: ts => do
    (checkString limits t.lexeme).mapError .exceeded
    checkStrings ts

theorem checkString_eq_ok_iff {limits : Limits} {l : Lexeme} : checkString limits l = .ok () ↔
    ∀ v, l = .string v → (v.length : Int) ≤ limits.stringLength := by
  cases l with
  | string v => simp [checkString, Limits.check_eq_ok_iff, Limits.bound]
  | _ => simp [checkString]

theorem checkStrings_eq_ok_iff : ∀ ts : List Token, checkStrings limits ts = .ok () ↔
    ∀ v, Lexeme.string v ∈ ts.map Token.lexeme → (v.length : Int) ≤ limits.stringLength
  | [] => by simp [checkStrings]
  | t :: ts => by
    have ht : (checkString limits t.lexeme).mapError Halt.exceeded = .ok () ↔
        checkString limits t.lexeme = .ok () := by
      cases checkString limits t.lexeme <;> simp [Except.mapError]
    rw [checkStrings, bind_eq_ok_iff, ht, checkString_eq_ok_iff, checkStrings_eq_ok_iff ts]
    constructor
    · rintro ⟨hv, hvs⟩ v hm
      rcases List.mem_cons.1 hm with hm | hm
      · exact hv v hm.symm
      · exact hvs v hm
    · intro h
      exact ⟨fun v hv => h v (List.mem_cons.2 (.inl hv.symm)),
        fun v hv => h v (List.mem_cons.2 (.inr hv))⟩

theorem isExcess_of_checkStrings {limits : Limits} {h : Halt} : ∀ ts : List Token,
    checkStrings limits ts = .error h → h.IsExcess limits
  | [], he => by cases he
  | t :: ts, he => by
    rcases bind_eq_error_iff.1 he with he | ⟨_, -, he⟩
    · cases hl : t.lexeme with
      | string v =>
        rw [hl] at he
        exact Limits.isExcess_of_guard he
      | _ =>
        rw [hl] at he
        cases he
    · exact isExcess_of_checkStrings ts he

/-- A gap is passed over. -/
theorem tokensFrom_gap (rest : Text) : ∀ (gap : Text) (p : Nat), (∀ c ∈ gap, c.isGap = true) →
    tokensFrom limits p (gap ++ rest) = tokensFrom limits (p + gap.length) rest
  | [], _, _ => rfl
  | c :: gap, p, hg => by
    have hgap := tokensFrom_gap rest gap (p + 1) fun d hd => hg d (List.mem_cons_of_mem _ hd)
    rw [List.cons_append, tokensFrom, if_pos (hg c List.mem_cons_self), hgap, List.length_cons]
    congr 1
    omega

/-- The tokens of a layout are found, unless a string among them is too long. -/
theorem tokensFrom_laid {p : Nat} {ts : List Token} {text : Text} (h : Laid p ts text)
    (hw : ∀ t ∈ ts, t.lexeme.WellFormed) (ha : ts.IsChain Token.Apart) :
    tokensFrom limits p text = checkStrings limits ts >>= fun _ => .ok ts := by
  induction h with
  | nil p hg =>
    have hgap := tokensFrom_gap limits [] _ p hg
    rw [List.append_nil] at hgap
    rw [hgap, tokensFrom]
    rfl
  | @cons p gap text l ts hg h ih =>
    have ih := ih (fun t ht => hw t (List.mem_cons_of_mem _ ht)) ha.tail
    have hend : l.IsWord → text.EndsWord := fun hl =>
      h.endsWord (fun t ht => hw t (List.mem_cons_of_mem _ ht)) fun t ht ht' =>
        (List.isChain_cons.1 ha).1 t ht hl ht'
    obtain ⟨c, tail, hc, hgap, -, hscan⟩ := scan_written (hw _ List.mem_cons_self) text hend
    rw [tokensFrom_gap limits _ gap p hg, hc, List.cons_append, tokensFrom, hgap, hscan]
    rw [hc, List.length_cons] at ih
    simp only [Bool.false_eq_true, if_false, Nat.add_sub_cancel, List.drop_left, ih, checkStrings]
    cases checkString limits l with
    | error x => rfl
    | ok _ => cases checkStrings limits ts <;> rfl

end Scan

/-! ## Words in an expression -/

namespace Expr

/-- Not both lexemes are words. -/
def Meet (l m : Lexeme) : Prop := ¬(l.IsWord ∧ m.IsWord)

/-- A lexeme that is no word can stand between any two others. -/
theorem isChain_meet (ls : List Lexeme) {ms : List Lexeme} {l : Lexeme} (hl : ¬l.IsWord)
    (hls : ls.IsChain Meet) (hms : ms.IsChain Meet) : (ls ++ l :: ms).IsChain Meet := by
  rw [List.isChain_append]
  refine ⟨hls, List.isChain_cons.2 ⟨fun m _ h => hl h.1, hms⟩, ?_⟩
  rintro k - m hm h
  obtain rfl := Option.some.inj hm
  exact hl h.2

mutual

/-- Two words never meet in an expression. -/
theorem isChain_lexemes : ∀ e : Expr, e.lexemes.IsChain Meet
  | .number ⟨none, _⟩ _ | .string .. | .variable .. => List.isChain_singleton _
  | .number ⟨some _, _⟩ _ => isChain_meet [] id .nil (List.isChain_singleton _)
  | .group inner _ =>
    isChain_meet (.left :: inner.lexemes) id
      (isChain_meet [] id .nil (isChain_lexemes inner)) .nil
  | .binary _ left right _ => isChain_meet _ id (isChain_lexemes left) (isChain_lexemes right)
  | .call n arguments _ =>
    isChain_meet (.name n :: .left :: lexemesOfAll arguments) id
      (isChain_meet [.name n] id (List.isChain_singleton _)
        (isChain_lexemesOfAll arguments)) .nil

theorem isChain_lexemesOfAll : ∀ es : List Expr, (lexemesOfAll es).IsChain Meet
  | [] => .nil
  | [e] => isChain_lexemes e
  | e :: f :: rest => isChain_meet _ id (isChain_lexemes e) (isChain_lexemesOfAll (f :: rest))

end

/-! ## Positions do not count -/

theorem level_unplaced : ∀ e : Expr, e.unplaced.level = e.level
  | .number .. | .string .. | .variable .. | .group .. | .binary .. | .call .. => rfl

mutual

theorem canonical_unplaced : ∀ e : Expr, e.unplaced.Canonical ↔ e.Canonical
  | .number .. | .string .. | .variable .. => Iff.rfl
  | .group inner _ => by rw [unplaced, Canonical, Canonical, canonical_unplaced inner]
  | .binary _ left right _ => by
    rw [unplaced, Canonical, Canonical, canonical_unplaced left, canonical_unplaced right,
      level_unplaced, level_unplaced]
  | .call _ arguments _ => by
    rw [unplaced, Canonical, Canonical, allCanonical_unplaced arguments]

theorem allCanonical_unplaced : ∀ es : List Expr,
    AllCanonical (unplacedAll es) ↔ AllCanonical es
  | [] => Iff.rfl
  | e :: rest => by
    rw [unplacedAll, AllCanonical, AllCanonical, canonical_unplaced e, allCanonical_unplaced rest]

end

mutual

/-- Without its positions a tree has the same depth, width and number of nodes. -/
theorem size_unplaced : ∀ e : Expr,
    e.unplaced.depth = e.depth ∧ e.unplaced.width = e.width ∧ e.unplaced.nodes = e.nodes
  | .number .. | .string .. | .variable .. => ⟨rfl, rfl, rfl⟩
  | .group inner _ => by
    obtain ⟨hd, hw, hn⟩ := size_unplaced inner
    simp only [unplaced, depth, width, nodes, hd, hw, hn, and_self]
  | .binary _ left right _ => by
    obtain ⟨hdl, hwl, hnl⟩ := size_unplaced left
    obtain ⟨hdr, hwr, hnr⟩ := size_unplaced right
    simp only [unplaced, depth, width, nodes, hdl, hwl, hnl, hdr, hwr, hnr, and_self]
  | .call _ arguments _ => by
    obtain ⟨hl, hd, hw, hn⟩ := sizeOfAll_unplaced arguments
    simp only [unplaced, depth, width, nodes, hl, hd, hw, hn, and_self]

theorem sizeOfAll_unplaced : ∀ es : List Expr, (unplacedAll es).length = es.length ∧
    depthOfAll (unplacedAll es) = depthOfAll es ∧ widthOfAll (unplacedAll es) = widthOfAll es ∧
      nodesOfAll (unplacedAll es) = nodesOfAll es
  | [] => ⟨rfl, rfl, rfl, rfl⟩
  | e :: rest => by
    obtain ⟨hd, hw, hn⟩ := size_unplaced e
    obtain ⟨hls, hds, hws, hns⟩ := sizeOfAll_unplaced rest
    simp only [unplacedAll, List.length_cons, depthOfAll, widthOfAll, nodesOfAll, hd, hw, hn, hls,
      hds, hws, hns, and_self]

end

end Expr

/-! ## Statements -/

/-- A word behind `return` does not touch it. -/
def Token.ResultApart (t u : Token) : Prop :=
  t.lexeme = .result → u.lexeme.IsWord → t.stop < u.position

theorem Token.isChain_apart {ts : List Token} (h : (ts.map Token.lexeme).IsChain Expr.Meet) :
    ts.IsChain Token.Apart :=
  ((List.isChain_map _).1 h).imp fun _ _ h ht hu => (h ⟨ht, hu⟩).elim

/-- The strings of a statement are those of its expression. -/
theorem Form.Opens.string_mem_iff {form : Form} {us : List Token} (hf : form.Opens us)
    (vs : List Token) (v : Text) : Lexeme.string v ∈ (us ++ vs).map Token.lexeme ↔
      Lexeme.string v ∈ vs.map Token.lexeme := by
  cases hf <;> simp

/-- In a statement only `return` needs to be kept apart from a word. -/
theorem Form.Opens.isChain_apart {form : Form} {us vs : List Token} {e : Expr}
    (hf : form.Opens us) (he : vs.map Token.lexeme = e.lexemes)
    (hr : (us ++ vs).IsChain Token.ResultApart) : (us ++ vs).IsChain Token.Apart := by
  have hvs : vs.IsChain Token.Apart := Token.isChain_apart (he ▸ e.isChain_lexemes)
  cases hf with
  | bare => exact hvs
  | result p => exact List.isChain_cons.2 ⟨fun u hu _ => (List.isChain_cons.1 hr).1 u hu rfl, hvs⟩
  | define n p q | equals n p q =>
    refine List.isChain_cons_cons.2 ⟨fun _ h => h.elim, List.isChain_cons.2 ⟨?_, hvs⟩⟩
    exact fun _ _ h => h.elim

namespace Limits

/-- No bound is negative. -/
def Nonnegative (limits : Limits) : Prop := ∀ l, 0 ≤ limits.bound l

end Limits

namespace Statement

/-- The statement keeps the limits on one statement. -/
structure Within (limits : Limits) (st : Statement) : Prop where
  /-- The statement is not too long. -/
  length : (st.source.length : Int) ≤ limits.expressionLength
  /-- No string in it is too long. -/
  strings : ∀ v, Lexeme.string v ∈ st.expression.lexemes → (v.length : Int) ≤ limits.stringLength
  /-- No place in it has too many groups and calls around. -/
  depth : (st.expression.depth : Int) ≤ limits.depth
  /-- No call in it has too many arguments. -/
  width : (st.expression.width : Int) ≤ limits.arguments
  /-- Its tree has not too many nodes. -/
  nodes : (st.expression.nodes : Int) ≤ limits.nodes

/-- Reading a layout of a statement comes down to the checks of the limits : of its length,
of its strings, of its groups and calls, and of its size. -/
theorem read_laid (limits : Limits) {form : Form} {us vs : List Token} {e : Expr} {source : Text}
    (hc : e.Canonical) (hf : form.Opens us) (he : e.Spelled vs)
    (hw : ∀ t ∈ us ++ vs, t.lexeme.WellFormed) (hl : Laid 0 (us ++ vs) source)
    (hr : (us ++ vs).IsChain Token.ResultApart) : read limits source = (do
      limits.guard .expressionLength source.length
      Scan.checkStrings limits (us ++ vs)
      e.checkNesting limits 0
      limits.guard .nodes e.nodes
      .ok ⟨form, e, source⟩) := by
  have htokens : tokens limits source = limits.guard .expressionLength source.length >>=
      fun _ => Scan.checkStrings limits (us ++ vs) >>= fun _ => .ok (us ++ vs) := by
    rw [tokens, Scan.tokensFrom_laid limits hl hw (hf.isChain_apart he.map_lexeme hr), Limits.guard]
    cases limits.check .expressionLength source.length <;> rfl
  have hrun := Reader.run_spelled limits hc he source.length
  rw [read, htokens]
  cases limits.guard .expressionLength source.length with
  | error h => rfl
  | ok _ =>
    cases Scan.checkStrings limits (us ++ vs) with
    | error h => rfl
    | ok _ =>
      simp only [ok_bind, hf.ofTokens he, Expr.ofTokens, hrun]
      cases e.checkNesting limits 0 with
      | error h => rfl
      | ok _ => cases limits.guard .nodes e.nodes <;> rfl

/-- A layout of a statement that keeps the limits is read as the statement. -/
theorem parse_of_within {limits : Limits} (h0 : limits.Nonnegative) {form : Form}
    {us vs : List Token} {e : Expr} {source : Text} (hc : e.Canonical) (hf : form.Opens us)
    (he : e.Spelled vs) (hw : ∀ t ∈ us ++ vs, t.lexeme.WellFormed) (hl : Laid 0 (us ++ vs) source)
    (hr : (us ++ vs).IsChain Token.ResultApart) (hin : Within limits ⟨form, e, source⟩) :
    parse limits source = .ok ⟨form, e, source⟩ := by
  have hlength := (limits.guard_eq_ok_iff .expressionLength _).2 hin.length
  have hstrings : Scan.checkStrings limits (us ++ vs) = .ok () := by
    rw [Scan.checkStrings_eq_ok_iff]
    intro v hv
    rw [hf.string_mem_iff, he.map_lexeme] at hv
    exact hin.strings v hv
  have hnest : e.checkNesting limits 0 = .ok () := by
    rw [Expr.checkNesting_eq_ok_iff (h0 .arguments) e (h0 .depth), Nat.zero_add]
    exact ⟨hin.depth, hin.width⟩
  have hsize := (limits.guard_eq_ok_iff .nodes _).2 hin.nodes
  rw [parse, read_laid limits hc hf he hw hl hr, hlength, hstrings, hnest, hsize]
  rfl

/-- A statement over a canonical tree is read in every layout of its tokens if it keeps the
limits : the outcome is the statement with its form, its tree, and the positions of the
layout. If it exceeds a limit, the outcome is the report of an exceeded limit, on a stack with room
for the reading; the nodes of a tree are counted before they are found to be too many. -/
theorem parse_laid {limits : Limits} (h0 : limits.Nonnegative) (st : Statement)
    (hc : st.expression.Canonical) {us vs : List Token} (hf : st.form.Opens us)
    (he : vs.map Token.lexeme = st.expression.lexemes)
    (hw : ∀ t ∈ us ++ vs, t.lexeme.WellFormed) (hl : Laid 0 (us ++ vs) st.source)
    (hr : (us ++ vs).IsChain Token.ResultApart) :
    (st.Within limits → ∃ e : Expr, e.unplaced = st.expression.unplaced ∧ e.Spelled vs ∧
        parse limits st.source = .ok ⟨st.form, e, st.source⟩) ∧
      (¬st.Within limits → ∃ x : Excess, x.bound = limits.bound x.limit ∧ x.bound < x.actual ∧
        ∀ stack, levels limits st.source ≤ stack →
          parseOn stack limits st.source = some (.error (Report.ofExcess x))) := by
  obtain ⟨e, hu, hs⟩ := Expr.exists_spelled st.expression he
  have hce : e.Canonical := by rwa [← Expr.canonical_unplaced, hu, Expr.canonical_unplaced]
  obtain ⟨hdepth, hwidth, hnodes⟩ : e.depth = st.expression.depth ∧
      e.width = st.expression.width ∧ e.nodes = st.expression.nodes := by
    obtain ⟨hd, hw, hn⟩ := Expr.size_unplaced e
    rw [← hd, ← hw, ← hn, hu]
    exact Expr.size_unplaced st.expression
  have hread := read_laid limits hce hf hs hw hl hr
  have hnest := Expr.checkNesting_eq_ok_iff (h0 .arguments) e (d := 0) (h0 .depth)
  have hstrings := Scan.checkStrings_eq_ok_iff limits (us ++ vs)
  simp only [hf.string_mem_iff, he] at hstrings
  rw [Nat.zero_add, hdepth, hwidth] at hnest
  rw [hnodes] at hread
  constructor
  · intro hin
    refine ⟨e, hu, hs, ?_⟩
    have hlength := (limits.guard_eq_ok_iff .expressionLength _).2 hin.length
    have hsize := (limits.guard_eq_ok_iff .nodes _).2 hin.nodes
    rw [parse, hread, hlength, hstrings.2 hin.strings, hnest.2 ⟨hin.depth, hin.width⟩, hsize]
    rfl
  · intro hout
    -- A reading that succeeds has passed all the checks, so this one fails at one of them.
    have hexcess : ∃ h : Halt, read limits st.source = .error h ∧ h.IsExcess limits := by
      rw [hread]
      cases hlength : limits.guard .expressionLength st.source.length with
      | error h => exact ⟨h, rfl, Limits.isExcess_of_guard hlength⟩
      | ok _ =>
        cases hchecked : Scan.checkStrings limits (us ++ vs) with
        | error h => exact ⟨h, rfl, Scan.isExcess_of_checkStrings _ hchecked⟩
        | ok _ =>
          cases hnested : e.checkNesting limits 0 with
          | error h => exact ⟨h, rfl, Expr.isExcess_of_checkNesting e hnested⟩
          | ok _ =>
            cases hsize : limits.guard .nodes st.expression.nodes with
            | error h => exact ⟨h, rfl, Limits.isExcess_of_guard hsize⟩
            | ok _ =>
              refine (hout ?_).elim
              have hin := hnest.1 hnested
              exact ⟨(limits.guard_eq_ok_iff _ _).1 hlength, hstrings.1 hchecked, hin.1, hin.2,
                (limits.guard_eq_ok_iff _ _).1 hsize⟩
    obtain ⟨h, hr, x, rfl, hbound, hlt⟩ := hexcess
    refine ⟨x, hbound, hlt, fun stack hlevels => ?_⟩
    rw [parseOn, if_neg (Nat.not_lt.2 hlevels), parse, hr]
    rfl

/-- A name is kept apart from `return` by a line end; a bound of zero on the depth refuses the
group. -/
theorem parse_laid_group :
    let source : Text := "return\nx+( -2)"
    let tree : Expr := .binary .plus (.variable "x" 0)
      (.group (.number ⟨some .minus, ⟨[2], none, none⟩⟩ 0) 0) 0
    (∃ e : Expr, e.unplaced = tree.unplaced ∧ parse {} source = .ok ⟨.result, e, source⟩) ∧
      ∃ x : Excess,
        parseOn usualStack { depth := 0 } source = some (.error (Report.ofExcess x)) := by
  intro source tree
  let us : List Token := [⟨.result, 0⟩]
  let vs : List Token := [⟨.name "x", 7⟩, ⟨.operator .plus, 8⟩, ⟨.left, 9⟩, ⟨.operator .minus, 11⟩,
    ⟨.number ⟨[2], none, none⟩, 12⟩, ⟨.right, 13⟩]
  have hc : tree.Canonical := ⟨⟨by decide, trivial⟩, by decide, trivial⟩
  have hx : Text.IsName "x" ∧ Text.ofString "x" ≠ Lexeme.resultWord :=
    ⟨⟨by decide, by decide⟩, by decide⟩
  have hw : ∀ t ∈ us ++ vs, t.lexeme.WellFormed := by
    simp [us, vs, Lexeme.WellFormed, Numeral.WellFormed, hx]
  have hl : Laid 0 (us ++ vs) source :=
    .cons [] .result (by decide) <|
      .cons "\n" (.name "x") (by decide) <|
      .cons [] (.operator .plus) (by decide) <|
      .cons [] .left (by decide) <|
      .cons " " (.operator .minus) (by decide) <|
      .cons [] (.number ⟨[2], none, none⟩) (by decide) <|
      .cons [] .right (by decide) <|
      .nil 14 (by simp)
  have hr : (us ++ vs).IsChain Token.ResultApart := by
    have hstop : Token.stop ⟨.result, 0⟩ < 7 := by decide
    simp [us, vs, Token.ResultApart, hstop]
  have hdefault : Limits.Nonnegative {} := by
    intro l
    cases l <;> decide
  have hflat : Limits.Nonnegative { depth := 0 } := by
    intro l
    cases l <;> decide
  constructor
  · obtain ⟨e, he, -, h⟩ :=
      (parse_laid hdefault ⟨.result, tree, source⟩ hc (.result 0) rfl hw hl hr).1
        ⟨by decide, by simp [tree, Expr.lexemes, Sign.lexemes], by decide, by decide, by decide⟩
    exact ⟨e, he, h⟩
  · obtain ⟨x, -, -, h⟩ := (parse_laid hflat ⟨.result, tree, source⟩ hc (.result 0) rfl hw hl hr).2
        fun h => absurd h.depth (by decide)
    exact ⟨x, h usualStack (by decide +kernel)⟩

end Statement

end Reckon
