import Reckon.Evaluation
import Reckon.Number.Elementary.Rounded
import Reckon.Proofs.Grammar.Sites
import Reckon.Proofs.Source.Boundary

/-!
# Written calls of `string`

The rewriting makes the argument of each call of `string` that it meets a literal
(`Text.rewrittenCalls`). An argument between quotation marks is taken as it is, and so it is one
literal only if it was one before. Every other argument becomes one literal.

If the statements of the rewritten expression can be read, such a call stands in one of them, for it
stands in code and nothing in it is cut. A token starts where it starts, since it is not in a word.
So it is a call of the tree, and its literal is its only argument.
-/

namespace Reckon

open Place

namespace StringCall

/-! ## Arguments -/

/-- The argument lies between quotation marks and is not one string literal. -/
def Compound (argument : Text) : Prop :=
  isEnclosed CodePoint.quote argument = true ∧ ∀ v, ¬argument.IsLiteral v

theorem exists_isLiteral_iff (argument : Text) :
    (∃ v, (argumentLiteral argument).IsLiteral v) ↔ ¬Compound argument := by
  unfold Compound argumentLiteral
  split
  · rename_i hquote
    simp only [hquote, true_and, not_forall, not_not]
  · rename_i hquote
    refine iff_of_true ?_ fun h => hquote h.1
    split <;> exact ⟨_, Text.isLiteral_literal _⟩

theorem isEnclosed_argumentLiteral (argument : Text) :
    isEnclosed CodePoint.quote (argumentLiteral argument) = true := by
  unfold argumentLiteral
  split
  · assumption
  split <;> exact isEnclosed_self _ _

/-! ## Calls that are met -/

/-- The calls of `string` that the rewriting meets, each with the rewritten text in front of it and
its argument as it is written. `before` is the rewritten text in front of the rest. -/
def rewrittenCalls (joined : Bool) (before : Text) : Text → List (Text × Text)
  | [] => []
  | c :: rest =>
    if c = CodePoint.quote then
      let n := quotedLength CodePoint.quote rest
      rewrittenCalls false (before ++ c :: rest.take n) (rest.drop n)
    else if !joined && opening.isPrefixOf (c :: rest) then
      let inside := rest.drop 6
      match argumentLength? none 0 inside with
      | some n =>
        (before, inside.take n) ::
          rewrittenCalls false (before ++ call (argumentLiteral (inside.take n)))
            (inside.drop (n + 1))
      | none => rewrittenCalls (isWordPart c) (before ++ [c]) rest
    else rewrittenCalls (isWordPart c) (before ++ [c]) rest
termination_by t => t.length
decreasing_by all_goals (simp only [List.length_cons, List.length_drop]; omega)

theorem Closing.getLast?_take {mark : CodePoint} {t : Text} {n : Nat} (h : Closing mark t n) :
    (t.take n).getLast? = some mark := by
  induction h with
  | mark rest hm => rfl
  | escape c h ih => simp [List.getLast?_cons, ih]
  | other hb hm h ih => simp [List.getLast?_cons, ih]

/-- A code point that opens no string leads from code to code. -/
theorem exists_run_concat {p r : Place} {t w : Text} {c : CodePoint} {d : Nat}
    (hc : c ≠ CodePoint.quote) (ht : run p t = some (.code d))
    (hrun : run (.code d) (c :: w) = some r) :
    ∃ e, run p (t ++ [c]) = some (.code e) ∧ run (.code e) w = some r := by
  obtain ⟨q, hstep, hw⟩ := Option.bind_eq_some_iff.1 ((run_cons _ c w).symm.trans hrun)
  obtain ⟨e, rfl⟩ := exists_of_step_code hc hstep
  refine ⟨e, run_append_eq_some_iff.2 ⟨_, ht, ?_⟩, hw⟩
  rw [run_cons, hstep]
  rfl

/-- A call that is met stands in code and not behind a part of a word. -/
theorem exists_of_mem_rewrittenCalls {joined : Bool} {before t b argument : Text} {d : Nat}
    (h : (b, argument) ∈ rewrittenCalls joined before t)
    (hjoined : joined = false → before.EndsApart) (hbefore : run (.code 0) before = some (.code d))
    (hrun : run (.code d) (replaceArguments joined t) = some (.code 0)) :
    ∃ rest e, before ++ replaceArguments joined t = b ++ call (argumentLiteral argument) ++ rest ∧
      run (.code 0) b = some (.code e) ∧ b.EndsApart := by
  fun_induction rewrittenCalls joined before t generalizing d with
  | case1 => cases h
  | case2 joined before rest n =>
    rename_i ih
    rcases closing_or_open rest with hclosing | ⟨hlen, hopen⟩
    · rw [replaceArguments_quote] at hrun ⊢
      have hstring := hclosing.run_take d
      rw [← List.append_assoc]
      refine ih h (fun _ => .of_getLast? (c := CodePoint.quote) ?_ (by decide))
        (run_append_eq_some_iff.2 ⟨_, hbefore, hstring⟩) (run_string_piece hclosing hrun)
      rw [List.getLast?_append, List.getLast?_cons, hclosing.getLast?_take]
      rfl
    · exact (run_openString_piece hlen hopen hrun).elim
  | case3 joined before c rest hq hcall inside n hn =>
    rename_i ih
    have hreplace : replaceArguments joined (c :: rest) =
        call (argumentLiteral (inside.take n)) ++ replaceArguments false (inside.drop (n + 1)) := by
      rw [replaceArguments, if_neg hq, if_pos hcall]
      simp only [inside, hn]
      rfl
    rw [hreplace] at hrun ⊢
    have hargument := Argument.of_argumentLength? inside hn
    rcases List.mem_cons.1 h with hhere | hlater
    · obtain ⟨rfl, rfl⟩ := Prod.mk.inj hhere
      obtain ⟨hfalse, -⟩ := Bool.and_eq_true_iff.1 hcall
      exact ⟨_, d, by rw [List.append_assoc], hbefore, hjoined (by simpa using hfalse)⟩
    · obtain ⟨q, hq, -⟩ := run_append_eq_some_iff.1 hrun
      obtain rfl : Place.code d = q := by
        refine Option.some.inj (run_call_piece (w := []) hargument ?_)
        rwa [List.append_nil]
      rw [← List.append_assoc]
      refine ih hlater (fun _ => .of_getLast? (c := CodePoint.ofChar ')') ?_ (by decide))
        (run_append_eq_some_iff.2 ⟨_, hbefore, hq⟩) (run_call_piece hargument hrun)
      rw [call, ← List.append_assoc, List.getLast?_append]
      rfl
  | case4 joined before c rest hq hcall inside hn =>
    rename_i ih
    have hreplace : replaceArguments joined (c :: rest) =
        c :: replaceArguments (isWordPart c) rest := by
      rw [replaceArguments, if_neg hq, if_pos hcall]
      simp only [inside, hn]
    rw [hreplace] at hrun ⊢
    obtain ⟨e, hbefore, hrun⟩ := exists_run_concat hq hbefore hrun
    rw [List.append_cons]
    exact ih h (fun hc => .of_getLast? List.getLast?_concat hc) hbefore hrun
  | case5 joined before c rest hq hcall ih =>
    have hreplace : replaceArguments joined (c :: rest) =
        c :: replaceArguments (isWordPart c) rest := by
      rw [replaceArguments, if_neg hq, if_neg hcall]
    rw [hreplace] at hrun ⊢
    obtain ⟨e, hbefore, hrun⟩ := exists_run_concat hq hbefore hrun
    rw [List.append_cons]
    exact ih h (fun hc => .of_getLast? List.getLast?_concat hc) hbefore hrun

end StringCall

/-! ## Where a call stands -/

namespace Scan

/-- A lexeme that is scanned at the start of a text is its first token. -/
theorem tokensFrom_of_scan {limits : Limits} {c : CodePoint} {rest : Text} {l : Lexeme} {n p : Nat}
    {ts : List Token} (hgap : c.isGap = false) (hscan : scan c rest = .ok (l, n))
    (h : tokensFrom limits p (c :: rest) = .ok ts) : ∃ more, ts = ⟨l, p⟩ :: more ∧
      tokensFrom limits (p + n) (rest.drop (n - 1)) = .ok more := by
  obtain ⟨m, k, more, hscan', rfl, hmore⟩ := cons_of_tokensFrom hgap h
  obtain ⟨rfl, rfl⟩ := Prod.mk.inj (Except.ok.inj (hscan.symm.trans hscan'))
  exact ⟨more, rfl, hmore⟩

/-- The tokens of a call of `string` with a literal. -/
theorem tokensFrom_call {limits : Limits} {t v rest : Text} {p : Nat} {ts : List Token}
    (ht : t.IsLiteral v) (h : tokensFrom limits p (StringCall.call t ++ rest) = .ok ts) :
    ∃ r us, ts =
      ⟨.name "string", p⟩ :: ⟨.left, p + 6⟩ :: ⟨.string v, p + 7⟩ :: ⟨.right, r⟩ :: us := by
  obtain ⟨tail, rfl, hstring⟩ := ht.scan (CodePoint.ofChar ')' :: rest)
  have hcall : StringCall.call (CodePoint.quote :: tail) ++ rest = CodePoint.ofChar 's' ::
      (Text.ofString "tring" ++ CodePoint.ofChar '(' :: CodePoint.quote ::
        (tail ++ CodePoint.ofChar ')' :: rest)) := by
    simp only [StringCall.call, List.append_assoc]
    rfl
  have hname : scan (CodePoint.ofChar 's') (Text.ofString "tring" ++ CodePoint.ofChar '(' ::
      CodePoint.quote :: (tail ++ CodePoint.ofChar ')' :: rest)) = .ok (.name "string", 6) := by
    refine scan_name ⟨by decide, by decide⟩ fun c hc => ?_
    obtain rfl := Option.some.inj hc
    decide
  rw [hcall] at h
  obtain ⟨us, rfl, hleft⟩ := tokensFrom_of_scan (by decide) hname h
  obtain ⟨us, rfl, hliteral⟩ := tokensFrom_of_scan (by decide) (scan_mark _ (by decide) rfl) hleft
  obtain ⟨us, rfl, hright⟩ := tokensFrom_of_scan (by decide) hstring hliteral
  rw [Nat.add_sub_cancel, List.drop_left] at hright
  obtain ⟨us, rfl, -⟩ := tokensFrom_of_scan (by decide) (scan_mark _ (by decide) rfl) hright
  exact ⟨_, us, rfl⟩

end Scan

namespace StringCall

/-- A call with a literal that stands in code stands in one statement. -/
theorem exists_statement {b body : Text} {e : Nat} (hb : run (.code 0) b = some (.code e))
    (hbody : Closing CodePoint.quote body body.length) (rest : Text) :
    ∃ pre x y post, b = pre ++ x ∧ rest = y ++ post ∧ run (.code 0) x = some (.code e) ∧
      x ++ call (CodePoint.quote :: body) ++ y ∈
        (b ++ call (CodePoint.quote :: body) ++ rest).statements := by
  obtain ⟨pieces, u, v, rfl, hv, hpieces⟩ := Segments.exists_last hb
  obtain ⟨first, others, hrest⟩ := List.exists_cons_of_ne_nil (Segments.ofText_ne_nil false e rest)
  obtain ⟨post, rfl⟩ : ∃ post, rest = first ++ post := by
    have hjoin := Segments.join_ofText false e rest
    rw [hrest] at hjoin
    rw [← hjoin]
    cases others with
    | nil => exact ⟨[], (List.append_nil _).symm⟩
    | cons second others => exact ⟨_, List.append_assoc ..⟩
  have hsegments : (u ++ v ++ call (CodePoint.quote :: body) ++ (first ++ post)).segments =
      pieces ++ (v ++ call (CodePoint.quote :: body) ++ first) :: others := by
    rw [List.append_assoc (u ++ v), hpieces, Segments.ofPlace, ofText_call hbody, hrest,
      Segments.foldr_extend, Segments.foldr_extend, List.append_assoc]
  obtain ⟨l, hl, hblank⟩ := Text.exists_trimStart v
  obtain ⟨r, hr, -⟩ := Text.exists_trimEnd first
  refine ⟨u ++ l, v.trimStart, first.trimEnd, r ++ post, ?_, ?_, ?_, ?_⟩
  · rw [List.append_assoc, ← hl]
  · rw [← List.append_assoc, ← hr]
  · have hcode : run (.code 0) l = some (.code 0) :=
      run_code_of_isPlain fun c hc => isPlain_of_isBlank (hblank c hc)
    rwa [hl, run_append, hcode, Option.bind_some] at hv
  · -- The call starts and ends with no blank.
    have htrim : (v ++ call (CodePoint.quote :: body) ++ first).trim =
        v.trimStart ++ call (CodePoint.quote :: body) ++ first.trimEnd := by
      rw [Text.trim, List.append_assoc, Text.trimStart_append, ← List.append_assoc,
        Text.trimEnd_append]
      · intro c hc
        rw [call, ← List.append_assoc, List.getLast?_append] at hc
        obtain rfl := Option.some.inj hc
        decide
      · intro c hc
        obtain rfl := Option.some.inj hc
        decide
    rw [Text.statements, hsegments]
    refine List.mem_filter.2 ⟨List.mem_map.2 ⟨_, ?_, htrim⟩, by simp [call]⟩
    exact List.mem_append_right pieces List.mem_cons_self

end StringCall

/-- The calls of `string` in an expression whose arguments are made literals, each with the
rewritten text in front of it and its argument as it is written. -/
def Text.rewrittenCalls (t : Text) : List (Text × Text) := StringCall.rewrittenCalls false [] t

namespace StringCall

/-- In an expression whose statements are read, a call of `string` with one literal is a call of a
tree, and the literal is its only argument. -/
theorem exists_call_of_mem_rewrittenCalls {limits : Limits} {t before argument v : Text}
    (hparse : ∀ source ∈ t.sources, ∃ st, Statement.parse limits source = .ok st)
    (h : (before, argument) ∈ t.rewrittenCalls) (hv : (argumentLiteral argument).IsLiteral v) :
    ∃ source ∈ t.sources, ∃ st pre x y post, Statement.parse limits source = .ok st ∧
      t.withLiteralArguments = pre ++ source ++ post ∧ before = pre ++ x ∧
      source = x ++ call (argumentLiteral argument) ++ y ∧
      .call "string" [.string v (x.length + 7)] x.length ∈ st.expression.subtrees := by
  have hrun : run (.code 0) t.withLiteralArguments = some (.code 0) :=
    Text.run_of_statements fun source hsource =>
      let ⟨_, hst⟩ := hparse source hsource
      run_of_parse hst
  obtain ⟨rest, e, hwhole, hbefore, hends⟩ := exists_of_mem_rewrittenCalls h
    (fun _ c hc => by cases hc) rfl hrun
  change t.withLiteralArguments = _ at hwhole
  have ⟨body, hbody, hstring⟩ := hv
  obtain ⟨pre, x, y, post, rfl, rfl, hx, hmem⟩ :=
    exists_statement hbefore (Closing.of_stringBody hstring) rest
  rw [← hbody, ← hwhole] at hmem
  obtain ⟨st, hst⟩ := hparse _ hmem
  obtain ⟨ts, hts, hspelled, -⟩ := Statement.spelled_of_parse hst
  have htokens := Scan.tokensFrom_of_tokens hts
  rw [List.append_assoc] at htokens
  have hstart : Text.StartsApart (call (argumentLiteral argument) ++ y) := fun c hc => by
    obtain rfl := Option.some.inj hc
    decide
  obtain ⟨us, vs, rfl, hvs⟩ :=
    Scan.exists_tokensFrom_append hstart x hx hends.of_append htokens
  obtain ⟨r, vs, rfl⟩ := Scan.tokensFrom_call hv hvs
  obtain ⟨arguments, us, q, ws, hcall, harguments, hsplit⟩ := hspelled.exists_call
  obtain rfl := harguments.eq_string hsplit.symm
  refine ⟨_, hmem, st, pre, x, y, post, hst, ?_, rfl, rfl, ?_⟩
  · rw [hwhole]
    simp only [List.append_assoc]
  · simpa only [Nat.zero_add] using hcall

/-- An argument becomes one string literal unless it lies between quotation marks and is none. So if
the statements of an expression are read, every call of `string` with another argument is a call of
a tree, with the literal as its only argument. -/
theorem argumentLiteral_single (limits : Limits) :
    (∀ argument : Text, ((argumentLiteral argument).length : Int) ≤ limits.expressionLength →
      ((argumentLiteral argument).length : Int) ≤ limits.stringLength →
      ((∃ v, tokens limits (argumentLiteral argument) = .ok [⟨.string v, 0⟩]) ↔
        ¬Compound argument)) ∧
    ∀ t : Text, (∀ source ∈ t.sources, ∃ st, Statement.parse limits source = .ok st) →
      ∀ before argument, (before, argument) ∈ t.rewrittenCalls → ¬Compound argument →
        ∃ v, (argumentLiteral argument).IsLiteral v ∧
          ∃ source ∈ t.sources, ∃ st pre x y post, Statement.parse limits source = .ok st ∧
            t.withLiteralArguments = pre ++ source ++ post ∧ before = pre ++ x ∧
            source = x ++ call (argumentLiteral argument) ++ y ∧
            .call "string" [.string v (x.length + 7)] x.length ∈ st.expression.subtrees := by
  refine ⟨fun argument hlength hstring => ?_, fun t hparse before argument hcall hargument => ?_⟩
  · rw [← exists_isLiteral_iff]
    exact exists_congr fun v =>
      Text.tokens_eq_singleton_iff (isEnclosed_argumentLiteral argument) hlength hstring
  · obtain ⟨v, hv⟩ := (exists_isLiteral_iff argument).2 hargument
    exact ⟨v, hv, exists_call_of_mem_rewrittenCalls hparse hcall hv⟩

/-- A word in code becomes the only argument of its call, behind another statement. -/
theorem argumentLiteral_single_word :
    let t : Text := "1;2+string(a)"
    (∀ source ∈ t.sources, ∃ st, Statement.parse {} source = .ok st) ∧
      (("1;2+" : Text), ("a" : Text)) ∈ t.rewrittenCalls ∧ ¬Compound "a" ∧
        ∃ v, (argumentLiteral "a").IsLiteral v ∧
          ∃ source ∈ t.sources, ∃ st pre x y post, Statement.parse {} source = .ok st ∧
            t.withLiteralArguments = pre ++ source ++ post ∧ "1;2+" = pre ++ x ∧
            source = x ++ call (argumentLiteral "a") ++ y ∧
            .call "string" [.string v (x.length + 7)] x.length ∈ st.expression.subtrees := by
  intro t
  have hparse : ∀ source ∈ t.sources, ∃ st, Statement.parse {} source = .ok st := by
    have hok : ∀ source ∈ t.sources, (Statement.parse {} source).toBool = true := by
      decide +kernel
    intro source hsource
    cases hst : Statement.parse {} source with
    | error r =>
      have hok := hok source hsource
      rw [hst] at hok
      cases hok
    | ok st => exact ⟨st, rfl⟩
  have hcall : (("1;2+" : Text), ("a" : Text)) ∈ t.rewrittenCalls := by decide +kernel
  have hargument : ¬Compound "a" := fun h => absurd h.1 (by decide)
  exact ⟨hparse, hcall, hargument, (argumentLiteral_single {}).2 t hparse _ _ hcall hargument⟩

attribute [local instance] Library.rounded

/-- Two literals with a comma between them lie between quotation marks, and stay two arguments. -/
theorem not_single_of_two_literals :
    (¬ ∀ argument : Text, ((argumentLiteral argument).length : Int) ≤ Limits.expressionLength {} →
      ((argumentLiteral argument).length : Int) ≤ Limits.stringLength {} →
      ∃ v, tokens {} (argumentLiteral argument) = .ok [⟨.string v, 0⟩]) ∧
    (evaluate ⟨.standard, {}, .standard, fun _ => .one⟩ "string(\x22a\x22,\x22b\x22)").1 =
      .error (.report ⟨.arity "string" 1 2, some 0, some "string(\x22a\x22,\x22b\x22)"⟩) := by
  refine ⟨fun h => ?_, by decide +kernel⟩
  obtain ⟨v, hv⟩ := h "\x22a\x22,\x22b\x22" (by decide) (by decide)
  have htwo : tokens {} (argumentLiteral "\x22a\x22,\x22b\x22") =
      .ok [⟨.string "a", 0⟩, ⟨.comma, 3⟩, ⟨.string "b", 4⟩] := by decide +kernel
  cases htwo.symm.trans hv

end StringCall

end Reckon
