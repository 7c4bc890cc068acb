import Reckon.Proofs.Source.Place

/-!
# Positions of tokens and faults

A token stands in the statement where its position says : the text of the statement goes on
there with the text of the lexeme, unless the lexeme is a string (`Token.StandsIn`). So do the
nodes of a tree that is read, for they have the positions of their tokens : at the position of a
variable or a call stands its name, and at that of an operator its mark (`Expr.StandsIn`).

What stops the reading of a statement has a position in it, which may be its end
(`Statement.fault_of_read`).
-/

namespace Reckon

/-- The text goes on with `w` at a position. -/
def Text.HasAt (source : Text) (p : Nat) (w : Text) : Prop :=
  p < source.length ∧ w <+: source.drop p

/-- The text of the lexeme stands at the position of the token; a string has another text. -/
def Token.StandsIn (source : Text) (t : Token) : Prop :=
  t.position < source.length ∧
    ((∀ v, t.lexeme ≠ .string v) → source.HasAt t.position t.lexeme.text)

namespace Expr

mutual

/-- The names and operators of the tree stand where its positions say. -/
def StandsIn (source : Text) : Expr → Prop
  | .number .. => True
  | .string .. => True
  | .variable n p => source.HasAt p n
  | .group inner _ => inner.StandsIn source
  | .binary op left right p => left.StandsIn source ∧ source.HasAt p op.text ∧ right.StandsIn source
  | .call n arguments p => source.HasAt p n ∧ AllStandIn source arguments

/-- The names and operators of all trees stand where their positions say. -/
def AllStandIn (source : Text) : List Expr → Prop
  | [] => True
  | e :: rest => e.StandsIn source ∧ AllStandIn source rest

end

end Expr

/-- The fault is one of reading a statement. -/
def Fault.IsMalformed : Fault → Prop
  | .lexical _ => True
  | .grammar _ => True
  | _ => False

/-! ## Lexemes -/

namespace Scan

theorem mark_text {c : CodePoint} {l : Lexeme} (h : mark? c = some l) : l.text = [c] := by
  unfold mark? at h
  repeat' rcases of_ite_eq_some h with ⟨rfl, rfl⟩ | h
  all_goals first | rfl | cases h

theorem text_word (w : Text) : (word w).text = w := by
  unfold word
  split
  · rename_i h
    exact h.symm
  · rfl

/-- The text starts with the text of the lexeme that is scanned, if that is no string. -/
theorem scan_prefix {c : CodePoint} {rest : Text} {l : Lexeme} {n : Nat}
    (h : scan c rest = .ok (l, n)) (hl : ∀ v, l ≠ .string v) : l.text <+: c :: rest := by
  cases scanned_of_scan h with
  | @define hc tail hrest => exact ⟨tail, by rw [hc, hrest]; rfl⟩
  | mark hmark =>
    rw [mark_text hmark]
    exact ⟨rest, rfl⟩
  | string => exact (hl _ rfl).elim
  | number hm hnumeral => exact ⟨_, (Place.numeral_eq hnumeral).symm⟩
  | word hc =>
    rw [text_word]
    exact List.cons_prefix_cons.2 ⟨rfl, List.takeWhile_prefix _⟩

/-! ## Faults of lexemes -/

/-- A fault in a string is at the start of the string or in the text that is read. -/
theorem stringBody_fault : ∀ (t : Text) {offset o : Nat} {f : LexicalFault},
    stringBody offset t = .error (f, o) → o = 0 ∨ o < offset + t.length
  | [], _, _, _, h => by
    rw [stringBody] at h
    exact .inl (Prod.mk.inj (Except.error.inj h)).2.symm
  | c :: rest, offset, o, f, h => by
    rw [stringBody] at h
    rw [List.length_cons]
    split at h
    · cases h
    split at h
    · split at h
      · rename_i g hg
        have ho := congrArg Prod.snd (Except.error.inj h)
        unfold escapeFault at ho
        split at ho
        · exact .inl ho.symm
        · obtain rfl : offset = o := ho
          exact .inr (by omega)
      · rename_i d n hescape
        split at h
        · rename_i g hbody
          obtain rfl := Except.error.inj h
          rcases stringBody_fault (rest.drop n) hbody with h0 | hlt
          · exact .inl h0
          · rw [List.length_drop] at hlt
            rcases Nat.lt_or_ge n rest.length with hn | hn
            · omega
            · rw [List.drop_of_length_le hn, stringBody] at hbody
              exact .inl (Prod.mk.inj (Except.error.inj hbody)).2.symm
        · cases h
    split at h
    · exact .inl (Prod.mk.inj (Except.error.inj h)).2.symm
    split at h
    · rename_i g hbody
      obtain rfl := Except.error.inj h
      rcases stringBody_fault rest hbody with h0 | hlt
      · exact .inl h0
      · omega
    · cases h
termination_by t => t.length
decreasing_by all_goals (simp only [List.length_cons, List.length_drop]; omega)

/-- A fault of a lexeme is in the text or at its end. -/
theorem scan_fault {c : CodePoint} {rest : Text} {f : LexicalFault} {o : Nat}
    (h : scan c rest = .error (f, o)) : o ≤ (c :: rest).length := by
  cases refused_of_scan h with
  | colon | exponent | stray => exact Nat.zero_le _
  | string _ hbody =>
    have ho := stringBody_fault rest hbody
    rw [List.length_cons]
    omega
  | runOn _ hnumeral =>
    rw [Place.numeral_eq hnumeral, List.length_append]
    exact Nat.le_add_right _ _

/-! ## Tokens -/

variable {limits : Limits} {source : Text}

/-- The rest of a text is not empty at a position where it goes on. -/
theorem lt_length_of_drop {p : Nat} {c : CodePoint} {rest : Text}
    (h : source.drop p = c :: rest) : p + (c :: rest).length = source.length := by
  have hlength := congrArg List.length h
  rw [List.length_drop, List.length_cons] at hlength
  rw [List.length_cons]
  omega

/-- Behind a lexeme stands the rest of the text. -/
theorem drop_scanned {p n : Nat} {c : CodePoint} {rest : Text} (hn : 0 < n)
    (h : source.drop p = c :: rest) : source.drop (p + n) = rest.drop (n - 1) := by
  obtain ⟨m, rfl⟩ := Nat.exists_eq_succ_of_ne_zero (Nat.ne_of_gt hn)
  rw [← List.drop_drop, h]
  rfl

/-- The lexeme of a token is scanned at its position. -/
theorem exists_scan_of_tokensFrom : ∀ (t : Text) {p : Nat} {ts : List Token}, source.drop p = t →
    tokensFrom limits p t = .ok ts → ∀ u ∈ ts, ∃ c rest n,
      source.drop u.position = c :: rest ∧ scan c rest = .ok (u.lexeme, n)
  | [], _, _, _, h, u, hu => by
    rw [tokensFrom] at h
    obtain rfl := Except.ok.inj h
    cases hu
  | c :: rest, p, ts, hp, h, u, hu => by
    cases hgap : c.isGap with
    | true =>
      rw [tokensFrom, if_pos hgap] at h
      exact exists_scan_of_tokensFrom rest (drop_scanned Nat.one_pos hp) h u hu
    | false =>
      obtain ⟨l, n, more, hscan, rfl, hmore⟩ := cons_of_tokensFrom hgap h
      rcases List.mem_cons.1 hu with rfl | hu
      · exact ⟨c, rest, n, hp, hscan⟩
      · have hn := (Place.run_scan (d := 0) hscan).1
        exact exists_scan_of_tokensFrom (rest.drop (n - 1)) (drop_scanned hn hp) hmore u hu
termination_by t => t.length
decreasing_by all_goals (simp only [List.length_cons, List.length_drop]; omega)

/-- A fault of a lexeme has a position in the statement. -/
theorem fault_of_tokensFrom : ∀ (t : Text) {p q : Nat} {f : Fault}, source.drop p = t →
    tokensFrom limits p t = .error (.fault f q) → f.IsMalformed ∧ q ≤ source.length
  | [], _, _, _, _, h => by
    rw [tokensFrom] at h
    cases h
  | c :: rest, p, q, f, hp, h => by
    rw [tokensFrom] at h
    split at h
    · exact fault_of_tokensFrom rest (drop_scanned Nat.one_pos hp) h
    split at h
    · rename_i g o hscan
      obtain ⟨rfl, rfl⟩ := Halt.fault.inj (Except.error.inj h)
      refine ⟨trivial, ?_⟩
      rw [← lt_length_of_drop hp]
      exact Nat.add_le_add_left (scan_fault hscan) p
    rename_i l n hscan
    split at h
    · cases h
    split at h
    · rename_i g hmore
      obtain rfl := Except.error.inj h
      have hn := (Place.run_scan (d := 0) hscan).1
      exact fault_of_tokensFrom (rest.drop (n - 1)) (drop_scanned hn hp) hmore
    · cases h
termination_by t => t.length
decreasing_by all_goals (simp only [List.length_cons, List.length_drop]; omega)

end Scan

/-! ## Trees -/

namespace Expr

variable {source : Text}

mutual

/-- The nodes of a tree stand where its tokens do. -/
theorem Spelled.standsIn : ∀ {e : Expr} {ts : List Token}, e.Spelled ts →
    (∀ t ∈ ts, t.StandsIn source) → e.StandsIn source
  | .number .., _, _, _ => trivial
  | .string .., _, _, _ => trivial
  | .variable n p, _, h, ht => by
    cases h
    exact (ht _ List.mem_cons_self).2 fun _ h => by cases h
  | .group inner p, _, h, ht => by
    cases h with
    | group p q h => exact h.standsIn fun t hu => ht t (by simp [hu])
  | .binary op left right p, _, h, ht => by
    cases h with
    | @binary _ _ ts us op p hl hr =>
      refine ⟨hl.standsIn fun t hu => ht t (by simp [hu]), ?_,
        hr.standsIn fun t hu => ht t (by simp [hu])⟩
      exact (ht ⟨.operator op, p⟩ (by simp)).2 fun _ h => by cases h
  | .call n arguments p, _, h, ht => by
    cases h with
    | call n p q r h =>
      refine ⟨?_, h.allStandIn fun t hu => ht t (by simp [hu])⟩
      exact (ht ⟨.name n, p⟩ (by simp)).2 fun _ h => by cases h

theorem AllSpelled.allStandIn : ∀ {es : List Expr} {ts : List Token}, AllSpelled es ts →
    (∀ t ∈ ts, t.StandsIn source) → AllStandIn source es
  | [], _, _, _ => trivial
  | [_], _, h, ht => by
    cases h with
    | one h => exact ⟨h.standsIn ht, trivial⟩
  | _ :: _ :: _, _, h, ht => by
    cases h with
    | more p h hs =>
      exact ⟨h.standsIn fun t hu => ht t (by simp [hu]),
        hs.allStandIn fun t hu => ht t (by simp [hu])⟩

end

end Expr

/-! ## Reading -/

namespace Reader

variable {limits : Limits} {r : Reader} {t : Token} {f : Fault} {p : Nat}

theorem openWith_ne_fault (opening : Opening) (next : Expecting) :
    openWith limits r opening next ≠ .error (.fault f p) := by
  unfold openWith
  split <;> exact fun h => by cases h

theorem endCall_ne_fault (outside : List Enclosure) (waiting : List Waiting) (name : Text)
    (position : Nat) (arguments : List Expr) :
    endCall limits outside waiting name position arguments ≠ .error (.fault f p) := by
  unfold endCall
  split <;> exact fun h => by cases h

/-- An operand that cannot start here is at fault itself. -/
theorem operand_fault (h : operand limits r t = .error (.fault f p)) :
    (∃ g, f = .grammar g) ∧ p = t.position := by
  unfold operand at h
  simp only at h
  split at h
  · cases h
  · cases h
  · cases h
  · exact (openWith_ne_fault _ _ h).elim
  · split at h
    · cases h
    · obtain ⟨rfl, rfl⟩ := Halt.fault.inj (Except.error.inj h)
      exact ⟨⟨_, rfl⟩, rfl⟩
  · obtain ⟨rfl, rfl⟩ := Halt.fault.inj (Except.error.inj h)
    exact ⟨⟨_, rfl⟩, rfl⟩

/-- A parenthesis that is not closed is reported at the place that is looked at. -/
theorem closed_fault {enclosures : List Enclosure} {e : Expr} {position : Nat}
    (h : closed limits enclosures e position = .error (.fault f p)) :
    (∃ g, f = .grammar g) ∧ p = position := by
  unfold closed at h
  split at h
  · obtain ⟨rfl, rfl⟩ := Halt.fault.inj (Except.error.inj h)
    exact ⟨⟨_, rfl⟩, rfl⟩
  · obtain ⟨rfl, rfl⟩ := Halt.fault.inj (Except.error.inj h)
    exact ⟨⟨_, rfl⟩, rfl⟩
  · split at h <;> cases h

theorem after_fault {e : Expr} (h : after limits r e t = .error (.fault f p)) :
    (∃ g, f = .grammar g) ∧ p = t.position := by
  unfold after at h
  simp only at h
  split at h
  · cases h
  · cases h
  · exact (endCall_ne_fault _ _ _ _ _ h).elim
  · cases h
  · split at h
    · rename_i g hclosed
      obtain rfl := Except.error.inj h
      exact closed_fault hclosed
    · obtain ⟨rfl, rfl⟩ := Halt.fault.inj (Except.error.inj h)
      exact ⟨⟨_, rfl⟩, rfl⟩

/-- A token that is refused is at fault itself, or a sign in front of it is. -/
theorem step_fault (h : r.step limits t = .error (.fault f p)) :
    (∃ g, f = .grammar g) ∧ (p = t.position ∨ ∃ s, r.expecting = .signedNumber s p) := by
  obtain ⟨enclosures, waiting, expecting⟩ := r
  cases expecting with
  | operand => exact (operand_fault h).imp_right .inl
  | firstArgument =>
    simp only [step] at h
    split at h
    · exact (endCall_ne_fault _ _ _ _ _ h).elim
    · exact (operand_fault h).imp_right .inl
  | signedNumber s q =>
    simp only [step] at h
    split at h
    · cases h
    · obtain ⟨rfl, rfl⟩ := Halt.fault.inj (Except.error.inj h)
      exact ⟨⟨_, rfl⟩, .inr ⟨s, rfl⟩⟩
  | afterName n q =>
    simp only [step] at h
    split at h
    · exact (openWith_ne_fault _ _ h).elim
    · exact (after_fault h).imp_right .inl
  | afterOperand e => exact (after_fault h).imp_right .inl

theorem expecting_openWith {next : Reader} {opening : Opening} {expecting : Expecting}
    (h : openWith limits r opening expecting = .ok next) : next.expecting = expecting := by
  unfold openWith at h
  split at h
  · cases h
  · obtain rfl := Except.ok.inj h
    rfl

theorem expecting_endCall {next : Reader} {outside : List Enclosure} {waiting : List Waiting}
    {name : Text} {position : Nat} {arguments : List Expr}
    (h : endCall limits outside waiting name position arguments = .ok next) :
    next.expecting = .afterOperand (.call name arguments position) := by
  unfold endCall at h
  split at h
  · cases h
  · obtain rfl := Except.ok.inj h
    rfl

theorem operand_sign {next : Reader} {s : Sign} (h : operand limits r t = .ok next)
    (hs : next.expecting = .signedNumber s p) : p = t.position := by
  unfold operand at h
  simp only at h
  split at h
  · obtain rfl := Except.ok.inj h
    cases hs
  · obtain rfl := Except.ok.inj h
    cases hs
  · obtain rfl := Except.ok.inj h
    cases hs
  · rw [expecting_openWith h] at hs
    cases hs
  · split at h
    · obtain rfl := Except.ok.inj h
      cases hs
      rfl
    · cases h
  · cases h

theorem after_sign {next : Reader} {e : Expr} {s : Sign} (h : after limits r e t = .ok next) :
    next.expecting ≠ .signedNumber s p := by
  intro hs
  unfold after at h
  simp only at h
  split at h
  · obtain rfl := Except.ok.inj h
    cases hs
  · obtain rfl := Except.ok.inj h
    cases hs
  · rw [expecting_endCall h] at hs
    cases hs
  · obtain rfl := Except.ok.inj h
    cases hs
  · split at h <;> cases h

/-- A sign waits for its number with its own position. -/
theorem step_sign {next : Reader} {s : Sign} (h : r.step limits t = .ok next)
    (hs : next.expecting = .signedNumber s p) : p = t.position := by
  obtain ⟨enclosures, waiting, expecting⟩ := r
  cases expecting with
  | operand => exact operand_sign h hs
  | firstArgument =>
    simp only [step] at h
    split at h
    · rw [expecting_endCall h] at hs
      cases hs
    · exact operand_sign h hs
  | signedNumber s q =>
    simp only [step] at h
    split at h
    · obtain rfl := Except.ok.inj h
      cases hs
    · cases h
  | afterName n q =>
    simp only [step] at h
    split at h
    · rw [expecting_openWith h] at hs
      cases hs
    · exact (after_sign h hs).elim
  | afterOperand e => exact (after_sign h hs).elim

theorem finish_fault {position : Nat} (h : r.finish limits position = .error (.fault f p)) :
    (∃ g, f = .grammar g) ∧ (p = position ∨ ∃ s, r.expecting = .signedNumber s p) := by
  unfold finish at h
  split at h
  · obtain ⟨rfl, rfl⟩ := Halt.fault.inj (Except.error.inj h)
    exact ⟨⟨_, rfl⟩, .inl rfl⟩
  · obtain ⟨rfl, rfl⟩ := Halt.fault.inj (Except.error.inj h)
    exact ⟨⟨_, rfl⟩, .inl rfl⟩
  · rename_i s q hs
    obtain ⟨rfl, rfl⟩ := Halt.fault.inj (Except.error.inj h)
    exact ⟨⟨_, rfl⟩, .inr ⟨s, hs⟩⟩
  · exact (closed_fault h).imp_right .inl
  · exact (closed_fault h).imp_right .inl

/-- A fault is at a token, at the end, or at the sign that the reader had read before. -/
theorem run_fault {position : Nat} : ∀ {r : Reader} {ts : List Token},
    r.run limits position ts = .error (.fault f p) → (∃ g, f = .grammar g) ∧
      (p = position ∨ (∃ t ∈ ts, p = t.position) ∨ ∃ s, r.expecting = .signedNumber s p)
  | r, [], h => (finish_fault h).imp_right fun h => h.imp_right .inr
  | r, t :: ts, h => by
    rw [run] at h
    split at h
    · rename_i g hstep
      obtain rfl := Except.error.inj h
      obtain ⟨hf, hp | hs⟩ := step_fault hstep
      · exact ⟨hf, .inr (.inl ⟨t, List.mem_cons_self, hp⟩)⟩
      · exact ⟨hf, .inr (.inr hs)⟩
    · rename_i next hstep
      obtain ⟨hf, hp | ⟨u, hu, hp⟩ | ⟨s, hs⟩⟩ := run_fault h
      · exact ⟨hf, .inl hp⟩
      · exact ⟨hf, .inr (.inl ⟨u, List.mem_cons_of_mem _ hu, hp⟩)⟩
      · exact ⟨hf, .inr (.inl ⟨t, List.mem_cons_self, step_sign hstep hs⟩)⟩

end Reader

/-! ## Statements -/

namespace Statement

variable {limits : Limits} {source : Text}

theorem exists_scan_of_tokens {ts : List Token} (h : tokens limits source = .ok ts) :
    ∀ t ∈ ts, ∃ c rest n,
      source.drop t.position = c :: rest ∧ Scan.scan c rest = .ok (t.lexeme, n) :=
  Scan.exists_scan_of_tokensFrom source List.drop_zero (Scan.tokensFrom_of_tokens h)

/-- Tokens stand where their positions say. -/
theorem standsIn_of_tokens {ts : List Token} (h : tokens limits source = .ok ts) :
    ∀ t ∈ ts, t.StandsIn source := by
  intro t ht
  obtain ⟨c, rest, n, hdrop, hscan⟩ := exists_scan_of_tokens h t ht
  have hlength : t.position < source.length := by
    have := Scan.lt_length_of_drop hdrop
    rw [List.length_cons] at this
    omega
  exact ⟨hlength, fun hl => ⟨hlength, hdrop ▸ Scan.scan_prefix hscan hl⟩⟩

/-- The names and operators of a statement that is read stand where its positions say. -/
theorem standsIn_of_parse {st : Statement} (h : parse limits source = .ok st) :
    st.expression.StandsIn source := by
  obtain ⟨ts, hts, ⟨us, vs, rfl, -, he⟩, -⟩ := spelled_of_parse h
  exact he.standsIn fun t ht => standsIn_of_tokens hts t (List.mem_append_right _ ht)

/-- What stops the reading has a position in the statement, or is at its end. -/
theorem fault_of_read {f : Fault} {p : Nat} (h : read limits source = .error (.fault f p)) :
    f.IsMalformed ∧ p ≤ source.length := by
  unfold read at h
  split at h
  · rename_i g htokens
    obtain rfl := Except.error.inj h
    unfold tokens at htokens
    split at htokens
    · cases htokens
    · exact Scan.fault_of_tokensFrom source List.drop_zero htokens
  · rename_i ts htokens
    obtain ⟨us, hus, -⟩ := Form.exists_of_ofTokens ts
    simp only at h
    split at h
    · rename_i g hread
      obtain rfl := Except.error.inj h
      obtain ⟨⟨g, rfl⟩, rfl | ⟨t, ht, rfl⟩ | ⟨s, hs⟩⟩ := Reader.run_fault hread
      · exact ⟨trivial, Nat.le_refl _⟩
      · have hmem : t ∈ ts := by
          rw [hus]
          exact List.mem_append_right _ ht
        exact ⟨trivial, Nat.le_of_lt (standsIn_of_tokens htokens t hmem).1⟩
      · cases hs
    · cases h

end Statement

end Reckon
