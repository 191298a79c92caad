import LoopNest.Proofs.Token.Rendering

/-! Cutting piece by piece. The pieces of a text make it up, and a stretch of whole pieces is cut
into the same pieces where it stands alone: how far a piece goes is decided by its own characters,
so it stays the same when the text ends sooner, as long as it does not end within the piece. -/
namespace LoopNest.Lexer

section Cut

variable {as bs : List Char}

/-- A run that ends within the first part of a text does not look at the second. -/
theorem takeWhile_cut {p : Char → Bool} (h : ((as ++ bs).takeWhile p).length ≤ as.length) :
    as.takeWhile p = (as ++ bs).takeWhile p := by
  rw [List.takeWhile_append] at h ⊢
  split_ifs at h ⊢ with hall
  · have hrest : bs.takeWhile p = [] := by
      rw [List.length_append] at h
      exact List.eq_nil_of_length_eq_zero (by omega)
    rw [hrest, List.append_nil]
    exact (List.takeWhile_prefix p).eq_of_length hall
  · rfl

theorem digitCount_le (cs : List Char) : digitCount cs ≤ cs.length :=
  (List.takeWhile_prefix Char.isDigit).length_le

theorem digitCount_cut (h : digitCount (as ++ bs) ≤ as.length) :
    digitCount as = digitCount (as ++ bs) :=
  congrArg List.length (takeWhile_cut h)

theorem fractionLength_point (cs : List Char) :
    fractionLength ('.' :: cs) = if digitCount cs = 0 then 0 else digitCount cs + 1 := rfl

theorem fractionLength_other {c : Char} (h : c ≠ '.') (cs : List Char) :
    fractionLength (c :: cs) = 0 := by
  rw [fractionLength]
  rintro _ ⟨rfl⟩
  exact h rfl

theorem fractionLength_le (cs : List Char) : fractionLength cs ≤ cs.length := by
  cases cs with
  | nil => exact Nat.le_refl 0
  | cons c cs =>
    by_cases hc : c = '.'
    · subst hc
      have hcount := digitCount_le cs
      rw [fractionLength_point, List.length_cons]
      split_ifs <;> omega
    · rw [fractionLength_other hc]
      exact Nat.zero_le _

theorem fractionLength_cut (h : fractionLength (as ++ bs) ≤ as.length) :
    fractionLength as = fractionLength (as ++ bs) := by
  cases as with
  | nil => exact (Nat.le_zero.1 h).symm
  | cons c as =>
    by_cases hc : c = '.'
    · subst hc
      rw [List.cons_append, fractionLength_point, List.length_cons] at h
      rw [List.cons_append, fractionLength_point, fractionLength_point, digitCount_cut]
      split_ifs at h <;> omega
    · rw [List.cons_append, fractionLength_other hc, fractionLength_other hc]

/-- The length of the sign in front. -/
def signLength : List Char → Nat
  | [] => 0
  | c :: _ => if c = '+' ∨ c = '-' then 1 else 0

theorem exponentLength_letter {c : Char} (h : c = 'e' ∨ c = 'E') (cs : List Char) :
    exponentLength (c :: cs) = if digitCount (cs.drop (signLength cs)) = 0 then 0
      else digitCount (cs.drop (signLength cs)) + signLength cs + 1 := by
  cases cs with
  | nil =>
    rw [exponentLength, if_pos h]
    · rfl
    · rintro _ ⟨⟩
    · rintro _ ⟨⟩
  | cons s cs =>
    by_cases hs : s = '+' ∨ s = '-'
    · rw [signLength, if_pos hs]
      rcases hs with rfl | rfl <;> rw [exponentLength, if_pos h] <;> rfl
    · rw [signLength, if_neg hs, exponentLength, if_pos h]
      · rfl
      · rintro _ ⟨rfl⟩
        exact hs (.inl rfl)
      · rintro _ ⟨rfl⟩
        exact hs (.inr rfl)

theorem exponentLength_other {c : Char} (h : ¬ (c = 'e' ∨ c = 'E')) (cs : List Char) :
    exponentLength (c :: cs) = 0 := if_neg h

theorem signLength_le (cs : List Char) : signLength cs ≤ cs.length := by
  cases cs with
  | nil => exact Nat.le_refl 0
  | cons c cs =>
    rw [signLength, List.length_cons]
    split_ifs <;> omega

theorem exponentLength_le (cs : List Char) : exponentLength cs ≤ cs.length := by
  cases cs with
  | nil => exact Nat.le_refl 0
  | cons c cs =>
    by_cases hc : c = 'e' ∨ c = 'E'
    · have hsign := signLength_le cs
      have hcount := digitCount_le (cs.drop (signLength cs))
      rw [List.length_drop] at hcount
      rw [exponentLength_letter hc, List.length_cons]
      split_ifs <;> omega
    · rw [exponentLength_other hc]
      exact Nat.zero_le _

theorem exponentLength_cut (h : exponentLength (as ++ bs) ≤ as.length) :
    exponentLength as = exponentLength (as ++ bs) := by
  cases as with
  | nil => exact (Nat.le_zero.1 h).symm
  | cons c as =>
    by_cases hc : c = 'e' ∨ c = 'E'
    · rw [List.cons_append, exponentLength_letter hc, List.length_cons] at h
      rw [List.cons_append, exponentLength_letter hc, exponentLength_letter hc]
      cases as with
      | nil =>
        -- with a digit after it the letter would not be the end
        have hnone : digitCount (([] ++ bs).drop (signLength ([] ++ bs))) = 0 := by
          by_contra hne
          rw [if_neg hne] at h
          exact hne (by simp only [List.length_nil] at h; omega)
        rw [if_pos hnone]
        rfl
      | cons s as =>
        have hsign : signLength (s :: as ++ bs) = signLength (s :: as) := rfl
        have hle := signLength_le (s :: as)
        rw [hsign, List.drop_append_of_le_length hle] at h ⊢
        rw [digitCount_cut]
        rw [List.length_drop]
        split_ifs at h <;> omega
    · rw [List.cons_append, exponentLength_other hc, exponentLength_other hc]

theorem numberLength_le (cs : List Char) : (numberLength cs).1 ≤ cs.length := by
  have hwhole := digitCount_le cs
  have hfraction := fractionLength_le (cs.drop (digitCount cs))
  have hexponent := exponentLength_le
    (cs.drop (digitCount cs + fractionLength (cs.drop (digitCount cs))))
  rw [List.length_drop] at hfraction hexponent
  simp only [numberLength]
  omega

theorem numberLength_cut (h : (numberLength (as ++ bs)).1 ≤ as.length) :
    numberLength as = numberLength (as ++ bs) := by
  simp only [numberLength] at h ⊢
  have hwhole : digitCount as = digitCount (as ++ bs) := digitCount_cut (by omega)
  rw [← hwhole, List.drop_append_of_le_length (digitCount_le as)] at h ⊢
  have hfraction : fractionLength (as.drop (digitCount as)) =
      fractionLength (as.drop (digitCount as) ++ bs) := by
    refine fractionLength_cut ?_
    rw [List.length_drop]
    omega
  have hle := fractionLength_le (as.drop (digitCount as))
  have hcount := digitCount_le as
  rw [List.length_drop] at hle
  rw [← hfraction, List.drop_append_of_le_length (by omega)] at h ⊢
  have hexponent :
      exponentLength (as.drop (digitCount as + fractionLength (as.drop (digitCount as)))) =
        exponentLength
          (as.drop (digitCount as + fractionLength (as.drop (digitCount as))) ++ bs) := by
    refine exponentLength_cut ?_
    rw [List.length_drop]
    omega
  rw [hexponent]

theorem stringLength_escape_char {c : Char} (h : c ≠ '\n') (cs : List Char) :
    stringLength ('\\' :: c :: cs) = ((stringLength cs).1 + 2, (stringLength cs).2) := by
  rw [stringLength, if_neg h]

theorem stringLength_char {c : Char} (hquote : c ≠ '"') (hescape : c ≠ '\\') (cs : List Char) :
    stringLength (c :: cs) = ((stringLength cs).1 + 1, (stringLength cs).2) := by
  rw [stringLength]
  · exact hquote
  · exact fun _ _ he _ => hescape he
  · exact fun he _ => hescape he

theorem ne_escape {c : Char} {cs : List Char} (hpair : ∀ d ds, c = '\\' → cs = d :: ds → False)
    (hlast : c = '\\' → cs = [] → False) : c ≠ '\\' := by
  intro hc
  cases cs with
  | nil => exact hlast hc rfl
  | cons d ds => exact hpair d ds hc rfl

theorem stringLength_le (cs : List Char) : (stringLength cs).1 ≤ cs.length := by
  fun_induction stringLength cs with
  | case1 => exact Nat.le_refl 0
  | case2 => simp
  | case3 => exact Nat.zero_le _
  | case4 _ _ _ _ _ hrest ih =>
    rw [hrest] at ih
    simpa using ih
  | case5 => exact Nat.zero_le _
  | case6 _ _ _ _ _ _ _ hrest ih =>
    rw [hrest] at ih
    simpa using ih

theorem stringLength_eq_of_le_zero {cs : List Char} (h : (stringLength cs).1 ≤ 0) :
    stringLength cs = (0, false) := by
  fun_induction stringLength cs with
  | case1 | case3 | case5 => rfl
  | case2 | case4 | case6 => simp at h

theorem stringLength_cut (h : (stringLength (as ++ bs)).1 ≤ as.length) :
    stringLength as = stringLength (as ++ bs) := by
  fun_induction stringLength as with
  | case1 => exact (stringLength_eq_of_le_zero h).symm
  | case2 => rfl
  | case3 => rfl
  | case4 c cs hc n closed hrest ih =>
    rw [List.cons_append, List.cons_append, stringLength_escape_char hc] at h ⊢
    simp only [List.length_cons] at h
    rw [← ih (by omega), hrest]
  | case5 =>
    -- a character after the backslash would belong to the string with it
    cases bs with
    | nil => rfl
    | cons c bs =>
      by_cases hc : c = '\n'
      · subst hc
        rfl
      · rw [List.cons_append, List.nil_append, stringLength_escape_char hc] at h
        simp only [List.length_cons, List.length_nil] at h
        omega
  | case6 c cs hquote hpair hlast n closed hrest ih =>
    rw [List.cons_append, stringLength_char hquote (ne_escape hpair hlast)] at h ⊢
    simp only [List.length_cons] at h
    rw [← ih (by omega), hrest]

end Cut

section Pieces

/-- The ways in which a piece starts: its first character decides how far it goes and what it is,
given the text that follows. -/
inductive Start : Char → (List Char → Nat × PieceKind) → Prop
  | blank {c : Char} (h : isBlank c = true) :
    Start c fun cs => ((cs.takeWhile isBlank).length, .blank)
  | comment : Start '#' fun cs => ((cs.takeWhile (· != '\n')).length, .blank)
  | word {c : Char} (h : isWordStart c = true) : Start c fun cs =>
      ((cs.takeWhile isWordPart).length, .token (wordToken (c :: cs.takeWhile isWordPart)))
  | digit {c : Char} (h : c.isDigit = true) : Start c fun cs =>
      ((numberLength (c :: cs)).1 - 1,
        numberKind (c :: cs.take ((numberLength (c :: cs)).1 - 1)) (numberLength (c :: cs)).2)
  | minus : Start '-' fun cs =>
      if digitCount cs = 0 then (0, .stray)
      else ((numberLength cs).1,
        numberKind ('-' :: cs.take (numberLength cs).1) (numberLength cs).2)
  | quote : Start '"' fun cs =>
      ((stringLength cs).1, stringKind (cs.take ((stringLength cs).1 - 1)) (stringLength cs).2)
  | symbol (s : Symbol) : Start s.char fun _ => (0, .token (.symbol s))
  | stray (c : Char) : Start c fun _ => (0, .stray)

theorem pieceAt_of_isBlank {c : Char} (h : isBlank c = true) (cs : List Char) :
    pieceAt c cs = ((cs.takeWhile isBlank).length, .blank) := if_pos h

theorem pieceAt_of_isWordStart {c : Char} (h : isWordStart c = true) (cs : List Char) :
    pieceAt c cs = ((cs.takeWhile isWordPart).length,
      .token (wordToken (c :: cs.takeWhile isWordPart))) := by
  obtain ⟨hblank, hnote⟩ := not_blank_of_isWordStart h
  rw [pieceAt, if_neg (by simp [hblank]), if_neg hnote, if_pos h]

theorem pieceAt_of_isDigit {c : Char} (h : c.isDigit = true) (cs : List Char) :
    pieceAt c cs = ((numberLength (c :: cs)).1 - 1,
      numberKind (c :: cs.take ((numberLength (c :: cs)).1 - 1)) (numberLength (c :: cs)).2) := by
  obtain ⟨hblank, hnote, hword⟩ := not_isWordStart_of_isDigit h
  rw [pieceAt, if_neg (by simp [hblank]), if_neg hnote, if_neg (by simp [hword]), if_pos h]

theorem pieceAt_dash (cs : List Char) :
    pieceAt '-' cs = if digitCount cs = 0 then (0, .stray)
      else ((numberLength cs).1,
        numberKind ('-' :: cs.take (numberLength cs).1) (numberLength cs).2) := by
  by_cases hcount : digitCount cs = 0
  · rw [pieceAt, if_neg (by decide), if_neg (by decide), if_neg (by decide), if_neg (by decide),
      if_neg fun h => h.2 hcount, if_pos hcount]
    rfl
  · rw [pieceAt, if_neg (by decide), if_neg (by decide), if_neg (by decide), if_neg (by decide),
      if_pos ⟨rfl, hcount⟩, if_neg hcount]

theorem pieceAt_quote (cs : List Char) : pieceAt '"' cs = ((stringLength cs).1,
    stringKind (cs.take ((stringLength cs).1 - 1)) (stringLength cs).2) := by
  rw [pieceAt, if_neg (by decide), if_neg (by decide), if_neg (by decide), if_neg (by decide),
    if_neg (fun h => by cases h.1), if_pos rfl]

theorem start_pieceAt (c : Char) : Start c (pieceAt c) := by
  by_cases hblank : isBlank c = true
  · rw [funext (pieceAt_of_isBlank hblank)]
    exact .blank hblank
  by_cases hnote : c = '#'
  · subst hnote
    exact .comment
  by_cases hword : isWordStart c = true
  · rw [funext (pieceAt_of_isWordStart hword)]
    exact .word hword
  by_cases hdigit : c.isDigit = true
  · rw [funext (pieceAt_of_isDigit hdigit)]
    exact .digit hdigit
  by_cases hminus : c = '-'
  · subst hminus
    rw [funext pieceAt_dash]
    exact .minus
  by_cases hquote : c = '"'
  · subst hquote
    rw [funext pieceAt_quote]
    exact .quote
  -- what is left are the symbols, and the characters that belong to nothing
  have hdash (cs : List Char) : ¬ (c = '-' ∧ digitCount cs ≠ 0) := fun h => hminus h.1
  cases hsymbol : Symbol.ofChar? c with
  | some s =>
    have hc : s.char = c := by simpa using List.find?_some hsymbol
    have hpiece : pieceAt c = fun _ => (0, .token (.symbol s)) := by
      funext cs
      rw [pieceAt, if_neg hblank, if_neg hnote, if_neg hword, if_neg hdigit, if_neg (hdash cs),
        if_neg hquote, hsymbol]
    rw [hpiece, ← hc]
    exact .symbol s
  | none =>
    have hpiece : pieceAt c = fun _ => (0, .stray) := by
      funext cs
      rw [pieceAt, if_neg hblank, if_neg hnote, if_neg hword, if_neg hdigit, if_neg (hdash cs),
        if_neg hquote, hsymbol]
    rw [hpiece]
    exact .stray c

theorem pieceAt_le (c : Char) (cs : List Char) : (pieceAt c cs).1 ≤ cs.length := by
  have hstart := start_pieceAt c
  generalize pieceAt c = piece at hstart ⊢
  cases hstart with
  | blank | comment | word => exact (List.takeWhile_prefix _).length_le
  | digit => exact Nat.sub_le_of_le_add (numberLength_le (c :: cs))
  | minus =>
    by_cases hcount : digitCount cs = 0
    · simp [hcount]
    · simpa [hcount] using numberLength_le cs
  | quote => exact stringLength_le cs
  | symbol | stray => exact Nat.zero_le _

/-- A piece that ends within the first part of a text does not look at the second. -/
theorem pieceAt_cut {c : Char} {as bs : List Char} (h : (pieceAt c (as ++ bs)).1 ≤ as.length) :
    pieceAt c as = pieceAt c (as ++ bs) := by
  have hstart := start_pieceAt c
  generalize pieceAt c = piece at hstart h ⊢
  cases hstart with
  | blank | comment | word => simp only [takeWhile_cut h]
  | digit =>
    have hle : (numberLength (c :: as ++ bs)).1 ≤ (c :: as).length := Nat.le_add_of_sub_le h
    have hnumber : numberLength (c :: as) = numberLength (c :: (as ++ bs)) := numberLength_cut hle
    simp only [hnumber, List.take_append_of_le_length h]
  | minus =>
    by_cases hcount : digitCount (as ++ bs) = 0
    · have hle : digitCount (as ++ bs) ≤ as.length := by omega
      have hnone : digitCount as = 0 := (digitCount_cut hle).trans hcount
      simp only [hcount, hnone, if_true]
    · simp only [if_neg hcount] at h ⊢
      have hnumber := numberLength_cut h
      have hdigits : digitCount as ≠ 0 := by
        have hle : digitCount (as ++ bs) ≤ (numberLength (as ++ bs)).1 := by
          simp only [numberLength]
          omega
        rwa [digitCount_cut (hle.trans h)]
      rw [if_neg hdigits, hnumber, List.take_append_of_le_length h]
  | quote =>
    dsimp only at h ⊢
    rw [stringLength_cut h, List.take_append_of_le_length (by omega)]
  | symbol | stray => rfl

/-- The text of pieces, one after the other. -/
def joined (ps : List Piece) : List Char := ps.flatMap Piece.text

@[simp] theorem joined_nil : joined [] = [] := rfl

@[simp] theorem joined_cons (p : Piece) (ps : List Piece) :
    joined (p :: ps) = p.text ++ joined ps := rfl

@[simp] theorem joined_append (ps qs : List Piece) :
    joined (ps ++ qs) = joined ps ++ joined qs := List.flatMap_append

theorem joined_pieces (cs : List Char) : joined (pieces cs) = cs := by
  induction hn : cs.length using Nat.strongRecOn generalizing cs with
  | ind n ih =>
  cases cs with
  | nil => rfl
  | cons c cs =>
    have hlt : (cs.drop (pieceAt c cs).1).length < n := by
      rw [← hn, List.length_drop, List.length_cons]
      omega
    rw [pieces_cons, joined_cons, ih _ hlt _ rfl, List.cons_append, List.take_append_drop]

theorem pieces_eq_cons {cs : List Char} {p : Piece} {ps : List Piece} (h : pieces cs = p :: ps) :
    ∃ c ds, p.text = c :: ds ∧ pieceAt c (ds ++ joined ps) = (ds.length, p.kind) ∧
      pieces (joined ps) = ps := by
  cases cs with
  | nil => cases h
  | cons c cs =>
    rw [pieces_cons, List.cons.injEq] at h
    obtain ⟨rfl, rfl⟩ := h
    refine ⟨c, cs.take (pieceAt c cs).1, rfl, ?_, ?_⟩
    · rw [joined_pieces, List.take_append_drop, List.length_take_of_le (pieceAt_le c cs)]
    · rw [joined_pieces]

/-- A text that starts with a piece is cut after it. -/
theorem pieces_of_pieceAt {c : Char} {ds rest : List Char} {k : PieceKind}
    (h : pieceAt c (ds ++ rest) = (ds.length, k)) :
    pieces (c :: (ds ++ rest)) = ⟨c :: ds, k⟩ :: pieces rest := by
  rw [pieces_cons, h, List.take_left, List.drop_left]

theorem pieces_joined_right {ps qs : List Piece} {cs : List Char} (h : pieces cs = ps ++ qs) :
    pieces (joined qs) = qs := by
  induction ps generalizing cs with
  | nil =>
    rw [List.nil_append] at h
    rw [← h, joined_pieces]
  | cons p ps ih =>
    obtain ⟨c, ds, -, -, hrest⟩ := pieces_eq_cons h
    exact ih hrest

theorem pieces_joined_left {ps qs : List Piece} {cs : List Char} (h : pieces cs = ps ++ qs) :
    pieces (joined ps) = ps := by
  induction ps generalizing cs with
  | nil => rfl
  | cons p ps ih =>
    rw [List.cons_append] at h
    obtain ⟨c, ds, htext, hpiece, hrest⟩ := pieces_eq_cons h
    rw [joined_append, ← List.append_assoc] at hpiece
    have hcut : pieceAt c (ds ++ joined ps) = (ds.length, p.kind) := by
      rw [← hpiece]
      refine pieceAt_cut ?_
      rw [hpiece, List.length_append]
      exact Nat.le_add_right _ _
    rw [joined_cons, htext, List.cons_append, pieces_of_pieceAt hcut, ih hrest, ← htext]

/-- A stretch of whole pieces is cut into the same pieces where it stands alone. -/
theorem pieces_joined {ps qs rs : List Piece} {cs : List Char} (h : pieces cs = ps ++ (qs ++ rs)) :
    pieces (joined qs) = qs :=
  pieces_joined_left (pieces_joined_right h)

end Pieces

end LoopNest.Lexer
