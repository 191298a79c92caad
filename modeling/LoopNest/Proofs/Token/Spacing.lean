import LoopNest.Proofs.Token.Partition

/-! Texts for given tokens. A token that is read from some text is read from it too where a blank
follows, so tokens with blanks between them are a text that is cut into just these tokens. -/
namespace LoopNest

/-- Some text is cut into this token alone. -/
def Token.Readable (t : Token) : Prop := ∃ cs, Lexer.pieces cs = [⟨cs, .token t⟩]

namespace Lexer

section Stop

variable (cs rest : List Char)

theorem takeWhile_stop {p : Char → Bool} (h : p ' ' = false) :
    ((cs ++ ' ' :: rest).takeWhile p).length ≤ cs.length := by
  rw [List.takeWhile_append]
  split_ifs with hall
  · rw [List.takeWhile_cons_of_neg (by simp [h]), List.append_nil]
  · exact (List.takeWhile_prefix p).length_le

theorem digitCount_stop : digitCount (cs ++ ' ' :: rest) ≤ cs.length :=
  takeWhile_stop cs rest (by decide)

theorem fractionLength_stop : fractionLength (cs ++ ' ' :: rest) ≤ cs.length := by
  cases cs with
  | nil => exact Nat.le_of_eq (fractionLength_other (by decide) rest)
  | cons c cs =>
    by_cases hc : c = '.'
    · subst hc
      have hcount := digitCount_stop cs rest
      rw [List.cons_append, fractionLength_point, List.length_cons]
      split_ifs <;> omega
    · rw [List.cons_append, fractionLength_other hc]
      exact Nat.zero_le _

theorem exponentLength_stop : exponentLength (cs ++ ' ' :: rest) ≤ cs.length := by
  cases cs with
  | nil => exact Nat.le_of_eq (exponentLength_other (by decide) rest)
  | cons c cs =>
    by_cases hc : c = 'e' ∨ c = 'E'
    · rw [List.cons_append, exponentLength_letter hc, List.length_cons]
      cases cs with
      | nil =>
        have hnone :
            digitCount (([] ++ ' ' :: rest).drop (signLength ([] ++ ' ' :: rest))) = 0 := rfl
        rw [if_pos hnone]
        exact Nat.zero_le _
      | cons s cs =>
        have hsign : signLength (s :: cs ++ ' ' :: rest) = signLength (s :: cs) := rfl
        have hle := signLength_le (s :: cs)
        have hcount := digitCount_stop ((s :: cs).drop (signLength (s :: cs))) rest
        rw [List.length_drop] at hcount
        rw [hsign, List.drop_append_of_le_length hle]
        split_ifs <;> omega
    · rw [List.cons_append, exponentLength_other hc]
      exact Nat.zero_le _

/-- A number does not go on after a blank. -/
theorem numberLength_stop : (numberLength (cs ++ ' ' :: rest)).1 ≤ cs.length := by
  have hwhole := digitCount_stop cs rest
  simp only [numberLength]
  generalize digitCount (cs ++ ' ' :: rest) = whole at hwhole ⊢
  rw [List.drop_append_of_le_length hwhole]
  have hfraction := fractionLength_stop (cs.drop whole) rest
  rw [List.length_drop] at hfraction
  generalize fractionLength (cs.drop whole ++ ' ' :: rest) = fraction at hfraction ⊢
  rw [List.drop_append_of_le_length (by omega)]
  have hexponent := exponentLength_stop (cs.drop (whole + fraction)) rest
  rw [List.length_drop] at hexponent
  omega

/-- A string that is closed does not go on. -/
theorem stringLength_stop (h : (stringLength cs).2 = true) :
    (stringLength (cs ++ rest)).1 ≤ cs.length := by
  fun_induction stringLength cs with
  | case1 | case3 | case5 => cases h
  | case2 => simp [stringLength]
  | case4 c cs hc n closed hrest ih =>
    rw [hrest] at ih
    rw [List.cons_append, List.cons_append, stringLength_escape_char hc]
    exact Nat.add_le_add_right (ih h) 2
  | case6 c cs hquote hpair hlast n closed hrest ih =>
    rw [hrest] at ih
    rw [List.cons_append, stringLength_char hquote (ne_escape hpair hlast)]
    exact Nat.add_le_add_right (ih h) 1

end Stop

theorem pieceAt_stop {c : Char} {ds : List Char} {n : Nat} {t : Token}
    (h : pieceAt c ds = (n, .token t)) (rest : List Char) :
    (pieceAt c (ds ++ ' ' :: rest)).1 ≤ ds.length := by
  have hstart := start_pieceAt c
  generalize pieceAt c = piece at hstart h ⊢
  cases hstart with
  | blank | comment => cases h
  | word => exact takeWhile_stop ds rest (by decide)
  | digit =>
    have hnumber := numberLength_stop (c :: ds) rest
    exact Nat.sub_le_of_le_add hnumber
  | minus =>
    dsimp only
    split_ifs
    · exact Nat.zero_le _
    · exact numberLength_stop ds rest
  | quote =>
    refine stringLength_stop ds _ ?_
    by_contra hopen
    rw [Bool.not_eq_true] at hopen
    simp [hopen, stringKind] at h
  | symbol | stray => exact Nat.zero_le _

theorem kinds_cons_readable {cs : List Char} {t : Token} (h : pieces cs = [⟨cs, .token t⟩])
    (rest : List Char) : kinds (cs ++ ' ' :: rest) = .token t :: kinds (' ' :: rest) := by
  obtain ⟨c, ds, htext, hpiece, -⟩ := pieces_eq_cons h
  rw [joined_nil, List.append_nil] at hpiece
  have hkept : pieceAt c (ds ++ ' ' :: rest) = (ds.length, .token t) := by
    rw [← pieceAt_cut (pieceAt_stop hpiece rest), hpiece]
  have hcs : cs = c :: ds := htext
  rw [hcs, List.cons_append, kinds_cons_token hkept, List.drop_left]

theorem exists_kinds {ts : List Token} (h : ∀ t ∈ ts, t.Readable) :
    ∃ cs, kinds (' ' :: cs) = ts.map .token := by
  induction ts with
  | nil => exact ⟨[], rfl⟩
  | cons t ts ih =>
    obtain ⟨⟨cs, hcs⟩, hts⟩ := List.forall_mem_cons.1 h
    obtain ⟨rest, hrest⟩ := ih hts
    refine ⟨cs ++ ' ' :: rest, ?_⟩
    rw [kinds_blank (by decide), kinds_cons_readable hcs, hrest, List.map_cons]

end Lexer

/-- Readable tokens are the tokens of a text without stray stretches. -/
theorem exists_scan {ts : List Token} (h : ∀ t ∈ ts, t.Readable) :
    ∃ text, (Scan.ofSource text).lexemes.map Lexeme.token = ts ∧
      (Scan.ofSource text).strays = [] := by
  obtain ⟨cs, hcs⟩ := Lexer.exists_kinds h
  refine ⟨String.ofList (' ' :: cs), ?_⟩
  rw [Scan.ofSource, String.toList_ofList]
  exact Lexer.scan_of_kinds 0 hcs

theorem readable_of_mem {source : String} {l : Lexeme} (h : l ∈ (Scan.ofSource source).lexemes) :
    l.token.Readable := by
  obtain ⟨x, hx, hkind, -⟩ := Lexer.mem_lexemes.1 h
  obtain ⟨before, after, hplaced⟩ := Lexer.exists_placed hx
  refine ⟨x.1.text, ?_⟩
  rw [hplaced.alone, ← hkind]

theorem readable_keyword (k : Keyword) : (Token.keyword k).Readable := by
  refine ⟨k.text.toList, ?_⟩
  rcases k with _ | _ | _ | _ | _ | b
  case boolean => cases b <;> decide
  all_goals decide

theorem readable_symbol (s : Symbol) : (Token.symbol s).Readable := by
  refine ⟨[s.char], ?_⟩
  cases s <;> decide

end LoopNest
