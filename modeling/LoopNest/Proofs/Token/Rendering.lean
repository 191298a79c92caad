import LoopNest.Proofs.Json.Numbers
import LoopNest.Token.Lexer

/-! Texts that spell given tokens. Between two tokens stands a gap of blanks and comments, which may
be empty where the first token ends by itself. Cutting such a text gives its tokens back. -/
namespace LoopNest

/-- Whether a text is a letter or an underscore, then letters, digits and underscores. -/
def isWord (s : String) : Bool :=
  match s.toList with
  | [] => false
  | c :: cs => Lexer.isWordStart c && cs.all Lexer.isWordPart

/-- Whether a text is an identifier: a word that is no keyword. -/
def isName (s : String) : Bool := isWord s && (Keyword.ofText? s).isNone

/-- A character of a string: a quote and a backslash take a backslash in front. -/
def escapeStringChar (c : Char) : List Char := if c = '"' ∨ c = '\\' then ['\\', c] else [c]

/-- The characters of a string between its quotes. -/
def escapeString (s : String) : List Char := s.toList.flatMap escapeStringChar

/-- The token is written with these characters. -/
inductive Spells : Token → List Char → Prop
  | keyword (k : Keyword) : Spells (.keyword k) k.text.toList
  | symbol (s : Symbol) : Spells (.symbol s) [s.char]
  | int (n : Int64) : Spells (.int n) (toString n.toInt).toList
  | str (s : String) : Spells (.str s) ('"' :: (escapeString s ++ ['"']))
  | ident {name : String} (h : isName name = true) : Spells (.ident name) name.toList

/-- Whether a token stops where that character comes next. -/
def Token.stopsBefore : Token → Char → Bool
  | .keyword _, c | .ident _, c => !Lexer.isWordPart c
  | .int _, c => !(c.isDigit || c = '.' || c = 'e' || c = 'E')
  | .float _, _ => false
  | .symbol _, _ | .str _, _ => true

/-- Blanks, and comments with the ends of their lines. -/
inductive IsGap : List Char → Prop
  | nil : IsGap []
  | blank {c : Char} {cs : List Char} (hc : c ∈ [' ', '\t', '\r', '\n']) (h : IsGap cs) :
    IsGap (c :: cs)
  | comment {note cs : List Char} (hnote : '\n' ∉ note) (h : IsGap cs) :
    IsGap ('#' :: (note ++ '\n' :: cs))

/-- The text spells the tokens in order. The last line may be a comment without an end. -/
inductive Renders : List Token → List Char → Prop
  | gap {gap : List Char} (h : IsGap gap) : Renders [] gap
  | note {gap note : List Char} (h : IsGap gap) (hnote : '\n' ∉ note) :
    Renders [] (gap ++ '#' :: note)
  | token {gap cs rest : List Char} {t : Token} {ts : List Token} (hgap : IsGap gap)
    (ht : Spells t cs) (hstop : rest.head?.all t.stopsBefore = true) (h : Renders ts rest) :
    Renders (t :: ts) (gap ++ (cs ++ rest))

/-- Every token stops before a gap: before a blank and before a comment. -/
theorem Spells.stopsBefore_gap {t : Token} {cs : List Char} (h : Spells t cs) {c : Char}
    (hc : c ∈ [' ', '\t', '\r', '\n', '#']) : t.stopsBefore c = true := by
  simp only [List.mem_cons, List.not_mem_nil, or_false] at hc
  cases h <;> rcases hc with rfl | rfl | rfl | rfl | rfl <;> rfl

/-- Tokens that can be written have a text. -/
theorem exists_renders {ts : List Token} (h : ∀ t ∈ ts, ∃ cs, Spells t cs) :
    ∃ cs, Renders ts (' ' :: cs) := by
  induction ts with
  | nil => exact ⟨[], .gap (.blank (by decide) .nil)⟩
  | cons t ts ih =>
    obtain ⟨⟨cs, ht⟩, hts⟩ := List.forall_mem_cons.1 h
    obtain ⟨rest, hrest⟩ := ih hts
    have hstop : (' ' :: rest).head?.all t.stopsBefore = true := ht.stopsBefore_gap (by simp)
    exact ⟨_, .token (.blank (by decide) .nil) ht hstop hrest⟩

namespace Lexer

/-- What the pieces of a text are, blanks left out. -/
def kinds (cs : List Char) : List PieceKind := ((pieces cs).map Piece.kind).filter (· ≠ .blank)

theorem kinds_cons_blank {c : Char} {cs : List Char} {n : Nat} (h : pieceAt c cs = (n, .blank)) :
    kinds (c :: cs) = kinds (cs.drop n) := by
  rw [kinds, pieces_cons, h, List.map_cons, List.filter_cons_of_neg (by simp), kinds]

theorem kinds_cons_token {c : Char} {cs : List Char} {n : Nat} {t : Token}
    (h : pieceAt c cs = (n, .token t)) : kinds (c :: cs) = .token t :: kinds (cs.drop n) := by
  rw [kinds, pieces_cons, h, List.map_cons, List.filter_cons_of_pos (by simp), kinds]

/-- The longest run in front ends where the next item is of another class. -/
theorem takeWhile_append_eq {α : Type} {p : α → Bool} {as rest : List α} (h : ∀ a ∈ as, p a = true)
    (hrest : ∀ a ∈ rest.head?, p a = false) : (as ++ rest).takeWhile p = as := by
  rw [List.takeWhile_append_of_pos h]
  cases rest with
  | nil => exact List.append_nil as
  | cons a rest => rw [List.takeWhile_cons_of_neg (by simp [hrest a rfl]), List.append_nil]

section Gaps

theorem kinds_dropWhile_isBlank {c : Char} {cs : List Char} (h : isBlank c = true) :
    kinds (c :: cs) = kinds (cs.dropWhile isBlank) := by
  have hpiece : pieceAt c cs = ((cs.takeWhile isBlank).length, .blank) := by
    rw [pieceAt, if_pos h]
  have hdrop : cs.drop (cs.takeWhile isBlank).length = cs.dropWhile isBlank :=
    calc cs.drop (cs.takeWhile isBlank).length
      _ = (cs.takeWhile isBlank ++ cs.dropWhile isBlank).drop (cs.takeWhile isBlank).length := by
        rw [List.takeWhile_append_dropWhile]
      _ = cs.dropWhile isBlank := List.drop_left
  rw [kinds_cons_blank hpiece, hdrop]

theorem kinds_blank {c : Char} (h : isBlank c = true) (cs : List Char) :
    kinds (c :: cs) = kinds cs := by
  -- a run of blanks is one piece, so it is dropped at once from here and from the next place
  rw [kinds_dropWhile_isBlank h]
  cases cs with
  | nil => rfl
  | cons d ds =>
    by_cases hd : isBlank d = true
    · rw [List.dropWhile_cons_of_pos hd, kinds_dropWhile_isBlank hd]
    · rw [List.dropWhile_cons_of_neg hd]

theorem kinds_comment {note rest : List Char} (h : '\n' ∉ note)
    (hrest : ∀ c ∈ rest.head?, c = '\n') : kinds ('#' :: (note ++ rest)) = kinds rest := by
  have hpiece : pieceAt '#' (note ++ rest) = (note.length, .blank) := by
    rw [pieceAt, if_neg (by decide), if_pos rfl, takeWhile_append_eq]
    · intro c hc
      simpa using ne_of_mem_of_not_mem hc h
    · intro c hc
      simp [hrest c hc]
  rw [kinds_cons_blank hpiece, List.drop_left]

theorem kinds_gap {gap : List Char} (h : IsGap gap) (rest : List Char) :
    kinds (gap ++ rest) = kinds rest := by
  induction h with
  | nil => rfl
  | @blank c cs hc _ ih =>
    have hblank : isBlank c = true := by simpa [isBlank, or_assoc] using hc
    rw [List.cons_append, kinds_blank hblank, ih]
  | @comment note cs hnote _ ih =>
    rw [List.cons_append, List.append_assoc, kinds_comment hnote (by simp), List.cons_append,
      kinds_blank (by decide), ih]

end Gaps

section Tokens

theorem not_blank_of_isWordStart {c : Char} (h : isWordStart c = true) :
    isBlank c = false ∧ c ≠ '#' := by
  refine ⟨?_, fun hc => ?_⟩
  · by_contra hblank
    simp only [isBlank, Bool.not_eq_false, Bool.or_eq_true, decide_eq_true_eq] at hblank
    rcases hblank with ((rfl | rfl) | rfl) | rfl <;> cases h
  · subst hc
    cases h

theorem not_isWordStart_of_isDigit {c : Char} (h : c.isDigit = true) :
    isBlank c = false ∧ c ≠ '#' ∧ isWordStart c = false := by
  have hall : ∀ n < 58, 48 ≤ n → isBlank (Char.ofNat n) = false ∧ Char.ofNat n ≠ '#' ∧
      isWordStart (Char.ofNat n) = false := by decide
  obtain ⟨hlow, hhigh⟩ := Char.isDigit_iff_toNat.1 h
  rw [← Char.ofNat_toNat c]
  exact hall _ (Nat.lt_succ_of_le hhigh) hlow

theorem pieceAt_word {c : Char} {cs rest : List Char} (hc : isWordStart c = true)
    (hcs : ∀ d ∈ cs, isWordPart d = true) (hrest : ∀ d ∈ rest.head?, isWordPart d = false) :
    pieceAt c (cs ++ rest) = (cs.length, .token (wordToken (c :: cs))) := by
  obtain ⟨hblank, hnote⟩ := not_blank_of_isWordStart hc
  rw [pieceAt, if_neg (by simp [hblank]), if_neg hnote, if_pos hc, takeWhile_append_eq hcs hrest]

theorem numberLength_digits {ds rest : List Char} (h : ∀ c ∈ ds, c.isDigit = true) {n : Int64}
    (hrest : ∀ c ∈ rest.head?, (Token.int n).stopsBefore c = true) :
    numberLength (ds ++ rest) = (ds.length, false) := by
  have hcount : digitCount (ds ++ rest) = ds.length := by
    rw [digitCount, takeWhile_append_eq h]
    intro c hc
    have hstop := hrest c hc
    simp only [Token.stopsBefore, Bool.not_eq_true', Bool.or_eq_false_iff] at hstop
    exact hstop.1.1.1
  have hfraction : fractionLength rest = 0 := by
    cases rest with
    | nil => rfl
    | cons c rest =>
      have hstop := hrest c rfl
      rw [fractionLength]
      rintro _ ⟨rfl⟩
      simp [Token.stopsBefore] at hstop
  have hexponent : exponentLength rest = 0 := by
    cases rest with
    | nil => rfl
    | cons c rest =>
      have hstop := hrest c rfl
      have hc : ¬ (c = 'e' ∨ c = 'E') := by
        rintro (rfl | rfl) <;> simp [Token.stopsBefore] at hstop
      simp [exponentLength, hc]
  simp [numberLength, hcount, hfraction, hexponent]

theorem digitsValue_toDigits (n : Nat) : Double.digitsValue (Nat.toDigits 10 n) = n :=
  Nat.ofDigitChars_ten_toDigits

theorem int64?_of_takeSign {text ds : List Char} {negative : Bool} {n : Int64}
    (hsign : Double.takeSign text = (negative, ds))
    (hvalue : (if negative then -(Double.digitsValue ds : Int) else Double.digitsValue ds) =
      n.toInt) : int64? text = some n := by
  simp only [int64?, hsign, hvalue]
  rw [if_pos ⟨n.minValue_le_toInt, n.toInt_le⟩, Int64.ofInt_toInt]

theorem takeSign_digits {ds : List Char} (h : ∀ c ∈ ds, c.isDigit = true) :
    Double.takeSign ds = (false, ds) := by
  unfold Double.takeSign
  split
  · cases h '-' List.mem_cons_self
  · cases h '+' List.mem_cons_self
  · rfl

theorem pieceAt_digits {c : Char} {ds rest : List Char} {n : Int64} (h : Json.IsDigits (c :: ds))
    (hrest : ∀ d ∈ rest.head?, (Token.int n).stopsBefore d = true) :
    pieceAt c (ds ++ rest) = (ds.length, numberKind (c :: ds) false) := by
  have hc := h.2 c List.mem_cons_self
  obtain ⟨hblank, hnote, hword⟩ := not_isWordStart_of_isDigit hc
  have hlength := numberLength_digits h.2 hrest
  rw [List.cons_append] at hlength
  rw [pieceAt, if_neg (by simp [hblank]), if_neg hnote, if_neg (by simp [hword]), if_pos hc,
    hlength]
  simp

theorem pieceAt_minus {ds rest : List Char} {n : Int64} (h : Json.IsDigits ds)
    (hrest : ∀ d ∈ rest.head?, (Token.int n).stopsBefore d = true) :
    pieceAt '-' (ds ++ rest) = (ds.length, numberKind ('-' :: ds) false) := by
  have hcount : digitCount (ds ++ rest) ≠ 0 := by
    cases ds with
    | nil => exact absurd rfl h.1
    | cons d ds => simp [digitCount, h.2 d List.mem_cons_self]
  rw [pieceAt, if_neg (by decide), if_neg (by decide), if_neg (by decide), if_neg (by decide),
    if_pos ⟨rfl, hcount⟩, numberLength_digits h.2 hrest]
  simp

theorem kinds_int (n : Int64) {rest : List Char}
    (hrest : ∀ c ∈ rest.head?, (Token.int n).stopsBefore c = true) :
    kinds ((toString n.toInt).toList ++ rest) = .token (.int n) :: kinds rest := by
  -- a minus takes another branch of the cutting than a digit
  cases hn : n.toInt with
  | ofNat k =>
    have hdigits := Json.isDigits_toDigits k
    have hread : int64? (Nat.toDigits 10 k) = some n :=
      int64?_of_takeSign (takeSign_digits hdigits.2) (by simp [digitsValue_toDigits, hn])
    change kinds ((toString k).toList ++ rest) = _
    rw [Json.toList_nat]
    cases hd : Nat.toDigits 10 k with
    | nil => exact absurd hd hdigits.1
    | cons d ds =>
      rw [hd] at hdigits hread
      have hpiece : pieceAt d (ds ++ rest) = (ds.length, .token (.int n)) := by
        rw [pieceAt_digits hdigits hrest, numberKind, if_neg (by decide), hread]
      rw [List.cons_append, kinds_cons_token hpiece, List.drop_left]
  | negSucc k =>
    have hread : int64? ('-' :: Nat.toDigits 10 (k + 1)) = some n :=
      int64?_of_takeSign rfl (by simp [digitsValue_toDigits, hn]; omega)
    have hpiece : pieceAt '-' (Nat.toDigits 10 (k + 1) ++ rest) =
        ((Nat.toDigits 10 (k + 1)).length, .token (.int n)) := by
      rw [pieceAt_minus (Json.isDigits_toDigits (k + 1)) hrest, numberKind, if_neg (by decide),
        hread]
    rw [Json.toList_negSucc, List.cons_append, kinds_cons_token hpiece, List.drop_left]

theorem stringLength_escape (s rest : List Char) :
    stringLength (s.flatMap escapeStringChar ++ '"' :: rest) =
      ((s.flatMap escapeStringChar).length + 1, true) := by
  induction s with
  | nil => rfl
  | cons c s ih =>
    rw [List.flatMap_cons, List.append_assoc]
    by_cases hc : c = '"' ∨ c = '\\'
    · have hline : c ≠ '\n' := by rintro rfl; simp at hc
      simp [escapeStringChar, if_pos hc, stringLength, hline, ih]
    · rw [not_or] at hc
      simp [escapeStringChar, hc, stringLength, ih]

theorem unescape?_escape (s : List Char) :
    unescape? (s.flatMap escapeStringChar) = some s := by
  induction s with
  | nil => rfl
  | cons c s ih =>
    rw [List.flatMap_cons]
    by_cases hc : c = '"' ∨ c = '\\'
    · simp [escapeStringChar, if_pos hc, unescape?, ih]
    · rw [not_or] at hc
      simp [escapeStringChar, hc, unescape?, ih]

theorem kinds_string (s : String) (rest : List Char) :
    kinds ('"' :: (escapeString s ++ ['"']) ++ rest) = .token (.str s) :: kinds rest := by
  have hpiece : pieceAt '"' (escapeString s ++ '"' :: rest) =
      ((escapeString s).length + 1, .token (.str s)) := by
    rw [pieceAt, if_neg (by decide), if_neg (by decide), if_neg (by decide), if_neg (by decide),
      if_neg (fun h => by cases h.1), if_pos rfl, escapeString, stringLength_escape]
    simp [stringKind, unescape?_escape]
  rw [List.cons_append, List.append_assoc, List.singleton_append, kinds_cons_token hpiece,
    ← List.drop_drop, List.drop_left]
  rfl

theorem kinds_word {s : String} (h : isWord s = true) {rest : List Char}
    (hrest : ∀ c ∈ rest.head?, isWordPart c = false) :
    kinds (s.toList ++ rest) = .token (wordToken s.toList) :: kinds rest := by
  unfold isWord at h
  cases hs : s.toList with
  | nil => simp [hs] at h
  | cons c cs =>
    simp only [hs, Bool.and_eq_true, List.all_eq_true] at h
    rw [List.cons_append, kinds_cons_token (pieceAt_word h.1 h.2 hrest), List.drop_left]

theorem kinds_symbol (s : Symbol) (rest : List Char) :
    kinds (s.char :: rest) = .token (.symbol s) :: kinds rest := by
  have hpiece : pieceAt s.char rest = (0, .token (.symbol s)) := by cases s <;> rfl
  exact kinds_cons_token hpiece

theorem kinds_token {t : Token} {cs rest : List Char} (h : Spells t cs)
    (hrest : ∀ c ∈ rest.head?, t.stopsBefore c = true) :
    kinds (cs ++ rest) = .token t :: kinds rest := by
  cases h with
  | keyword k =>
    have hword : isWord k.text = true := by
      rcases k with _ | _ | _ | _ | _ | b
      case boolean => cases b <;> decide
      all_goals decide
    rw [kinds_word hword (by simpa [Token.stopsBefore] using hrest), wordToken,
      String.ofList_toList, Keyword.ofText?_text]
  | symbol s => exact kinds_symbol s rest
  | int n => exact kinds_int n hrest
  | str s => exact kinds_string s rest
  | @ident name h =>
    obtain ⟨hword, hkeyword⟩ := Bool.and_eq_true_iff.1 h
    rw [kinds_word hword (by simpa [Token.stopsBefore] using hrest), wordToken,
      String.ofList_toList, Option.isNone_iff_eq_none.1 hkeyword]

end Tokens

theorem kinds_of_renders {ts : List Token} {cs : List Char} (h : Renders ts cs) :
    kinds cs = ts.map .token := by
  induction h with
  | @gap gap h =>
    rw [← List.append_nil gap, kinds_gap h]
    rfl
  | @note gap note h hnote =>
    have hcomment : kinds ('#' :: (note ++ [])) = kinds [] := kinds_comment hnote (by simp)
    rw [List.append_nil] at hcomment
    rw [kinds_gap h, hcomment]
    rfl
  | token hgap ht hstop _ ih =>
    rw [kinds_gap hgap, kinds_token ht ((Option.all_eq_true _ _).1 hstop), ih, List.map_cons]

theorem scan_of_kinds {ts : List Token} {ps : List Piece} (offset : Nat)
    (h : (ps.map Piece.kind).filter (· ≠ .blank) = ts.map .token) :
    ((locate offset ps).filterMap lexeme?).map Lexeme.token = ts ∧
      (locate offset ps).filterMap stray? = [] := by
  induction ps generalizing offset ts with
  | nil =>
    rw [List.map_eq_nil_iff.1 h.symm]
    exact ⟨rfl, rfl⟩
  | cons p ps ih =>
    obtain ⟨text, kind⟩ := p
    cases kind with
    | blank => exact ih _ h
    | token t =>
      cases ts with
      | nil => cases h
      | cons t' ts =>
        obtain ⟨ht, hts⟩ := List.cons.inj h
        obtain ⟨htokens, hstrays⟩ := ih (offset + byteLength text) hts
        cases ht
        exact ⟨congrArg (t :: ·) htokens, hstrays⟩
    | stray =>
      cases ts with
      | nil => cases h
      | cons t' ts => cases (List.cons.inj h).1

end Lexer

/-- Cutting a text that spells tokens gives those tokens, and nothing is stray. -/
theorem Renders.scan {ts : List Token} {source : String} (h : Renders ts source.toList) :
    (Scan.ofSource source).lexemes.map Lexeme.token = ts ∧ (Scan.ofSource source).strays = [] :=
  Lexer.scan_of_kinds 0 (Lexer.kinds_of_renders h)

end LoopNest
