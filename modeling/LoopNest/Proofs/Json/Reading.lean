import LoopNest.Json.Reader
import Mathlib.Data.List.Basic

/-! Reading inverts writing: the compact text of a JSON value is read back as that value. So values
with the same text are the same. -/
namespace LoopNest.Json

section Numbers

/-- One digit or more. -/
def IsDigits (cs : List Char) : Prop := cs ≠ [] ∧ ∀ c ∈ cs, c.isDigit = true

/-- The digits of a whole number, without needless zeros in front. -/
def IsWhole (cs : List Char) : Prop := IsDigits cs ∧ (cs.head? = some '0' → cs = ['0'])

/-- The part of a number after its whole: a fraction, or none. -/
inductive IsFraction : List Char → Prop
  | none : IsFraction []
  | some {ds : List Char} (h : IsDigits ds) : IsFraction ('.' :: ds)

inductive IsExponent : List Char → Prop
  | none : IsExponent []
  | some {sign ds : List Char} (hsign : sign ∈ [[], ['+'], ['-']]) (h : IsDigits ds) :
    IsExponent ('e' :: (sign ++ ds))

/-- The text of a number. -/
inductive IsNumber : String → Prop
  | intro {sign whole fraction exponent : List Char} (hsign : sign ∈ [[], ['-']])
    (hwhole : IsWhole whole) (hfraction : IsFraction fraction) (hexponent : IsExponent exponent) :
    IsNumber (String.ofList (sign ++ (whole ++ (fraction ++ exponent))))

/-- No digit comes next. -/
def NoDigit (cs : List Char) : Prop := ∀ c ∈ cs.head?, c.isDigit = false

theorem dropWhile_digits {ds rest : List Char} (h : ∀ c ∈ ds, c.isDigit = true)
    (hr : NoDigit rest) : (ds ++ rest).dropWhile Char.isDigit = rest := by
  rw [List.dropWhile_append_of_pos h]
  cases rest with
  | nil => rfl
  | cons c rest => rw [List.dropWhile_cons_of_neg (by simp [hr c rfl])]

theorem afterDigits?_append {ds rest : List Char} (h : IsDigits ds) (hr : NoDigit rest) :
    afterDigits? (ds ++ rest) = some rest := by
  obtain ⟨hne, hall⟩ := h
  cases ds with
  | nil => exact absurd rfl hne
  | cons d ds =>
    obtain ⟨hd, hds⟩ := List.forall_mem_cons.1 hall
    rw [List.cons_append, afterDigits?, if_pos hd, dropWhile_digits hds hr]

theorem afterWhole?_append {ds rest : List Char} (h : IsWhole ds) (hr : NoDigit rest) :
    afterWhole? (ds ++ rest) = some rest := by
  obtain ⟨hds, hzero⟩ := h
  cases ds with
  | nil => exact absurd rfl hds.1
  | cons d ds =>
    by_cases hd : d = '0'
    · subst hd
      cases hzero rfl
      cases rest with
      | nil => rfl
      | cons c rest => simp [afterWhole?, hr c rfl]
    · rw [List.cons_append, afterWhole?, ← List.cons_append, afterDigits?_append hds hr]
      simpa using hd

theorem afterFraction?_append {f rest : List Char} (h : IsFraction f) (hr : NoDigit rest)
    (hpoint : rest.head? ≠ some '.') : afterFraction? (f ++ rest) = some rest := by
  cases h with
  | none =>
    cases rest with
    | nil => rfl
    | cons c rest =>
      rw [List.nil_append, afterFraction?]
      simpa using hpoint
  | some h => exact afterDigits?_append h hr

theorem afterSign_append {sign ds : List Char} (hsign : sign ∈ [[], ['+'], ['-']])
    (h : IsDigits ds) (rest : List Char) : afterSign (sign ++ (ds ++ rest)) = ds ++ rest := by
  obtain ⟨hne, hall⟩ := h
  simp only [List.mem_cons, List.not_mem_nil, or_false] at hsign
  rcases hsign with rfl | rfl | rfl
  · cases ds with
    | nil => exact absurd rfl hne
    | cons d ds =>
      have hd := hall d List.mem_cons_self
      rw [List.nil_append, List.cons_append, afterSign]
      · rintro _ ⟨rfl, -⟩
        cases hd
      · rintro _ ⟨rfl, -⟩
        cases hd
  · rfl
  · rfl

theorem afterExponent?_append {x rest : List Char} (h : IsExponent x) (hr : NoDigit rest)
    (he : rest.head? ≠ some 'e') (he' : rest.head? ≠ some 'E') :
    afterExponent? (x ++ rest) = some rest := by
  cases h with
  | none =>
    cases rest with
    | nil => rfl
    | cons c rest =>
      rw [List.nil_append, afterExponent?]
      · simpa using he
      · simpa using he'
  | @some sign ds hsign h =>
    rw [List.cons_append, List.append_assoc, afterExponent?, afterSign_append hsign h,
      afterDigits?_append h hr]

/-- What may come after a value in a text without blanks. -/
def EndsValue (rest : List Char) : Prop := ∀ c ∈ rest.head?, c = ',' ∨ c = ']' ∨ c = '\x7d'

theorem EndsValue.noDigit {rest : List Char} (h : EndsValue rest) : NoDigit rest := by
  intro c hc
  rcases h c hc with rfl | rfl | rfl <;> rfl

theorem EndsValue.head?_ne {rest : List Char} (h : EndsValue rest) {c : Char}
    (hc : c ≠ ',' ∧ c ≠ ']' ∧ c ≠ '\x7d') : rest.head? ≠ some c := by
  intro hhead
  rcases h c hhead with rfl | rfl | rfl
  · exact hc.1 rfl
  · exact hc.2.1 rfl
  · exact hc.2.2 rfl

theorem number?_of_unsigned {cs rest : List Char} (unsigned : List Char)
    (hsign : cs = '-' :: unsigned ∨ cs = unsigned ∧ cs.head? ≠ some '-')
    (hread : ((afterWhole? unsigned).bind afterFraction?).bind afterExponent? = some rest) :
    number? cs = some (.number (String.ofList (cs.take (cs.length - rest.length))), rest) := by
  obtain ⟨past, hpast, hrest⟩ := Option.bind_eq_some_iff.1 hread
  obtain ⟨whole, hwhole, hfraction⟩ := Option.bind_eq_some_iff.1 hpast
  rcases hsign with rfl | ⟨rfl, hhead⟩
  · simp only [number?, hwhole, hfraction, hrest, Option.bind_eq_bind, Option.bind_some]
  · cases cs with
    | nil => cases hwhole
    | cons c cs =>
      simp only [number?]
      split
      next ds hds =>
        cases hds
        exact absurd rfl hhead
      next =>
        simp only [hwhole, hfraction, hrest, Option.bind_eq_bind, Option.bind_some]

theorem number?_append {t : String} (h : IsNumber t) {rest : List Char} (hr : EndsValue rest) :
    number? (t.toList ++ rest) = some (.number t, rest) := by
  obtain @⟨sign, whole, fraction, exponent, hsign, hwhole, hfraction, hexponent⟩ := h
  have hpast : NoDigit (exponent ++ rest) ∧ (exponent ++ rest).head? ≠ some '.' := by
    cases hexponent with
    | none => exact ⟨hr.noDigit, hr.head?_ne (by decide)⟩
    | some => exact ⟨fun c hc => by cases hc; rfl, by simp⟩
  have hafter : NoDigit (fraction ++ (exponent ++ rest)) := by
    cases hfraction with
    | none => exact hpast.1
    | some => exact fun c hc => by cases hc; rfl
  have hread : ((afterWhole? (whole ++ (fraction ++ (exponent ++ rest)))).bind afterFraction?).bind
      afterExponent? = some rest := by
    rw [afterWhole?_append hwhole hafter, Option.bind_some,
      afterFraction?_append hfraction hpast.1 hpast.2, Option.bind_some]
    exact afterExponent?_append hexponent hr.noDigit (hr.head?_ne (by decide))
      (hr.head?_ne (by decide))
  have htake (cs : List Char) : (cs ++ rest).take ((cs ++ rest).length - rest.length) = cs := by
    simp
  rw [String.toList_ofList, number?_of_unsigned _ ?_ hread, htake]
  · rcases List.mem_pair.1 hsign with rfl | rfl
    · refine .inr ⟨by simp, ?_⟩
      obtain ⟨⟨hne, hall⟩, -⟩ := hwhole
      cases whole with
      | nil => exact absurd rfl hne
      | cons d ds =>
        have hd := hall d List.mem_cons_self
        rintro ⟨rfl⟩
        cases hd
    · exact .inl (by simp)

end Numbers

section Strings

theorem hexValue?_digitChar : ∀ n < 16, hexValue? n.digitChar = some n := by decide

theorem codeUnit?_hexByte {n : Nat} (h : n < 0x20) :
    codeUnit? '0' '0' (n / 16).digitChar (n % 16).digitChar = some n := by
  have hzero : hexValue? '0' = some 0 := rfl
  rw [codeUnit?, hzero, hexValue?_digitChar _ (by omega), hexValue?_digitChar _ (by omega)]
  exact congrArg some (by omega)

/-- An element stands for a character wherever it comes in a string. -/
def Element.For (e : Element) (c : Char) : Prop :=
  ∀ es, joinElements (e :: es) = (joinElements es).map (c :: ·)

theorem Element.For.char (c : Char) : (Element.char c).For c := fun _ => rfl

theorem Element.For.unit {c : Char} (h : c.toNat < 0x20) : (Element.unit c.toNat).For c := by
  have hhigh : isHighSurrogate c.toNat = false := by
    simp only [isHighSurrogate, Bool.and_eq_false_imp, decide_eq_true_eq]
    omega
  have hlow : isLowSurrogate c.toNat = false := by
    simp only [isLowSurrogate, Bool.and_eq_false_imp, decide_eq_true_eq]
    omega
  intro es
  cases es with
  | nil => simp [joinElements, hhigh, hlow]
  | cons e es => cases e <;> simp [joinElements, hhigh, hlow]

theorem elements?_simple {c e : Char} (h : simpleEscape? c = some e) (hc : c ≠ 'u')
    (cs : List Char) :
    elements? ('\\' :: c :: cs) = (elements? cs).map fun p => (.char e :: p.1, p.2) := by
  rw [elements?]
  · rw [h]
    cases elements? cs <;> rfl
  · exact fun _ _ _ _ _ hu _ => hc hu

theorem elements?_unit {a b c d : Char} {n : Nat} (h : codeUnit? a b c d = some n)
    (cs : List Char) : elements? ('\\' :: 'u' :: a :: b :: c :: d :: cs) =
      (elements? cs).map fun p => (.unit n :: p.1, p.2) := by
  rw [elements?, h]
  cases elements? cs <;> rfl

theorem elements?_char {c : Char} (hquote : c ≠ '"') (hback : c ≠ '\\') (h : ¬ c.toNat < 0x20)
    (cs : List Char) :
    elements? (c :: cs) = (elements? cs).map fun p => (.char c :: p.1, p.2) := by
  rw [elements?, if_neg (by simp [h, hback])]
  · cases elements? cs <;> rfl
  all_goals simp_all

/-- A character that is written with one letter after a backslash. -/
def isShort (c : Char) : Bool := c ∈ ['"', '\\', '\x08', '\t', '\n', '\x0c', '\r']

theorem escapeChar_of_isShort {c : Char} (h : isShort c = true) :
    ∃ e, escapeChar c = ['\\', e] ∧ simpleEscape? e = some c ∧ e ≠ 'u' := by
  simp only [isShort, List.mem_cons, List.not_mem_nil, or_false, decide_eq_true_eq] at h
  rcases h with rfl | rfl | rfl | rfl | rfl | rfl | rfl <;> exact ⟨_, rfl, rfl, by decide⟩

theorem escapeChar_of_not_isShort {c : Char} (h : isShort c = false) : escapeChar c =
    if c.toNat < 0x20 then ['\\', 'u', '0', '0'] ++ hexByte c.toNat else [c] := by
  simp only [isShort, List.mem_cons, List.not_mem_nil, or_false, decide_eq_false_iff_not,
    not_or] at h
  obtain ⟨hquote, hback, hb, ht, hn, hf, hr⟩ := h
  rw [escapeChar, if_neg hquote, if_neg hback, if_neg hb, if_neg ht, if_neg hn, if_neg hf,
    if_neg hr]

/-- A written character is read as one element, which stands for it. -/
theorem elements?_escapeChar (c : Char) : ∃ e : Element, e.For c ∧ ∀ cs,
    elements? (escapeChar c ++ cs) = (elements? cs).map fun p => (e :: p.1, p.2) := by
  cases hshort : isShort c with
  | true =>
    obtain ⟨e, hescape, hsimple, hu⟩ := escapeChar_of_isShort hshort
    rw [hescape]
    exact ⟨_, .char c, elements?_simple hsimple hu⟩
  | false =>
    rw [escapeChar_of_not_isShort hshort]
    by_cases hcontrol : c.toNat < 0x20
    · rw [if_pos hcontrol]
      exact ⟨_, .unit hcontrol, elements?_unit (codeUnit?_hexByte hcontrol)⟩
    · have hquote : c ≠ '"' := by
        rintro rfl
        cases hshort
      have hback : c ≠ '\\' := by
        rintro rfl
        cases hshort
      rw [if_neg hcontrol]
      exact ⟨_, .char c, elements?_char hquote hback hcontrol⟩

/-- A written string is read back up to its closing quote. -/
theorem elements?_escape (s cs : List Char) : ∃ es,
    elements? (s.flatMap escapeChar ++ '"' :: cs) = some (es, cs) ∧ joinElements es = some s := by
  induction s with
  | nil => exact ⟨[], rfl, rfl⟩
  | cons c s ih =>
    obtain ⟨es, hes, hjoin⟩ := ih
    obtain ⟨e, he, hread⟩ := elements?_escapeChar c
    refine ⟨e :: es, ?_, by rw [he, hjoin]; rfl⟩
    rw [List.flatMap_cons, List.append_assoc, hread, hes]
    rfl

theorem string?_escape? (s : Option String) : ∃ body, (escape? s).toList = '"' :: body ∧
    ∀ cs, string? (body ++ cs) = some (s, cs) := by
  cases s with
  | none =>
    refine ⟨['\\', 'u', 'd', '8', '0', '0', '"'], by decide, fun cs => ?_⟩
    have hunit : codeUnit? 'd' '8' '0' '0' = some 0xd800 := by decide
    have hread := elements?_unit hunit ('"' :: cs)
    simp [string?, hread, elements?, joinElements, isHighSurrogate]
  | some s =>
    refine ⟨s.toList.flatMap escapeChar ++ ['"'], ?_, fun cs => ?_⟩
    · simp [escape?, escape]
    · obtain ⟨es, hes, hjoin⟩ := elements?_escape s.toList cs
      rw [List.append_assoc, string?]
      change (elements? (_ ++ '"' :: cs)).bind _ = _
      rw [hes]
      simp [hjoin]

end Strings

section Values

/-- All numbers of a value are numbers by their texts. -/
inductive Valid : Json → Prop
  | null : Valid .null
  | boolean (b : Bool) : Valid (.boolean b)
  | number {t : String} (h : IsNumber t) : Valid (.number t)
  | string (s : Option String) : Valid (.string s)
  | array {items : List Json} (h : ∀ j ∈ items, Valid j) : Valid (.array items)
  | object {fields : List (Option String × Json)} (h : ∀ f ∈ fields, Valid f.2) :
    Valid (.object fields)

/-- The characters of the text. -/
def chars (j : Json) : List Char := j.compact.toList

/-- The characters of a field of an object. -/
def fieldChars (f : Option String × Json) : List Char := (escape? f.1).toList ++ ':' :: f.2.chars

theorem compactItems_eq (items : List Json) : compactItems items = items.map compact := by
  induction items with
  | nil => rfl
  | cons j js ih => rw [compactItems, ih, List.map_cons]

theorem compactFields_eq (fields : List (Option String × Json)) :
    compactFields fields = fields.map fun f => escape? f.1 ++ ":" ++ f.2.compact := by
  induction fields with
  | nil => rfl
  | cons f fs ih => rw [compactFields, ih, List.map_cons]

theorem chars_array (items : List Json) :
    (array items).chars = '[' :: ([','].intercalate (items.map chars) ++ [']']) := by
  have hchars : chars = fun j => j.compact.toList := rfl
  simp [hchars, compact, compactItems_eq, Function.comp_def]

theorem chars_object (fields : List (Option String × Json)) :
    (object fields).chars = '\x7b' :: ([','].intercalate (fields.map fieldChars) ++ ['\x7d']) := by
  have hfields : fieldChars = fun f => (escape? f.1).toList ++ ':' :: f.2.compact.toList := rfl
  simp [hfields, chars, compact, compactFields_eq, Function.comp_def]

/-- The value is read back from its text, whatever may follow. -/
def Reads (j : Json) : Prop := ∀ fuel rest, EndsValue rest → 2 * j.chars.length ≤ fuel →
  value? fuel (j.chars ++ rest) = some (j, rest)

theorem skipBlanks_cons {c : Char} (h : isBlank c = false) (cs : List Char) :
    skipBlanks (c :: cs) = c :: cs :=
  List.dropWhile_cons_of_neg (by simp [h])

/-- How a number starts. -/
def StartsNumber (c : Char) : Prop := c.isDigit = true ∨ c = '-'

theorem StartsNumber.ne {c d : Char} (h : StartsNumber c)
    (hd : (d.isDigit || decide (d = '-')) = false) : c ≠ d := by
  rintro rfl
  rw [Bool.or_eq_false_iff] at hd
  rcases h with h | rfl
  · rw [hd.1] at h
    cases h
  · cases hd.2

theorem StartsNumber.not_blank {c : Char} (h : StartsNumber c) : isBlank c = false := by
  simp only [isBlank, Bool.or_eq_false_iff, decide_eq_false_iff_not]
  exact ⟨⟨⟨h.ne rfl, h.ne rfl⟩, h.ne rfl⟩, h.ne rfl⟩

theorem IsNumber.head {t : String} (h : IsNumber t) :
    ∃ c cs, t.toList = c :: cs ∧ StartsNumber c := by
  obtain @⟨sign, whole, fraction, exponent, hsign, ⟨⟨hne, hall⟩, -⟩, -, -⟩ := h
  rw [String.toList_ofList]
  rcases List.mem_pair.1 hsign with rfl | rfl
  · cases whole with
    | nil => exact absurd rfl hne
    | cons d ds => exact ⟨d, _, rfl, .inl (hall d List.mem_cons_self)⟩
  · exact ⟨'-', _, rfl, .inr rfl⟩

/-- A text that starts like a number is read as one. -/
theorem value?_of_startsNumber {c : Char} (h : StartsNumber c) (fuel : Nat) (cs : List Char) :
    value? (fuel + 1) (c :: cs) = number? (c :: cs) := by
  rw [value?, skipBlanks_cons h.not_blank]
  split
  next heq => cases heq; exact absurd rfl (h.ne rfl)
  next heq => cases heq; exact absurd rfl (h.ne rfl)
  next heq => cases heq; exact absurd rfl (h.ne rfl)
  next heq => cases heq; exact absurd rfl (h.ne rfl)
  next heq => cases heq; exact absurd rfl (h.ne rfl)
  next heq => cases heq; exact absurd rfl (h.ne rfl)
  next => rfl

/-- A text starts with no blank, and not with the end of an array. -/
theorem Valid.head {j : Json} (h : j.Valid) :
    ∃ c cs, j.chars = c :: cs ∧ isBlank c = false ∧ c ≠ ']' := by
  cases h with
  | null => exact ⟨'n', _, rfl, rfl, by decide⟩
  | boolean b =>
    cases b
    · exact ⟨'f', _, rfl, rfl, by decide⟩
    · exact ⟨'t', _, rfl, rfl, by decide⟩
  | number h =>
    obtain ⟨c, cs, hcs, hc⟩ := h.head
    exact ⟨c, cs, hcs, hc.not_blank, hc.ne rfl⟩
  | string s =>
    obtain ⟨body, hbody, -⟩ := string?_escape? s
    exact ⟨'"', body, hbody, rfl, by decide⟩
  | array => exact ⟨'[', _, chars_array _, rfl, by decide⟩
  | object => exact ⟨'\x7b', _, chars_object _, rfl, by decide⟩

theorem EndsValue.cons {c : Char} (h : c = ',' ∨ c = ']' ∨ c = '\x7d') (cs : List Char) :
    EndsValue (c :: cs) := by
  rintro _ ⟨rfl⟩
  exact h

theorem intercalate_comma (a b : List Char) (l : List (List Char)) :
    [','].intercalate (a :: b :: l) = a ++ ',' :: [','].intercalate (b :: l) := by
  rw [List.intercalate_cons_cons, List.append_assoc]
  rfl

theorem items?_intercalate {items : List Json} (hne : items ≠ []) (hread : ∀ j ∈ items, j.Reads)
    {fuel : Nat} (hfuel : 2 * ([','].intercalate (items.map chars)).length < fuel)
    (rest : List Char) :
    items? fuel ([','].intercalate (items.map chars) ++ ']' :: rest) = some (items, rest) := by
  induction items generalizing fuel with
  | nil => exact absurd rfl hne
  | cons j js ih =>
    obtain ⟨fuel, rfl⟩ : ∃ n, fuel = n + 1 := ⟨fuel - 1, by omega⟩
    obtain ⟨hj, hjs⟩ := List.forall_mem_cons.1 hread
    cases js with
    | nil =>
      rw [List.map_singleton, List.intercalate_singleton] at hfuel ⊢
      rw [items?, hj fuel _ (.cons (by simp) rest) (by omega)]
      rfl
    | cons k js =>
      rw [List.map_cons, List.map_cons, intercalate_comma, ← List.map_cons] at hfuel ⊢
      rw [List.length_append, List.length_cons] at hfuel
      rw [List.append_assoc, List.cons_append, items?, hj fuel _ (.cons (by simp) _) (by omega)]
      change (items? fuel _).map _ = _
      rw [ih (List.cons_ne_nil _ _) hjs (by omega)]
      rfl

/-- A field of an object is read, and then the others or none. -/
theorem fields?_fieldChars {f : Option String × Json} (hf : f.2.Reads) {c : Char}
    (hc : c = ',' ∨ c = '\x7d') {fuel : Nat} (hfuel : 2 * (fieldChars f).length ≤ fuel)
    (rest : List Char) : fields? (fuel + 1) (fieldChars f ++ c :: rest) =
      if c = ',' then (fields? fuel rest).map fun p => (f :: p.1, p.2) else some ([f], rest) := by
  obtain ⟨key, j⟩ := f
  have hj : j.Reads := hf
  obtain ⟨body, hbody, hread⟩ := string?_escape? key
  rw [fieldChars, hbody] at hfuel ⊢
  simp only [List.length_append, List.length_cons] at hfuel
  rw [List.cons_append, List.cons_append, List.append_assoc, fields?, skipBlanks_cons rfl]
  simp only [hread, Option.bind_eq_bind, Option.bind_some]
  rw [afterColon?, List.cons_append, skipBlanks_cons rfl]
  simp only [Option.bind_some]
  rw [hj fuel _ (.cons (hc.imp_right .inr) rest) (by omega)]
  simp only [Option.bind_some]
  rcases hc with rfl | rfl
  · rw [skipBlanks_cons rfl]
    rfl
  · rw [skipBlanks_cons rfl]
    rfl

theorem fields?_intercalate {fields : List (Option String × Json)} (hne : fields ≠ [])
    (hread : ∀ f ∈ fields, f.2.Reads) {fuel : Nat}
    (hfuel : 2 * ([','].intercalate (fields.map fieldChars)).length < fuel) (rest : List Char) :
    fields? fuel ([','].intercalate (fields.map fieldChars) ++ '\x7d' :: rest) =
      some (fields, rest) := by
  induction fields generalizing fuel with
  | nil => exact absurd rfl hne
  | cons f fs ih =>
    obtain ⟨fuel, rfl⟩ : ∃ n, fuel = n + 1 := ⟨fuel - 1, by omega⟩
    obtain ⟨hf, hfs⟩ := List.forall_mem_cons.1 hread
    cases fs with
    | nil =>
      rw [List.map_singleton, List.intercalate_singleton] at hfuel ⊢
      rw [fields?_fieldChars hf (.inr rfl) (by omega)]
      rfl
    | cons g fs =>
      rw [List.map_cons, List.map_cons, intercalate_comma, ← List.map_cons] at hfuel ⊢
      rw [List.length_append, List.length_cons] at hfuel
      rw [List.append_assoc, List.cons_append, fields?_fieldChars hf (.inl rfl) (by omega),
        if_pos rfl, ih (List.cons_ne_nil _ _) hfs (by omega)]
      rfl

theorem exists_intercalate_cons (a : List Char) (l : List (List Char)) :
    ∃ more, [','].intercalate (a :: l) = a ++ more := by
  cases l with
  | nil => exact ⟨[], by rw [List.intercalate_singleton, List.append_nil]⟩
  | cons b l => exact ⟨_, intercalate_comma a b l⟩

theorem Reads.array {items : List Json} (hvalid : ∀ j ∈ items, j.Valid)
    (hread : ∀ j ∈ items, j.Reads) : (Json.array items).Reads := by
  intro fuel rest _ hfuel
  rw [chars_array, List.length_cons, List.length_append] at hfuel
  obtain ⟨fuel, rfl⟩ : ∃ n, fuel = n + 1 := ⟨fuel - 1, by omega⟩
  rw [chars_array, List.cons_append, List.append_assoc, value?, skipBlanks_cons rfl]
  cases items with
  | nil => rfl
  | cons j js =>
    have hitems : items? fuel ([','].intercalate ((j :: js).map chars) ++ ']' :: rest) =
        some (j :: js, rest) :=
      items?_intercalate (List.cons_ne_nil j js) hread (by omega) rest
    obtain ⟨more, hmore⟩ := exists_intercalate_cons j.chars (js.map chars)
    obtain ⟨c, cs, hcs, hblank, hne⟩ := (hvalid j List.mem_cons_self).head
    rw [List.map_cons, hmore, hcs, List.cons_append, List.cons_append] at hitems ⊢
    simp only [skipBlanks_cons hblank]
    split
    next heq =>
      cases heq
      exact absurd rfl hne
    next => exact congrArg _ hitems

theorem Reads.object {fields : List (Option String × Json)} (hread : ∀ f ∈ fields, f.2.Reads) :
    (Json.object fields).Reads := by
  intro fuel rest _ hfuel
  rw [chars_object, List.length_cons, List.length_append] at hfuel
  obtain ⟨fuel, rfl⟩ : ∃ n, fuel = n + 1 := ⟨fuel - 1, by omega⟩
  rw [chars_object, List.cons_append, List.append_assoc, value?, skipBlanks_cons rfl]
  cases fields with
  | nil => rfl
  | cons f fs =>
    have hfields : fields? fuel ([','].intercalate ((f :: fs).map fieldChars) ++ '\x7d' :: rest) =
        some (f :: fs, rest) :=
      fields?_intercalate (List.cons_ne_nil f fs) hread (by omega) rest
    obtain ⟨more, hmore⟩ := exists_intercalate_cons (fieldChars f) (fs.map fieldChars)
    obtain ⟨body, hbody, -⟩ := string?_escape? f.1
    rw [List.map_cons, hmore, fieldChars, hbody, List.cons_append, List.cons_append,
      List.cons_append] at hfields ⊢
    have hblank : isBlank '"' = false := rfl
    simp only [skipBlanks_cons hblank]
    exact congrArg (Option.map fun x => (Json.object x.1, x.2)) hfields

/-- Each value is read back from its text. -/
theorem Valid.reads {j : Json} (h : j.Valid) : j.Reads := by
  have hsome {n fuel : Nat} (h : 2 * (n + 1) ≤ fuel) : ∃ k, fuel = k + 1 := ⟨fuel - 1, by omega⟩
  induction h with
  | null =>
    intro fuel rest _ hfuel
    obtain ⟨fuel, rfl⟩ := hsome hfuel
    rfl
  | boolean b =>
    intro fuel rest _ hfuel
    cases b
    · obtain ⟨fuel, rfl⟩ := hsome hfuel
      rfl
    · obtain ⟨fuel, rfl⟩ := hsome hfuel
      rfl
  | @number t h =>
    intro fuel rest hrest hfuel
    obtain ⟨c, cs, hcs, hc⟩ := h.head
    have hchars : (Json.number t).chars = c :: cs := hcs
    rw [hchars] at hfuel ⊢
    obtain ⟨fuel, rfl⟩ := hsome hfuel
    rw [List.cons_append, value?_of_startsNumber hc, ← List.cons_append, ← hcs,
      number?_append h hrest]
  | string s =>
    intro fuel rest _ hfuel
    obtain ⟨body, hbody, hread⟩ := string?_escape? s
    have hchars : (Json.string s).chars = '"' :: body := hbody
    rw [hchars] at hfuel ⊢
    obtain ⟨fuel, rfl⟩ := hsome hfuel
    rw [List.cons_append, value?, skipBlanks_cons rfl]
    simp only [hread, Option.map_some]
  | array h ih => exact .array h ih
  | object h ih => exact .object ih

/-- Reading inverts writing. -/
theorem Valid.ofText?_compact {j : Json} (h : j.Valid) : ofText? j.compact = some j := by
  have hread := h.reads (2 * j.chars.length + 2) [] (fun _ hc => nomatch hc) (by omega)
  rw [List.append_nil, chars] at hread
  simp only [ofText?, hread]
  rfl

/-- Values with the same text are the same. -/
theorem Valid.compact_inj {j k : Json} (hj : j.Valid) (hk : k.Valid) :
    j.compact = k.compact ↔ j = k := by
  refine ⟨fun h => Option.some.inj ?_, fun h => h ▸ rfl⟩
  rw [← hj.ofText?_compact, h, hk.ofText?_compact]

end Values

end LoopNest.Json
