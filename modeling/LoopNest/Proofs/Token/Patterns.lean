import LoopNest.Proofs.Token.Cutting
import Mathlib.Computability.Language
import Mathlib.Data.List.TakeWhile

/-! The patterns of tokens and of what stands between them, as languages. A piece is never shorter
than a part in front that matches a pattern, and what is taken for a token matches the pattern of
that token. -/
namespace LoopNest

open scoped Computability

namespace Pattern

/-- A single character of a class. -/
def one (p : Char → Prop) : Language Char := {w | ∃ c, p c ∧ w = [c]}

def digits : Language Char :=
  one (fun c => '0' ≤ c ∧ c ≤ '9') * (one fun c => '0' ≤ c ∧ c ≤ '9')∗

def sign : Language Char := 1 + one (· = '-')

def fraction : Language Char := one (· = '.') * digits

def exponent : Language Char :=
  one (fun c => c = 'e' ∨ c = 'E') * (1 + one fun c => c = '+' ∨ c = '-') * digits

def integer : Language Char := sign * digits

/-- Digits with a fraction, with an exponent, or with both. -/
def float : Language Char :=
  sign * digits * fraction * (1 + exponent) + sign * digits * exponent

/-- Characters between quotes; a backslash takes any character after it along but the end of a
line. -/
def string : Language Char :=
  one (· = '"') * (one (fun c => c ≠ '"' ∧ c ≠ '\\') + one (· = '\\') * one (· ≠ '\n'))∗ *
    one (· = '"')

def word : Language Char :=
  one (fun c => 'a' ≤ c ∧ c ≤ 'z' ∨ 'A' ≤ c ∧ c ≤ 'Z' ∨ c = '_') *
    (one fun c => 'a' ≤ c ∧ c ≤ 'z' ∨ 'A' ≤ c ∧ c ≤ 'Z' ∨ '0' ≤ c ∧ c ≤ '9' ∨ c = '_')∗

/-- Blanks, or a comment up to the end of its line. -/
def skipped : Language Char :=
  one (· ∈ [' ', '\t', '\r', '\n']) * (one (· ∈ [' ', '\t', '\r', '\n']))∗ +
    one (· = '#') * (one (· ≠ '\n'))∗

end Pattern

/-- What is written for a token. -/
def Token.pattern : Token → Language Char
  | .keyword k => {k.text.toList}
  | .symbol s => {[s.char]}
  | .float _ => Pattern.float
  | .int _ => Pattern.integer
  | .str _ => Pattern.string
  | .ident _ => Pattern.word

/-- The text is the longest part in front of the rest that matches the pattern of a token or of what
is skipped. -/
structure Longest (text rest : List Char) : Prop where
  front : text <+: rest
  fits : text ∈ Pattern.skipped ∨ ∃ t : Token, text ∈ t.pattern
  length_le : ∀ w, w <+: rest → (w ∈ Pattern.skipped ∨ ∃ t : Token, w ∈ t.pattern) →
    w.length ≤ text.length

namespace Pattern

section Members

variable {p q : Char → Prop} {w : List Char}

theorem mem_one : w ∈ one p ↔ ∃ c, p c ∧ w = [c] := Iff.rfl

theorem mem_star_one : w ∈ (one p)∗ ↔ ∀ c ∈ w, p c := by
  rw [Language.mem_kstar]
  constructor
  · rintro ⟨parts, rfl, hparts⟩ c hc
    obtain ⟨part, hpart, hc⟩ := List.mem_flatten.1 hc
    obtain ⟨d, hd, rfl⟩ := hparts part hpart
    rwa [List.mem_singleton.1 hc]
  · intro h
    refine ⟨w.map fun c => [c], (List.flatMap_singleton' w).symm, ?_⟩
    intro part hpart
    obtain ⟨c, hc, rfl⟩ := List.mem_map.1 hpart
    exact ⟨c, h c hc, rfl⟩

theorem mem_one_mul {l : Language Char} :
    w ∈ one p * l ↔ ∃ c v, w = c :: v ∧ p c ∧ v ∈ l := by
  rw [Language.mem_mul]
  constructor
  · rintro ⟨_, ⟨c, hc, rfl⟩, v, hv, rfl⟩
    exact ⟨c, v, rfl, hc, hv⟩
  · rintro ⟨c, v, rfl, hc, hv⟩
    exact ⟨[c], ⟨c, hc, rfl⟩, v, hv, rfl⟩

theorem isDigit_iff {c : Char} : c.isDigit = true ↔ '0' ≤ c ∧ c ≤ '9' := by
  rw [Char.isDigit_iff_toNat]
  rfl

theorem mem_digits : w ∈ digits ↔ Json.IsDigits w := by
  rw [digits, mem_one_mul]
  simp only [mem_star_one, ← isDigit_iff]
  constructor
  · rintro ⟨c, v, rfl, hc, hv⟩
    exact ⟨List.cons_ne_nil c v, List.forall_mem_cons.2 ⟨hc, hv⟩⟩
  · rintro ⟨hne, hall⟩
    obtain ⟨c, v, rfl⟩ := List.exists_cons_of_ne_nil hne
    obtain ⟨hc, hv⟩ := List.forall_mem_cons.1 hall
    exact ⟨c, v, rfl, hc, hv⟩

theorem isBlank_iff {c : Char} : Lexer.isBlank c = true ↔ c ∈ [' ', '\t', '\r', '\n'] := by
  simp [Lexer.isBlank, or_assoc]

theorem isAlpha_iff {c : Char} :
    c.isAlpha = true ↔ 'a' ≤ c ∧ c ≤ 'z' ∨ 'A' ≤ c ∧ c ≤ 'Z' := by
  change (decide ('A'.val ≤ c.val ∧ c.val ≤ 'Z'.val) ||
    (decide ('a'.val ≤ c.val) && decide (c.val ≤ 'z'.val))) = true ↔ _
  rw [Bool.or_eq_true, Bool.and_eq_true, decide_eq_true_eq, decide_eq_true_eq, decide_eq_true_eq,
    or_comm]
  rfl

theorem isWordStart_iff {c : Char} : Lexer.isWordStart c = true ↔
    'a' ≤ c ∧ c ≤ 'z' ∨ 'A' ≤ c ∧ c ≤ 'Z' ∨ c = '_' := by
  rw [Lexer.isWordStart, Bool.or_eq_true, isAlpha_iff, decide_eq_true_eq, or_assoc]

theorem isWordPart_iff {c : Char} : Lexer.isWordPart c = true ↔
    'a' ≤ c ∧ c ≤ 'z' ∨ 'A' ≤ c ∧ c ≤ 'Z' ∨ '0' ≤ c ∧ c ≤ '9' ∨ c = '_' := by
  change (c.isAlpha || c.isDigit || decide (c = '_')) = true ↔ _
  rw [Bool.or_eq_true, Bool.or_eq_true, isAlpha_iff, isDigit_iff, decide_eq_true_eq, or_assoc,
    or_assoc]

theorem mem_word : w ∈ word ↔
    ∃ c v, w = c :: v ∧ Lexer.isWordStart c = true ∧ ∀ d ∈ v, Lexer.isWordPart d = true := by
  simp only [word, mem_one_mul, mem_star_one, isWordStart_iff, isWordPart_iff]

theorem mem_skipped : w ∈ skipped ↔ ∃ c v, w = c :: v ∧
    (Lexer.isBlank c = true ∧ (∀ d ∈ v, Lexer.isBlank d = true) ∨ c = '#' ∧ ∀ d ∈ v, d ≠ '\n') := by
  rw [skipped, Language.mem_add]
  simp only [mem_one_mul, mem_star_one, isBlank_iff]
  constructor
  · rintro (⟨c, v, rfl, h⟩ | ⟨c, v, rfl, h⟩)
    · exact ⟨c, v, rfl, .inl h⟩
    · exact ⟨c, v, rfl, .inr h⟩
  · rintro ⟨c, v, rfl, h | h⟩
    · exact .inl ⟨c, v, rfl, h⟩
    · exact .inr ⟨c, v, rfl, h⟩

theorem mem_fraction : w ∈ fraction ↔ ∃ ds, w = '.' :: ds ∧ Json.IsDigits ds := by
  simp only [fraction, mem_one_mul, mem_digits]
  constructor
  · rintro ⟨c, ds, rfl, rfl, h⟩
    exact ⟨ds, rfl, h⟩
  · rintro ⟨ds, rfl, h⟩
    exact ⟨'.', ds, rfl, rfl, h⟩

/-- The letter, a sign or nothing, and digits. -/
theorem mem_exponent : w ∈ exponent ↔ ∃ c s ds, w = c :: (s ++ ds) ∧ (c = 'e' ∨ c = 'E') ∧
    (s = [] ∨ s = ['+'] ∨ s = ['-']) ∧ Json.IsDigits ds := by
  rw [exponent, mul_assoc, mem_one_mul]
  simp only [Language.mem_mul, Language.mem_add, Language.mem_one, mem_one, mem_digits]
  constructor
  · rintro ⟨c, _, rfl, hc, s, hs, ds, hds, rfl⟩
    refine ⟨c, s, ds, rfl, hc, ?_, hds⟩
    rcases hs with rfl | ⟨d, rfl | rfl, rfl⟩
    · exact .inl rfl
    · exact .inr (.inl rfl)
    · exact .inr (.inr rfl)
  · rintro ⟨c, s, ds, rfl, hc, hs, hds⟩
    refine ⟨c, _, rfl, hc, s, ?_, ds, hds, rfl⟩
    rcases hs with rfl | rfl | rfl
    · exact .inl rfl
    · exact .inr ⟨'+', .inl rfl, rfl⟩
    · exact .inr ⟨'-', .inr rfl, rfl⟩

theorem mem_sign : w ∈ sign ↔ w = [] ∨ w = ['-'] := by
  rw [sign, Language.mem_add, Language.mem_one, mem_one]
  simp

/-- The parts of a number without its sign, of which fraction and exponent may be missing. -/
structure IsMagnitude (ds f e : List Char) : Prop where
  digits : Json.IsDigits ds
  fraction : f = [] ∨ f ∈ fraction
  exponent : e = [] ∨ e ∈ exponent

theorem mem_integer : w ∈ integer ↔ ∃ s ds, w = s ++ ds ∧ s ∈ sign ∧ Json.IsDigits ds := by
  simp only [integer, Language.mem_mul, mem_digits]
  constructor
  · rintro ⟨s, hs, ds, hds, rfl⟩
    exact ⟨s, ds, rfl, hs, hds⟩
  · rintro ⟨s, ds, rfl, hs, hds⟩
    exact ⟨s, hs, ds, hds, rfl⟩

/-- A float has a fraction or an exponent. -/
theorem mem_float : w ∈ float ↔ ∃ s ds f e, w = s ++ (ds ++ (f ++ e)) ∧ s ∈ sign ∧
    IsMagnitude ds f e ∧ (f ≠ [] ∨ e ≠ []) := by
  simp only [float, mul_assoc, Language.mem_add, Language.mem_mul, Language.mem_one, mem_digits]
  constructor
  · rintro (⟨s, hs, _, ⟨ds, hds, _, ⟨f, hf, e, he, rfl⟩, rfl⟩, rfl⟩ |
      ⟨s, hs, _, ⟨ds, hds, e, he, rfl⟩, rfl⟩)
    · have hne : f ≠ [] := by
        obtain ⟨ds', rfl, -⟩ := mem_fraction.1 hf
        exact List.cons_ne_nil _ _
      exact ⟨s, ds, f, e, rfl, hs, ⟨hds, .inr hf, he⟩, .inl hne⟩
    · have hne : e ≠ [] := by
        obtain ⟨c, s', ds', rfl, -⟩ := mem_exponent.1 he
        exact List.cons_ne_nil _ _
      exact ⟨s, ds, [], e, rfl, hs, ⟨hds, .inl rfl, .inr he⟩, .inr hne⟩
  · rintro ⟨s, ds, f, e, rfl, hs, ⟨hds, hf, he⟩, hne⟩
    rcases hf with rfl | hf
    · have he : e ∈ exponent := he.resolve_left (hne.resolve_left fun h => h rfl)
      exact .inr ⟨s, hs, _, ⟨ds, hds, e, he, rfl⟩, rfl⟩
    · exact .inl ⟨s, hs, _, ⟨ds, hds, _, ⟨f, hf, e, he, rfl⟩, rfl⟩, rfl⟩

/-- A character of a string, or a pair that starts with a backslash. -/
inductive IsStringPart : List Char → Prop
  | char {c : Char} (hquote : c ≠ '"') (hescape : c ≠ '\\') : IsStringPart [c]
  | escape {c : Char} (h : c ≠ '\n') : IsStringPart ['\\', c]

theorem mem_string : w ∈ string ↔
    ∃ parts, w = '"' :: (List.flatten parts ++ ['"']) ∧ ∀ part ∈ parts, IsStringPart part := by
  have hpart (v : List Char) : v ∈ one (fun c => c ≠ '"' ∧ c ≠ '\\') +
      one (· = '\\') * one (· ≠ '\n') ↔ IsStringPart v := by
    rw [Language.mem_add, mem_one_mul]
    constructor
    · rintro (⟨c, ⟨hquote, hescape⟩, rfl⟩ | ⟨_, _, rfl, rfl, c, hc, rfl⟩)
      · exact .char hquote hescape
      · exact .escape hc
    · rintro (⟨hquote, hescape⟩ | ⟨h⟩)
      · exact .inl ⟨_, ⟨hquote, hescape⟩, rfl⟩
      · exact .inr ⟨_, _, rfl, rfl, _, h, rfl⟩
  rw [string, mul_assoc, mem_one_mul]
  simp only [Language.mem_mul, Language.mem_kstar, hpart]
  constructor
  · rintro ⟨_, _, rfl, rfl, _, ⟨parts, rfl, hparts⟩, _, ⟨_, rfl, rfl⟩, rfl⟩
    exact ⟨parts, rfl, hparts⟩
  · rintro ⟨parts, rfl, hparts⟩
    exact ⟨_, _, rfl, rfl, _, ⟨parts, rfl, hparts⟩, _, ⟨_, rfl, rfl⟩, rfl⟩

end Members

end Pattern

namespace Lexer

open Pattern

section Numbers

variable {ds f e y cs : List Char}

theorem take_takeWhile (p : Char → Bool) (cs : List Char) :
    cs.take (cs.takeWhile p).length = cs.takeWhile p :=
  (List.prefix_iff_eq_take.1 (List.takeWhile_prefix p)).symm

theorem length_le_takeWhile {p : Char → Bool} {v : List Char} (hv : ∀ c ∈ v, p c = true)
    (y : List Char) : v.length ≤ ((v ++ y).takeWhile p).length := by
  rw [List.takeWhile_append_of_pos hv, List.length_append]
  exact Nat.le_add_right _ _

theorem digitCount_digits (hds : Json.IsDigits ds) (hy : ∀ c ∈ y.head?, c.isDigit = false) :
    digitCount (ds ++ y) = ds.length := by
  rw [digitCount, takeWhile_append_eq hds.2 hy]

theorem digitCount_ne_zero (hds : Json.IsDigits ds) (y : List Char) : digitCount (ds ++ y) ≠ 0 := by
  have hle : ds.length ≤ digitCount (ds ++ y) := length_le_takeWhile hds.2 y
  have hpos := List.length_pos_iff.2 hds.1
  omega

theorem fractionLength_fraction (hf : f ∈ fraction) (y : List Char) :
    f.length ≤ fractionLength (f ++ y) ∧
      ((∀ c ∈ y.head?, c.isDigit = false) → fractionLength (f ++ y) = f.length) := by
  obtain ⟨ds, rfl, hds⟩ := mem_fraction.1 hf
  have hle : ds.length ≤ digitCount (ds ++ y) := length_le_takeWhile hds.2 y
  rw [List.cons_append, fractionLength_point, if_neg (digitCount_ne_zero hds y), List.length_cons]
  refine ⟨Nat.add_le_add_right hle 1, fun hy => ?_⟩
  rw [digitCount_digits hds hy]

theorem exponentLength_exponent (he : e ∈ exponent) (y : List Char) :
    e.length ≤ exponentLength (e ++ y) := by
  obtain ⟨c, s, ds, rfl, hc, hs, hds⟩ := mem_exponent.1 he
  have hle : ds.length ≤ digitCount (ds ++ y) := length_le_takeWhile hds.2 y
  have hsign : signLength (s ++ ds ++ y) = s.length := by
    rcases hs with rfl | rfl | rfl
    · obtain ⟨d, ds', rfl⟩ := List.exists_cons_of_ne_nil hds.1
      have hdigit := hds.2 d List.mem_cons_self
      refine if_neg fun hd => ?_
      rcases hd with rfl | rfl <;> cases hdigit
    · rfl
    · rfl
  rw [List.cons_append, exponentLength_letter hc, hsign, List.append_assoc, List.drop_left,
    if_neg (digitCount_ne_zero hds y), List.length_cons, List.length_append]
  omega

theorem not_isDigit_exponent (he : e ∈ exponent) (y : List Char) :
    ∀ c ∈ (e ++ y).head?, c.isDigit = false ∧ c ≠ '.' := by
  obtain ⟨c, s, ds, rfl, hc, -⟩ := mem_exponent.1 he
  rintro _ ⟨rfl⟩
  rcases hc with rfl | rfl <;> exact ⟨rfl, by decide⟩

theorem not_isDigit_fraction (hf : f ∈ fraction) (y : List Char) :
    ∀ c ∈ (f ++ y).head?, c.isDigit = false := by
  obtain ⟨ds, rfl, -⟩ := mem_fraction.1 hf
  rintro _ ⟨rfl⟩
  rfl

theorem fractionLength_eq_zero (h : ∀ c ∈ cs.head?, c ≠ '.') : fractionLength cs = 0 := by
  cases cs with
  | nil => rfl
  | cons c cs => exact fractionLength_other (h c rfl) cs

/-- A magnitude in front of a text is no longer than the number there. Each of its parts ends the
part before it, whose length is then exact. -/
theorem length_le_numberLength (h : IsMagnitude ds f e) (y : List Char) :
    (ds ++ (f ++ e)).length ≤ (numberLength (ds ++ (f ++ (e ++ y)))).1 := by
  obtain ⟨hds, hf, he⟩ := h
  simp only [numberLength, List.length_append]
  rcases hf with rfl | hf
  · rcases he with rfl | he
    · have hle : ds.length ≤ digitCount (ds ++ y) := length_le_takeWhile hds.2 y
      simp only [List.nil_append, List.length_nil]
      omega
    · have hend := not_isDigit_exponent he y
      have hwhole := digitCount_digits hds fun c hc => (hend c hc).1
      have hle := exponentLength_exponent he y
      rw [List.nil_append, hwhole, List.drop_left, fractionLength_eq_zero fun c hc => (hend c hc).2,
        Nat.add_zero, List.drop_left, List.length_nil]
      omega
  · have hwhole := digitCount_digits hds (not_isDigit_fraction hf (e ++ y))
    obtain ⟨hle, hexact⟩ := fractionLength_fraction hf (e ++ y)
    rw [hwhole, List.drop_left]
    rcases he with rfl | he
    · simp only [List.length_nil]
      omega
    · have hend := not_isDigit_exponent he y
      have hlast := exponentLength_exponent he y
      rw [hexact fun c hc => (hend c hc).1, ← List.drop_drop, List.drop_left, List.drop_left]
      omega

theorem isDigits_take (h : digitCount cs ≠ 0) : Json.IsDigits (cs.take (digitCount cs)) := by
  rw [digitCount, take_takeWhile]
  exact ⟨fun hnil => h (congrArg List.length hnil), fun c hc => List.mem_takeWhile_imp hc⟩

theorem take_fractionLength (cs : List Char) :
    cs.take (fractionLength cs) = [] ∨ cs.take (fractionLength cs) ∈ fraction := by
  cases cs with
  | nil => exact .inl rfl
  | cons c cs =>
    by_cases hc : c = '.'
    · subst hc
      rw [fractionLength_point]
      by_cases hcount : digitCount cs = 0
      · rw [if_pos hcount]
        exact .inl rfl
      · rw [if_neg hcount, List.take_succ_cons]
        exact .inr (mem_fraction.2 ⟨_, rfl, isDigits_take hcount⟩)
    · rw [fractionLength_other hc]
      exact .inl rfl

theorem take_signLength (cs : List Char) :
    cs.take (signLength cs) = [] ∨ cs.take (signLength cs) = ['+'] ∨
      cs.take (signLength cs) = ['-'] := by
  cases cs with
  | nil => exact .inl rfl
  | cons c cs =>
    rw [signLength]
    split_ifs with hc
    · rcases hc with rfl | rfl
      · exact .inr (.inl rfl)
      · exact .inr (.inr rfl)
    · exact .inl rfl

theorem take_exponentLength (cs : List Char) :
    cs.take (exponentLength cs) = [] ∨ cs.take (exponentLength cs) ∈ exponent := by
  cases cs with
  | nil => exact .inl rfl
  | cons c cs =>
    by_cases hc : c = 'e' ∨ c = 'E'
    · rw [exponentLength_letter hc]
      by_cases hcount : digitCount (cs.drop (signLength cs)) = 0
      · rw [if_pos hcount]
        exact .inl rfl
      · rw [if_neg hcount, List.take_succ_cons, Nat.add_comm, List.take_add]
        exact .inr (mem_exponent.2 ⟨c, _, _, rfl, hc, take_signLength cs, isDigits_take hcount⟩)
    · rw [exponentLength_other hc]
      exact .inl rfl

/-- The number in front of a text that starts with a digit is a magnitude, and it is taken for a
float if it has a fraction or an exponent. -/
theorem exists_magnitude (h : digitCount cs ≠ 0) :
    ∃ ds f e, cs.take (numberLength cs).1 = ds ++ (f ++ e) ∧ IsMagnitude ds f e ∧
      ((numberLength cs).2 = true ↔ f ≠ [] ∨ e ≠ []) := by
  refine ⟨_, _, _, ?_, ⟨isDigits_take h, take_fractionLength (cs.drop (digitCount cs)),
    take_exponentLength (cs.drop (digitCount cs + fractionLength (cs.drop (digitCount cs))))⟩, ?_⟩
  · simp only [numberLength]
    rw [Nat.add_assoc, List.take_add, List.take_add, List.drop_drop]
  · have hlength {n : Nat} {l : List Char} (hle : n ≤ l.length) : l.take n ≠ [] ↔ n ≠ 0 := by
      rw [← List.length_pos_iff, List.length_take_of_le hle, Nat.pos_iff_ne_zero]
    rw [hlength (fractionLength_le _), hlength (exponentLength_le _)]
    simp only [numberLength, bne_iff_ne]
    omega

end Numbers

section Strings

theorem stringLength_parts {parts : List (List Char)} (h : ∀ part ∈ parts, IsStringPart part)
    (y : List Char) :
    stringLength (parts.flatten ++ '"' :: y) = (parts.flatten.length + 1, true) := by
  induction parts with
  | nil => rfl
  | cons part parts ih =>
    obtain ⟨hpart, hparts⟩ := List.forall_mem_cons.1 h
    rw [List.flatten_cons, List.append_assoc, List.length_append]
    cases hpart with
    | char hquote hescape =>
      rw [List.cons_append, List.nil_append, stringLength_char hquote hescape, ih hparts]
      simp [Nat.add_comm, Nat.add_left_comm]
    | escape hc =>
      rw [List.cons_append, List.cons_append, List.nil_append, stringLength_escape_char hc,
        ih hparts]
      simp [Nat.add_comm, Nat.add_left_comm]

theorem exists_parts {cs : List Char} (h : (stringLength cs).2 = true) :
    ∃ parts, cs.take (stringLength cs).1 = List.flatten parts ++ ['"'] ∧
      ∀ part ∈ parts, IsStringPart part := by
  fun_induction stringLength cs with
  | case1 | case3 | case5 => cases h
  | case2 => exact ⟨[], rfl, by simp⟩
  | case4 c cs hc n closed hrest ih =>
    rw [hrest] at ih
    obtain ⟨parts, htake, hparts⟩ := ih h
    refine ⟨['\\', c] :: parts, ?_, List.forall_mem_cons.2 ⟨.escape hc, hparts⟩⟩
    rw [List.take_succ_cons, List.take_succ_cons, htake]
    rfl
  | case6 c cs hquote hpair hlast n closed hrest ih =>
    rw [hrest] at ih
    obtain ⟨parts, htake, hparts⟩ := ih h
    have hpart : IsStringPart [c] := .char hquote (ne_escape hpair hlast)
    refine ⟨[c] :: parts, ?_, List.forall_mem_cons.2 ⟨hpart, hparts⟩⟩
    rw [List.take_succ_cons, htake]
    rfl

end Strings

section Pieces

variable {c : Char} {cs w : List Char}

theorem skipped_le_piece (h : w ∈ skipped) (hfront : w <+: c :: cs) :
    w.length ≤ (pieceAt c cs).1 + 1 := by
  obtain ⟨_, v, rfl, hclass⟩ := mem_skipped.1 h
  obtain ⟨rfl, y, rfl⟩ := List.cons_prefix_cons.1 hfront
  rw [List.length_cons]
  refine Nat.add_le_add_right ?_ 1
  rcases hclass with ⟨hblank, hv⟩ | ⟨rfl, hv⟩
  · rw [pieceAt_of_isBlank hblank]
    exact length_le_takeWhile hv y
  · exact length_le_takeWhile (fun d hd => bne_iff_ne.2 (hv d hd)) y

theorem word_le_piece (h : w ∈ word) (hfront : w <+: c :: cs) :
    w.length ≤ (pieceAt c cs).1 + 1 := by
  obtain ⟨_, v, rfl, hstart, hv⟩ := mem_word.1 h
  obtain ⟨rfl, y, rfl⟩ := List.cons_prefix_cons.1 hfront
  rw [pieceAt_of_isWordStart hstart, List.length_cons]
  exact Nat.add_le_add_right (length_le_takeWhile hv y) 1

theorem number_le_piece {s ds f e : List Char} (hs : s ∈ sign) (h : IsMagnitude ds f e)
    (hfront : s ++ (ds ++ (f ++ e)) <+: c :: cs) :
    (s ++ (ds ++ (f ++ e))).length ≤ (pieceAt c cs).1 + 1 := by
  obtain ⟨y, hy⟩ := hfront
  have hle := length_le_numberLength h y
  simp only [List.append_assoc] at hy
  rcases mem_sign.1 hs with rfl | rfl
  · obtain ⟨d, ds', rfl⟩ := List.exists_cons_of_ne_nil h.digits.1
    rw [List.nil_append] at hy ⊢
    obtain ⟨rfl, rfl⟩ := List.cons.inj hy
    rw [pieceAt_of_isDigit (h.digits.2 d List.mem_cons_self)]
    exact hle.trans (Nat.le_add_of_sub_le (Nat.le_refl _))
  · rw [List.singleton_append, List.cons.injEq] at hy
    obtain ⟨rfl, rfl⟩ := hy
    rw [pieceAt_dash, if_neg (digitCount_ne_zero h.digits _)]
    exact Nat.add_le_add_right hle 1

theorem string_le_piece (h : w ∈ string) (hfront : w <+: c :: cs) :
    w.length ≤ (pieceAt c cs).1 + 1 := by
  obtain ⟨parts, rfl, hparts⟩ := mem_string.1 h
  obtain ⟨rfl, y, rfl⟩ := List.cons_prefix_cons.1 hfront
  rw [pieceAt_quote, List.append_assoc, List.singleton_append, stringLength_parts hparts]
  simp

theorem keyword_mem_word (k : Keyword) : k.text.toList ∈ word := by
  rcases k with _ | _ | _ | _ | _ | b
  case boolean =>
    cases b <;> exact mem_word.2 ⟨_, _, rfl, by decide, List.all_eq_true.1 (by decide)⟩
  all_goals exact mem_word.2 ⟨_, _, rfl, by decide, List.all_eq_true.1 (by decide)⟩

/-- A part in front of a text that matches a pattern is no longer than the piece there. -/
theorem length_le_piece (hfront : w <+: c :: cs)
    (h : w ∈ skipped ∨ ∃ t : Token, w ∈ t.pattern) : w.length ≤ (pieceAt c cs).1 + 1 := by
  rcases h with h | ⟨t, h⟩
  · exact skipped_le_piece h hfront
  cases t with
  | keyword k =>
    rw [show w = k.text.toList from h] at hfront ⊢
    exact word_le_piece (keyword_mem_word k) hfront
  | symbol s =>
    rw [show w = [s.char] from h]
    exact Nat.le_add_left _ _
  | float x =>
    obtain ⟨s, ds, f, e, rfl, hs, hm, -⟩ := mem_float.1 h
    exact number_le_piece hs hm hfront
  | int n =>
    obtain ⟨s, ds, rfl, hs, hds⟩ := mem_integer.1 h
    have hm : IsMagnitude ds [] [] := ⟨hds, .inl rfl, .inl rfl⟩
    rw [← List.append_nil ds] at hfront ⊢
    exact number_le_piece hs hm hfront
  | str v => exact string_le_piece h hfront
  | ident n => exact word_le_piece h hfront

theorem mem_pattern_number {s ds f e : List Char} {isFloat : Bool} {t : Token} (hs : s ∈ sign)
    (hm : IsMagnitude ds f e) (hfloat : isFloat = true ↔ f ≠ [] ∨ e ≠ [])
    (hw : w = s ++ (ds ++ (f ++ e))) (h : numberKind w isFloat = .token t) : w ∈ t.pattern := by
  unfold numberKind at h
  cases isFloat with
  | true =>
    rw [if_pos rfl] at h
    cases hx : Double.ofText? w with
    | none =>
      rw [hx] at h
      cases h
    | some x =>
      rw [hx] at h
      cases h
      exact mem_float.2 ⟨s, ds, f, e, hw, hs, hm, hfloat.1 rfl⟩
  | false =>
    rw [if_neg (by decide)] at h
    obtain ⟨hf, he⟩ : f = [] ∧ e = [] := by simpa using hfloat
    subst hf he
    cases hn : int64? w with
    | none =>
      rw [hn] at h
      cases h
    | some n =>
      rw [hn] at h
      cases h
      rw [List.append_nil, List.append_nil] at hw
      exact mem_integer.2 ⟨s, ds, hw, hs, hm.digits⟩

theorem mem_pattern_word (hw : w ∈ word) : w ∈ (wordToken w).pattern := by
  cases hk : Keyword.ofText? (String.ofList w) with
  | none =>
    simp only [wordToken, hk]
    exact hw
  | some k =>
    have htext : k.text = String.ofList w := by simpa using List.find?_some hk
    simp only [wordToken, hk]
    change w = k.text.toList
    rw [htext, String.toList_ofList]

theorem mem_pattern_string {t : Token} (h : stringKind w (stringLength cs).2 = .token t) :
    '"' :: cs.take (stringLength cs).1 ∈ t.pattern := by
  unfold stringKind at h
  cases hclosed : (stringLength cs).2 with
  | false =>
    rw [hclosed, if_neg (by decide)] at h
    cases h
  | true =>
    rw [hclosed, if_pos rfl] at h
    cases hs : unescape? w with
    | none =>
      rw [hs] at h
      cases h
    | some s =>
      rw [hs] at h
      cases h
      obtain ⟨parts, htake, hparts⟩ := exists_parts hclosed
      exact mem_string.2 ⟨parts, by rw [htake], hparts⟩

/-- What is taken for a token matches its pattern. -/
theorem mem_pattern {n : Nat} {t : Token} (h : pieceAt c cs = (n, .token t)) :
    c :: cs.take n ∈ t.pattern := by
  have hstart := start_pieceAt c
  generalize pieceAt c = piece at hstart h
  cases hstart with
  | blank | comment | stray => cases h
  | word hc =>
    cases h
    rw [take_takeWhile]
    exact mem_pattern_word (mem_word.2 ⟨c, _, rfl, hc, fun d hd => List.mem_takeWhile_imp hd⟩)
  | digit hc =>
    obtain ⟨rfl, hkind⟩ := Prod.mk.inj h
    have hcount : digitCount (c :: cs) ≠ 0 := by simp [digitCount, hc]
    obtain ⟨ds, f, e, htake, hm, hfloat⟩ := exists_magnitude hcount
    have hpos : (numberLength (c :: cs)).1 = (numberLength (c :: cs)).1 - 1 + 1 := by
      simp only [numberLength]
      omega
    rw [hpos, List.take_succ_cons] at htake
    exact mem_pattern_number (mem_sign.2 (.inl rfl)) hm hfloat htake hkind
  | minus =>
    by_cases hcount : digitCount cs = 0
    · simp only [if_pos hcount] at h
      cases h
    · simp only [if_neg hcount] at h
      obtain ⟨rfl, hkind⟩ := Prod.mk.inj h
      obtain ⟨ds, f, e, htake, hm, hfloat⟩ := exists_magnitude hcount
      refine mem_pattern_number (mem_sign.2 (.inr rfl)) hm hfloat ?_ hkind
      rw [htake]
      rfl
  | quote =>
    obtain ⟨rfl, hkind⟩ := Prod.mk.inj h
    exact mem_pattern_string hkind
  | symbol s =>
    cases h
    rfl

theorem numberKind_ne_blank (w : List Char) (isFloat : Bool) : numberKind w isFloat ≠ .blank := by
  unfold numberKind
  cases isFloat with
  | true => cases Double.ofText? w <;> simp
  | false => cases int64? w <;> simp

theorem stringKind_ne_blank (w : List Char) (closed : Bool) : stringKind w closed ≠ .blank := by
  unfold stringKind
  cases closed with
  | true => cases unescape? w <;> simp
  | false => simp

theorem mem_skipped_of_blank {n : Nat} (h : pieceAt c cs = (n, .blank)) :
    c :: cs.take n ∈ skipped := by
  have hstart := start_pieceAt c
  generalize pieceAt c = piece at hstart h
  cases hstart with
  | blank hc =>
    cases h
    rw [take_takeWhile]
    exact mem_skipped.2 ⟨c, _, rfl, .inl ⟨hc, fun d hd => List.mem_takeWhile_imp hd⟩⟩
  | comment =>
    cases h
    rw [take_takeWhile]
    have hline : ∀ d ∈ cs.takeWhile (· != '\n'), d ≠ '\n' := fun d hd => by
      simpa using List.mem_takeWhile_imp hd
    exact mem_skipped.2 ⟨'#', _, rfl, .inr ⟨rfl, hline⟩⟩
  | word | symbol | stray => cases h
  | digit => exact absurd (congrArg Prod.snd h) (numberKind_ne_blank _ _)
  | minus =>
    dsimp only at h
    split_ifs at h
    · cases h
    · exact absurd (congrArg Prod.snd h) (numberKind_ne_blank _ _)
  | quote => exact absurd (congrArg Prod.snd h) (stringKind_ne_blank _ _)

end Pieces

end Lexer

end LoopNest
