import LoopNest.Proofs.Source.Languages
import LoopNest.Proofs.Source.Recognition

/-! Syntax errors. Every word of the language of modules is the text of a module, so what the parser
blames is the first token with which no module goes on, and what it expects there is what could have
come instead. -/
namespace LoopNest.Parser

open Expectation
open scoped Computability

section Texts

/-- The sequences of tokens that can all be read. -/
def readable : Language Token := {ts | ∀ t ∈ ts, t.Readable}

variable {L M : Language Token} {es : List Expectation}

theorem mul_le_readable (hL : L ≤ readable) (hM : M ≤ readable) : L * M ≤ readable := by
  rintro _ ⟨us, hus, vs, hvs, rfl⟩
  exact List.forall_mem_append.2 ⟨hL hus, hM hvs⟩

theorem add_le_readable (hL : L ≤ readable) (hM : M ≤ readable) : L + M ≤ readable :=
  fun _ hts => hts.elim (fun h => hL h) fun h => hM h

theorem kstar_le_readable (hL : L ≤ readable) : L∗ ≤ readable := by
  rintro _ ⟨parts, rfl, hparts⟩ t ht
  obtain ⟨us, hus, ht⟩ := List.mem_flatten.1 ht
  exact hL (hparts us hus) t ht

theorem one_le_readable : 1 ≤ readable := by
  rintro _ ⟨rfl⟩
  exact List.forall_mem_nil _

theorem oneOf_le_readable : oneOf es ≤ readable := by
  rintro _ ⟨t, ht, -, rfl⟩
  exact List.forall_mem_singleton.2 ht

theorem typeNames_le_readable : typeNames ≤ readable := by
  rintro _ ⟨name, t, hname, rfl⟩
  refine List.forall_mem_singleton.2 ⟨name.toList, ?_⟩
  unfold DType.ofName? at hname
  split at hname
  · decide
  · decide
  · decide
  · decide
  · cases hname

theorem afterStart_le_readable (h : L ≤ readable) (t : Token) : afterStart L t ≤ readable := by
  have hnone : (0 : Language Token) ≤ readable := bot_le
  cases t with
  | keyword k =>
    cases k <;> apply_rules [mul_le_readable, add_le_readable, kstar_le_readable, one_le_readable,
      oneOf_le_readable]
  | symbol s =>
    rw [afterStart]
    split_ifs <;> apply_rules [mul_le_readable, kstar_le_readable, oneOf_le_readable]
  | ident n =>
    apply_rules [mul_le_readable, add_le_readable, kstar_le_readable, one_le_readable,
      oneOf_le_readable]
  | _ => exact one_le_readable

theorem exprs_le_readable : exprs ≤ readable := by
  refine OrderHom.lfp_le exprStep ?_
  rintro _ ⟨t, us, rfl, ht, -, hus⟩
  exact List.forall_mem_cons.2 ⟨ht, afterStart_le_readable (le_refl _) t hus⟩

theorem modules_le_readable : modules ≤ readable := by
  apply_rules [kstar_le_readable, add_le_readable, mul_le_readable, oneOf_le_readable,
    typeNames_le_readable, exprs_le_readable]

/-- Tokens are read just if they are in the language of modules. Else the first token is blamed with
which no module goes on. -/
theorem parseLexemes_ends (length : Nat) {ls : List Lexeme} (h : ∀ l ∈ ls, l.token.Readable) :
    Except.Ends (fun _ => ls.map Lexeme.token ∈ modules)
      (fun e => ∃ before after, ls = before ++ after ∧
        Blames e after (modules.leftQuotient (before.map Lexeme.token)))
      (parseLexemes length ls) := by
  have hlength : (⟨ls, [], 0⟩ : Cursor).rest.length < ls.length + 1 := Nat.lt_succ_self _
  have hread := reads_statements (ls.length + 1) ⟨ls, [], 0⟩ modules hlength h
    (pending_start _ possible_modules)
  have hrun : parseLexemes length ls = (statements (ls.length + 1) ⟨ls, [], 0⟩).bind fun r =>
    .ok ⟨inputsOf r.1, declarationsOf r.1, moduleSpan length ls⟩ := rfl
  rw [hrun]
  cases hrun : statements (ls.length + 1) ⟨ls, [], 0⟩ with
  | error e =>
    rw [hrun] at hread
    exact hread
  | ok r =>
    rw [hrun] at hread
    obtain ⟨used, hused, hpending⟩ := hread
    obtain ⟨-, hend⟩ := isStatements_of_statements hlength hrun
    dsimp only at hused
    rw [hend, List.append_nil] at hused
    have hmem : used.map Lexeme.token ++ [] ∈ modules := hpending.le Language.nil_mem_one
    rwa [List.append_nil, ← hused] at hmem

theorem result_ends (source : String) :
    Except.Ends (fun _ => (Scan.ofSource source).lexemes.map Lexeme.token ∈ modules)
      (fun e => ∃ before after, (Scan.ofSource source).lexemes = before ++ after ∧
        Blames e after (modules.leftQuotient (before.map Lexeme.token)))
      (SourceReading.ofSource source).result :=
  parseLexemes_ends source.utf8ByteSize fun _ => readable_of_mem

/-- The token sequences of the texts that are read without errors. -/
def Valid : Language Token :=
  {ts | ∃ text, (SourceReading.ofSource text).errors = [] ∧
    (Scan.ofSource text).lexemes.map Lexeme.token = ts}

theorem Blames.not_mem {e : SyntaxError} {before after : List Lexeme}
    (h : Blames e after (L.leftQuotient (before.map Lexeme.token))) :
    (before ++ after).map Lexeme.token ∉ L := by
  intro hmem
  rw [List.map_append] at hmem
  exact h.impossible _ hmem List.head?_map

theorem valid_eq_modules : Valid = modules := by
  ext ts
  constructor
  · rintro ⟨text, hnone, rfl⟩
    obtain ⟨-, m, hresult⟩ := SourceReading.errors_eq_nil_iff.1 hnone
    have hends := result_ends text
    rw [hresult] at hends
    exact hends
  · intro hts
    obtain ⟨text, rfl, hclean⟩ := exists_scan (modules_le_readable hts)
    have hends := result_ends text
    cases hresult : (SourceReading.ofSource text).result with
    | ok m => exact ⟨text, SourceReading.errors_eq_nil_iff.2 ⟨hclean, m, hresult⟩, rfl⟩
    | error e =>
      rw [hresult] at hends
      obtain ⟨before, after, hsplit, hblames⟩ := hends
      rw [hsplit] at hts
      exact absurd hts hblames.not_mem

/-- Some text that is read without errors starts with these tokens. -/
def Viable (ts : List Token) : Prop := ∃ more, ts ++ more ∈ Valid

/-- The error in a text of that many bytes is where the tokens `after` start, the first of which
cannot come after those in `before`. It names what could have come instead, or a name that is no
type. -/
structure SyntaxError.Pinpoints (e : SyntaxError) (length : Nat) (before after : List Lexeme) :
    Prop where
  before_viable : Viable (before.map Lexeme.token)
  at_token : ∀ l, after.head? = some l →
    e.span length = l.span ∧ ¬ Viable (before.map Lexeme.token ++ [l.token])
  at_end : after = [] → e.span length = ⟨length, length⟩ ∧ before.map Lexeme.token ∉ Valid
  expected : ∀ es, e.complaint = .unexpected es →
    e.message = "found " ++ e.foundText ++ " expected " ++ listText (es.map Expectation.text) ∧
      es.Nodup ∧ ∀ x, x ∈ es ↔ x.Fits (Valid.leftQuotient (before.map Lexeme.token))
  type_name : ∀ n, e.complaint = .typeName n →
    e.message = "expected dtype (integer, float, string, boolean), found '" ++ n ++ "'" ∧
      DType.ofName? n = none ∧ ∃ p, after.head? = some (Lexeme.ident n p)

theorem Blames.pinpoints {e : SyntaxError} {before after : List Lexeme}
    (h : Blames e after (Valid.leftQuotient (before.map Lexeme.token))) (length : Nat) :
    e.Pinpoints length before after where
  before_viable := h.possible
  at_token := by
    intro l hl
    refine ⟨by rw [SyntaxError.span, h.found, hl], ?_⟩
    rintro ⟨more, hmore⟩
    rw [List.append_assoc] at hmore
    exact h.impossible _ hmore (by rw [hl]; rfl)
  at_end := by
    rintro rfl
    refine ⟨by rw [SyntaxError.span, h.found]; rfl, ?_⟩
    have hnot := h.not_mem
    rwa [List.append_nil] at hnot
  expected es hes := ⟨by rw [SyntaxError.message, hes], h.expected es hes⟩
  type_name := by
    intro n hn
    obtain ⟨p, hp, hname⟩ := h.typeName n hn
    exact ⟨by rw [SyntaxError.message, hn], hname, p, hp⟩

/-- A text without stray stretches that is no module has one error. It is at the first token with
which no module goes on, or at the end of the text. -/
theorem error_at_first_impossible_token (source : String)
    (hclean : (SourceReading.ofSource source).strays = [])
    (hfail : (SourceReading.ofSource source).module? = none) :
    ∃ e before after, (SourceReading.ofSource source).result = .error e ∧
      (SourceReading.ofSource source).errors = [(e.span source.utf8ByteSize, e.message)] ∧
      (Scan.ofSource source).lexemes = before ++ after ∧
      e.Pinpoints source.utf8ByteSize before after := by
  have hends := result_ends source
  cases hresult : (SourceReading.ofSource source).result with
  | ok m =>
    rw [SourceReading.module?, hresult] at hfail
    cases hfail
  | error e =>
    rw [hresult] at hends
    obtain ⟨before, after, hsplit, hblames⟩ := hends
    rw [← valid_eq_modules] at hblames
    refine ⟨e, before, after, rfl, ?_, hsplit, hblames.pinpoints _⟩
    rw [SourceReading.errors, hclean, hresult]
    rfl

/-- After an argument comes a bracket or a comma, here not yet the next name. -/
def missingCommaText : String := "input a.b: [x] float # rates\nvalue v = f(a b)"

theorem missingComma_error : (SourceReading.ofSource missingCommaText).strays = [] ∧
    (SourceReading.ofSource missingCommaText).module? = none ∧
    ∃ e before after, (SourceReading.ofSource missingCommaText).result = .error e ∧
      (SourceReading.ofSource missingCommaText).errors =
        [(e.span missingCommaText.utf8ByteSize, e.message)] ∧
      (Scan.ofSource missingCommaText).lexemes = before ++ after ∧
      e.Pinpoints missingCommaText.utf8ByteSize before after := by
  have hclean : (SourceReading.ofSource missingCommaText).strays = [] := by decide +kernel
  have hfail : (SourceReading.ofSource missingCommaText).module? = none :=
    Option.isNone_iff_eq_none.1 (by decide +kernel)
  exact ⟨hclean, hfail, error_at_first_impossible_token missingCommaText hclean hfail⟩

example : (SourceReading.ofSource "input a.b: [x] float # rates\nvalue v = f(a b)").errors =
    [(⟨43, 44⟩, "found '<ident>' expected '(', ',', or ')'")] := by decide +kernel

end Texts

end LoopNest.Parser
