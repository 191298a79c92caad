import LoopNest.Proofs.Source.Nodes
import LoopNest.Proofs.Source.Recognition

/-! What stands where an expression does. The text of an expression holds whole pieces of the
source, so it is cut into the same tokens in another place, and these derive the same expression
there. -/
namespace LoopNest

/-- Read as the body of a declaration, the text is the expression up to its places. -/
def SourceExpr.ReadFrom (e : SourceExpr) (text : String) : Prop :=
  (SourceReading.ofSource ("value v = " ++ text)).errors = [] ∧
    ∃ body span place, (SourceReading.ofSource ("value v = " ++ text)).module? =
      some ⟨[], [⟨"v", .value, body, place⟩], span⟩ ∧ unplaced body = unplaced e

/-- The spans of a declaration and of the nodes of its body tell where these stand in the source. -/
structure Declaration.Faithful (d : Declaration Span) (source : String) : Prop where
  body_inside : d.span.Covers d.body.note
  text_at : ∀ e ∈ d.body.postorder, ∃ text, e.note.Cuts source text ∧ SourceExpr.ReadFrom e text
  children_inside : ∀ e ∈ d.body.postorder, ∀ c ∈ e.children, e.note.Covers c.note
  children_ordered : ∀ e ∈ d.body.postorder, (e.children.map Expr.note).Pairwise Span.Before

namespace Lexer

open Lexeme

section Stretches

variable {α β : Type} {f : α → Option β}

theorem filterMap_eq_concat {xs : List α} {bs : List β} {b : β} (h : xs.filterMap f = bs ++ [b]) :
    ∃ ys y zs, xs = ys ++ y :: zs ∧ ys.filterMap f = bs ∧ f y = some b := by
  obtain ⟨us, vs, rfl, rfl, hvs⟩ := List.filterMap_eq_append_iff.1 h
  obtain ⟨ws, y, zs, rfl, hws, hy, -⟩ := List.filterMap_eq_cons_iff.1 hvs
  refine ⟨us ++ ws, y, zs, (List.append_assoc ..).symm, ?_, hy⟩
  rw [List.filterMap_append, List.filterMap_eq_nil_iff.2 hws, List.append_nil]

theorem locate_eq_append {offset : Nat} {ps : List Piece} {xs ys : List (Piece × Span)}
    (h : locate offset ps = xs ++ ys) : ∃ qs rs, ps = qs ++ rs ∧ xs = locate offset qs ∧
      ys = locate (offset + byteLength (joined qs)) rs := by
  induction xs generalizing offset ps with
  | nil => exact ⟨[], ps, rfl, rfl, h.symm⟩
  | cons x xs ih =>
    cases ps with
    | nil => cases h
    | cons p ps =>
      obtain ⟨hx, hxs⟩ := List.cons.inj h
      obtain ⟨qs, rs, rfl, rfl, rfl⟩ := ih hxs
      refine ⟨p :: qs, rs, rfl, ?_, ?_⟩
      · rw [← hx]
        rfl
      · rw [joined_cons, byteLength_append, Nat.add_assoc]

/-- The pieces stand in the same order from another offset on. -/
theorem locate_move {g : Nat → Nat} {offset : Nat} (h : ∀ n, g (offset + n) = g offset + n)
    (ps : List Piece) :
    locate (g offset) ps = (locate offset ps).map fun x => (x.1, x.2.move g) := by
  induction ps generalizing offset with
  | nil => rfl
  | cons p ps ih =>
    have hnext (n : Nat) :
        g (offset + byteLength p.text + n) = g (offset + byteLength p.text) + n := by
      rw [Nat.add_assoc, h, h, Nat.add_assoc]
    rw [locate, locate, ← h, ih hnext]
    rfl

theorem lexeme?_move (g : Nat → Nat) (x : Piece × Span) :
    lexeme? (x.1, x.2.move g) = (lexeme? x).map (move g) := by
  obtain ⟨⟨text, kind⟩, p⟩ := x
  cases kind <;> rfl

theorem stray?_move (g : Nat → Nat) {x : Piece × Span} (h : stray? x = none) :
    stray? (x.1, x.2.move g) = none := by
  obtain ⟨⟨text, kind⟩, p⟩ := x
  cases kind with
  | stray => cases h
  | blank | token => rfl

/-- Neighbouring pieces of a source, from a token to a token. -/
structure Stretch (source : String) (ls : List Lexeme) (before qs : List Piece) : Prop where
  split : ∃ after, pieces source.toList = before ++ (qs ++ after)
  lexemes_eq : (locate (byteLength (joined before)) qs).filterMap lexeme? = ls
  extent_eq : extent ls =
    ⟨byteLength (joined before), byteLength (joined before) + byteLength (joined qs)⟩
  first : ∃ p rest t, qs = p :: rest ∧ p.kind = .token t

theorem exists_trim {x : Piece × Span} {xs : List (Piece × Span)} {l : Lexeme} {ls : List Lexeme}
    (hx : x.2 = l.span) (h : xs.filterMap lexeme? = ls) :
    ∃ ys zs, xs = ys ++ zs ∧ ys.filterMap lexeme? = ls ∧
      ∃ ws y, x :: ys = ws ++ [y] ∧ y.2.stop = stopAfter l.span.stop ls := by
  rcases List.eq_nil_or_concat ls with rfl | ⟨ls, z, rfl⟩
  · exact ⟨[], xs, rfl, rfl, [], x, rfl, congrArg Span.stop hx⟩
  · rw [List.concat_eq_append] at h ⊢
    obtain ⟨ys, y, zs, rfl, rfl, hy⟩ := filterMap_eq_concat h
    refine ⟨ys ++ [y], zs, List.append_cons .., ?_, x :: ys, y, rfl, ?_⟩
    · rw [List.filterMap_append, List.filterMap_cons_some hy]
      rfl
    · rw [stopAfter_append, (lexeme?_eq_some.1 hy).2]
      rfl

theorem stop_of_locate_concat {offset : Nat} {qs : List Piece} {ws : List (Piece × Span)}
    {y : Piece × Span} (h : locate offset qs = ws ++ [y]) :
    y.2.stop = offset + byteLength (joined qs) := by
  obtain ⟨rs, ss, rfl, -, hy⟩ := locate_eq_append h
  cases ss with
  | nil => cases hy
  | cons s ss =>
    obtain ⟨rfl, hss⟩ := List.cons.inj hy
    cases ss with
    | cons => cases hss
    | nil =>
      simp only [joined_append, joined_cons, joined_nil, List.append_nil, byteLength_append]
      exact Nat.add_assoc ..

theorem exists_stretch {source : String} {ls : List Lexeme}
    (h : ls <:+: (Scan.ofSource source).lexemes) (hne : ls ≠ []) :
    ∃ before qs, Stretch source ls before qs := by
  obtain ⟨l, ls, rfl⟩ := List.exists_cons_of_ne_nil hne
  obtain ⟨as, bs, hlexemes⟩ := h
  have hlocated : (located source).filterMap lexeme? = as ++ (l :: ls ++ bs) := by
    rw [← List.append_assoc, hlexemes]
    rfl
  obtain ⟨us, vs, hsplit, -, hvs⟩ := List.filterMap_eq_append_iff.1 hlocated
  obtain ⟨xs, ts, rfl, hxs, -⟩ := List.filterMap_eq_append_iff.1 hvs
  -- blanks in front of the first token and after the last one are left out
  obtain ⟨blanks, x, xs, rfl, -, hx, hxs⟩ := List.filterMap_eq_cons_iff.1 hxs
  obtain ⟨hkind, hspan⟩ := lexeme?_eq_some.1 hx
  obtain ⟨ys, zs, rfl, hys, ws, y, hws, hstop⟩ := exists_trim hspan hxs
  have hpieces : located source = us ++ blanks ++ (x :: ys ++ (zs ++ ts)) := by
    rw [hsplit]
    simp only [List.cons_append, List.append_assoc]
  obtain ⟨before, more, hmore, -, hrest⟩ := locate_eq_append hpieces
  obtain ⟨qs, after, rfl, hqs, -⟩ := locate_eq_append hrest.symm
  rw [Nat.zero_add] at hqs
  have hend := stop_of_locate_concat (hqs.symm.trans hws)
  cases qs with
  | nil => cases hqs
  | cons q qs =>
    obtain ⟨rfl, -⟩ := List.cons.inj hqs
    refine ⟨before, q :: qs, ⟨after, hmore⟩, ?_, ?_, q, qs, l.token, rfl, hkind⟩
    · rw [← hqs, List.filterMap_cons_some hx, hys]
    · rw [extent, ← hstop, hend, ← hspan]

variable {source : String} {ls : List Lexeme} {before qs : List Piece}

theorem Stretch.cuts (h : Stretch source ls before qs) :
    (extent ls).Cuts source (String.ofList (joined qs)) := by
  obtain ⟨after, hsplit⟩ := h.split
  have hsource : source.toList = joined before ++ (joined qs ++ joined after) := by
    rw [← joined_pieces source.toList, hsplit, joined_append, joined_append]
  refine ⟨String.ofList (joined before), String.ofList (joined after), ?_, ?_, ?_⟩
  · rw [← String.ofList_append, ← String.ofList_append, List.append_assoc, ← hsource,
      String.ofList_toList]
  · rw [h.extent_eq, utf8ByteSize_ofList]
  · rw [h.extent_eq, ← String.ofList_append, utf8ByteSize_ofList, byteLength_append]

theorem isBlank_of_token {c : Char} {cs : List Char} {n : Nat} {t : Token}
    (h : pieceAt c cs = (n, .token t)) : isBlank c = false := by
  by_contra hblank
  rw [pieceAt_of_isBlank (by simpa using hblank)] at h
  cases h

/-- The pieces of `value v = `. -/
def opening : List Piece :=
  [⟨"value".toList, .token (.keyword .value)⟩, ⟨[' '], .blank⟩, ⟨['v'], .token (.ident "v")⟩,
    ⟨[' '], .blank⟩, ⟨['='], .token (.symbol .equals)⟩, ⟨[' '], .blank⟩]

theorem pieces_opening {c : Char} (h : isBlank c = false) (cs : List Char) :
    pieces ("value v = ".toList ++ c :: cs) = opening ++ pieces (c :: cs) := by
  have hblank {d : Char} (hd : isBlank d = false) (rest : List Char) :
      pieces (' ' :: d :: rest) = ⟨[' '], .blank⟩ :: pieces (d :: rest) := by
    have hpiece : pieceAt ' ' ([] ++ d :: rest) = (0, .blank) := by
      rw [pieceAt_of_isBlank (by decide), List.nil_append,
        List.takeWhile_cons_of_neg (by simp [hd])]
      rfl
    exact pieces_of_pieceAt hpiece
  have hvalue (rest : List Char) : pieces ("value".toList ++ ' ' :: rest) =
      ⟨"value".toList, .token (.keyword .value)⟩ :: pieces (' ' :: rest) :=
    @pieces_of_pieceAt _ "alue".toList _ _ rfl
  have hname (rest : List Char) : pieces ('v' :: ' ' :: rest) =
      ⟨['v'], .token (.ident "v")⟩ :: pieces (' ' :: rest) := @pieces_of_pieceAt _ [] _ _ rfl
  have hequals (rest : List Char) : pieces ('=' :: rest) =
      ⟨['='], .token (.symbol .equals)⟩ :: pieces rest := @pieces_of_pieceAt _ [] _ _ rfl
  calc pieces ("value v = ".toList ++ c :: cs)
    _ = pieces ("value".toList ++ ' ' :: 'v' :: ' ' :: '=' :: ' ' :: c :: cs) := rfl
    _ = opening ++ pieces (c :: cs) := by
      rw [hvalue, hblank (by decide), hname, hblank (by decide), hequals, hblank h]
      rfl

theorem filterMap_lexeme?_move (g : Nat → Nat) (xs : List (Piece × Span)) :
    (xs.map fun x => (x.1, x.2.move g)).filterMap lexeme? =
      (xs.filterMap lexeme?).map (move g) := by
  rw [List.filterMap_map, List.map_filterMap]
  exact congrArg (List.filterMap · xs) (funext (lexeme?_move g))

theorem filterMap_stray?_move (g : Nat → Nat) {xs : List (Piece × Span)}
    (h : xs.filterMap stray? = []) : (xs.map fun x => (x.1, x.2.move g)).filterMap stray? = [] := by
  rw [List.filterMap_map, List.filterMap_eq_nil_iff]
  exact fun x hx => stray?_move g (List.filterMap_eq_nil_iff.1 h x hx)

theorem Stretch.no_strays (h : Stretch source ls before qs)
    (hclean : (Scan.ofSource source).strays = []) :
    (locate (byteLength (joined before)) qs).filterMap stray? = [] := by
  obtain ⟨after, hsplit⟩ := h.split
  have hall : (locate 0 (before ++ (qs ++ after))).filterMap stray? = [] := hsplit ▸ hclean
  rw [locate_append, locate_append, List.filterMap_append, List.filterMap_append,
    List.append_eq_nil_iff, List.append_eq_nil_iff, Nat.zero_add] at hall
  exact hall.2.1

theorem Stretch.pieces_text (h : Stretch source ls before qs) :
    pieces ("value v = " ++ String.ofList (joined qs)).toList = opening ++ qs := by
  obtain ⟨after, hsplit⟩ := h.split
  have hqs : pieces (joined qs) = qs := pieces_joined hsplit
  obtain ⟨p, rest, t, hcons, hkind⟩ := h.first
  obtain ⟨c, ds, htext, hpiece, -⟩ := pieces_eq_cons (hqs.trans hcons)
  have hjoined : joined qs = c :: (ds ++ joined rest) := by
    rw [hcons, joined_cons, htext, List.cons_append]
  have hblank : isBlank c = false := isBlank_of_token (hpiece.trans (by rw [hkind]))
  have htext : ("value v = " ++ String.ofList (joined qs)).toList =
      "value v = ".toList ++ joined qs := by
    rw [String.toList_append]
    exact congrArg _ String.toList_ofList
  rw [htext, hjoined, pieces_opening hblank, ← hjoined, hqs]

/-- The text of neighbouring pieces is cut into the same tokens after `value v = `. -/
theorem Stretch.scan (h : Stretch source ls before qs)
    (hclean : (Scan.ofSource source).strays = []) :
    Scan.ofSource ("value v = " ++ String.ofList (joined qs)) =
      ⟨keyword .value ⟨0, 5⟩ :: ident "v" ⟨6, 7⟩ :: symbol .equals ⟨8, 9⟩ ::
        ls.map (move fun n => n - (extent ls).start + 10), []⟩ := by
  have hstart : (extent ls).start = byteLength (joined before) := by rw [h.extent_eq]
  rw [hstart]
  obtain ⟨g, hg⟩ : ∃ g : Nat → Nat, g = fun n => n - byteLength (joined before) + 10 := ⟨_, rfl⟩
  have hgap (n : Nat) :
      g (byteLength (joined before) + n) = g (byteLength (joined before)) + n := by
    simp only [hg]
    omega
  have hstart' : g (byteLength (joined before)) = 10 := by simp [hg]
  have hplaces : locate 10 qs =
      (locate (byteLength (joined before)) qs).map fun x => (x.1, x.2.move g) := by
    rw [← locate_move hgap, hstart']
  have hlocated : locate 0 (opening ++ qs) = locate 0 opening ++ locate 10 qs := locate_append ..
  rw [← hg, Scan.ofSource, h.pieces_text, hlocated, hplaces, List.filterMap_append,
    List.filterMap_append, filterMap_lexeme?_move, h.lexemes_eq,
    filterMap_stray?_move g (h.no_strays hclean)]
  rfl

end Stretches

end Lexer

section Faithful

open Lexeme Grammar

variable {source : String} {t : ExprTree}

theorem ordered_lexemes (source : String) : Successive (Scan.ofSource source).lexemes := by
  refine ⟨List.pairwise_map.1 (Lexer.lexemes_pairwise source), ?_⟩
  intro l hl
  obtain ⟨x, hx, -, hspan⟩ := Lexer.mem_lexemes.1 hl
  obtain ⟨before, after, h⟩ := Lexer.exists_placed hx
  exact hspan ▸ Nat.le_of_lt h.start_lt_stop

theorem reading_of_isStatements {text : String} {ls : List Lexeme} {ss : List Parser.Statement}
    (hscan : Scan.ofSource text = ⟨ls, []⟩) (h : IsStatements ls ss) :
    (SourceReading.ofSource text).errors = [] ∧ (SourceReading.ofSource text).module? =
      some ⟨Parser.inputsOf ss, Parser.declarationsOf ss,
        Parser.moduleSpan text.utf8ByteSize ls⟩ := by
  have hparse : Parser.parseLexemes text.utf8ByteSize ls = .ok _ :=
    Parser.parseLexemes_of_isModule (.intro h)
  rw [SourceReading.ofSource, hscan, hparse]
  exact ⟨rfl, rfl⟩

/-- The text of an expression, read again. -/
theorem readFrom_of_occurs {e : SourceExpr} (h : Occurs (Scan.ofSource source).lexemes e)
    (hclean : (Scan.ofSource source).strays = []) :
    ∃ text, e.note.Cuts source text ∧ SourceExpr.ReadFrom e text := by
  obtain ⟨t, rfl, hwithin, hne, hnote⟩ := h
  obtain ⟨before, qs, hstretch⟩ := Lexer.exists_stretch hwithin hne
  refine ⟨_, hnote ▸ hstretch.cuts, ?_⟩
  have hscan := hstretch.scan hclean
  generalize (fun n => n - (extent t.lexemes).start + 10) = g at hscan
  have hstatement := IsStatement.declaration .value "v" ⟨0, 5⟩ ⟨6, 7⟩ ⟨8, 9⟩ (t.isExpr_move g)
  have hstatements := IsStatements.cons hstatement .nil
  rw [List.append_nil] at hstatements
  obtain ⟨hnone, hmodule⟩ := reading_of_isStatements hscan hstatements
  exact ⟨hnone, _, _, _, hmodule, SourceExpr.unplaced_move g t.expr⟩

theorem mem_declarations {length : Nat} {t : ModuleTree} {d : Declaration Span}
    (h : d ∈ (t.module length).declarations) :
    ∃ body : ExprTree, d.body = body.expr ∧ ∃ ls, body.lexemes <:+: ls ∧ ls <:+: t.lexemes ∧
      d.span = extent ls := by
  obtain ⟨s, hs, hd⟩ := List.mem_filterMap.1 h
  cases s with
  | input => cases hd
  | declaration kind p name r body =>
    cases hd
    refine ⟨body, rfl, _, ?_, List.infix_of_mem_flatten (List.mem_map_of_mem hs), rfl⟩
    exact List.infix_cons (List.infix_cons (List.infix_cons List.infix_rfl))

theorem faithful_of_tree {d : Declaration Span} {body : ExprTree} {ls : List Lexeme}
    (hbody : d.body = body.expr) (hwithin : body.lexemes <:+: ls)
    (hls : ls <:+: (Scan.ofSource source).lexemes) (hspan : d.span = extent ls)
    (hclean : (Scan.ofSource source).strays = []) : d.Faithful source := by
  have hordered : Successive ls := (ordered_lexemes source).sublist hls.sublist
  have hnodes (e : SourceExpr) (he : e ∈ d.body.postorder) : Occurs ls e :=
    (body.occurs_of_mem (hbody ▸ he)).mono hwithin
  have hchildren (e : SourceExpr) (he : e ∈ d.body.postorder) :
      (∀ c ∈ e.children, e.note.Covers c.note) ∧
        (e.children.map Expr.note).Pairwise Span.Before := by
    obtain ⟨t, rfl, ht, -⟩ := hnodes e he
    exact ExprTree.children_placed (hordered.sublist ht.sublist)
  constructor
  case body_inside => exact hspan ▸ hordered.covers (hnodes _ d.body.mem_postorder).frames
  case text_at => exact fun e he => readFrom_of_occurs ((hnodes e he).mono hls) hclean
  case children_inside => exact fun e he => (hchildren e he).1
  case children_ordered => exact fun e he => (hchildren e he).2

/-- A source without errors is read as a module whose declarations and expressions stand where their
spans say. -/
theorem SourceReading.spans_faithful (source : String)
    (h : (SourceReading.ofSource source).errors = []) :
    ∃ m, (SourceReading.ofSource source).module? = some m ∧
      ∀ d ∈ m.declarations, d.Faithful source := by
  obtain ⟨hclean, m, hresult⟩ := SourceReading.errors_eq_nil_iff.1 h
  obtain ⟨t, hlexemes, rfl⟩ := isModule_iff.1 (Parser.parseLexemes_eq_ok_iff.1 hresult)
  refine ⟨_, by rw [SourceReading.module?, hresult]; rfl, ?_⟩
  intro d hd
  obtain ⟨body, hbody, ls, hwithin, hls, hspan⟩ := mem_declarations hd
  exact faithful_of_tree hbody hwithin (hlexemes ▸ hls) hspan hclean

/-- Blanks, brackets around an expression and characters of two bytes. -/
def bracketedText : String := "trait t = select(( a ), f(b, -7), \"é\") # é\nvalue w = ((t), \"\")"

theorem bracketed_spans_faithful : (SourceReading.ofSource bracketedText).errors = [] ∧
    ∃ m, (SourceReading.ofSource bracketedText).module? = some m ∧ m.declarations.length = 2 ∧
      ∀ d ∈ m.declarations, d.Faithful bracketedText := by
  have hnone : (SourceReading.ofSource bracketedText).errors = [] := by decide +kernel
  have hlength : (SourceReading.ofSource bracketedText).module?.map (·.declarations.length) =
      some 2 := by decide +kernel
  obtain ⟨m, hm, hfaithful⟩ := SourceReading.spans_faithful bracketedText hnone
  rw [hm] at hlength
  exact ⟨hnone, m, hm, Option.some.inj hlength, hfaithful⟩

end Faithful

end LoopNest
