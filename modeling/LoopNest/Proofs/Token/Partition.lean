import LoopNest.Proofs.Token.Patterns
import Mathlib.Data.List.Pairwise

/-! Where tokens and stray stretches stand. The pieces of a text follow one another without a gap,
so their spans partition its bytes; the tokens and strays are all but the blanks and comments. -/
namespace LoopNest

namespace Span

/-- The span is that of the text in the source; it starts and ends between two characters. -/
def Cuts (p : Span) (source text : String) : Prop :=
  ∃ before after, source = before ++ text ++ after ∧ before.utf8ByteSize = p.start ∧
    (before ++ text).utf8ByteSize = p.stop

def Before (p q : Span) : Prop := p.stop ≤ q.start

/-- The spans share no byte. -/
def Apart (p q : Span) : Prop := p.Before q ∨ q.Before p

/-- The byte at that offset is in the span. -/
def Holds (p : Span) (i : Nat) : Prop := p.start ≤ i ∧ i < p.stop

end Span

namespace Scan

def spans (scan : Scan) : List Span := scan.lexemes.map Lexeme.span ++ scan.strays.map Stray.span

/-- The tokens and the stray stretches of a source partition it, but for blanks and comments. -/
structure Partitions (scan : Scan) (source : String) : Prop where
  /-- Each span holds bytes of the source, and starts and ends between two characters. -/
  placed : ∀ p ∈ scan.spans,
    p.start < p.stop ∧ p.stop ≤ source.utf8ByteSize ∧ ∃ text, p.Cuts source text
  apart : scan.spans.Pairwise Span.Apart
  lexemes_ordered : (scan.lexemes.map Lexeme.span).Pairwise Span.Before
  strays_ordered : (scan.strays.map Stray.span).Pairwise Span.Before
  /-- A byte outside of all spans belongs to blanks or to a comment, none of which is in a span. -/
  gaps : ∀ i < source.utf8ByteSize, (∀ p ∈ scan.spans, ¬ p.Holds i) →
    ∃ (gap : Span) (text : String), gap.Holds i ∧ gap.Cuts source text ∧
      text.toList ∈ Pattern.skipped ∧ ∀ p ∈ scan.spans, gap.Apart p
  /-- The text of a token matches its pattern, is the longest match of a pattern where it stands,
  and is cut into this token alone where it stands alone. -/
  longest : ∀ l ∈ scan.lexemes, ∃ before text after : String, source = before ++ text ++ after ∧
    before.utf8ByteSize = l.span.start ∧ (before ++ text).utf8ByteSize = l.span.stop ∧
    text.toList ∈ l.token.pattern ∧ Longest text.toList (text ++ after).toList ∧
    Scan.ofSource text = ⟨[⟨l.token, ⟨0, text.utf8ByteSize⟩⟩], []⟩

end Scan

namespace Lexer

section Bytes

theorem byteLength_append (as bs : List Char) :
    byteLength (as ++ bs) = byteLength as + byteLength bs := by
  have hstart (n : Nat) : bs.foldl (fun n c => n + c.utf8Size) n = n + byteLength bs := by
    rw [byteLength]
    induction bs generalizing n with
    | nil => rfl
    | cons b bs ih => rw [List.foldl_cons, List.foldl_cons, ih, ih (0 + b.utf8Size)]; omega
  rw [byteLength, List.foldl_append, hstart]
  rfl

theorem byteLength_pos {cs : List Char} (h : cs ≠ []) : 0 < byteLength cs := by
  obtain ⟨c, cs, rfl⟩ := List.exists_cons_of_ne_nil h
  have hc := c.utf8Size_pos
  rw [← List.singleton_append, byteLength_append]
  exact Nat.add_pos_left (by simpa [byteLength] using hc) _

theorem utf8ByteSize_ofList (cs : List Char) : (String.ofList cs).utf8ByteSize = byteLength cs := by
  induction cs with
  | nil => rfl
  | cons c cs ih =>
    have hfirst : (String.ofList [c]).utf8ByteSize = byteLength [c] := by
      rw [← String.singleton_eq_ofList, String.utf8ByteSize_singleton]
      simp [byteLength]
    rw [← List.singleton_append, String.ofList_append, String.utf8ByteSize_append, ih, hfirst,
      byteLength_append]

theorem byteLength_toList (s : String) : byteLength s.toList = s.utf8ByteSize := by
  rw [← utf8ByteSize_ofList, String.ofList_toList]

end Bytes

section Places

variable {offset : Nat} {ps : List Piece} {x : Piece × Span}

theorem locate_append (offset : Nat) (ps qs : List Piece) :
    locate offset (ps ++ qs) =
      locate offset ps ++ locate (offset + byteLength (joined ps)) qs := by
  induction ps generalizing offset with
  | nil => rfl
  | cons p ps ih =>
    rw [List.cons_append, locate, locate, ih, joined_cons, byteLength_append, Nat.add_assoc,
      List.cons_append]

/-- A piece stands after the pieces before it. -/
theorem exists_split_of_mem_locate (h : x ∈ locate offset ps) :
    ∃ qs rs, ps = qs ++ x.1 :: rs ∧
      x.2 = ⟨offset + byteLength (joined qs), offset + byteLength (joined qs ++ x.1.text)⟩ := by
  induction ps generalizing offset with
  | nil => cases h
  | cons p ps ih =>
    rcases List.mem_cons.1 h with rfl | h
    · exact ⟨[], ps, rfl, rfl⟩
    · obtain ⟨qs, rs, rfl, hx⟩ := ih h
      refine ⟨p :: qs, rs, rfl, ?_⟩
      rw [hx]
      simp only [joined_cons, List.append_assoc, byteLength_append, Nat.add_assoc]

theorem start_le_of_mem_locate (h : x ∈ locate offset ps) : offset ≤ x.2.start := by
  obtain ⟨qs, rs, -, hx⟩ := exists_split_of_mem_locate h
  rw [hx]
  exact Nat.le_add_right _ _

theorem pairwise_locate (offset : Nat) (ps : List Piece) :
    (locate offset ps).Pairwise fun x y => x.2.Before y.2 := by
  induction ps generalizing offset with
  | nil => exact .nil
  | cons p ps ih => exact .cons (fun y hy => start_le_of_mem_locate hy) (ih _)

/-- The pieces leave no byte out. -/
theorem exists_mem_locate_holds {i : Nat} (hlow : offset ≤ i)
    (hhigh : i < offset + byteLength (joined ps)) : ∃ x ∈ locate offset ps, x.2.Holds i := by
  induction ps generalizing offset with
  | nil => exact absurd hhigh (Nat.not_lt.2 hlow)
  | cons p ps ih =>
    by_cases hi : i < offset + byteLength p.text
    · exact ⟨_, List.mem_cons_self, hlow, hi⟩
    · rw [joined_cons, byteLength_append, ← Nat.add_assoc] at hhigh
      obtain ⟨x, hx, hholds⟩ := ih (Nat.not_lt.1 hi) hhigh
      exact ⟨x, List.mem_cons_of_mem _ hx, hholds⟩

theorem lexeme?_eq_some {l : Lexeme} :
    lexeme? x = some l ↔ x.1.kind = .token l.token ∧ x.2 = l.span := by
  obtain ⟨⟨text, kind⟩, p⟩ := x
  obtain ⟨t, q⟩ := l
  cases kind <;> simp [lexeme?]

theorem stray?_eq_some {s : Stray} :
    stray? x = some s ↔ x.1.kind = .stray ∧ s = ⟨String.ofList x.1.text, x.2⟩ := by
  obtain ⟨⟨text, kind⟩, p⟩ := x
  cases kind <;> simp [stray?, eq_comm]

end Places

section Source

variable {source : String} {x : Piece × Span}

/-- The pieces of a source with their spans. -/
abbrev located (source : String) : List (Piece × Span) := locate 0 (pieces source.toList)

/-- A piece of a source in its place, with what stands before and after it. -/
structure Placed (source : String) (x : Piece × Span) (before after : String) : Prop where
  source_eq : source = before ++ String.ofList x.1.text ++ after
  start_eq : before.utf8ByteSize = x.2.start
  stop_eq : (before ++ String.ofList x.1.text).utf8ByteSize = x.2.stop
  alone : pieces x.1.text = [x.1]
  first : ∃ c ds, x.1.text = c :: ds ∧
    pieceAt c (ds ++ after.toList) = (ds.length, x.1.kind)

theorem exists_placed (h : x ∈ located source) : ∃ before after, Placed source x before after := by
  obtain ⟨qs, rs, hsplit, hx⟩ := exists_split_of_mem_locate h
  have hsource : source.toList = joined qs ++ (x.1.text ++ joined rs) := by
    rw [← joined_pieces source.toList, hsplit, joined_append, joined_cons]
  obtain ⟨c, ds, htext, hpiece, -⟩ := pieces_eq_cons (pieces_joined_right hsplit)
  refine ⟨String.ofList (joined qs), String.ofList (joined rs), ?_, ?_, ?_, ?_, c, ds, htext, ?_⟩
  · rw [← String.ofList_append, ← String.ofList_append, List.append_assoc, ← hsource,
      String.ofList_toList]
  · rw [hx, utf8ByteSize_ofList]
    exact (Nat.zero_add _).symm
  · rw [hx, ← String.ofList_append, utf8ByteSize_ofList]
    exact (Nat.zero_add _).symm
  · have halone : pieces (joined [x.1]) = [x.1] := pieces_joined hsplit
    rwa [joined_cons, joined_nil, List.append_nil] at halone
  · rw [String.toList_ofList, hpiece]

theorem Placed.cuts {before after : String} (h : Placed source x before after) :
    x.2.Cuts source (String.ofList x.1.text) :=
  ⟨before, after, h.source_eq, h.start_eq, h.stop_eq⟩

theorem Placed.start_lt_stop {before after : String} (h : Placed source x before after) :
    x.2.start < x.2.stop := by
  obtain ⟨c, ds, htext, -⟩ := h.first
  have hpos : 0 < byteLength x.1.text := byteLength_pos (by rw [htext]; exact List.cons_ne_nil c ds)
  rw [← h.start_eq, ← h.stop_eq, String.utf8ByteSize_append, utf8ByteSize_ofList]
  omega

theorem Placed.stop_le {before after : String} (h : Placed source x before after) :
    x.2.stop ≤ source.utf8ByteSize := by
  rw [← h.stop_eq, h.source_eq, String.utf8ByteSize_append (s := _ ++ _)]
  exact Nat.le_add_right _ _

theorem mem_lexemes {l : Lexeme} : l ∈ (Scan.ofSource source).lexemes ↔
    ∃ x ∈ located source, x.1.kind = .token l.token ∧ x.2 = l.span := by
  simp only [Scan.ofSource, List.mem_filterMap, lexeme?_eq_some]

theorem mem_strays {s : Stray} : s ∈ (Scan.ofSource source).strays ↔
    ∃ x ∈ located source, x.1.kind = .stray ∧ s = ⟨String.ofList x.1.text, x.2⟩ := by
  simp only [Scan.ofSource, List.mem_filterMap, stray?_eq_some]

/-- The spans are those of the pieces that are not blank. -/
theorem mem_spans {p : Span} : p ∈ (Scan.ofSource source).spans ↔
    ∃ x ∈ located source, x.1.kind ≠ .blank ∧ x.2 = p := by
  rw [Scan.spans, List.mem_append, List.mem_map, List.mem_map]
  constructor
  · rintro (⟨l, hl, rfl⟩ | ⟨s, hs, rfl⟩)
    · obtain ⟨x, hx, hkind, hspan⟩ := mem_lexemes.1 hl
      exact ⟨x, hx, by simp [hkind], hspan⟩
    · obtain ⟨x, hx, hkind, rfl⟩ := mem_strays.1 hs
      exact ⟨x, hx, by simp [hkind], rfl⟩
  · rintro ⟨x, hx, hkind, rfl⟩
    cases hk : x.1.kind with
    | blank => exact absurd hk hkind
    | token t => exact .inl ⟨⟨t, x.2⟩, mem_lexemes.2 ⟨x, hx, hk, rfl⟩, rfl⟩
    | stray => exact .inr ⟨_, mem_strays.2 ⟨x, hx, hk, rfl⟩, rfl⟩

/-- Two pieces of different kinds share no byte. -/
theorem apart_of_kind_ne {y : Piece × Span} (hx : x ∈ located source) (hy : y ∈ located source)
    (hkind : x.1.kind ≠ y.1.kind) : x.2.Apart y.2 := by
  have : Std.Symm fun x y : Piece × Span => x.2.Apart y.2 := ⟨fun _ _ h => h.symm⟩
  have hpairs : (located source).Pairwise fun x y => x.2.Apart y.2 :=
    (pairwise_locate 0 _).imp Or.inl
  exact hpairs.forall hx hy fun h => hkind (h ▸ rfl)

theorem lexemes_pairwise (source : String) :
    ((Scan.ofSource source).lexemes.map Lexeme.span).Pairwise Span.Before := by
  refine List.pairwise_map.2 ((pairwise_locate 0 _).filterMap lexeme? ?_)
  intro x y hxy l hl l' hl'
  rwa [← (lexeme?_eq_some.1 hl).2, ← (lexeme?_eq_some.1 hl').2]

theorem strays_pairwise (source : String) :
    ((Scan.ofSource source).strays.map Stray.span).Pairwise Span.Before := by
  refine List.pairwise_map.2 ((pairwise_locate 0 _).filterMap stray? ?_)
  intro x y hxy s hs s' hs'
  rwa [(stray?_eq_some.1 hs).2, (stray?_eq_some.1 hs').2]

theorem spans_pairwise (source : String) : (Scan.ofSource source).spans.Pairwise Span.Apart := by
  refine List.pairwise_append.2
    ⟨(lexemes_pairwise source).imp Or.inl, (strays_pairwise source).imp Or.inl, ?_⟩
  intro p hp q hq
  obtain ⟨l, hl, rfl⟩ := List.mem_map.1 hp
  obtain ⟨s, hs, rfl⟩ := List.mem_map.1 hq
  obtain ⟨x, hx, hkind, hspan⟩ := mem_lexemes.1 hl
  obtain ⟨y, hy, hkind', rfl⟩ := mem_strays.1 hs
  rw [← hspan]
  exact apart_of_kind_ne hx hy (by simp [hkind, hkind'])

/-- A byte that no token and no stray stretch holds is in a blank piece. -/
theorem exists_blank_of_not_holds {i : Nat} (hi : i < source.utf8ByteSize)
    (h : ∀ p ∈ (Scan.ofSource source).spans, ¬ p.Holds i) :
    ∃ x ∈ located source, x.2.Holds i ∧ x.1.kind = .blank := by
  have hcover : i < 0 + byteLength (joined (pieces source.toList)) := by
    rwa [joined_pieces, byteLength_toList, Nat.zero_add]
  obtain ⟨x, hx, hholds⟩ := exists_mem_locate_holds (Nat.zero_le i) hcover
  refine ⟨x, hx, hholds, ?_⟩
  by_contra hkind
  exact h x.2 (mem_spans.2 ⟨x, hx, hkind, rfl⟩) hholds

theorem Placed.mem_skipped {before after : String} (h : Placed source x before after)
    (hkind : x.1.kind = .blank) : x.1.text ∈ Pattern.skipped := by
  obtain ⟨c, ds, htext, hpiece⟩ := h.first
  rw [hkind] at hpiece
  have hmem := mem_skipped_of_blank hpiece
  rwa [List.take_left, ← htext] at hmem

theorem Placed.mem_pattern {before after : String} {t : Token} (h : Placed source x before after)
    (hkind : x.1.kind = .token t) : x.1.text ∈ t.pattern := by
  obtain ⟨c, ds, htext, hpiece⟩ := h.first
  rw [hkind] at hpiece
  have hmem := Lexer.mem_pattern hpiece
  rwa [List.take_left, ← htext] at hmem

theorem Placed.longest {before after : String} {t : Token} (h : Placed source x before after)
    (hkind : x.1.kind = .token t) : Longest x.1.text (x.1.text ++ after.toList) := by
  obtain ⟨c, ds, htext, hpiece⟩ := h.first
  refine ⟨List.prefix_append _ _, .inr ⟨t, h.mem_pattern hkind⟩, ?_⟩
  intro w hfront hw
  rw [htext, List.cons_append] at hfront
  have hlength := length_le_piece hfront hw
  rwa [hpiece, ← List.length_cons, ← htext] at hlength

/-- A token that stands alone is cut into itself. -/
theorem Placed.ofSource_text {before after : String} {t : Token}
    (h : Placed source x before after) (hkind : x.1.kind = .token t) :
    Scan.ofSource (String.ofList x.1.text) =
      ⟨[⟨t, ⟨0, (String.ofList x.1.text).utf8ByteSize⟩⟩], []⟩ := by
  rw [Scan.ofSource, String.toList_ofList, h.alone, utf8ByteSize_ofList]
  simp only [locate, Nat.zero_add]
  have hlexeme : lexeme? (x.1, ⟨0, byteLength x.1.text⟩) = some ⟨t, ⟨0, byteLength x.1.text⟩⟩ :=
    lexeme?_eq_some.2 ⟨hkind, rfl⟩
  have hstray : stray? (x.1, ⟨0, byteLength x.1.text⟩) = none := by
    rw [Option.eq_none_iff_forall_ne_some]
    intro s hs
    have := hkind.symm.trans (stray?_eq_some.1 hs).1
    cases this
  rw [List.filterMap_cons_some hlexeme, List.filterMap_cons_none hstray, List.filterMap_nil,
    List.filterMap_nil]

/-- The tokens and the stray stretches of a source partition it, but for blanks and comments, and
each token is the longest match where it stands. -/
theorem scan_partitions (source : String) : (Scan.ofSource source).Partitions source where
  placed := by
    intro p hp
    obtain ⟨x, hx, -, rfl⟩ := mem_spans.1 hp
    obtain ⟨before, after, h⟩ := exists_placed hx
    exact ⟨h.start_lt_stop, h.stop_le, _, h.cuts⟩
  apart := spans_pairwise source
  lexemes_ordered := lexemes_pairwise source
  strays_ordered := strays_pairwise source
  gaps := by
    intro i hi hout
    obtain ⟨x, hx, hholds, hkind⟩ := exists_blank_of_not_holds hi hout
    obtain ⟨before, after, h⟩ := exists_placed hx
    refine ⟨x.2, _, hholds, h.cuts, ?_, ?_⟩
    · rw [String.toList_ofList]
      exact h.mem_skipped hkind
    · intro p hp
      obtain ⟨y, hy, hother, rfl⟩ := mem_spans.1 hp
      exact apart_of_kind_ne hx hy fun heq => hother (heq ▸ hkind)
  longest := by
    intro l hl
    obtain ⟨x, hx, hkind, hspan⟩ := mem_lexemes.1 hl
    obtain ⟨before, after, h⟩ := exists_placed hx
    refine ⟨before, _, after, h.source_eq, hspan ▸ h.start_eq, hspan ▸ h.stop_eq, ?_, ?_,
      h.ofSource_text hkind⟩
    · rw [String.toList_ofList]
      exact h.mem_pattern hkind
    · rw [String.toList_append, String.toList_ofList]
      exact h.longest hkind

end Source

end Lexer

end LoopNest
