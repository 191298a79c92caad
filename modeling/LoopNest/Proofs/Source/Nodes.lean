import LoopNest.Proofs.Source.Derivation
import LoopNest.Proofs.Token.Partition

/-! Where expressions stand. An expression stands from the start of its first token to the end of
its last one, brackets around it left out. The expressions of which it is made stand inside of it,
one after the other, and tokens in another place derive the same expression there. -/
namespace LoopNest

namespace Span

/-- The second span lies inside the first. -/
def Covers (p q : Span) : Prop := p.start ≤ q.start ∧ q.stop ≤ p.stop

/-- The span with its ends moved. -/
def move (g : Nat → Nat) (p : Span) : Span := ⟨g p.start, g p.stop⟩

end Span

/-- The expressions of which a node is made, in order. -/
def Expr.children {α ω : Type} : Expr α ω → List (Expr α ω)
  | .constant _ _ | .input _ _ | .ref _ _ => []
  | .call _ _ args => args
  | .tuple _ elems => elems
  | .select _ c t f => [c, t, f]
  | .reduce _ _ _ arg => [arg]

theorem Expr.mem_postorder_iff {α ω : Type} {x e : Expr α ω} :
    x ∈ e.postorder ↔ x = e ∨ ∃ c ∈ e.children, x ∈ c.postorder := by
  cases e with
  | constant | input | ref => simp [postorder, children]
  | call => rw [mem_postorder_call, or_comm, children]
  | tuple => rw [mem_postorder_tuple, or_comm, children]
  | select => simp [mem_postorder_select, children, or_comm, or_assoc]
  | reduce => simp [mem_postorder_reduce, children, or_comm]

namespace Lexeme

section Extent

/-- From the start of the first token to the end of the last one. -/
def extent : List Lexeme → Span
  | [] => .zero
  | l :: ls => ⟨l.span.start, stopAfter l.span.stop ls⟩

/-- The token in another place. -/
def move (g : Nat → Nat) (l : Lexeme) : Lexeme := ⟨l.token, l.span.move g⟩

/-- The tokens stand one after the other. -/
structure Successive (ls : List Lexeme) : Prop where
  pairwise : ls.Pairwise fun a b => a.span.Before b.span
  start_le : ∀ l ∈ ls, l.span.start ≤ l.span.stop

/-- The span starts with one of the tokens and ends with one. -/
def Frames (ls : List Lexeme) (p : Span) : Prop :=
  ∃ a ∈ ls, ∃ b ∈ ls, a.span.start = p.start ∧ b.span.stop = p.stop

variable {ls ls' : List Lexeme} {l : Lexeme} {p q : Span}

theorem Successive.sublist (h : Successive ls) (hsub : ls'.Sublist ls) : Successive ls' :=
  ⟨h.pairwise.sublist hsub, fun l hl => h.start_le l (hsub.subset hl)⟩

theorem Frames.subset (h : Frames ls p) (hsub : ls ⊆ ls') : Frames ls' p := by
  obtain ⟨a, ha, b, hb, hends⟩ := h
  exact ⟨a, hsub ha, b, hsub hb, hends⟩

theorem Successive.before (h : Successive (ls ++ ls')) (hp : Frames ls p) (hq : Frames ls' q) :
    p.Before q := by
  obtain ⟨_, -, b, hb, -, hstop⟩ := hp
  obtain ⟨a, ha, _, -, hstart, -⟩ := hq
  have hba : b.span.stop ≤ a.span.start := (List.pairwise_append.1 h.pairwise).2.2 b hb a ha
  rwa [hstop, hstart] at hba

/-- No token ends after the last one. -/
theorem Successive.stop_le (h : Successive (l :: ls)) {a : Lexeme} (ha : a ∈ l :: ls) :
    a.span.stop ≤ stopAfter l.span.stop ls := by
  induction ls generalizing l a with
  | nil =>
    rw [List.mem_singleton.1 ha]
    exact Nat.le_refl _
  | cons m ls ih =>
    have hrest := h.sublist (List.sublist_cons_self l _)
    rcases List.mem_cons.1 ha with rfl | ha
    · have hm : a.span.stop ≤ m.span.start :=
        List.rel_of_pairwise_cons h.pairwise List.mem_cons_self
      have hm' := h.start_le m (List.mem_cons_of_mem _ List.mem_cons_self)
      have hlast := ih hrest List.mem_cons_self
      rw [stopAfter_cons]
      omega
    · exact ih hrest ha

theorem Successive.start_le_start (h : Successive (l :: ls)) {a : Lexeme} (ha : a ∈ l :: ls) :
    l.span.start ≤ a.span.start := by
  rcases List.mem_cons.1 ha with rfl | ha
  · exact Nat.le_refl _
  · have hbefore : l.span.stop ≤ a.span.start := List.rel_of_pairwise_cons h.pairwise ha
    exact (h.start_le l List.mem_cons_self).trans hbefore

theorem Successive.covers (h : Successive ls) (hp : Frames ls p) : (extent ls).Covers p := by
  obtain ⟨a, ha, b, hb, hstart, hstop⟩ := hp
  cases ls with
  | nil => cases ha
  | cons l ls => exact ⟨hstart ▸ h.start_le_start ha, hstop ▸ h.stop_le hb⟩

theorem extent_concat (l : Lexeme) (ls : List Lexeme) (z : Lexeme) :
    extent (l :: (ls ++ [z])) = l.span.upTo z.span := by
  rw [extent, stopAfter_append]
  rfl

theorem exists_stop_eq (l : Lexeme) (ls : List Lexeme) :
    ∃ z ∈ l :: ls, z.span.stop = stopAfter l.span.stop ls := by
  induction ls generalizing l with
  | nil => exact ⟨l, List.mem_cons_self, rfl⟩
  | cons m ls ih =>
    obtain ⟨z, hz, hstop⟩ := ih m
    exact ⟨z, List.mem_cons_of_mem _ hz, hstop⟩

theorem frames_extent (h : ls ≠ []) : Frames ls (extent ls) := by
  obtain ⟨l, ls, rfl⟩ := List.exists_cons_of_ne_nil h
  obtain ⟨z, hz, hstop⟩ := exists_stop_eq l ls
  exact ⟨l, List.mem_cons_self, z, hz, rfl, hstop⟩

end Extent

end Lexeme

namespace Grammar

open Lexeme

section Nodes

/-- The expression is derived from tokens that stand side by side, and stands where they do. -/
def Occurs (ls : List Lexeme) (e : SourceExpr) : Prop :=
  ∃ t : ExprTree, t.expr = e ∧ t.lexemes <:+: ls ∧ t.lexemes ≠ [] ∧ e.note = extent t.lexemes

theorem Occurs.mono {ls ls' : List Lexeme} {e : SourceExpr} (h : Occurs ls e) (hls : ls <:+: ls') :
    Occurs ls' e := by
  obtain ⟨t, ht, hwithin, hrest⟩ := h
  exact ⟨t, ht, hwithin.trans hls, hrest⟩

theorem Occurs.frames {ls : List Lexeme} {e : SourceExpr} (h : Occurs ls e) : Frames ls e.note := by
  obtain ⟨t, -, hwithin, hne, hnote⟩ := h
  exact hnote ▸ (frames_extent hne).subset hwithin.subset

namespace ExprTree

theorem lexemes_ne_nil (t : ExprTree) : t.lexemes ≠ [] := by
  cases t <;> exact List.cons_ne_nil _ _

theorem note_select (p q : Span) (c : ExprTree) (r : Span) (t : ExprTree) (s : Span) (f : ExprTree)
    (z : Span) :
    (select p q c r t s f z).expr.note = extent (select p q c r t s f z).lexemes := by
  have hsplit : (select p q c r t s f z).lexemes = keyword .select p :: ((symbol .leftParen q ::
      (c.lexemes ++ symbol .comma r :: (t.lexemes ++ symbol .comma s :: f.lexemes))) ++
        [symbol .rightParen z]) := by
    simp only [lexemes, List.cons_append, List.append_assoc]
  rw [hsplit, extent_concat]
  rfl

theorem note_reduce (p q : Span) (op : Name) (s : Span) (arg : ExprTree)
    (hint : Option (Span × AxesTree)) (z : Span) :
    (reduce p q op s arg hint z).expr.note = extent (reduce p q op s arg hint z).lexemes := by
  have hsplit : (reduce p q op s arg hint z).lexemes = keyword .reduce p :: ((symbol .leftParen q ::
      op.lexeme :: symbol .comma s :: (arg.lexemes ++ hintLexemes hint)) ++
        [symbol .rightParen z]) := by
    simp only [lexemes, List.cons_append, List.append_assoc]
  rw [hsplit, extent_concat]
  rfl

theorem note_tuple (p : Span) (first : ExprTree) (r : Span) (second : ExprTree)
    (rest : Tail ExprTree) (z : Span) : (tuple p first r second rest z).expr.note =
      extent (tuple p first r second rest z).lexemes := by
  rw [lexemes_tuple, ← List.append_assoc, extent_concat]
  rfl

theorem note_call (func : Name) (q : Span) (first : ExprTree) (rest : Tail ExprTree) (z : Span) :
    (call func q first rest z).expr.note = extent (call func q first rest z).lexemes := by
  rw [lexemes_call, ← List.append_assoc, ← List.cons_append, extent_concat]
  rfl

/-- The derivations of the expressions right inside of an expression, in order. -/
def parts : ExprTree → List ExprTree
  | .literal _ _ | .input _ _ _ | .callNone _ _ _ | .ref _ => []
  | .select _ _ c _ t _ f _ => [c, t, f]
  | .reduce _ _ _ _ arg _ _ => [arg]
  | .group _ e _ => [e]
  | .tuple _ first _ second rest _ => first :: second :: rest.map (·.2)
  | .call _ _ first rest _ => first :: rest.map (·.2)

theorem parts_induction {motive : ExprTree → Prop}
    (step : ∀ t, (∀ x ∈ t.parts, motive x) → motive t) (t : ExprTree) : motive t := by
  have hitems {rest : Tail ExprTree} (h : ∀ x ∈ rest, motive x.2) :
      ∀ x ∈ rest.map (·.2), motive x := List.forall_mem_map.2 h
  induction t using ExprTree.induction with
  | literal | input | callNone | ref => exact step _ (List.forall_mem_nil _)
  | select p q c r t s f z hc ht hf =>
    refine step _ (List.forall_mem_cons.2 ⟨hc, List.forall_mem_cons.2 ⟨ht, ?_⟩⟩)
    exact List.forall_mem_singleton.2 hf
  | reduce p q op s arg hint z harg => exact step _ (List.forall_mem_singleton.2 harg)
  | group p e z he => exact step _ (List.forall_mem_singleton.2 he)
  | tuple p first r second rest z hfirst hsecond hrest =>
    refine step _ (List.forall_mem_cons.2 ⟨hfirst, ?_⟩)
    exact List.forall_mem_cons.2 ⟨hsecond, hitems hrest⟩
  | call func q first rest z hfirst hrest =>
    exact step _ (List.forall_mem_cons.2 ⟨hfirst, hitems hrest⟩)

/-- The expression of a group is that of its part. Any other expression is made of those of its
parts, and stands from its first to its last token. -/
theorem group_or_node (t : ExprTree) :
    (∃ e, t.parts = [e] ∧ t.expr = e.expr) ∨
      t.expr.children = t.parts.map expr ∧ t.expr.note = extent t.lexemes := by
  cases t with
  | literal | input | callNone | ref => exact .inr ⟨rfl, rfl⟩
  | select => exact .inr ⟨rfl, note_select ..⟩
  | reduce => exact .inr ⟨rfl, note_reduce ..⟩
  | group p e z => exact .inl ⟨e, rfl, rfl⟩
  | tuple =>
    refine .inr ⟨?_, note_tuple ..⟩
    rw [expr_tuple, parts, List.map_cons, List.map_cons, List.map_cons, List.map_map]
    rfl
  | call =>
    refine .inr ⟨?_, note_call ..⟩
    rw [expr_call, parts, List.map_cons, List.map_map]
    rfl

theorem tail_sublist (rest : Tail ExprTree) :
    ((rest.map (·.2)).flatMap lexemes).Sublist (Tail.lexemes .comma lexemes rest) := by
  induction rest with
  | nil => exact List.Sublist.refl _
  | cons x rest ih => exact ((List.Sublist.refl x.2.lexemes).append ih).cons _

/-- The tokens of the parts stand in the order of the parts. -/
theorem parts_sublist (t : ExprTree) : (t.parts.flatMap lexemes).Sublist t.lexemes := by
  have hkeep (ls : List Lexeme) : ls.Sublist ls := List.Sublist.refl ls
  have hend (z : Lexeme) : [].Sublist [z] := List.nil_sublist _
  cases t with
  | literal | input | callNone | ref => exact List.nil_sublist _
  | select p q c r t s f z =>
    exact (((hkeep _).append (((hkeep _).append (((hkeep _).append (hend _)).cons _)).cons _)).cons
      _).cons _
  | reduce p q op s arg hint z =>
    exact (((((hkeep _).append (List.nil_sublist _)).cons _).cons _).cons _).cons _
  | group p e z => exact ((hkeep _).append (hend _)).cons _
  | tuple p first r second rest z =>
    rw [lexemes_tuple]
    have hrest := tail_sublist ((r, second) :: rest)
    exact ((hkeep _).append (hrest.trans (List.sublist_append_left _ _))).cons _
  | call func q first rest z =>
    rw [lexemes_call]
    exact (((hkeep _).append ((tail_sublist rest).trans (List.sublist_append_left _ _))).cons
      _).cons _

theorem infix_append_left {ls ls' : List Lexeme} (h : ls <:+: ls') (rest : List Lexeme) :
    ls <:+: ls' ++ rest := h.trans (List.prefix_append _ _).isInfix

theorem infix_append_right {ls ls' : List Lexeme} (h : ls <:+: ls') (front : List Lexeme) :
    ls <:+: front ++ ls' := h.trans (List.suffix_append _ _).isInfix

theorem infix_of_mem_tail {rest : Tail ExprTree} {x : ExprTree} (h : x ∈ rest.map (·.2)) :
    x.lexemes <:+: Tail.lexemes .comma lexemes rest := by
  induction rest with
  | nil => cases h
  | cons y rest ih =>
    rcases List.mem_cons.1 h with rfl | h
    · exact List.infix_cons (infix_append_left List.infix_rfl _)
    · exact List.infix_cons (infix_append_right (ih h) _)

theorem infix_of_mem_parts {t x : ExprTree} (h : x ∈ t.parts) : x.lexemes <:+: t.lexemes := by
  cases t with
  | literal | input | callNone | ref => cases h
  | select p q c r t s f z =>
    refine List.infix_cons (List.infix_cons ?_)
    rcases List.mem_cons.1 h with rfl | h
    · exact infix_append_left List.infix_rfl _
    refine infix_append_right (List.infix_cons ?_) _
    rcases List.mem_cons.1 h with rfl | h
    · exact infix_append_left List.infix_rfl _
    cases List.mem_singleton.1 h
    exact infix_append_right (List.infix_cons (infix_append_left List.infix_rfl _)) _
  | reduce p q op s arg hint z =>
    cases List.mem_singleton.1 h
    exact List.infix_cons <| List.infix_cons <| List.infix_cons <| List.infix_cons <|
      infix_append_left List.infix_rfl _
  | group p e z =>
    cases List.mem_singleton.1 h
    exact List.infix_cons (infix_append_left List.infix_rfl _)
  | tuple p first r second rest z =>
    rw [lexemes_tuple]
    refine List.infix_cons ?_
    rcases List.mem_cons.1 h with rfl | h
    · exact infix_append_left List.infix_rfl _
    · have hrest : x ∈ ((r, second) :: rest).map (·.2) := h
      exact infix_append_right (infix_append_left (infix_of_mem_tail hrest) _) _
  | call func q first rest z =>
    rw [lexemes_call]
    refine List.infix_cons (List.infix_cons ?_)
    rcases List.mem_cons.1 h with rfl | h
    · exact infix_append_left List.infix_rfl _
    · exact infix_append_right (infix_append_left (infix_of_mem_tail h) _) _

theorem occurs (t : ExprTree) : Occurs t.lexemes t.expr := by
  induction t using parts_induction with
  | step t ih =>
  rcases t.group_or_node with ⟨e, hparts, hexpr⟩ | ⟨-, hnote⟩
  · have he : e ∈ t.parts := hparts ▸ List.mem_cons_self
    exact hexpr ▸ (ih e he).mono (infix_of_mem_parts he)
  · exact ⟨t, rfl, List.infix_rfl, t.lexemes_ne_nil, hnote⟩

theorem occurs_of_mem (t : ExprTree) {x : SourceExpr} (h : x ∈ t.expr.postorder) :
    Occurs t.lexemes x := by
  induction t using parts_induction with
  | step t ih =>
  rcases t.group_or_node with ⟨e, hparts, hexpr⟩ | ⟨hchildren, -⟩
  · have he : e ∈ t.parts := hparts ▸ List.mem_cons_self
    exact (ih e he (hexpr ▸ h)).mono (infix_of_mem_parts he)
  · rcases Expr.mem_postorder_iff.1 h with rfl | ⟨c, hc, hx⟩
    · exact t.occurs
    · rw [hchildren] at hc
      obtain ⟨y, hy, rfl⟩ := List.mem_map.1 hc
      exact (ih y hy hx).mono (infix_of_mem_parts hy)

/-- Trees that stand one after the other have spans one after the other. -/
theorem pairwise_before {ts : List ExprTree} (h : Successive (ts.flatMap lexemes)) :
    (ts.map fun t => t.expr.note).Pairwise Span.Before := by
  induction ts with
  | nil => exact .nil
  | cons t ts ih =>
    rw [List.flatMap_cons] at h
    refine .cons ?_ (ih (h.sublist (List.sublist_append_right _ _)))
    intro p hp
    obtain ⟨t', ht', rfl⟩ := List.mem_map.1 hp
    refine h.before t.occurs.frames (t'.occurs.frames.subset ?_)
    exact fun l hl => List.mem_flatMap.2 ⟨t', ht', hl⟩

theorem children_placed {t : ExprTree} (h : Successive t.lexemes) :
    (∀ c ∈ t.expr.children, t.expr.note.Covers c.note) ∧
      (t.expr.children.map Expr.note).Pairwise Span.Before := by
  induction t using parts_induction with
  | step t ih =>
  rcases t.group_or_node with ⟨e, hparts, hexpr⟩ | ⟨hchildren, hnote⟩
  · have he : e ∈ t.parts := hparts ▸ List.mem_cons_self
    exact hexpr ▸ ih e he (h.sublist (infix_of_mem_parts he).sublist)
  · rw [hchildren, List.map_map]
    refine ⟨?_, pairwise_before (h.sublist t.parts_sublist)⟩
    intro c hc
    obtain ⟨x, hx, rfl⟩ := List.mem_map.1 hc
    exact hnote ▸ h.covers (x.occurs.frames.subset (infix_of_mem_parts hx).subset)

end ExprTree

end Nodes

section Moving

variable {g : Nat → Nat} {α β : Type} {sep : Symbol} {ls : List Lexeme}

theorem stopAfter_move (g : Nat → Nat) (last : Nat) (ls : List Lexeme) :
    stopAfter (g last) (ls.map (move g)) = g (stopAfter last ls) := by
  induction ls generalizing last with
  | nil => rfl
  | cons l ls ih => exact ih l.span.stop

theorem Repeated.move {Item : List Lexeme → α → Prop} {Item' : List Lexeme → β → Prop} {f : α → β}
    {as : List α} (h : Repeated sep Item ls as)
    (hitem : ∀ ls a, Item ls a → Item' (ls.map (move g)) (f a)) :
    Repeated sep Item' (ls.map (Lexeme.move g)) (as.map f) := by
  induction h with
  | nil => exact .nil
  | cons p h _ ih =>
    rw [List.map_cons, List.map_append]
    exact .cons (p.move g) (hitem _ _ h) ih

theorem IsName.move {n : String} (h : IsName ls n) : IsName (ls.map (Lexeme.move g)) n := by
  cases h with
  | ident _ p => exact .ident n (p.move g)

theorem IsSegment.move {s : String} (h : IsSegment ls s) :
    IsSegment (ls.map (Lexeme.move g)) s := by
  cases h with
  | ident _ p => exact .ident s (p.move g)
  | keyword k p => exact .keyword k (p.move g)

theorem IsPath.move {path : FieldPath} (h : IsPath ls path) :
    IsPath (ls.map (Lexeme.move g)) path := by
  obtain ⟨hfirst, hrest⟩ := h
  have hmore := hrest.move (g := g) (f := id) fun _ _ => IsSegment.move
  rw [List.map_id] at hmore
  rw [List.map_append]
  exact .intro hfirst.move hmore

theorem IsAxes.move {a : Axes} (h : IsAxes ls a) : IsAxes (ls.map (Lexeme.move g)) a := by
  cases h with
  | none p q => exact .none (p.move g) (q.move g)
  | some p q hfirst hrest =>
    have hmore := hrest.move (g := g) (f := id) fun _ _ => IsName.move
    rw [List.map_id] at hmore
    rw [List.map_cons, List.map_append, List.map_append]
    exact .some (p.move g) (q.move g) hfirst.move hmore

theorem IsHint.move {hint : Option Axes} (h : IsHint ls hint) :
    IsHint (ls.map (Lexeme.move g)) hint := by
  cases h with
  | none => exact .none
  | some p h => exact .some (p.move g) h.move

/-- Tokens in another place derive the expression there. -/
theorem ExprTree.isExpr_move (g : Nat → Nat) (t : ExprTree) :
    IsExpr (t.lexemes.map (Lexeme.move g)) (t.expr.mapNotes (Span.move g)) := by
  have htail {rest : Tail ExprTree}
      (h : ∀ x ∈ rest, IsExpr (x.2.lexemes.map (Lexeme.move g)) (x.2.expr.mapNotes (Span.move g))) :
      Repeated .comma IsExpr ((Tail.lexemes .comma lexemes rest).map (Lexeme.move g))
        ((rest.map fun x => x.2.expr).map (Expr.mapNotes (Span.move g))) := by
    induction rest with
    | nil => exact .nil
    | cons x rest ih =>
      obtain ⟨hx, hrest⟩ := List.forall_mem_cons.1 h
      rw [Tail.lexemes_cons, List.map_cons, List.map_append]
      exact .cons (x.1.move g) hx (ih hrest)
  induction t using ExprTree.induction with
  | literal v p => exact .constant (p.move g) derives_literal
  | input p q path =>
    have hpath : IsPath path.lexemes path.path := isPath_iff.2 ⟨path, rfl, rfl⟩
    have hmoved := IsExpr.input (p.move g) (q.move g) (hpath.move (g := g))
    rw [show (q.move g).stop = g q.stop from rfl, stopAfter_move] at hmoved
    exact hmoved
  | select p q c r t s f z hc ht hf =>
    rw [lexemes, List.map_cons, List.map_cons, List.map_append, List.map_cons, List.map_append,
      List.map_cons, List.map_append]
    exact .select (p.move g) (q.move g) (r.move g) (s.move g) (z.move g) hc ht hf
  | reduce p q op s arg hint z harg =>
    have hhint : IsHint (hintLexemes hint) (hint.map fun h => h.2.axes) :=
      isHint_iff.2 ⟨hint, rfl, rfl⟩
    rw [lexemes, List.map_cons, List.map_cons, List.map_cons, List.map_cons, List.map_append,
      List.map_append]
    exact .reduce op.text (p.move g) (q.move g) (op.place.move g) (s.move g) (z.move g) harg
      hhint.move
  | group p e z he =>
    rw [lexemes, List.map_cons, List.map_append]
    exact .group (p.move g) (z.move g) he
  | tuple p first r second rest z hfirst hsecond hrest =>
    rw [lexemes_tuple, expr_tuple, List.map_cons, List.map_append, List.map_append, Expr.mapNotes,
      Expr.mapNotesAll_eq, List.map_cons]
    exact .tuple (p.move g) (z.move g) hfirst (htail (List.forall_mem_cons.2 ⟨hsecond, hrest⟩))
      (List.cons_ne_nil _ _)
  | callNone func q z => exact .callNone func.text (func.place.move g) (q.move g) (z.move g)
  | call func q first rest z hfirst hrest =>
    rw [lexemes_call, expr_call, List.map_cons, List.map_cons, List.map_append, List.map_append,
      Expr.mapNotes, Expr.mapNotesAll_eq, List.map_cons]
    exact .call func.text (func.place.move g) (q.move g) (z.move g) hfirst (htail hrest)
  | ref name => exact .ref name.text (name.place.move g)

end Moving

end Grammar

namespace SourceExpr

theorem unplaced_move (g : Nat → Nat) (e : SourceExpr) :
    unplaced (e.mapNotes (Span.move g)) = unplaced e := by
  induction e using Expr.induction with
  | constant | input | ref => rfl
  | call p func args ih =>
    rw [Expr.mapNotes, Expr.mapNotesAll_eq, unplaced_call, unplaced_call, List.map_map]
    exact congrArg _ (List.map_congr_left ih)
  | tuple p elems ih =>
    rw [Expr.mapNotes, Expr.mapNotesAll_eq, unplaced_tuple, unplaced_tuple, List.map_map]
    exact congrArg _ (List.map_congr_left ih)
  | select p c t f hc ht hf =>
    rw [Expr.mapNotes, unplaced_select, unplaced_select, hc, ht, hf]
  | reduce p op hint arg ih => rw [Expr.mapNotes, unplaced_reduce, unplaced_reduce, ih]

end SourceExpr

end LoopNest
