import LoopNest.Proofs.Fallible
import LoopNest.Proofs.Source.Parsing
import LoopNest.Proofs.Token.Spacing
import Mathlib.Computability.MyhillNerode
import Mathlib.Order.CompletePartialOrder

/-! What can come next. At each place of a text a language of continuations is left. A reading that
has tried some tokens in vain still has to deal with the continuations that do not start with one of
them; where it has none left, what it has tried is what could have come next. -/
namespace LoopNest.Parser

open scoped Computability

namespace Expectation

/-- The kind of the next token, or the end of the text. -/
def ofNext : Option Token → Expectation
  | none => .endOfInput
  | some (.keyword k) => .keyword k
  | some (.symbol s) => .symbol s
  | some (.ident _) => .ident
  | some (.int _) | some (.float _) | some (.str _) => .literal

/-- The kind is one with which a continuation starts. Where a literal can stand, `true` and `false`
count as such and are no kinds of their own. -/
def Fits (future : Language Token) (x : Expectation) : Prop :=
  (∃ ts ∈ future, ofNext ts.head? = x) ∧
    ∀ b, x = .keyword (.boolean b) → ∀ ts ∈ future, ofNext ts.head? ≠ .literal

/-- Whether what comes next is what is looked for. -/
def meets (x : Expectation) : Option Token → Bool
  | some t => x.admits t
  | none => x = .endOfInput

variable {x : Expectation} {next : Option Token}

theorem meets_iff : x.meets next = true ↔
    x = ofNext next ∨ x = .literal ∧ ∃ b, ofNext next = .keyword (.boolean b) := by
  cases next with
  | none => simp [meets, ofNext]
  | some t =>
    cases t with
    | keyword k => cases x <;> cases k <;> simp [meets, admits, ofNext]
    | _ => cases x <;> simp [meets, admits, ofNext]

theorem meets_ofNext (next : Option Token) : (ofNext next).meets next = true :=
  meets_iff.2 (.inl rfl)

theorem eq_literal_of_meets (h : x.meets next = true) (hnext : ofNext next = .literal) :
    x = .literal := by
  rcases meets_iff.1 h with rfl | ⟨rfl, -⟩
  · exact hnext
  · rfl

/-- Every kind of token has a member that can be read. -/
theorem exists_readable (h : x ≠ .endOfInput) :
    ∃ t : Token, t.Readable ∧ ofNext (some t) = x := by
  cases x with
  | literal => exact ⟨.int 0, ⟨"0".toList, by decide⟩, rfl⟩
  | keyword k => exact ⟨.keyword k, readable_keyword k, rfl⟩
  | symbol s => exact ⟨.symbol s, readable_symbol s, rfl⟩
  | ident => exact ⟨.ident "integer", ⟨"integer".toList, by decide⟩, rfl⟩
  | endOfInput => exact absurd rfl h

end Expectation

open Expectation

section Places

/-- Some sequence is in the language. -/
def Possible (L : Language Token) : Prop := ∃ ts, ts ∈ L

/-- The place where `next` comes, after `tried` was tried in vain. Of the continuations that are
left, the reading still looks for those in `sought`. -/
structure Pending (tried : List Expectation) (next : Option Token)
    (sought future : Language Token) : Prop where
  le : sought ≤ future
  cover : ∀ ts ∈ future, ts ∈ sought ∨ ∃ x ∈ tried, x.meets ts.head? = true
  fits : ∀ x ∈ tried, x.Fits future
  vain : ∀ x ∈ tried, x.meets next = false
  apart : ∀ ts ∈ sought, ∀ x ∈ tried, x.meets ts.head? = false
  nodup : tried.Nodup
  possible : Possible future

/-- The error is about what comes next, with which no continuation starts. -/
structure Blames (e : SyntaxError) (after : List Lexeme) (future : Language Token) : Prop where
  found : e.found = after.head?
  possible : Possible future
  impossible : ∀ ts ∈ future, ts.head? ≠ after.head?.map Lexeme.token
  expected : ∀ es, e.complaint = .unexpected es → es.Nodup ∧ ∀ x, x ∈ es ↔ x.Fits future
  typeName : ∀ n, e.complaint = .typeName n →
    ∃ p, after.head? = some ⟨.ident n, p⟩ ∧ DType.ofName? n = none

/-- None of the sequences starts with what is looked for. -/
def Avoids (es : List Expectation) (L : Language Token) : Prop :=
  ∀ ts ∈ L, ∀ x ∈ es, x.meets ts.head? = false

/-- All of the sequences start with something that is looked for. -/
def Begins (es : List Expectation) (L : Language Token) : Prop :=
  ∀ ts ∈ L, ∃ x ∈ es, x.meets ts.head? = true

variable {tried es : List Expectation} {next : Option Token} {x : Expectation} {t : Token}
  {ts : List Token} {sought rest future L M : Language Token}

theorem Begins.add (hL : Begins es L) (hM : Begins es M) : Begins es (L + M) := by
  rintro ts (hts | hts)
  · exact hL ts hts
  · exact hM ts hts

theorem avoids_zero : Avoids es 0 := fun ts hts => absurd hts (Language.notMem_zero ts)

theorem Avoids.add (hL : Avoids es L) (hM : Avoids es M) : Avoids es (L + M) := by
  rintro ts (hts | hts)
  · exact hL ts hts
  · exact hM ts hts

theorem leftQuotient_add : (L + M).leftQuotient ts = L.leftQuotient ts + M.leftQuotient ts := rfl

theorem Avoids.leftQuotient (h : Avoids es L) (ht : es.any (·.admits t) = true) :
    L.leftQuotient [t] = 0 := by
  ext us
  constructor
  · intro hus
    obtain ⟨x, hx, hadmits⟩ := List.any_eq_true.1 ht
    have hvain : x.admits t = false := h (t :: us) hus x hx
    rw [hadmits] at hvain
    cases hvain
  · exact fun hus => absurd hus (Language.notMem_zero us)

theorem pending_start (next : Option Token) (h : Possible L) : Pending [] next L L where
  le := le_refl L
  cover _ hts := .inl hts
  fits := List.forall_mem_nil _
  vain := List.forall_mem_nil _
  apart _ _ := List.forall_mem_nil _
  nodup := List.nodup_nil
  possible := h

theorem Pending.fits_of_sought (h : Pending tried next sought future) (hx : x.Fits sought) :
    x.Fits future := by
  obtain ⟨⟨ts, hts, hkind⟩, hboolean⟩ := hx
  refine ⟨⟨ts, h.le hts, hkind⟩, ?_⟩
  rintro b rfl us hus hliteral
  rcases h.cover us hus with hsought | ⟨y, hy, hmeets⟩
  · exact hboolean b rfl us hsought hliteral
  · -- a literal tried in vain would have been tried for the boolean as well
    have hapart := h.apart ts hts y hy
    rw [eq_literal_of_meets hmeets hliteral, meets_iff.2 (.inr ⟨rfl, b, hkind⟩)] at hapart
    cases hapart

/-- Where more is tried in vain, the continuations that start so are no longer looked for. -/
theorem Pending.decline (h : Pending tried next (L + rest) future) (hes : es.Nodup)
    (hfits : ∀ x ∈ es, x.Fits (L + rest)) (hvain : ∀ x ∈ es, x.meets next = false)
    (hL : Begins es L) (hrest : Avoids es rest) : Pending (tried ++ es) next rest future where
  le ts hts := h.le (.inr hts)
  cover := by
    intro ts hts
    rcases h.cover ts hts with (hbegins | hsought) | ⟨x, hx, hmeets⟩
    · obtain ⟨x, hx, hmeets⟩ := hL ts hbegins
      exact .inr ⟨x, List.mem_append_right _ hx, hmeets⟩
    · exact .inl hsought
    · exact .inr ⟨x, List.mem_append_left _ hx, hmeets⟩
  fits := List.forall_mem_append.2 ⟨h.fits, fun x hx => h.fits_of_sought (hfits x hx)⟩
  vain := List.forall_mem_append.2 ⟨h.vain, hvain⟩
  apart ts hts := List.forall_mem_append.2 ⟨h.apart ts (.inr hts), hrest ts hts⟩
  nodup := by
    refine List.nodup_append.2 ⟨h.nodup, hes, ?_⟩
    rintro x hx y hy rfl
    obtain ⟨ts, hts, rfl⟩ := (hfits x hy).1
    exact absurd (meets_ofNext ts.head?) (by simp [h.apart ts hts _ hx])
  possible := h.possible

/-- Where a token is taken, the continuations are those that start with it, without it. -/
theorem Pending.take (h : Pending tried (some t) sought future)
    (hpossible : Possible (sought.leftQuotient [t])) (next' : Option Token) :
    Pending [] next' (sought.leftQuotient [t]) (future.leftQuotient [t]) where
  le ts hts := h.le hts
  cover := by
    intro ts hts
    rcases h.cover (t :: ts) hts with hsought | ⟨x, hx, hmeets⟩
    · exact .inl hsought
    · exact absurd hmeets (by simpa using h.vain x hx)
  fits := List.forall_mem_nil _
  vain := List.forall_mem_nil _
  apart _ _ := List.forall_mem_nil _
  nodup := List.nodup_nil
  possible := by
    obtain ⟨ts, hts⟩ := hpossible
    exact ⟨ts, h.le hts⟩

/-- A continuation does not start with what comes next, if what is looked for does not. -/
theorem Pending.impossible (h : Pending tried next sought future)
    (hsought : ∀ ts ∈ sought, ts.head? ≠ next) : ∀ ts ∈ future, ts.head? ≠ next := by
  intro ts hts hnext
  rcases h.cover ts hts with hmem | ⟨x, hx, hmeets⟩
  · exact hsought ts hmem hnext
  · rw [hnext, h.vain x hx] at hmeets
    cases hmeets

/-- Where nothing is left to look for, what was tried is what could have come next. -/
theorem Pending.blames {after : List Lexeme}
    (h : Pending tried (after.head?.map Lexeme.token) 0 future) :
    Blames ⟨after.head?, .unexpected tried⟩ after future where
  found := rfl
  possible := h.possible
  impossible := h.impossible fun ts hts => absurd hts (Language.notMem_zero ts)
  expected := by
    rintro es ⟨rfl⟩
    refine ⟨h.nodup, fun x => ⟨h.fits x, ?_⟩⟩
    rintro ⟨⟨ts, hts, rfl⟩, hboolean⟩
    rcases h.cover ts hts with hnone | ⟨y, hy, hmeets⟩
    · exact absurd hnone (Language.notMem_zero ts)
    rcases meets_iff.1 hmeets with rfl | ⟨rfl, b, hb⟩
    · exact hy
    · obtain ⟨us, hus, hliteral⟩ := (h.fits _ hy).1
      exact absurd hliteral (hboolean b hb us hus)
  typeName := by
    rintro n ⟨⟩

end Places

section Readings

variable {α β : Type} {n : Nat} {S K L N : Language Token} {R : α → Language Token}
  {R' : β → Language Token} {es : List Expectation}

/-- With fewer than `n` tokens to come, the reading deals with the continuations in `S`. Where it
gives a result, those in `R` remain; where it fails, it blames the first token that cannot come. -/
def Reads (n : Nat) (p : Reading α) (S : Language Token) (R : α → Language Token) : Prop :=
  ∀ (c : Cursor) (future : Language Token), c.rest.length < n → (∀ l ∈ c.rest, l.token.Readable) →
    Pending c.tried (c.rest.head?.map Lexeme.token) S future →
    Except.Ends
      (fun r => ∃ used, c.rest = used ++ r.2.rest ∧
        Pending r.2.tried (r.2.rest.head?.map Lexeme.token) (R r.1)
          (future.leftQuotient (used.map Lexeme.token)))
      (fun e => ∃ used after, c.rest = used ++ after ∧
        Blames e after (future.leftQuotient (used.map Lexeme.token)))
      (p c)

theorem Reads.mono {m : Nat} {p : Reading α} (h : Reads n p S R) (hle : m ≤ n) :
    Reads m p S R :=
  fun c future hlength => h c future (Nat.lt_of_lt_of_le hlength hle)

theorem reads_zero (p : Reading α) : Reads 0 p S R :=
  fun _ _ hlength => absurd hlength (Nat.not_lt_zero _)

theorem reads_pure (a : α) : Reads n (pure a) (R a) R :=
  fun _ _ _ _ hpending => ⟨[], rfl, hpending⟩

theorem reads_spanFrom (start : Span) : Reads n (spanFrom start) K fun _ => K :=
  fun _ _ _ _ hpending => ⟨[], rfl, hpending⟩

theorem reads_refuse : Reads n (refuse : Reading α) 0 R :=
  fun c _ _ _ hpending => ⟨[], c.rest, rfl, hpending.blames⟩

theorem reads_require (o : Option α) : Reads n (require o) (o.elim 0 fun _ => K) fun _ => K := by
  cases o with
  | none => exact reads_refuse
  | some a => exact reads_pure (R := fun _ => K) a

theorem Reads.bind {p : Reading α} {f : α → Reading β} (h : Reads n p S R)
    (hf : ∀ a, Reads n (f a) (R a) R') : Reads n (p >>= f) S R' := by
  intro c future hlength hreadable hpending
  -- what is left over after the first part is a part of the tokens, so the bounds still hold
  refine StateT.ends_bind ((h c future hlength hreadable hpending).imp_fault fun e he => he) ?_
  rintro a c' ⟨used, hrest, hpending'⟩
  dsimp only at hrest hpending'
  rw [hrest, List.length_append] at hlength
  rw [hrest] at hreadable
  refine (hf a c' _ (by omega) (fun l hl => hreadable l (List.mem_append_right _ hl))
    hpending').imp ?_ ?_
  · rintro r ⟨used', hrest', hend⟩
    refine ⟨used ++ used', by rw [hrest, hrest', List.append_assoc], ?_⟩
    rwa [List.map_append, Language.leftQuotient_append]
  · rintro e ⟨used', after, hrest', hblames⟩
    refine ⟨used ++ used', after, by rw [hrest, hrest', List.append_assoc], ?_⟩
    rwa [List.map_append, Language.leftQuotient_append]

theorem offer_of_admits {c : Cursor} {l : Lexeme} {ls : List Lexeme} (hrest : c.rest = l :: ls)
    (h : es.any (·.admits l.token) = true) :
    offer es c = .ok (some l, ⟨ls, [], l.span.stop⟩) := by
  simp only [offer, hrest, if_pos h]

theorem offer_of_vain {c : Cursor}
    (h : ∀ x ∈ es, x.meets (c.rest.head?.map Lexeme.token) = false) :
    offer es c = .ok (none, { c with tried := c.tried ++ es }) := by
  cases hrest : c.rest with
  | nil => simp only [offer, hrest]
  | cons l ls =>
    have hnone : ¬ es.any (·.admits l.token) = true := by
      rw [hrest] at h
      rw [List.any_eq_true]
      rintro ⟨x, hx, hadmits⟩
      have hvain : x.admits l.token = false := h x hx
      rw [hadmits] at hvain
      cases hvain
    simp only [offer, hrest, if_neg hnone]

theorem expect_of_admits {c : Cursor} {l : Lexeme} {ls : List Lexeme} (hrest : c.rest = l :: ls)
    (h : es.any (·.admits l.token) = true) : expect es c = .ok (l, ⟨ls, [], l.span.stop⟩) :=
  StateT.bind_eq_ok.2 ⟨_, _, offer_of_admits hrest h, rfl⟩

theorem expect_of_vain {c : Cursor}
    (h : ∀ x ∈ es, x.meets (c.rest.head?.map Lexeme.token) = false) :
    expect es c = .error ⟨c.rest.head?, .unexpected (c.tried ++ es)⟩ :=
  StateT.bind_eq_error.2 (.inr ⟨_, _, offer_of_vain h, rfl⟩)

/-- Looking for tokens that may come or not. Each of them has to be possible. -/
theorem reads_offer {f : Option Lexeme → Reading α} (hes : es.Nodup) (hend : .endOfInput ∉ es)
    (hboolean : ∀ b, .keyword (.boolean b) ∈ es → ∀ ts ∈ L + N, ofNext ts.head? ≠ .literal)
    (hL : Begins es L) (hN : Avoids es N)
    (hpossible : ∀ t : Token, t.Readable → es.any (·.admits t) = true →
      Possible (L.leftQuotient [t]))
    (hsome : ∀ l : Lexeme, l.token.Readable → es.any (·.admits l.token) = true →
      Reads n (f (some l)) (L.leftQuotient [l.token]) R)
    (hnone : Reads (n + 1) (f none) N R) : Reads (n + 1) (offer es >>= f) (L + N) R := by
  intro c future hlength hreadable hpending
  by_cases hvain : ∀ x ∈ es, x.meets (c.rest.head?.map Lexeme.token) = false
  · have hfits (x : Expectation) (hx : x ∈ es) : x.Fits (L + N) := by
      obtain ⟨t, ht, rfl⟩ := exists_readable (ne_of_mem_of_not_mem hx hend)
      obtain ⟨ts, hts⟩ := hpossible t ht (List.any_eq_true.2 ⟨_, hx, meets_ofNext (some t)⟩)
      exact ⟨⟨t :: ts, .inl hts, rfl⟩, fun b hb => hboolean b (hb ▸ hx)⟩
    have hdeclined := hpending.decline hes hfits hvain hL hN
    change Except.Ends _ _ (offer es c >>= fun r => f r.1 r.2)
    rw [offer_of_vain hvain]
    exact hnone _ future hlength hreadable hdeclined
  · simp only [not_forall, Bool.not_eq_false] at hvain
    obtain ⟨x, hx, hmeets⟩ := hvain
    cases hc : c.rest with
    | nil =>
      rw [hc] at hmeets
      have hx' : x = .endOfInput := of_decide_eq_true hmeets
      exact absurd (hx' ▸ hx) hend
    | cons l ls =>
      rw [hc] at hlength hreadable hpending hmeets
      have hl := hreadable l List.mem_cons_self
      have hadmits : es.any (·.admits l.token) = true := List.any_eq_true.2 ⟨x, hx, hmeets⟩
      change Except.Ends _ _ (offer es c >>= fun r => f r.1 r.2)
      rw [offer_of_admits hc hadmits]
      have hquotient : (L + N).leftQuotient [l.token] = L.leftQuotient [l.token] := by
        rw [leftQuotient_add, hN.leftQuotient hadmits, add_zero]
      have htaken := hpending.take (hquotient ▸ hpossible l.token hl hadmits)
        (ls.head?.map Lexeme.token)
      rw [hquotient] at htaken
      refine (hsome l hl hadmits ⟨ls, [], l.span.stop⟩ _ (Nat.lt_of_succ_lt_succ hlength)
        (fun l' hl' => hreadable l' (List.mem_cons_of_mem _ hl')) htaken).imp ?_ ?_
      · rintro r ⟨used, rfl, hend⟩
        exact ⟨l :: used, rfl, hend⟩
      · rintro e ⟨used, after, rfl, hblames⟩
        exact ⟨l :: used, after, rfl, hblames⟩

end Readings

section Words

variable {α : Type} {n : Nat} {K L M N : Language Token} {R : α → Language Token}
  {es : List Expectation} {t : Token} {ts : List Token}

@[simp] theorem possible_mul : Possible (L * K) ↔ Possible L ∧ Possible K := by
  constructor
  · rintro ⟨_, us, hus, vs, hvs, -⟩
    exact ⟨⟨us, hus⟩, vs, hvs⟩
  · rintro ⟨⟨us, hus⟩, vs, hvs⟩
    exact ⟨us ++ vs, us, hus, vs, hvs, rfl⟩

@[simp] theorem possible_sup : Possible (L ⊔ K) ↔ Possible L ∨ Possible K := exists_or

@[simp] theorem possible_one : Possible 1 := ⟨[], rfl⟩

@[simp] theorem possible_kstar : Possible L∗ := ⟨[], Language.nil_mem_kstar L⟩

/-- One token of those looked for. -/
def oneOf (es : List Expectation) : Language Token :=
  {ts | ∃ t : Token, t.Readable ∧ es.any (·.admits t) = true ∧ ts = [t]}

theorem possible_oneOf {x : Expectation} (hx : x ∈ es) (hend : x ≠ .endOfInput) :
    Possible (oneOf es) := by
  obtain ⟨t, ht, rfl⟩ := exists_readable hend
  exact ⟨[t], t, ht, List.any_eq_true.2 ⟨_, hx, meets_ofNext (some t)⟩, rfl⟩

@[simp] theorem possible_symbol (s : Symbol) : Possible (oneOf [.symbol s]) :=
  possible_oneOf List.mem_cons_self (by simp)

@[simp] theorem possible_ident : Possible (oneOf [.ident]) :=
  possible_oneOf List.mem_cons_self (by simp)

theorem mem_oneOf_mul : ts ∈ oneOf es * K ↔
    ∃ t us, ts = t :: us ∧ t.Readable ∧ es.any (·.admits t) = true ∧ us ∈ K := by
  constructor
  · rintro ⟨_, ⟨t, ht, hadmits, rfl⟩, us, hus, rfl⟩
    exact ⟨t, us, rfl, ht, hadmits, hus⟩
  · rintro ⟨t, us, rfl, ht, hadmits, hus⟩
    exact ⟨[t], ⟨t, ht, hadmits, rfl⟩, us, hus, rfl⟩

theorem begins_oneOf : Begins es (oneOf es * K) := by
  intro ts hts
  obtain ⟨t, us, rfl, -, hadmits, -⟩ := mem_oneOf_mul.1 hts
  exact List.any_eq_true.1 hadmits

theorem leftQuotient_oneOf (ht : t.Readable) (h : es.any (·.admits t) = true) :
    (oneOf es * K).leftQuotient [t] = K := by
  ext us
  rw [Language.mem_leftQuotient, List.singleton_append, mem_oneOf_mul]
  constructor
  · rintro ⟨_, _, ⟨⟩, -, -, hus⟩
    exact hus
  · exact fun hus => ⟨t, us, rfl, ht, h, hus⟩

theorem leftQuotient_oneOf_other (h : es.any (·.admits t) = false) :
    (oneOf es * K).leftQuotient [t] = 0 := by
  ext us
  rw [Language.mem_leftQuotient, List.singleton_append, mem_oneOf_mul]
  constructor
  · rintro ⟨_, _, ⟨⟩, -, hadmits, -⟩
    rw [h] at hadmits
    cases hadmits
  · exact fun hus => absurd hus (Language.notMem_zero us)

theorem avoids_symbol {s : Symbol} (h : ∀ x ∈ es, x.admits (.symbol s) = false) :
    Avoids es (oneOf [.symbol s] * K) := by
  intro ts hts
  obtain ⟨t, us, rfl, -, hadmits, -⟩ := mem_oneOf_mul.1 hts
  cases t with
  | symbol s' =>
    have hs : s = s' := by simpa [admits] using hadmits
    exact hs ▸ h
  | _ => simp [admits] at hadmits

theorem avoids_keyword {k : Keyword} (h : ∀ x ∈ es, x.admits (.keyword k) = false) :
    Avoids es (oneOf [.keyword k] * K) := by
  intro ts hts
  obtain ⟨t, us, rfl, -, hadmits, -⟩ := mem_oneOf_mul.1 hts
  cases t with
  | keyword k' =>
    have hk : k = k' := by simpa [admits] using hadmits
    exact hk ▸ h
  | _ => simp [admits] at hadmits

/-- Looking for a token before `K`, with `N` as the alternative. -/
theorem reads_offer_oneOf {f : Option Lexeme → Reading α} (hes : es.Nodup) (hend : .endOfInput ∉ es)
    (hboolean : ∀ b, .keyword (.boolean b) ∈ es → .literal ∉ es ∧ N = 0) (hN : Avoids es N)
    (hK : Possible K)
    (hsome : ∀ l : Lexeme, es.any (·.admits l.token) = true → Reads n (f (some l)) K R)
    (hnone : Reads (n + 1) (f none) N R) :
    Reads (n + 1) (offer es >>= f) (oneOf es * K + N) R := by
  refine reads_offer hes hend ?_ begins_oneOf hN ?_ ?_ hnone
  · rintro b hb ts (hts | hts) hliteral
    · obtain ⟨x, hx, hmeets⟩ := begins_oneOf ts hts
      have hx' : x = .literal := eq_literal_of_meets hmeets hliteral
      exact (hboolean b hb).1 (hx' ▸ hx)
    · rw [(hboolean b hb).2] at hts
      exact absurd hts (Language.notMem_zero ts)
  · intro t ht hadmits
    rw [leftQuotient_oneOf ht hadmits]
    exact hK
  · intro l hl hadmits
    rw [leftQuotient_oneOf hl hadmits]
    exact hsome l hadmits

/-- Looking for a symbol before `K`, with `N` as the alternative. -/
theorem reads_offer_symbol {f : Option Lexeme → Reading α} {s : Symbol} (hK : Possible K)
    (hN : Avoids [.symbol s] N) (hsome : ∀ l, Reads n (f (some l)) K R)
    (hnone : Reads n (f none) N R) :
    Reads n (offer [.symbol s] >>= f) (oneOf [.symbol s] * K + N) R := by
  cases n with
  | zero => exact reads_zero _
  | succ n =>
    exact reads_offer_oneOf (List.nodup_singleton _) (by simp) (by simp) hN hK
      (fun l _ => (hsome l).mono (Nat.le_succ n)) hnone

theorem reads_expect (hes : es.Nodup) (hend : .endOfInput ∉ es)
    (hboolean : ∀ b, .keyword (.boolean b) ∈ es → .literal ∉ es) (hK : Possible K) :
    Reads n (expect es) (oneOf es * K) fun _ => K := by
  cases n with
  | zero => exact reads_zero _
  | succ n =>
    rw [← add_zero (oneOf es * K)]
    exact reads_offer_oneOf hes hend (fun b hb => ⟨hboolean b hb, rfl⟩) avoids_zero hK
      (fun l _ => reads_pure (R := fun _ => K) l) reads_refuse

theorem reads_symbol (s : Symbol) (hK : Possible K) :
    Reads n (expect [.symbol s]) (oneOf [.symbol s] * K) fun _ => K :=
  reads_expect (List.nodup_singleton _) (by simp) (by simp) hK

theorem reads_name (hK : Possible K) : Reads n name (oneOf [.ident] * K) fun _ => K :=
  (reads_expect (List.nodup_singleton _) (by simp) (by simp) hK).bind fun l =>
    reads_pure (R := fun _ => K) (word l)

/-- Items after separators, before `K`. -/
theorem kstar_mul_eq (L K : Language Token) : L∗ * K = L * (L∗ * K) + K := by
  nth_rewrite 1 [← Language.one_add_self_mul_kstar_eq_kstar L]
  rw [add_mul, one_mul, mul_assoc, add_comm]

theorem reads_more {item : Nat → Reading α} {sep : Symbol} (hK : Possible K)
    (havoid : Avoids [.symbol sep] K) (hL : Possible L)
    (hitem : ∀ m < n, Reads m (item m) (L * ((oneOf [.symbol sep] * L)∗ * K))
      fun _ => (oneOf [.symbol sep] * L)∗ * K) :
    Reads n (more sep item n) ((oneOf [.symbol sep] * L)∗ * K) fun _ => K := by
  induction n with
  | zero => exact reads_zero _
  | succ n ih =>
    rw [kstar_mul_eq, mul_assoc]
    refine reads_offer_oneOf (List.nodup_singleton _) (by simp) (by simp) havoid (by simp [hK, hL])
      ?_ (reads_pure (R := fun _ => K) [])
    intro l _
    refine (hitem n (Nat.lt_succ_self n)).bind fun a => ?_
    refine (ih fun m hm => hitem m (Nat.lt_succ_of_lt hm)).bind fun as => ?_
    exact reads_pure (R := fun _ => K) (a :: as)

end Words

end LoopNest.Parser
