import Mathlib.Data.List.Nodup

/-! Computations that can fail, taken apart: a sequence of steps succeeds if each step does. With
what is found in lists of pairs. -/
namespace LoopNest

variable {ε σ α β γ : Type}

theorem Except.bind_eq_ok {x : Except ε α} {f : α → Except ε β} {b : β} :
    (x >>= f) = .ok b ↔ ∃ a, x = .ok a ∧ f a = .ok b := by
  cases x with
  | error e => simp [bind, Except.bind]
  | ok a => simp [bind, Except.bind]

theorem Except.bind_eq_error {x : Except ε α} {f : α → Except ε β} {e : ε} :
    (x >>= f) = .error e ↔ x = .error e ∨ ∃ a, x = .ok a ∧ f a = .error e := by
  cases x with
  | error e' => simp [bind, Except.bind]
  | ok a => simp [bind, Except.bind]

theorem Except.map_eq_ok {x : Except ε α} {f : α → β} {b : β} :
    x.map f = .ok b ↔ ∃ a, x = .ok a ∧ f a = b := by
  cases x with
  | error e => simp [Except.map]
  | ok a => simp [Except.map]

theorem Except.mapError_eq_ok {x : Except ε α} {f : ε → γ} {a : α} :
    x.mapError f = .ok a ↔ x = .ok a := by
  cases x with
  | error e => simp [Except.mapError]
  | ok b => simp [Except.mapError]

/-- A result with a property, where the property is found to hold by evaluation. -/
theorem Except.exists_of_any {x : Except ε α} {f : α → Bool} (h : x.toOption.any f = true) :
    ∃ a, x = .ok a ∧ f a = true := by
  cases x with
  | error e => cases h
  | ok a => exact ⟨a, rfl, h⟩

theorem StateT.bind_eq_ok {x : StateT σ (Except ε) α} {f : α → StateT σ (Except ε) β} {s : σ}
    {r : β × σ} :
    (x >>= f) s = .ok r ↔ ∃ a s', x s = .ok (a, s') ∧ f a s' = .ok r := by
  change (x s >>= fun p => f p.1 p.2) = .ok r ↔ _
  rw [Except.bind_eq_ok]
  constructor
  · rintro ⟨⟨a, s'⟩, hx, hf⟩
    exact ⟨a, s', hx, hf⟩
  · rintro ⟨a, s', hx, hf⟩
    exact ⟨(a, s'), hx, hf⟩

/-- A sequence fails in its first step, or in the rest after a first step that succeeds. -/
theorem StateT.bind_eq_error {x : StateT σ (Except ε) α} {f : α → StateT σ (Except ε) β} {s : σ}
    {e : ε} :
    (x >>= f) s = .error e ↔ x s = .error e ∨ ∃ a s', x s = .ok (a, s') ∧ f a s' = .error e := by
  change (x s >>= fun p => f p.1 p.2) = .error e ↔ _
  cases x s with
  | error e' => simp [bind, Except.bind]
  | ok p => simp [bind, Except.bind, Prod.ext_iff]

theorem StateT.forM_eq_error {f : α → StateT σ (Except ε) PUnit} {l : List α} {s : σ} {e : ε}
    (h : l.forM f s = .error e) : ∃ a ∈ l, ∃ s', f a s' = .error e := by
  induction l generalizing s with
  | nil => cases h
  | cons a l ih =>
    rcases StateT.bind_eq_error.1 h with h | ⟨_, s', -, h⟩
    · exact ⟨a, List.mem_cons_self, s, h⟩
    · obtain ⟨b, hb, hfail⟩ := ih h
      exact ⟨b, List.mem_cons_of_mem _ hb, hfail⟩

theorem StateT.pure_eq_ok {a : α} {s : σ} {r : α × σ} :
    (pure a : StateT σ (Except ε) α) s = .ok r ↔ (a, s) = r := by
  change Except.ok (a, s) = .ok r ↔ _
  rw [Except.ok.injEq]

/-- A map over a list succeeds if it does so for each of its elements. -/
theorem mapM_eq_ok {f : α → Except ε β} {l : List α} {r : List β} :
    l.mapM f = .ok r ↔ List.Forall₂ (fun a b => f a = .ok b) l r := by
  induction l generalizing r with
  | nil =>
    constructor
    · intro h
      cases h
      exact .nil
    · intro h
      cases h
      rfl
  | cons a l ih =>
    rw [List.mapM_cons, Except.bind_eq_ok]
    constructor
    · rintro ⟨b, hb, h⟩
      obtain ⟨bs, hbs, h⟩ := Except.bind_eq_ok.1 h
      cases h
      exact .cons hb (ih.1 hbs)
    · intro h
      cases h with
      | cons hb hbs => exact ⟨_, hb, Except.bind_eq_ok.2 ⟨_, ih.2 hbs, rfl⟩⟩

theorem mapM_eq_some {f : α → Option β} {l : List α} {r : List β} :
    l.mapM f = some r ↔ List.Forall₂ (fun a b => f a = some b) l r := by
  induction l generalizing r with
  | nil =>
    constructor
    · intro h
      cases h
      exact .nil
    · intro h
      cases h
      rfl
  | cons a l ih =>
    simp only [List.mapM_cons, Option.bind_eq_bind, Option.bind_eq_some_iff]
    constructor
    · rintro ⟨b, hb, bs, hbs, h⟩
      cases h
      exact .cons hb (ih.1 hbs)
    · intro h
      cases h with
      | cons hb hbs => exact ⟨_, hb, _, ih.2 hbs, rfl⟩

/-- Elements that are recovered one by one are recovered from their list. -/
theorem mapM_map_eq_some {f : β → Option α} {g : α → β} {l : List α}
    (h : ∀ a ∈ l, f (g a) = some a) : (l.map g).mapM f = some l := by
  rw [mapM_eq_some, List.forall₂_map_left_iff, List.forall₂_same]
  exact h

/-- A map over more elements, with a function that succeeds more often, begins with the same
results. -/
theorem mapM_prefix {f f' : α → Except ε β} {l l' : List α} {r r' : List β}
    (h : l.mapM f = .ok r) (h' : l'.mapM f' = .ok r') (hl : l <+: l')
    (hf : ∀ a b, f a = .ok b → f' a = .ok b) : r <+: r' := by
  obtain ⟨rest, rfl⟩ := hl
  rw [List.mapM_append] at h'
  obtain ⟨r₁, h₁, h'⟩ := Except.bind_eq_ok.1 h'
  obtain ⟨r₂, -, h'⟩ := Except.bind_eq_ok.1 h'
  cases h'
  have hsame : l.mapM f' = .ok r := mapM_eq_ok.2 ((mapM_eq_ok.1 h).imp fun a b => hf a b)
  cases h₁.symm.trans hsame
  exact List.prefix_append _ _

theorem forM_eq_ok {f : α → Except ε Unit} {l : List α} (h : ∀ a ∈ l, f a = .ok ()) :
    l.forM f = .ok () := by
  induction l with
  | nil => rfl
  | cons a l ih =>
    obtain ⟨ha, hl⟩ := List.forall_mem_cons.1 h
    rw [List.forM, ha]
    exact ih hl

theorem exists_of_forall₂ {R : α → β → Prop} {l : List α} {r : List β} (h : List.Forall₂ R l r)
    {a : α} (ha : a ∈ l) : ∃ b ∈ r, R a b := by
  induction h with
  | nil => cases ha
  | cons hab _ ih =>
    rcases List.mem_cons.1 ha with rfl | ha
    · exact ⟨_, List.mem_cons_self, hab⟩
    · obtain ⟨b, hb, hab⟩ := ih ha
      exact ⟨b, List.mem_cons_of_mem _ hb, hab⟩

theorem forall₂_iff_of_mem {R S : α → β → Prop} {l : List α} (h : ∀ a ∈ l, ∀ b, R a b ↔ S a b)
    {r : List β} : List.Forall₂ R l r ↔ List.Forall₂ S l r := by
  induction l generalizing r with
  | nil => rw [List.forall₂_nil_left_iff, List.forall₂_nil_left_iff]
  | cons a l ih =>
    obtain ⟨ha, hl⟩ := List.forall_mem_cons.1 h
    simp only [List.forall₂_cons_left_iff, ha, ih hl]

/-- What is related to elements through something in between. -/
theorem forall₂_exists_iff {R : α → γ → Prop} {f : γ → β} {l : List α} {r : List β} :
    List.Forall₂ (fun a b => ∃ c, R a c ∧ f c = b) l r ↔
      ∃ cs, List.Forall₂ R l cs ∧ cs.map f = r := by
  constructor
  · intro h
    induction h with
    | nil => exact ⟨[], .nil, rfl⟩
    | cons hab _ ih =>
      obtain ⟨c, hc, rfl⟩ := hab
      obtain ⟨cs, hcs, rfl⟩ := ih
      exact ⟨c :: cs, .cons hc hcs, rfl⟩
  · rintro ⟨cs, h, rfl⟩
    rw [List.forall₂_map_right_iff]
    exact h.imp fun a c hac => ⟨c, hac, rfl⟩

theorem forall₂_flatMap {R : α → β → Prop} {δ : Type} {S : γ → δ → Prop} {f : α → List γ}
    {g : β → List δ} {l : List α} {r : List β} (h : List.Forall₂ R l r)
    (hfg : ∀ a ∈ l, ∀ b, R a b → List.Forall₂ S (f a) (g b)) :
    List.Forall₂ S (l.flatMap f) (r.flatMap g) := by
  induction h with
  | nil => exact .nil
  | cons hab _ ih =>
    obtain ⟨ha, hl⟩ := List.forall_mem_cons.1 hfg
    exact List.rel_append (ha _ hab) (ih hl)

theorem foldl_eq_of_forall₂ {R : α → β → Prop} {l : List α} {r : List β} (h : List.Forall₂ R l r)
    {f : γ → α → γ} {g : γ → β → γ} (hfg : ∀ c a b, R a b → f c a = g c b) (c : γ) :
    l.foldl f c = r.foldl g c := by
  induction h generalizing c with
  | nil => rfl
  | cons hab _ ih => rw [List.foldl_cons, List.foldl_cons, hfg c _ _ hab, ih]

theorem map_eq_of_forall₂ {R : α → β → Prop} {l : List α} {r : List β} (h : List.Forall₂ R l r)
    {f : α → γ} {g : β → γ} (hfg : ∀ a b, R a b → f a = g b) : l.map f = r.map g := by
  induction h with
  | nil => rfl
  | cons hab _ ih => rw [List.map_cons, List.map_cons, hfg _ _ hab, ih]

theorem mapM_eq_some_of_getElem? {f : α → Option β} {l : List α} {r : List β}
    (hlen : r.length = l.length) (h : ∀ (k : Nat) (a : α), l[k]? = some a → f a = r[k]?) :
    l.mapM f = some r := by
  induction l generalizing r with
  | nil =>
    rw [List.eq_nil_of_length_eq_zero hlen]
    rfl
  | cons a l ih =>
    cases r with
    | nil => cases hlen
    | cons b r =>
      have hhead : f a = some b := h 0 a rfl
      have htail : l.mapM f = some r := ih (Nat.succ.inj hlen) fun k => h (k + 1)
      rw [List.mapM_cons, hhead, htail]
      rfl

/-- A fold keeps a relation between its start and its result, if each of its steps adds to it. -/
theorem foldlM_induction {f : α → β → Except ε α} (rel : List β → α → α → Prop)
    (nil : ∀ a, rel [] a a)
    (cons : ∀ b l a a₁ a₂, f a b = .ok a₁ → rel l a₁ a₂ → rel (b :: l) a a₂)
    {l : List β} {a a' : α} (h : l.foldlM f a = .ok a') : rel l a a' := by
  induction l generalizing a with
  | nil =>
    cases h
    exact nil _
  | cons b l ih =>
    rw [List.foldlM_cons] at h
    obtain ⟨a₁, h₁, h⟩ := Except.bind_eq_ok.1 h
    exact cons b l a a₁ a' h₁ (ih h)

/-- A fold succeeds if each of its steps does so under an invariant. -/
theorem foldlM_exists {f : α → β → Except ε α} (inv : α → Prop) {l : List β}
    (step : ∀ b ∈ l, ∀ a, inv a → ∃ a', f a b = .ok a' ∧ inv a') {a : α} (ha : inv a) :
    ∃ a', l.foldlM f a = .ok a' ∧ inv a' := by
  induction l generalizing a with
  | nil => exact ⟨a, rfl, ha⟩
  | cons b l ih =>
    obtain ⟨hb, hl⟩ := List.forall_mem_cons.1 step
    obtain ⟨a₁, h₁, ha₁⟩ := hb a ha
    obtain ⟨a₂, h₂, ha₂⟩ := ih hl ha₁
    exact ⟨a₂, by rw [List.foldlM_cons]; exact Except.bind_eq_ok.2 ⟨a₁, h₁, h₂⟩, ha₂⟩

/-- How a computation ends: with a result that has a property, or in a fault that has one. -/
def Except.Ends (result : α → Prop) (fault : ε → Prop) : Except ε α → Prop
  | .ok a => result a
  | .error e => fault e

theorem Except.Ends.imp {p q : α → Prop} {fault fault' : ε → Prop} {x : Except ε α}
    (h : Except.Ends p fault x) (hp : ∀ a, p a → q a) (hf : ∀ e, fault e → fault' e) :
    Except.Ends q fault' x := by
  cases x with
  | ok a => exact hp a h
  | error e => exact hf e h

theorem Except.Ends.imp_fault {p : α → Prop} {fault fault' : ε → Prop} {x : Except ε α}
    (h : Except.Ends p fault x) (hf : ∀ e, fault e → fault' e) : Except.Ends p fault' x :=
  h.imp (fun _ => id) hf

/-- A computation ends as its second part does, after its first part. -/
theorem Except.Ends.bind {x : Except ε α} {f : α → Except ε β} {p : α → Prop} {q : β → Prop}
    {fault : ε → Prop} (hx : Except.Ends p fault x)
    (hf : ∀ a, p a → Except.Ends q fault (f a)) : Except.Ends q fault (x >>= f) := by
  cases x with
  | ok a => exact hf a hx
  | error e => exact hx

theorem StateT.ends_bind {x : StateT σ (Except ε) α} {f : α → StateT σ (Except ε) β} {s : σ}
    {p : α × σ → Prop} {q : β × σ → Prop} {fault : ε → Prop} (hx : Except.Ends p fault (x s))
    (hf : ∀ a s', p (a, s') → Except.Ends q fault (f a s')) :
    Except.Ends q fault ((x >>= f) s) :=
  hx.bind fun p hp => hf p.1 p.2 hp

/-- A fold ends as its steps do, if these keep an invariant. -/
theorem foldlM_ends {f : α → β → Except ε α} {inv : α → Prop} {fault : ε → Prop} {l : List β}
    (step : ∀ b ∈ l, ∀ a, inv a → Except.Ends inv fault (f a b)) {a : α} (ha : inv a) :
    Except.Ends inv fault (l.foldlM f a) := by
  induction l generalizing a with
  | nil => exact ha
  | cons b l ih =>
    obtain ⟨hb, hl⟩ := List.forall_mem_cons.1 step
    have hfirst := hb a ha
    rw [List.foldlM_cons]
    cases hf : f a b with
    | error e =>
      rw [hf] at hfirst
      exact hfirst
    | ok a₁ =>
      rw [hf] at hfirst
      exact ih hl hfirst

theorem lookup_eq_some_of_forall [BEq α] [LawfulBEq α] {l : List (α × β)} {k : α} {v : β}
    (hmem : (k, v) ∈ l) (hall : ∀ u, (k, u) ∈ l → u = v) : l.lookup k = some v := by
  induction l with
  | nil => cases hmem
  | cons p l ih =>
    obtain ⟨k', u⟩ := p
    rw [List.lookup_cons]
    by_cases hk : k = k'
    · subst hk
      rw [beq_self_eq_true, hall u List.mem_cons_self]
    · rw [beq_false_of_ne hk]
      refine ih ?_ fun u hu => hall u (List.mem_cons_of_mem _ hu)
      rcases List.mem_cons.1 hmem with he | hmem
      · exact absurd (congrArg Prod.fst he) hk
      · exact hmem

theorem mem_of_lookup_eq_some [BEq α] [LawfulBEq α] {l : List (α × β)} {k : α} {v : β}
    (h : l.lookup k = some v) : (k, v) ∈ l := by
  obtain ⟨before, after, rfl, -⟩ := List.lookup_eq_some_iff.1 h
  exact List.mem_append_right _ List.mem_cons_self

theorem lookup_eq_some_of_nodup [BEq α] [LawfulBEq α] {l : List (α × β)} {k : α} {v : β}
    (h : (l.map Prod.fst).Nodup) (hmem : (k, v) ∈ l) : l.lookup k = some v := by
  refine lookup_eq_some_of_forall hmem fun u hu => ?_
  exact congrArg Prod.snd (List.inj_on_of_nodup_map h hu hmem rfl)

end LoopNest
