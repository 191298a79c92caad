import Mathlib.Data.List.Nodup
import Mathlib.Data.List.Perm.Basic

/-! Items that are worked off one after the other, each with the results of those before it at hand.
Where an item needs nothing but results that it finds by name, and these are there before it, the
order of the items does not matter: each has the same result in every such order. -/
namespace LoopNest

variable {α β : Type}

section Titles

variable {title : β → String} {bs bs' : List β} {n : String}

/-- Where titles are distinct, what is found under a title is the one entry that has it. -/
theorem find?_title_eq_some_iff (h : (bs.map title).Nodup) {b : β} :
    (bs.find? fun b => title b == n) = some b ↔ b ∈ bs ∧ title b = n := by
  constructor
  · intro hfind
    exact ⟨List.mem_of_find?_eq_some hfind, by simpa using List.find?_some hfind⟩
  · rintro ⟨hmem, rfl⟩
    cases hfind : bs.find? fun b' => title b' == title b with
    | none => exact absurd (beq_self_eq_true _) (List.find?_eq_none.1 hfind b hmem)
    | some b' =>
      have htitle : title b' = title b := by simpa using List.find?_some hfind
      rw [List.inj_on_of_nodup_map h (List.mem_of_find?_eq_some hfind) hmem htitle]

/-- Entries in another order are found all the same. -/
theorem find?_title_perm (h : bs.Perm bs') (hn : (bs.map title).Nodup) (n : String) :
    (bs.find? fun b => title b == n) = bs'.find? fun b => title b == n := by
  apply Option.ext
  intro b
  rw [find?_title_eq_some_iff hn, find?_title_eq_some_iff ((h.map title).nodup_iff.1 hn),
    h.mem_iff]

/-- What comes later does not change what is found. -/
theorem find?_title_append (h : n ∈ bs.map title) (cs : List β) :
    ((bs ++ cs).find? fun b => title b == n) = bs.find? fun b => title b == n := by
  obtain ⟨b, hb, rfl⟩ := List.mem_map.1 h
  rw [List.find?_append]
  cases hfind : bs.find? fun b' => title b' == title b with
  | none => exact absurd (beq_self_eq_true _) (List.find?_eq_none.1 hfind b hb)
  | some b' => rfl

end Titles

/-- What items refer to comes before them. -/
def Ordered (name : α → String) (refs : α → List String) (known : List String) : List α → Prop
  | [] => True
  | a :: as => (∀ n ∈ refs a, n ∈ known) ∧ Ordered name refs (known ++ [name a]) as

instance Ordered.decidable (name : α → String) (refs : α → List String) :
    (known : List String) → (as : List α) → Decidable (Ordered name refs known as)
  | _, [] => isTrue trivial
  | known, a :: as =>
    have := Ordered.decidable name refs (known ++ [name a]) as
    inferInstanceAs (Decidable ((∀ n ∈ refs a, n ∈ known) ∧ Ordered name refs _ as))

/-- The results of items, after those that are done: each comes from a step that has all results
before it. -/
inductive Succession (step : List β → α → β → Prop) : List β → List α → List β → Prop
  | nil {done : List β} : Succession step done [] []
  | cons {done bs : List β} {as : List α} {a : α} {b : β} :
    step done a b → Succession step (done ++ [b]) as bs →
    Succession step done (a :: as) (b :: bs)

/-- A step names its result after its item, and depends on the results of those that the item refers
to, if their names are distinct. -/
structure ByName (name : α → String) (title : β → String) (refs : α → List String)
    (step : List β → α → β → Prop) : Prop where
  title_eq : ∀ {done a b}, step done a b → title b = name a
  congr : ∀ {done done' a b}, (done.map title).Nodup → (done'.map title).Nodup →
    (∀ n ∈ refs a, (done.find? fun b => title b == n) = done'.find? fun b => title b == n) →
    step done a b → step done' a b

namespace ByName

variable {name : α → String} {title : β → String} {refs : α → List String}
  {step : List β → α → β → Prop}

theorem titles_eq (h : ByName name title refs step) {done bs : List β} {as : List α}
    (hs : Succession step done as bs) : bs.map title = as.map name := by
  induction hs with
  | nil => rfl
  | cons hstep _ ih => rw [List.map_cons, List.map_cons, h.title_eq hstep, ih]

/-- A step may as well have all results at hand, also those of later items. -/
theorem forall₂_of_succession (h : ByName name title refs step) {done bs : List β} {as : List α}
    (hs : Succession step done as bs) (ho : Ordered name refs (done.map title) as)
    (hn : ((done ++ bs).map title).Nodup) : List.Forall₂ (step (done ++ bs)) as bs := by
  induction hs with
  | nil => exact .nil
  | @cons done bs as a b hstep _ ih =>
    refine .cons (h.congr ?_ hn (fun n hmem => ?_) hstep) ?_
    · rw [List.map_append] at hn
      exact hn.of_append_left
    · exact (find?_title_append (ho.1 n hmem) _).symm
    · rw [List.append_cons] at hn ⊢
      refine ih ?_ hn
      rw [List.map_append, List.map_singleton, h.title_eq hstep]
      exact ho.2

theorem succession_of_forall₂ (h : ByName name title refs step) {done bs : List β} {as : List α}
    (hs : List.Forall₂ (step (done ++ bs)) as bs) (ho : Ordered name refs (done.map title) as)
    (hn : ((done ++ bs).map title).Nodup) : Succession step done as bs := by
  induction as generalizing done bs with
  | nil =>
    cases hs
    exact .nil
  | cons a as ih =>
    cases hs with
    | @cons _ b _ bs hstep hrest =>
      refine .cons (h.congr hn ?_ (fun n hmem => ?_) hstep) ?_
      · rw [List.map_append] at hn
        exact hn.of_append_left
      · exact find?_title_append (ho.1 n hmem) _
      · rw [List.append_cons] at hn hrest
        refine ih hrest ?_ hn
        rw [List.map_append, List.map_singleton, h.title_eq hstep]
        exact ho.2

/-- Items in another order have the same results, in that order. -/
theorem succession_perm (h : ByName name title refs step) {as as' : List α} {bs : List β}
    (hs : Succession step [] as bs) (hp : as.Perm as') (hn : (as.map name).Nodup)
    (ho : Ordered name refs [] as) (ho' : Ordered name refs [] as') :
    ∃ bs', Succession step [] as' bs' ∧ bs.Perm bs' := by
  have htitles : (bs.map title).Nodup := h.titles_eq hs ▸ hn
  have hall := h.forall₂_of_succession hs ho htitles
  obtain ⟨bs', hall', hperm⟩ := List.perm_comp_forall₂ hp.symm hall
  have htitles' : (bs'.map title).Nodup := (hperm.map title).nodup_iff.2 htitles
  refine ⟨bs', h.succession_of_forall₂ (hall'.imp fun a b hstep => ?_) ho' htitles', hperm.symm⟩
  exact h.congr htitles htitles' (fun n _ => find?_title_perm hperm.symm htitles n) hstep

end ByName
end LoopNest
