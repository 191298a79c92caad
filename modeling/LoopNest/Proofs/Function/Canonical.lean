import LoopNest.Proofs.Function.Interchange
import LoopNest.Proofs.OrderedMaps

/-! The canonical text of a table of functions. A table that was made by loading manifests is loaded
again from its canonical text, and no other such table has the same text. -/
namespace LoopNest

namespace Json

theorem value?_blank (fuel : Nat) (cs : List Char) : value? fuel (' ' :: cs) = value? fuel cs := by
  have hskip : skipBlanks (' ' :: cs) = skipBlanks cs := rfl
  cases fuel with
  | zero => rfl
  | succ fuel => simp only [value?, hskip]

/-- An object with one field, written with a blank before its value. -/
theorem Valid.ofText?_field {j : Json} (h : j.Valid) (key : String) :
    ofText? ("\x7b" ++ escape key ++ ": " ++ j.compact ++ "\x7d") =
      some (Json.record [(key, j)]) := by
  obtain ⟨body, hbody, hstring⟩ := string?_escape? (some key)
  have hkey : (escape key).toList = '"' :: body := hbody
  have htext : ("\x7b" ++ escape key ++ ": " ++ j.compact ++ "\x7d").toList =
      '\x7b' :: '"' :: (body ++ ':' :: ' ' :: (j.chars ++ ['\x7d'])) := by
    simp [hkey, chars]
  have hfields (fuel : Nat) (hfuel : 2 * j.chars.length ≤ fuel) :
      fields? (fuel + 1) ('"' :: (body ++ ':' :: ' ' :: (j.chars ++ ['\x7d']))) =
        some ([(some key, j)], []) := by
    have hvalue : value? fuel (j.chars ++ ['\x7d']) = some (j, ['\x7d']) :=
      h.reads fuel _ (.cons (by simp) []) hfuel
    have hcolon : afterColon? (':' :: ' ' :: (j.chars ++ ['\x7d'])) =
        some (' ' :: (j.chars ++ ['\x7d'])) := rfl
    have hblank : isBlank '"' = false := rfl
    simp only [fields?, skipBlanks_cons hblank, hstring, Option.bind_eq_bind, Option.bind_some,
      hcolon, value?_blank, hvalue]
    rfl
  have hobject (fuel : Nat) (hfuel : 2 * j.chars.length ≤ fuel) :
      value? (fuel + 1 + 1) ('\x7b' :: '"' :: (body ++ ':' :: ' ' :: (j.chars ++ ['\x7d']))) =
        some (Json.record [(key, j)], []) := by
    rw [value?, skipBlanks_cons rfl]
    change (fields? (fuel + 1) _).map _ = _
    rw [hfields fuel hfuel]
    rfl
  have hlength : 2 * ('\x7b' :: '"' :: (body ++ ':' :: ' ' :: (j.chars ++ ['\x7d']))).length + 2 =
      2 * (body.length + j.chars.length) + 10 + 1 + 1 := by
    simp only [List.length_cons, List.length_append, List.length_nil]
    omega
  have hread := hobject (2 * (body.length + j.chars.length) + 10) (by omega)
  simp only [ofText?, htext, hlength, hread]
  rfl

end Json

/-- An entry with the greatest key comes last. -/
theorem OrderedMap.place_of_last {κ ν : Type} {cmp : κ → κ → Ordering} [Std.TransCmp cmp] {k : κ}
    {v : ν} {es : List (κ × ν)} (h : ∀ e ∈ es, cmp e.1 k = .lt) :
    place cmp k v es = es ++ [(k, v)] := by
  induction es with
  | nil => rfl
  | cons e es ih =>
    obtain ⟨he, hes⟩ := List.forall_mem_cons.1 h
    simp only [place, Std.OrientedCmp.gt_of_lt he, ih hes, List.cons_append]

namespace Registry

variable {r r' : Registry} {fs : List Signature}

/-- The table after a try to load a manifest. -/
def attempt (r : Registry) (text : String) : Registry := (r.load text).2

/-- The tables that tries to load manifests lead to, from no functions or from the built-in ones. -/
inductive Reachable : Registry → Prop
  | empty : Reachable .empty
  | builtins : Reachable builtins
  | attempt {r : Registry} (h : Reachable r) (text : String) : Reachable (r.attempt text)

/-- Each function stands under its own name, and it is read as it is written. -/
structure Faithful (r : Registry) : Prop where
  named : ∀ e ∈ r.entries, e.1 = e.2.id
  legible : ∀ e ∈ r.entries, e.2.Legible (Manifest.depthLimit - 3)

theorem Faithful.add (h : r.Faithful) {f : Signature} (hf : f.Legible (Manifest.depthLimit - 3)) :
    (r.add f).Faithful := by
  constructor
  · intro e he
    rcases OrderedMap.mem_place he with rfl | he
    · rfl
    · exact h.named e he
  · intro e he
    rcases OrderedMap.mem_place he with rfl | he
    · exact hf
    · exact h.legible e he

theorem Faithful.addAll (h : r.Faithful) (hfs : ∀ f ∈ fs, f.Legible (Manifest.depthLimit - 3)) :
    (r.addAll fs).Faithful := by
  induction fs generalizing r with
  | nil => exact h
  | cons f fs ih =>
    obtain ⟨hf, hfs⟩ := List.forall_mem_cons.1 hfs
    exact ih (h.add hf) hfs

theorem faithful_empty : Faithful .empty := ⟨List.forall_mem_nil _, List.forall_mem_nil _⟩

theorem legible_of_functions? {j : Json} (h : Manifest.functions? j = some fs) :
    ∀ f ∈ fs, f.Legible (Manifest.depthLimit - 3) := by
  intro f hf
  unfold Manifest.functions? at h
  split at h
  · obtain ⟨j, -, hj⟩ := exists_of_forall₂ (mapM_eq_some.1 h).flip hf
    exact Signature.legible_of_ofJson? hj
  · cases h

theorem legible_of_manifest {j : Json} (h : Manifest.ofJson? j = some fs) :
    ∀ f ∈ fs, f.Legible (Manifest.depthLimit - 3) := by
  unfold Manifest.ofJson? at h
  split at h
  · split at h
    · obtain ⟨j, -, hj⟩ := Option.bind_eq_some_iff.1 h
      exact legible_of_functions? hj
    · cases h
  · exact legible_of_functions? h
  · cases h

theorem Faithful.attempt (h : r.Faithful) (text : String) : (r.attempt text).Faithful := by
  rw [Registry.attempt]
  rcases load_cases r text with ⟨fault, hload⟩ | ⟨fs, hread, -, hload⟩
  · rw [hload]
    exact h
  · rw [hload]
    obtain ⟨j, -, hj⟩ := Option.bind_eq_some_iff.1 hread
    exact h.addAll (legible_of_manifest hj)

theorem legible_builtinFunctions :
    ∀ f ∈ builtinFunctions, f.Legible (Manifest.depthLimit - 3) := by
  have hrules : ∀ f ∈ builtinFunctions,
      TypeRule.ofJson? (Manifest.depthLimit - 3) f.rule.toJson = some f.rule := by
    decide
  exact fun f hf => Signature.legible_of_rule (hrules f hf)

theorem Reachable.faithful (h : r.Reachable) : r.Faithful := by
  induction h with
  | empty => exact faithful_empty
  | builtins => exact faithful_empty.addAll legible_builtinFunctions
  | attempt _ text ih => exact ih.attempt text

theorem firstDuplicate?_eq_none {seen : List String} (hnew : ∀ f ∈ fs, r.contains f.id = false)
    (hseen : ∀ f ∈ fs, f.id ∉ seen) (hfs : (fs.map Signature.id).Nodup) :
    r.firstDuplicate? seen fs = none := by
  induction fs generalizing seen with
  | nil => rfl
  | cons f fs ih =>
    obtain ⟨hf, hnew⟩ := List.forall_mem_cons.1 hnew
    obtain ⟨hfseen, hseen⟩ := List.forall_mem_cons.1 hseen
    obtain ⟨hdistinct, hfs⟩ := List.nodup_cons.1 hfs
    rw [firstDuplicate?, hf, Bool.false_or, if_neg (by simpa using hfseen)]
    refine ih hnew (fun g hg hmem => ?_) hfs
    rcases List.mem_cons.1 hmem with heq | hmem
    · exact hdistinct (heq ▸ List.mem_map_of_mem hg)
    · exact hseen g hg hmem

/-- Functions in the order of their names are added one after the other at the end. -/
theorem entries_addAll (h : (r.entries ++ fs.map fun f => (f.id, f)).Pairwise
      fun a b => Text.compare a.1 b.1 = .lt) :
    (r.addAll fs).entries = r.entries ++ fs.map fun f => (f.id, f) := by
  induction fs generalizing r with
  | nil => exact (List.append_nil _).symm
  | cons f fs ih =>
    rw [List.map_cons, List.append_cons] at h ⊢
    have hlast := (List.pairwise_append.1 (List.pairwise_append.1 h).1).2.2
    have hadd : (r.add f).entries = r.entries ++ [(f.id, f)] :=
      OrderedMap.place_of_last fun e he => hlast e he _ List.mem_cons_self
    rw [← hadd] at h ⊢
    exact ih h

namespace Faithful

theorem named_values (h : r.Faithful) : (r.values.map fun f => (f.id, f)) = r.entries := by
  rw [OrderedMap.values, List.map_map]
  refine (List.map_congr_left fun e he => ?_).trans (List.map_id r.entries)
  exact Prod.ext (h.named e he).symm rfl

theorem nodup_ids (h : r.Faithful) : (r.values.map Signature.id).Nodup := by
  have hids : r.values.map Signature.id = r.entries.map Prod.fst := by
    rw [← h.named_values, List.map_map]
    rfl
  rw [hids]
  refine List.pairwise_map.2 (r.ordered.imp fun {a b} hlt heq => ?_)
  have hsame : Text.compare b.1 b.1 = .eq := Std.ReflCmp.compare_self
  rw [heq, hsame] at hlt
  cases hlt

theorem addAll_values (h : r.Faithful) : Registry.addAll .empty r.values = r := by
  have hordered := r.ordered
  rw [← h.named_values] at hordered
  apply OrderedMap.ext
  exact (entries_addAll (r := OrderedMap.empty) hordered).trans h.named_values

theorem ofJson?_toJson (h : r.Faithful) :
    Manifest.ofJson? (.record [("functions", r.toJson)]) = some r.values := by
  change (r.values.map Signature.toJson).mapM (Signature.ofJson? (Manifest.depthLimit - 3)) = _
  refine mapM_map_eq_some fun f hf => ?_
  obtain ⟨e, he, rfl⟩ := List.mem_map.1 hf
  exact h.legible e he

end Faithful

theorem toJson_valid (r : Registry) : r.toJson.Valid := .map fun f _ => f.toJson_valid

/-- The manifest of all functions of a table. -/
def manifestText (r : Registry) : String := "\x7b\"functions\": " ++ r.canonicalText ++ "\x7d"

theorem ofText?_manifestText (r : Registry) :
    Json.ofText? r.manifestText = some (.record [("functions", r.toJson)]) := by
  rw [← r.toJson_valid.ofText?_field "functions"]
  rfl

theorem Faithful.load_manifestText (h : r.Faithful) :
    load .empty r.manifestText = (.ok r.size, r) := by
  have hread : Manifest.ofText? r.manifestText = some r.values := by
    rw [Manifest.ofText?, ofText?_manifestText, Option.bind_some, h.ofJson?_toJson]
  have hnew : firstDuplicate? .empty [] r.values = none :=
    firstDuplicate?_eq_none (fun _ _ => rfl) (fun _ _ => List.not_mem_nil) h.nodup_ids
  have hsize : r.values.length = r.size := List.length_map ..
  rw [load_eq, hread]
  simp only [hnew, hsize, h.addAll_values]

/-- The canonical text of a reachable table is a manifest that loads just this table, and tables
with the same text hold the same functions. -/
theorem canonicalText_reproduces (h : r.Reachable) (h' : r'.Reachable) :
    load .empty r.manifestText = (.ok r.size, r) ∧
      (r.canonicalText = r'.canonicalText ↔ ∀ id, r.find? id = r'.find? id) := by
  have hload := h.faithful.load_manifestText
  have hload' := h'.faithful.load_manifestText
  refine ⟨hload, fun htext => ?_, fun hsame => ?_⟩
  · have hmanifest : r.manifestText = r'.manifestText := by
      change "\x7b\"functions\": " ++ r.canonicalText ++ "\x7d" = _
      rw [htext]
      rfl
    rw [hmanifest, hload'] at hload
    have htable : r' = r := congrArg Prod.snd hload
    exact fun id => congrArg (OrderedMap.find? · id) htable.symm
  · rw [OrderedMap.eq_of_find? hsame]

/-- A function with nested types and with quotes in its names. -/
def swap : Signature :=
  ⟨"swap \"é\"", .constructor, ["a\nb"], true,
    .fixed (.tuple [.float, .tuple [.tuple [], .integer]]), none⟩

/-- Its manifest, with the fields by position and with some characters as escapes. -/
def swapManifest : String :=
  "[[[\"swap \\\"\\u00e9\\\"\", \"constructor\", [\"a\\nb\"], true, \x7b\"fixed\": " ++
    "\x7b\"tuple\": [\"float\", \x7b\"tuple\": [\x7b\"tuple\": []\x7d, \"integer\"]\x7d]\x7d\x7d]]]"

theorem ofText?_swapManifest : Manifest.ofText? swapManifest = some [swap] := by decide +kernel

theorem attempt_swapManifest (h : r.contains swap.id = false) :
    r.attempt swapManifest = r.add swap := by
  have hnew : r.firstDuplicate? [] [swap] = none := by
    rw [firstDuplicate?, h, if_neg (by decide), firstDuplicate?]
  rw [attempt, load_eq, ofText?_swapManifest]
  simp only [hnew]
  rfl

/-- A manifest that was loaded is refused from then on. -/
theorem attempt_swapManifest_of_contains (h : r.contains swap.id = true) :
    r.attempt swapManifest = r := by
  have htaken : r.firstDuplicate? [] [swap] = some swap.id := by
    rw [firstDuplicate?, h, Bool.true_or, if_pos rfl]
  rw [attempt, load_eq, ofText?_swapManifest]
  simp only [htaken]

theorem swap_canonicalText_reproduces :
    ∃ r r' : Registry, r = (builtins.attempt swapManifest).attempt swapManifest ∧
      r' = (attempt .empty builtins.manifestText).attempt swapManifest ∧
      r.Reachable ∧ r'.Reachable ∧ r.find? swap.id = some swap ∧
      load .empty r.manifestText = (.ok r.size, r) ∧ r.canonicalText = r'.canonicalText := by
  have hfind : (builtins.add swap).find? swap.id = some swap :=
    OrderedMap.find?_insert_self _ _ _
  have hadd : builtins.attempt swapManifest = builtins.add swap :=
    attempt_swapManifest (by decide +kernel)
  have htable : (builtins.attempt swapManifest).attempt swapManifest = builtins.add swap := by
    rw [hadd, attempt_swapManifest_of_contains (by rw [OrderedMap.contains, hfind]; rfl)]
  have hbuiltins : attempt .empty builtins.manifestText = builtins := by
    rw [attempt, Reachable.builtins.faithful.load_manifestText]
  have h := (Reachable.builtins.attempt swapManifest).attempt swapManifest
  have h' := (Reachable.empty.attempt builtins.manifestText).attempt swapManifest
  obtain ⟨hload, hsame⟩ := canonicalText_reproduces h h'
  refine ⟨_, _, rfl, rfl, h, h', htable ▸ hfind, hload, hsame.2 fun id => ?_⟩
  rw [htable, hbuiltins, hadd]

end Registry

end LoopNest
