import LoopNest.Proofs.Lowering.Nest
import LoopNest.Proofs.Lowering.Numbering
import LoopNest.Proofs.Stamp.Module

/-! The code of a module: a nest for each declaration, which refers to the ones before. -/
namespace LoopNest

/-- The first entry under a name comes from the first element that has the name. -/
theorem lookup_map_pair {α β : Type} (title : α → String) (value : α → β) (l : List α)
    (name : String) : (l.map fun a => (title a, value a)).lookup name =
      (l.find? fun a => title a == name).map value := by
  induction l with
  | nil => rfl
  | cons a l ih =>
    rw [List.map_cons, List.lookup_cons, List.find?_cons, BEq.comm (a := name)]
    cases title a == name with
    | true => rfl
    | false => exact ih

namespace StampedModule

/-- The bodies of declarations, by name. -/
def bodies (ds : List StampedDecl) (name : String) : Option StampedExpr :=
  (ds.find? fun d => d.name == name).map StampedDecl.body

theorem exists_of_bodies {ds : List StampedDecl} {name : String} {body : StampedExpr}
    (h : bodies ds name = some body) : ∃ d ∈ ds, d.name = name ∧ d.body = body := by
  obtain ⟨d, hfind, hbody⟩ := Option.map_eq_some_iff.1 h
  exact ⟨d, List.mem_of_find?_eq_some hfind, by simpa using List.find?_some hfind, hbody⟩

/-- The stamps of declarations, with their names. -/
def stamps (ds : List StampedDecl) : List (String × Stamp) := ds.map fun d => (d.name, d.stamp)

theorem lookup_stamps (ds : List StampedDecl) (name : String) :
    (stamps ds).lookup name = (ds.find? fun d => d.name == name).map StampedDecl.stamp :=
  lookup_map_pair StampedDecl.name StampedDecl.stamp ds name

theorem exists_of_lookup_stamps {ds : List StampedDecl} {name : String} {stamp : Stamp}
    (h : (stamps ds).lookup name = some stamp) : ∃ d ∈ ds, d.name = name := by
  rw [lookup_stamps] at h
  obtain ⟨d, hfind, -⟩ := Option.map_eq_some_iff.1 h
  exact ⟨d, List.mem_of_find?_eq_some hfind, by simpa using List.find?_some hfind⟩

theorem stamps_append (ds : List StampedDecl) (d : StampedDecl) :
    stamps (ds ++ [d]) = stamps ds ++ [(d.name, d.stamp)] := by
  rw [stamps, List.map_append]
  rfl

/-- A stamp that is found is that of a body. -/
theorem exists_body_of_lookup_stamps {ds : List StampedDecl}
    (hds : ∀ d ∈ ds, d.stamp = d.body.note.stamp) {name : String} {stamp : Stamp}
    (h : (stamps ds).lookup name = some stamp) :
    ∃ body, bodies ds name = some body ∧ body.axes = stamp.axes := by
  rw [lookup_stamps] at h
  obtain ⟨d, hfind, rfl⟩ := Option.map_eq_some_iff.1 h
  refine ⟨d.body, by rw [bodies, hfind]; rfl, ?_⟩
  rw [hds d (List.mem_of_find?_eq_some hfind)]
  rfl

/-- A body is found among the first declarations, or else it is the last one. -/
theorem bodies_append_eq_some {ds : List StampedDecl} {d : StampedDecl} {name : String}
    {body : StampedExpr} (h : bodies (ds ++ [d]) name = some body) :
    (∃ d' ∈ ds, d'.name = name ∧ d'.body = body ∧ bodies ds name = some body) ∨
      (d.name = name ∧ d.body = body) := by
  rw [bodies, List.find?_append] at h
  cases hfind : ds.find? fun d' => d'.name == name with
  | some d' =>
    rw [hfind] at h
    exact .inl ⟨d', List.mem_of_find?_eq_some hfind, by simpa using List.find?_some hfind,
      Option.some.inj h, by rw [bodies, hfind]; exact h⟩
  | none =>
    rw [hfind, Option.none_or, List.find?_singleton] at h
    split at h
    · rename_i hname
      exact .inr ⟨by simpa using hname, Option.some.inj h⟩
    · cases h

/-- Code for declarations, one after the other, after others. -/
inductive Codes (env : Lowering.Env) (inlined : Bool) :
    List StampedDecl → List StampedDecl → List LoopCode → Prop
  | nil {done : List StampedDecl} : Codes env inlined done [] []
  | cons {done ds : List StampedDecl} {d : StampedDecl} {c : LoopCode} {cs : List LoopCode}
    {n : Nest} :
    c.name = d.name → n.For env inlined (bodies done) d.body →
    (inlined = false → n.refs = d.references env) → c.instrs = n.tree.instrs → Distinct c.instrs →
    Codes env inlined (done ++ [d]) ds cs →
    Codes env inlined done (d :: ds) (c :: cs)

theorem Codes.names {env : Lowering.Env} {inlined : Bool} {done ds : List StampedDecl}
    {cs : List LoopCode} (h : Codes env inlined done ds cs) :
    cs.map LoopCode.name = ds.map StampedDecl.name := by
  induction h with
  | nil => rfl
  | cons hname _ _ _ _ _ ih => rw [List.map_cons, List.map_cons, hname, ih]

theorem codes_of_forall₂ {env : Lowering.Env} {uses : List InputUse}
    (hm : env.carriers.Records uses) {inputs : InputTable} {done ds : List StampedDecl}
    {cs : List LoopCode} (hdone : ∀ d ∈ done, d.stamp = d.body.note.stamp)
    (hc : ConsistentFrom inputs (stamps done) ds)
    (hu : ∀ d ∈ ds, StampedExpr.inputUses d.body ⊆ uses)
    (h : List.Forall₂ (fun d c => LoopCode.ofDecl d env.carriers env.registry = .ok c) ds cs) :
    Codes env false done ds cs := by
  induction h generalizing done with
  | nil => exact .nil
  | @cons d c ds cs hd _ ih =>
    obtain ⟨hbody, hstamp, hrest⟩ := hc
    obtain ⟨n, hn, hrefs, rfl⟩ := LoopCode.nest_ofDecl hm hbody
      (fun _ _ hl => exists_body_of_lookup_stamps hdone hl) (hu d List.mem_cons_self) hd
    refine .cons rfl hn (fun _ => hrefs) rfl (LoopCode.distinct_ofDecl hd) (ih ?_ ?_ ?_)
    · exact List.forall_mem_append.2 ⟨hdone, List.forall_mem_singleton.2 hstamp⟩
    · rwa [stamps_append]
    · exact fun d' hd' => hu d' (List.mem_cons_of_mem _ hd')

/-- Lowering makes a nest of each declaration. -/
theorem codes_ofStamped {sm : StampedModule} {inputs : InputTable} (hc : sm.Consistent inputs)
    {carriers : CarrierMap} (hm : CarrierMap.ofModule sm = .ok carriers) {registry : Registry}
    {m : LoopModule} (h : LoopModule.ofStamped sm carriers registry = .ok m) :
    Codes ⟨carriers, registry⟩ false [] sm.decls m.decls := by
  obtain ⟨cs, hcs, h⟩ := Except.bind_eq_ok.1 h
  cases h
  let env : Lowering.Env := ⟨carriers, registry⟩
  have hrecords : env.carriers.Records sm.inputUses := CarrierMap.records_ofModule hm
  refine codes_of_forall₂ hrecords (fun d hd => nomatch hd) hc.bodies ?_ (mapM_eq_ok.1 hcs)
  exact fun d hd u hu => List.mem_flatMap.2 ⟨d, hd, hu⟩

end StampedModule
end LoopNest
