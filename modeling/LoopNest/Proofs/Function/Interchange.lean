import LoopNest.Function.Json
import LoopNest.Proofs.Code.Interchange
import LoopNest.Proofs.Fallible

/-! Functions as JSON values. What was read from some value is read again from the value that it is
written as. Only the types can be nested, and writing them opens no more brackets than reading them
has passed. -/
namespace LoopNest

namespace DType

theorem ofJson?_ofName? {name : String} {t : DType} (h : ofName? name = some t) (room : Nat) :
    ofJson? room t.toJson = some t := by
  unfold ofName? at h
  rcases room with _ | _ | room <;> split at h <;> cases h <;> rfl

theorem ofJson?_toJson {room : Nat} {j : Json} {t : DType} (h : ofJson? room j = some t) :
    ofJson? room t.toJson = some t := by
  induction room using Nat.strongRecOn generalizing j t with
  | ind room ih =>
  unfold ofJson? at h
  split at h
  · rename_i room items
    obtain ⟨ts, hts, rfl⟩ := Option.map_eq_some_iff.1 h
    have hagain : ∀ t ∈ ts, ofJson? room t.toJson = some t := by
      intro t ht
      obtain ⟨j, -, hj⟩ := exists_of_forall₂ (mapM_eq_some.1 hts).flip ht
      exact ih room (by omega) hj
    rw [toJson, toJsonAll_eq]
    change ((ts.map toJson).mapM (ofJson? room)).map tuple = _
    rw [mapM_map_eq_some hagain]
    rfl
  · cases h
  · obtain ⟨name, -, hname⟩ := Option.bind_eq_some_iff.1 h
    exact ofJson?_ofName? hname room

end DType

namespace TypeRule

theorem toJson_valid (rule : TypeRule) : rule.toJson.Valid := by
  cases rule with
  | same param => exact .record (List.forall_mem_singleton.2 (.text param))
  | fixed t => exact .record (List.forall_mem_singleton.2 t.toJson_valid)
  | promote => exact .text _
  | tupleOf => exact .text _

theorem ofJson?_toJson {room : Nat} {j : Json} {rule : TypeRule} (h : ofJson? room j = some rule) :
    ofJson? room rule.toJson = some rule := by
  unfold ofJson? at h
  split at h
  · cases h
    rfl
  · obtain ⟨t, ht, rfl⟩ := Option.map_eq_some_iff.1 h
    change (DType.ofJson? (room - 1) t.toJson).map fixed = _
    rw [DType.ofJson?_toJson ht]
    rfl
  · obtain ⟨name, -, hname⟩ := Option.bind_eq_some_iff.1 h
    unfold ofName? at hname
    split at hname <;> cases hname <;> rfl

end TypeRule

theorem FunctionKind.ofJson?_text (kind : FunctionKind) :
    FunctionKind.ofJson? (.text kind.text) = some kind := by
  cases kind <;> rfl

theorem Identity.ofJson?_text (i : Identity) : Identity.ofJson? (.text i.text) = some (some i) := by
  cases i <;> rfl

namespace Signature

/-- A function is read from the value that it is written as, `room` brackets deep at most. -/
def Legible (room : Nat) (f : Signature) : Prop := ofJson? room f.toJson = some f

theorem toJson_valid (f : Signature) : f.toJson.Valid := by
  refine .record fun field h => ?_
  rcases List.mem_append.1 h with h | h
  · simp only [List.mem_cons, List.not_mem_nil, or_false] at h
    rcases h with rfl | rfl | rfl | rfl | rfl
    · exact .text f.id
    · exact .text f.kind.text
    · exact .map fun param _ => .text param
    · exact .boolean f.variadic
    · exact f.rule.toJson_valid
  · cases hi : f.identity with
    | none =>
      rw [hi] at h
      cases h
    | some i =>
      rw [hi] at h
      rw [List.mem_singleton.1 h]
      exact .text i.text

/-- The fields of a function that is written as a record are those that it is read from. -/
theorem ofJson?_eq_ofFields? (room : Nat) (f : Signature) : ofJson? room f.toJson =
    ofFields? room (some (.text f.id)) (some (.text f.kind.text))
      (some (.array (f.params.map .text))) (some (.boolean f.variadic)) (some f.rule.toJson)
      (f.identity.map fun i => .text i.text) := by
  obtain ⟨id, kind, params, variadic, rule, identity⟩ := f
  cases identity <;> rfl

theorem legible_of_rule {room : Nat} {f : Signature}
    (h : TypeRule.ofJson? room f.rule.toJson = some f.rule) : f.Legible room := by
  have hparams : (Json.array (f.params.map .text)).strings? = some f.params :=
    mapM_map_eq_some fun _ _ => rfl
  have hid : (Json.text f.id).asText? = some f.id := rfl
  have hvariadic : (Json.boolean f.variadic).boolean? = some f.variadic := rfl
  rw [Legible, ofJson?_eq_ofFields?, ofFields?]
  simp only [Option.bind_eq_bind, Option.bind_some, hid, FunctionKind.ofJson?_text, hparams,
    hvariadic, h]
  obtain ⟨id, kind, params, variadic, rule, identity⟩ := f
  cases identity with
  | none => rfl
  | some i => simp only [Option.map_some, Identity.ofJson?_text, Option.bind_some]

theorem rule_of_ofFields? {room : Nat} {id kind params variadic rule identity : Option Json}
    {f : Signature} (h : ofFields? room id kind params variadic rule identity = some f) :
    ∃ j, TypeRule.ofJson? room j = some f.rule := by
  simp only [ofFields?, Option.bind_eq_bind, Option.bind_eq_some_iff] at h
  obtain ⟨_, -, _, -, _, -, _, -, _, -, _, -, h⟩ := h
  cases variadic <;> cases identity <;> simp only [Option.bind_eq_some_iff] at h
  all_goals
    obtain ⟨_, -, j, -, _, hrule, _, -, hf⟩ := h
    cases hf
    exact ⟨j, hrule⟩

/-- What is read is read again, in the same room. -/
theorem legible_of_ofJson? {room : Nat} {j : Json} {f : Signature} (h : ofJson? room j = some f) :
    f.Legible room := by
  have hrule : ∃ j, TypeRule.ofJson? room j = some f.rule := by
    unfold ofJson? at h
    split at h
    · split at h
      · exact rule_of_ofFields? h
      · cases h
    · exact rule_of_ofFields? h
    · exact rule_of_ofFields? h
    · cases h
  obtain ⟨j, hj⟩ := hrule
  exact legible_of_rule (TypeRule.ofJson?_toJson hj)

end Signature

end LoopNest
