import LoopNest.Proofs.Code.Interchange
import LoopNest.Proofs.Lowering.Literals

/-! Code as JSON texts. From the text of a program's code all of the code can be told, but for the
sign of the infinities that reductions start from: JSON has no numbers for them. -/
namespace LoopNest

namespace Literal

def isInfinite : Literal → Bool
  | .float x => x.isInfinite
  | _ => false

/-- The literal, with a plain infinity for either one. -/
def unsigned (v : Literal) : Literal := if v.isInfinite then .float (.infinity false) else v

theorem unsigned_of_finite {v : Literal} (h : v.isInfinite = false) : v.unsigned = v := by
  rw [unsigned, h]
  rfl

theorem unsigned_of_infinite {v : Literal} (h : v.isInfinite = true) :
    v.unsigned = .float (.infinity false) := by
  rw [unsigned, h]
  rfl

theorem toJson_of_infinite {v : Literal} (h : v.isInfinite = true) : v.toJson = .null := by
  cases v with
  | float x =>
    have hfinite : x.isFinite = false := by
      simp only [isInfinite, Double.isInfinite, Bool.and_eq_true, beq_iff_eq] at h
      simp [Double.isFinite, h.1]
    rw [toJson, Double.renderInterchange?, hfinite]
    rfl
  | _ => cases h

@[simp] theorem toJson_unsigned (v : Literal) : v.unsigned.toJson = v.toJson := by
  unfold unsigned
  split
  · rename_i h
    rw [toJson_of_infinite h]
    rfl
  · rfl

/-- A literal that is equal to a finite one without its sign is equal to it. -/
theorem eq_of_unsigned {v w : Literal} (hv : v.isInfinite = false) (h : v.unsigned = w.unsigned) :
    v = w := by
  rw [unsigned_of_finite hv] at h
  cases hw : w.isInfinite with
  | false => rw [h, unsigned_of_finite hw]
  | true =>
    rw [h, unsigned_of_infinite hw] at hv
    cases hv

/-- Literals of one type other than that of floats are told apart by their JSON values. -/
theorem eq_of_toJson {v w : Literal} (ht : v.dtype = w.dtype) (hfloat : v.dtype ≠ .float)
    (h : v.toJson = w.toJson) : v = w := by
  cases v <;> cases w <;> simp_all [dtype, toJson, Int64.toInt_inj]

end Literal

/-- The operation without the sign of an infinity that it starts from. -/
def Op.unsigned : Op → Op
  | .declareAccumulator acc op identity dtype => .declareAccumulator acc op identity.unsigned dtype
  | op => op

def Instr.unsigned (i : Instr) : Instr := { i with op := i.op.unsigned }

def LoopCode.unsigned (c : LoopCode) : LoopCode := { c with instrs := c.instrs.map Instr.unsigned }

/-- The code without the signs of the infinities that its reductions start from. -/
def LoopModule.unsigned (m : LoopModule) : LoopModule := ⟨m.decls.map LoopCode.unsigned⟩

@[simp] theorem Instr.toJson_unsigned (i : Instr) : i.unsigned.toJson = i.toJson := by
  rcases i with ⟨result, op, span⟩
  cases op with
  | declareAccumulator acc op identity dtype =>
    simp [unsigned, Op.unsigned, toJson, Op.jsonFields, Op.opcode]
  | _ => rfl

@[simp] theorem LoopCode.toJson_unsigned (c : LoopCode) : c.unsigned.toJson = c.toJson := by
  simp [unsigned, toJson, Function.comp_def]

@[simp] theorem LoopModule.toJson_unsigned (m : LoopModule) : m.unsigned.toJson = m.toJson := by
  simp [unsigned, toJson, Function.comp_def]

namespace Identity

/-- The numbers that reductions of floats start from. -/
theorem literal?_float {i : Identity} {v : Literal} (h : i.literal? .float = some v) :
    v = .float (.zero Bool.false) ∨ v = .float .one ∨ v.isInfinite = Bool.true := by
  cases i <;> cases h
  · exact .inl rfl
  · exact .inr (.inl rfl)
  · exact .inr (.inr rfl)
  · exact .inr (.inr rfl)

/-- Identities of one type that have the same JSON value differ at most in their signs. -/
theorem unsigned_eq {i j : Identity} {t : DType} {v w : Literal} (hv : i.literal? t = some v)
    (hw : j.literal? t = some w) (h : v.toJson = w.toJson) : v.unsigned = w.unsigned := by
  by_cases ht : t = .float
  · subst ht
    have hzero : (Literal.float (.zero Bool.false)).toJson = .number "0.0" := by
      have hrender : (Double.zero Bool.false).renderInterchange? = some "0.0" := by decide +kernel
      rw [Literal.toJson, hrender]
      rfl
    have hone : (Literal.float .one).toJson = .number "1.0" := by
      rw [Literal.toJson, show Double.one.renderInterchange? = some "1.0" by decide +kernel]
      rfl
    rcases literal?_float hv with rfl | rfl | hv <;> rcases literal?_float hw with rfl | rfl | hw
    · rfl
    · simp [hzero, hone] at h
    · simp [hzero, Literal.toJson_of_infinite hw] at h
    · simp [hzero, hone] at h
    · rfl
    · simp [hone, Literal.toJson_of_infinite hw] at h
    · simp [hzero, Literal.toJson_of_infinite hv] at h
    · simp [hone, Literal.toJson_of_infinite hv] at h
    · rw [Literal.unsigned_of_infinite hv, Literal.unsigned_of_infinite hw]
  · have hdtype := dtype_of_literal? hv
    rw [Literal.eq_of_toJson (hdtype.trans (dtype_of_literal? hw).symm) (hdtype ▸ ht) h]

end Identity

/-- Instructions with the same JSON value are equal, but for the sign of an infinity, if they load
the same constant. -/
theorem Instr.unsigned_eq {i j : Instr} (h : i.toJson = j.toJson)
    (hc : i.constant? = j.constant?) (hi : i.StartsFromIdentity) (hj : j.StartsFromIdentity) :
    i.unsigned = j.unsigned := by
  obtain ⟨hresult, hop, hlocation⟩ := alike_of_toJson h
  rcases i with ⟨result, a, s⟩
  rcases j with ⟨result', b, t⟩
  cases hresult
  cases hlocation
  suffices hab : a.unsigned = b.unsigned by rw [unsigned, unsigned, hab]
  cases a with
  | constant v dtype =>
    cases b with
    | constant v' dtype' =>
      cases hc
      rw [hop.2]
    | _ => cases hop
  | declareAccumulator acc op v dtype =>
    cases b with
    | declareAccumulator acc' op' v' dtype' =>
      obtain ⟨rfl, rfl, hjson, rfl⟩ := hop
      obtain ⟨x, hx⟩ := hi _ _ _ _ rfl
      obtain ⟨y, hy⟩ := hj _ _ _ _ rfl
      rw [Op.unsigned, Op.unsigned, Identity.unsigned_eq hx hy hjson]
    | _ => cases hop
  | _ => exact congrArg Op.unsigned hop

/-- Instructions with the same JSON value load constants both or neither. -/
theorem Instr.isSome_constant?_eq {i j : Instr} (h : i.toJson = j.toJson) :
    i.constant?.isSome = j.constant?.isSome := by
  obtain ⟨-, hop, -⟩ := alike_of_toJson h
  rcases i with ⟨result, a, s⟩
  rcases j with ⟨result', b, t⟩
  cases a with
  | constant =>
    cases b with
    | constant => rfl
    | _ => cases hop
  | declareAccumulator =>
    cases b with
    | declareAccumulator => rfl
    | _ => cases hop
  | _ =>
    cases (hop : _ = b)
    rfl

theorem filterMap_cons_inj {α β : Type} {f : α → Option β} {a b : α} {l l' : List α}
    (hsome : (f a).isSome = (f b).isSome) (h : (a :: l).filterMap f = (b :: l').filterMap f) :
    f a = f b ∧ l.filterMap f = l'.filterMap f := by
  rw [List.filterMap_cons, List.filterMap_cons] at h
  cases ha : f a <;> cases hb : f b <;> simp_all

namespace LoopCode

/-- Code with the same constants and the same JSON values is equal, but for signs. -/
theorem Literals.unsigned_eq {is js : List Instr} {vs : List Literal} (hi : Literals is vs)
    (hj : Literals js vs) (h : is.map Instr.toJson = js.map Instr.toJson) :
    is.map Instr.unsigned = js.map Instr.unsigned := by
  induction is generalizing js vs with
  | nil => rw [List.map_eq_nil_iff.1 h.symm]
  | cons i is ih =>
    cases js with
    | nil => cases h
    | cons j js =>
      obtain ⟨hij, htail⟩ := List.cons.inj h
      obtain ⟨hi₁, hi₂⟩ := List.forall_mem_cons.1 hi.identities
      obtain ⟨hj₁, hj₂⟩ := List.forall_mem_cons.1 hj.identities
      -- the constants of the source line up with the instructions, as the opcodes agree
      obtain ⟨hc, hrest⟩ := filterMap_cons_inj (Instr.isSome_constant?_eq hij)
        (hi.constants.trans hj.constants.symm)
      rw [List.map_cons, List.map_cons, Instr.unsigned_eq hij hc hi₁ hj₁,
        ih ⟨hrest, hi₂⟩ ⟨rfl, hj₂⟩ htail]

theorem unsigned_eq {c d : LoopCode} {vs : List Literal} (hc : Literals c.instrs vs)
    (hd : Literals d.instrs vs) (h : c.toJson = d.toJson) : c.unsigned = d.unsigned := by
  rw [toJson, toJson, Json.record_inj] at h
  simp only [List.cons.injEq, Prod.mk.injEq, true_and, and_true, Json.text_inj, DeclKind.text_inj,
    Axes.toJson_inj, DType.toJson_inj, Json.array.injEq] at h
  obtain ⟨hname, hkind, haxes, hdtype, hinstrs⟩ := h
  rw [unsigned, unsigned, hname, hkind, haxes, hdtype, hc.unsigned_eq hd hinstrs]

end LoopCode

/-- The instruction starts no reduction from an infinity. -/
def Instr.StartsFinite (i : Instr) : Prop :=
  ∀ acc op identity dtype, i.op = .declareAccumulator acc op identity dtype →
    identity.isInfinite = false

theorem Instr.eq_of_unsigned {i j : Instr} (hi : i.StartsFinite) (h : i.unsigned = j.unsigned) :
    i = j := by
  rcases i with ⟨result, a, s⟩
  rcases j with ⟨result', b, t⟩
  simp only [unsigned, mk.injEq] at h
  obtain ⟨rfl, hop, rfl⟩ := h
  suffices hab : a = b by rw [hab]
  cases a with
  | declareAccumulator acc op v dtype =>
    cases b with
    | declareAccumulator acc' op' v' dtype' =>
      simp only [Op.unsigned, Op.declareAccumulator.injEq] at hop
      obtain ⟨rfl, rfl, hv, rfl⟩ := hop
      rw [Literal.eq_of_unsigned (hi _ _ _ _ rfl) hv]
    | _ => cases hop
  | _ =>
    cases b with
    | declareAccumulator => cases hop
    | _ => exact hop

namespace LoopModule

/-- No reduction starts from an infinity. -/
def StartsFinite (m : LoopModule) : Prop := ∀ c ∈ m.decls, ∀ i ∈ c.instrs, i.StartsFinite

/-- Code whose reductions start from finite numbers is all there without signs. -/
theorem eq_of_unsigned {m m' : LoopModule} (hm : m.StartsFinite) (h : m.unsigned = m'.unsigned) :
    m = m' := by
  rcases m with ⟨cs⟩
  rcases m' with ⟨ds⟩
  have hcs : cs.map LoopCode.unsigned = ds.map LoopCode.unsigned := congrArg decls h
  rw [map_inj_of_forall (fun c hc d hcd => ?_) hcs]
  rcases c with ⟨name, kind, axes, dtype, is⟩
  rcases d with ⟨name', kind', axes', dtype', js⟩
  simp only [LoopCode.unsigned, LoopCode.mk.injEq] at hcd
  obtain ⟨rfl, rfl, rfl, rfl, his⟩ := hcd
  have heq : is = js := map_inj_of_forall (fun i hi j => Instr.eq_of_unsigned (hm _ hc i hi)) his
  rw [heq]

theorem unsigned_decls_eq {cs ds : List LoopCode} {vss : List (List Literal)}
    (hc : List.Forall₂ (fun vs c => LoopCode.Literals c.instrs vs) vss cs)
    (hd : List.Forall₂ (fun vs c => LoopCode.Literals c.instrs vs) vss ds)
    (h : cs.map LoopCode.toJson = ds.map LoopCode.toJson) :
    cs.map LoopCode.unsigned = ds.map LoopCode.unsigned := by
  induction hc generalizing ds with
  | nil =>
    cases hd
    rfl
  | cons hfirst _ ih =>
    cases hd with
    | cons hfirst' hrest' =>
      obtain ⟨hcd, htail⟩ := List.cons.inj h
      rw [List.map_cons, List.map_cons, LoopCode.unsigned_eq hfirst hfirst' hcd, ih hrest' htail]

/-- From the text of a program's code all of it can be told, but for the sign of the infinities
that reductions start from; so all of it, where there are none. -/
theorem compact_toJson_eq_iff {source : String} {p : Program} (hp : Program.ofSource source = .ok p)
    {r r' : Registry} {m m' : LoopModule} (hm : p.code r = .ok m) (hm' : p.code r' = .ok m') :
    (m.toJson.compact = m'.toJson.compact ↔ m.unsigned = m'.unsigned) ∧
      (m.StartsFinite → (m.toJson.compact = m'.toJson.compact ↔ m = m')) := by
  have hiff : m.toJson.compact = m'.toJson.compact ↔ m.unsigned = m'.unsigned := by
    rw [m.toJson_valid.compact_inj m'.toJson_valid]
    refine ⟨fun h => ?_, fun h => by rw [← toJson_unsigned, h, toJson_unsigned]⟩
    rw [toJson, toJson, Json.record_inj] at h
    simp only [List.cons.injEq, Prod.mk.injEq, true_and, and_true, Json.array.injEq] at h
    exact congrArg mk
      (unsigned_decls_eq (Program.literals_code hp hm) (Program.literals_code hp hm') h)
  refine ⟨hiff, fun hfinite => ⟨fun h => eq_of_unsigned hfinite (hiff.1 h), fun h => h ▸ rfl⟩⟩

/-- The functions with one more reducer, which starts from some identity. -/
def withBest (identity : Identity) : Registry :=
  Registry.builtins.addAll [⟨"best", .reduce, ["source"], false, .same "source", some identity⟩]

/-- A source text with a reduction by that reducer. -/
def bestSource : String := "input a.x : [a] float value v = reduce(best, input.a.x)"

theorem best_compact_toJson_eq_iff :
    ∃ p m m', Program.ofSource bestSource = .ok p ∧ p.code (withBest .zero) = .ok m ∧
      p.code (withBest .posInfinity) = .ok m' ∧
      (m.toJson.compact = m'.toJson.compact ↔ m.unsigned = m'.unsigned) ∧
      (m.StartsFinite → (m.toJson.compact = m'.toJson.compact ↔ m = m')) := by
  have h : (Program.ofSource bestSource).toOption.any (fun p =>
      (p.code (withBest .zero)).toOption.any fun _ =>
        (p.code (withBest .posInfinity)).toOption.any fun _ => true) = true := by
    decide +kernel
  obtain ⟨p, hp, h⟩ := Except.exists_of_any h
  obtain ⟨m, hm, h⟩ := Except.exists_of_any h
  obtain ⟨m', hm', -⟩ := Except.exists_of_any h
  exact ⟨p, m, m', hp, hm, hm', compact_toJson_eq_iff hp hm hm'⟩

/-- The text of code does not tell where its reductions start. -/
theorem best_compact_toJson_eq :
    ∃ p m m', Program.ofSource bestSource = .ok p ∧ p.code (withBest .negInfinity) = .ok m ∧
      p.code (withBest .posInfinity) = .ok m' ∧
      m.toJson.compact = m'.toJson.compact ∧ m ≠ m' := by
  have h : (Program.ofSource bestSource).toOption.any (fun p =>
      (p.code (withBest .negInfinity)).toOption.any fun m =>
        (p.code (withBest .posInfinity)).toOption.any fun m' =>
          decide (m.unsigned = m'.unsigned ∧ m ≠ m')) = true := by
    decide +kernel
  obtain ⟨p, hp, h⟩ := Except.exists_of_any h
  obtain ⟨m, hm, h⟩ := Except.exists_of_any h
  obtain ⟨m', hm', h⟩ := Except.exists_of_any h
  obtain ⟨hsame, hne⟩ := of_decide_eq_true h
  refine ⟨p, m, m', hp, hm, hm', ?_, hne⟩
  rw [← toJson_unsigned, hsame, toJson_unsigned]

end LoopModule

end LoopNest
