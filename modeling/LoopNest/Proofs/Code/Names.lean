import LoopNest.Proofs.Code.Block
import Mathlib.Data.List.Flatten
import Mathlib.Data.List.Nodup
import Mathlib.Data.List.Pairwise

/-! The names that code introduces: registers, loops and accumulators. Code that takes its names
from counters introduces none of them twice. -/
namespace LoopNest

namespace Block

/-- The registers that a block defines. -/
abbrev defs (b : Block) : List Reg := b.instrs.flatMap Instr.defs

/-- The accumulators that a block declares. -/
abbrev declares (b : Block) : List AccId := b.instrs.flatMap Instr.declares

end Block

/-- Distinct numbers from a range. -/
structure Drawn (l : List Nat) (lo hi : Nat) : Prop where
  nodup : l.Nodup
  bounds : ∀ n ∈ l, lo ≤ n ∧ n < hi
  le : lo ≤ hi

namespace Drawn

theorem nil (n : Nat) : Drawn [] n n := ⟨List.nodup_nil, by simp, Nat.le_refl n⟩

theorem next (n : Nat) : Drawn [n] n (n + 1) := ⟨List.nodup_singleton n, by simp, Nat.le_succ n⟩

theorem append {l l' : List Nat} {lo mid hi : Nat} (h : Drawn l lo mid) (h' : Drawn l' mid hi) :
    Drawn (l ++ l') lo hi := by
  refine ⟨List.nodup_append.2 ⟨h.nodup, h'.nodup, ?_⟩, ?_, Nat.le_trans h.le h'.le⟩
  · intro a ha b hb
    have := (h.bounds a ha).2
    have := (h'.bounds b hb).1
    omega
  · intro n hn
    rcases List.mem_append.1 hn with hn | hn
    · exact ⟨(h.bounds n hn).1, Nat.lt_of_lt_of_le (h.bounds n hn).2 h'.le⟩
    · exact ⟨Nat.le_trans h.le (h'.bounds n hn).1, (h'.bounds n hn).2⟩

theorem append_comm {l l' : List Nat} {lo hi : Nat} (h : Drawn (l ++ l') lo hi) :
    Drawn (l' ++ l) lo hi := by
  refine ⟨List.nodup_append_comm.1 h.nodup, fun n hn => h.bounds n ?_, h.le⟩
  exact List.mem_append.2 (List.mem_append.1 hn).symm

theorem sublist {l l' : List Nat} {lo hi : Nat} (h : Drawn l lo hi) (hs : l'.Sublist l) :
    Drawn l' lo hi :=
  ⟨h.nodup.sublist hs, fun n hn => h.bounds n (hs.subset hn), h.le⟩

theorem mono {l : List Nat} {lo hi hi' : Nat} (h : Drawn l lo hi) (hle : hi ≤ hi') :
    Drawn l lo hi' :=
  ⟨h.nodup, fun n hn => ⟨(h.bounds n hn).1, Nat.lt_of_lt_of_le (h.bounds n hn).2 hle⟩,
    Nat.le_trans h.le hle⟩

end Drawn

/-- The numbers of a range, in order. -/
structure Consecutive (l : List Nat) (lo hi : Nat) : Prop where
  range : l = List.range' lo l.length
  stop : hi = lo + l.length

namespace Consecutive

theorem nil (n : Nat) : Consecutive [] n n := ⟨rfl, rfl⟩

theorem next (n : Nat) : Consecutive [n] n (n + 1) := ⟨rfl, rfl⟩

theorem append {l l' : List Nat} {lo mid hi : Nat} (h : Consecutive l lo mid)
    (h' : Consecutive l' mid hi) : Consecutive (l ++ l') lo hi := by
  refine ⟨?_, by rw [h'.stop, h.stop, List.length_append, Nat.add_assoc]⟩
  rw [List.length_append, ← List.range'_append_1, ← h.range, ← h.stop, ← h'.range]

theorem nodup {l : List Nat} {lo hi : Nat} (h : Consecutive l lo hi) : l.Nodup :=
  h.range ▸ List.nodup_range'

end Consecutive

/-- Code introduces each of its names once, and takes them from a range of counters. -/
structure Introduces (is : List Instr) (c c' : CodeCounter) : Prop where
  regs : Drawn ((is.flatMap Instr.defs).map Reg.index) c.reg c'.reg
  loops : Drawn ((is.flatMap Instr.starts).map LoopId.index) c.loop c'.loop
  accs : Drawn ((is.flatMap Instr.declares).map AccId.index) c.acc c'.acc

theorem Introduces.sublist {is js : List Instr} {c c' : CodeCounter} (h : Introduces is c c')
    (hs : js.Sublist is) : Introduces js c c' :=
  ⟨h.regs.sublist ((hs.flatMap _).map _), h.loops.sublist ((hs.flatMap _).map _),
    h.accs.sublist ((hs.flatMap _).map _)⟩

/-- No name is introduced twice. -/
structure Distinct (is : List Instr) : Prop where
  regs : (is.flatMap Instr.defs).Nodup
  loops : (is.flatMap Instr.starts).Nodup
  accs : (is.flatMap Instr.declares).Nodup

theorem Distinct.sublist {is js : List Instr} (h : Distinct is) (hs : js.Sublist is) :
    Distinct js :=
  ⟨h.regs.sublist (hs.flatMap _), h.loops.sublist (hs.flatMap _), h.accs.sublist (hs.flatMap _)⟩

/-- Where no name is introduced twice, a name tells the instruction that introduces it. -/
theorem eq_of_mem_names {α : Type} {names : Instr → List α} {is : List Instr}
    (h : (is.flatMap names).Nodup) {i j : Instr} (hi : i ∈ is) (hj : j ∈ is) {a : α}
    (ha : a ∈ names i) (ha' : a ∈ names j) : i = j := by
  by_contra hne
  have : Std.Symm (Function.onFun List.Disjoint names) := ⟨fun _ _ hd _ hb hc => hd hc hb⟩
  exact (List.nodup_flatMap.1 h).2.forall hi hj hne ha ha'

/-- Code introduces its names one number after the other, from one state of the counters to
another. -/
structure Counts (is : List Instr) (c c' : CodeCounter) : Prop where
  regs : Consecutive ((is.flatMap Instr.defs).map Reg.index) c.reg c'.reg
  loops : Consecutive ((is.flatMap Instr.starts).map LoopId.index) c.loop c'.loop
  accs : Consecutive ((is.flatMap Instr.declares).map AccId.index) c.acc c'.acc

namespace Counts

theorem nil (c : CodeCounter) : Counts [] c c := ⟨.nil _, .nil _, .nil _⟩

theorem append {is js : List Instr} {c c' c'' : CodeCounter} (h : Counts is c c')
    (h' : Counts js c' c'') : Counts (is ++ js) c c'' := by
  refine ⟨?_, ?_, ?_⟩
  · rw [List.flatMap_append, List.map_append]
    exact h.regs.append h'.regs
  · rw [List.flatMap_append, List.map_append]
    exact h.loops.append h'.loops
  · rw [List.flatMap_append, List.map_append]
    exact h.accs.append h'.accs

theorem distinct {is : List Instr} {c c' : CodeCounter} (h : Counts is c c') : Distinct is :=
  ⟨h.regs.nodup.of_map, h.loops.nodup.of_map, h.accs.nodup.of_map⟩

end Counts
end LoopNest
