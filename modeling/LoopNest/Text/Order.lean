/-! The lexicographic order of texts by code points, which is also the order of their UTF-8 bytes,
and its extension to lists of texts. -/
namespace LoopNest.Text

def compareNat (m n : Nat) : Ordering :=
  if m < n then .lt else if n < m then .gt else .eq

theorem compareNat_eq_iff {m n : Nat} : compareNat m n = .eq ↔ m = n := by
  grind [compareNat]

theorem compareNat_isLE_iff {m n : Nat} : (compareNat m n).isLE = true ↔ m ≤ n := by
  grind [compareNat, Ordering.isLE]

theorem compareNat_swap (m n : Nat) : compareNat m n = (compareNat n m).swap := by
  rcases Nat.lt_trichotomy m n with h | h | h
  · simp [compareNat, h, Nat.not_lt_of_gt h]
  · simp [compareNat, h]
  · simp [compareNat, h, Nat.not_lt_of_gt h]

def compareChar (c d : Char) : Ordering := compareNat c.toNat d.toNat

instance : Std.TransCmp compareChar where
  eq_swap := compareNat_swap _ _
  isLE_trans h h' :=
    compareNat_isLE_iff.2 (Nat.le_trans (compareNat_isLE_iff.1 h) (compareNat_isLE_iff.1 h'))

instance : Std.LawfulEqCmp compareChar where
  eq_of_compare h := Char.ext (UInt32.toNat_inj.1 (compareNat_eq_iff.1 h))

/-- The order of texts by code points. -/
def compare (a b : String) : Ordering := List.compareLex compareChar a.toList b.toList

instance : Std.TransCmp compare where
  eq_swap {a b} :=
    @Std.OrientedCmp.eq_swap _ (List.compareLex compareChar) _ a.toList b.toList
  isLE_trans {a b c} :=
    @Std.TransCmp.isLE_trans _ (List.compareLex compareChar) _ a.toList b.toList c.toList

instance : Std.LawfulEqCmp compare where
  compare_self {a} := @Std.ReflCmp.compare_self _ (List.compareLex compareChar) _ a.toList
  eq_of_compare h :=
    String.toList_inj.1 (@Std.LawfulEqCmp.eq_of_compare _ (List.compareLex compareChar) _ _ _ h)

/-- The order of lists of texts; a proper prefix comes first. -/
def compareLists (as bs : List String) : Ordering := List.compareLex compare as bs

instance : Std.TransCmp compareLists := inferInstanceAs (Std.TransCmp (List.compareLex compare))

instance : Std.LawfulEqCmp compareLists :=
  inferInstanceAs (Std.LawfulEqCmp (List.compareLex compare))

end LoopNest.Text
