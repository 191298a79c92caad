import LoopNest.Double.Layout
import LoopNest.Proofs.Json.Reading
import Mathlib.Data.Nat.Log
import Mathlib.Tactic.NormNum

/-! The texts of naturals, of integers and of finite doubles are numbers. -/
namespace LoopNest

namespace Json

theorem isDigits_toDigits (n : Nat) : IsDigits (Nat.toDigits 10 n) :=
  ⟨Nat.toDigits_ne_nil, fun _ hc => Nat.isDigit_of_mem_toDigits (by decide) (by decide) hc⟩

theorem eq_zero_of_toDigits {n : Nat} (h : Nat.toDigits 10 n = ['0']) : n = 0 := by
  rw [← Nat.ofDigitChars_ten_toDigits (n := n), h]
  rfl

theorem isWhole_toDigits (n : Nat) : IsWhole (Nat.toDigits 10 n) := by
  refine ⟨isDigits_toDigits n, ?_⟩
  induction n using Nat.strongRecOn with
  | _ n ih =>
    by_cases hn : n < 10
    · rw [Nat.toDigits_of_lt_base hn]
      intro hhead
      rw [List.head?_cons, Option.some.injEq] at hhead
      rw [hhead]
    · intro hhead
      rw [Nat.toDigits_of_base_le (by decide) (by omega),
        List.head?_append_of_ne_nil _ Nat.toDigits_ne_nil] at hhead
      have hzero := eq_zero_of_toDigits (ih (n / 10) (by omega) hhead)
      omega

theorem head?_toDigits_ne {n : Nat} (h : n ≠ 0) : (Nat.toDigits 10 n).head? ≠ some '0' :=
  fun hhead => h (eq_zero_of_toDigits ((isWhole_toDigits n).2 hhead))

theorem IsNumber.of_toList {t : String} (sign whole fraction exponent : List Char)
    (hsign : sign ∈ [[], ['-']]) (hwhole : IsWhole whole) (hfraction : IsFraction fraction)
    (hexponent : IsExponent exponent)
    (h : t.toList = sign ++ (whole ++ (fraction ++ exponent))) : IsNumber t := by
  rw [← String.ofList_toList (s := t), h]
  exact .intro hsign hwhole hfraction hexponent

theorem toList_nat (n : Nat) : (toString n).toList = Nat.toDigits 10 n := by
  rw [Nat.toString_eq_ofList_toDigits, String.toList_ofList]

theorem toList_negSucc (n : Nat) :
    (toString (Int.negSucc n)).toList = '-' :: Nat.toDigits 10 (n + 1) := by
  change ("-" ++ toString (n + 1)).toList = _
  rw [String.toList_append, toList_nat]
  rfl

theorem isNumber_nat (n : Nat) : IsNumber (toString n) := by
  refine .of_toList [] _ [] [] (by simp) (isWhole_toDigits n) .none .none ?_
  rw [toList_nat, List.append_nil, List.append_nil]
  rfl

theorem isNumber_int (z : Int) : IsNumber (toString z) := by
  cases z with
  | ofNat n => exact isNumber_nat n
  | negSucc n =>
    refine .of_toList ['-'] _ [] [] (by simp) (isWhole_toDigits (n + 1)) .none .none ?_
    rw [toList_negSucc, List.append_nil, List.append_nil]
    rfl

theorem toDigits_inj {m n : Nat} : Nat.toDigits 10 m = Nat.toDigits 10 n ↔ m = n := by
  refine ⟨fun h => ?_, fun h => h ▸ rfl⟩
  rw [← Nat.ofDigitChars_ten_toDigits (n := m), h, Nat.ofDigitChars_ten_toDigits]

theorem toDigits_ne_minus (m : Nat) (cs : List Char) : Nat.toDigits 10 m ≠ '-' :: cs := by
  intro h
  have hdigit := (isDigits_toDigits m).2 '-' (h ▸ List.mem_cons_self)
  cases hdigit

theorem toString_nat_inj {m n : Nat} : toString m = toString n ↔ m = n := by
  rw [← String.toList_inj, toList_nat, toList_nat, toDigits_inj]

theorem toString_int_inj {a b : Int} : toString a = toString b ↔ a = b := by
  refine ⟨fun h => ?_, fun h => h ▸ rfl⟩
  rw [← String.toList_inj] at h
  cases a with
  | ofNat m =>
    cases b with
    | ofNat n => exact congrArg Int.ofNat (toString_nat_inj.1 (String.toList_inj.1 h))
    | negSucc n =>
      rw [toList_negSucc] at h
      exact absurd ((toList_nat m).symm.trans h) (toDigits_ne_minus m _)
  | negSucc m =>
    rw [toList_negSucc] at h
    cases b with
    | ofNat n => exact absurd ((toList_nat n).symm.trans h.symm) (toDigits_ne_minus n _)
    | negSucc n =>
      rw [toList_negSucc, List.cons.injEq, toDigits_inj] at h
      rw [Nat.succ.inj h.2]

end Json

namespace Double

open Json

theorem toList_withPoint (digits : List Char) (whole : Nat) : (withPoint digits whole).toList =
    digits.take whole ++ '.' :: (if digits.length ≤ whole then ['0'] else digits.drop whole) := by
  unfold withPoint
  split <;> simp

/-- Digits with a point among them, between a sign and an exponent. -/
theorem isNumber_withPoint {digits : List Char} (h : IsDigits digits)
    (hhead : digits.head? ≠ some '0') (whole : Nat) {sign exponent : String}
    (hsign : sign.toList ∈ [[], ['-']]) (hexponent : IsExponent exponent.toList) :
    IsNumber (sign ++ withPoint digits (whole + 1) ++ exponent) := by
  obtain ⟨hne, hall⟩ := h
  refine .of_toList sign.toList (digits.take (whole + 1))
    ('.' :: (if digits.length ≤ whole + 1 then ['0'] else digits.drop (whole + 1)))
    exponent.toList hsign ?_ (.some ?_) hexponent (by simp [toList_withPoint])
  · cases digits with
    | nil => exact absurd rfl hne
    | cons d ds =>
      refine ⟨⟨List.cons_ne_nil _ _, fun c hc => hall c (List.mem_of_mem_take hc)⟩, fun hd => ?_⟩
      exact absurd hd hhead
  · split
    · exact ⟨List.cons_ne_nil _ _, fun c hc => by rw [List.mem_singleton.1 hc]; rfl⟩
    · rename_i hlong
      exact ⟨mt List.drop_eq_nil_iff.1 hlong, fun c hc => hall c (List.mem_of_mem_drop hc)⟩

theorem isDigit_of_mem_zeros {n : Nat} : ∀ c ∈ List.replicate n '0', c.isDigit = true := by
  intro c hc
  rw [List.eq_of_mem_replicate hc]
  rfl

theorem isNumber_positional {d : Decimal} (h : d.digits ≠ 0) {sign : String}
    (hsign : sign.toList ∈ [[], ['-']]) : IsNumber (sign ++ positional d) := by
  obtain ⟨hne, hall⟩ := isDigits_toDigits d.digits
  unfold positional
  simp only
  split
  · refine .of_toList sign.toList ['0'] ('.' :: (List.replicate ((-d.exponent).toNat - 1) '0' ++
      Nat.toDigits 10 d.digits)) [] hsign (isWhole_toDigits 0) (.some ⟨?_, ?_⟩) .none ?_
    · exact List.append_ne_nil_of_right_ne_nil _ hne
    · exact List.forall_mem_append.2 ⟨isDigit_of_mem_zeros, hall⟩
    · simp [zeros]
  · rw [← String.append_empty (s := sign ++ _)]
    refine isNumber_withPoint ⟨?_, ?_⟩ ?_ _ hsign .none
    · exact List.append_ne_nil_of_left_ne_nil hne _
    · exact List.forall_mem_append.2 ⟨hall, isDigit_of_mem_zeros⟩
    · rw [List.head?_append_of_ne_nil _ hne]
      exact head?_toDigits_ne h

theorem isNumber_scientific {d : Decimal} (h : d.digits ≠ 0) {sign : String}
    (hsign : sign.toList ∈ [[], ['-']]) (layout : Layout) :
    IsNumber (sign ++ scientific layout d) := by
  have hdigits := isDigits_toDigits d.digits
  have hexponent (mark : String) (hmark : mark.toList ∈ [[], ['+'], ['-']]) :
      IsExponent ("e" ++ (mark ++ digitText d.exponent.natAbs)).toList := by
    have h := IsExponent.some hmark (isDigits_toDigits d.exponent.natAbs)
    simpa [digitText] using h
  have hmark : (if d.exponent < 0 then "-" else if layout.signedExponent then "+" else "").toList ∈
      [[], ['+'], ['-']] := by
    split_ifs <;> decide
  unfold scientific
  simp only [String.append_assoc]
  split
  · refine .of_toList sign.toList (Nat.toDigits 10 d.digits) [] _ hsign (isWhole_toDigits _) .none
      (hexponent _ hmark) ?_
    simp
  · rw [← String.append_assoc]
    exact isNumber_withPoint hdigits (head?_toDigits_ne h) 0 hsign (hexponent _ hmark)

theorem Decimal.digits_trim_ne_zero {fuel : Nat} {d : Decimal} (h : d.digits ≠ 0) :
    (d.trim fuel).digits ≠ 0 := by
  induction fuel generalizing d with
  | zero => exact h
  | succ fuel ih =>
    rw [trim]
    split
    next htrim =>
      refine ih ?_
      simp only
      omega
    next => exact h

/-- A neighbour of a number is no less than the number, cut off at the place. -/
theorem le_of_neighbour? {tie : Tie} {x : Double} {n digits : Nat}
    (h : x.neighbour? tie n = some digits) : x.scaled / place n ≤ digits := by
  unfold neighbour? at h
  generalize x.scaled / place n = below at h ⊢
  simp only at h
  split at h
  · cases h
    exact Nat.le_refl _
  · cases h
    exact Nat.le_succ _
  · cases h
  · split at h
    · cases h
      exact Nat.le_refl _
    · split at h
      · cases h
        exact Nat.le_succ _
      · split at h
        · cases h
          exact Nat.le_succ _
        · cases h
          exact Nat.le_add_right _ _

theorem place_pos (n : Nat) : 0 < place n := by
  unfold place
  generalize 1076 = k
  exact Nat.mul_pos (Nat.pow_pos (by decide)) (Nat.pow_pos (by decide))

theorem place_eq (n : Nat) : place n = 10 ^ n * place 0 := by
  unfold place
  generalize Nat.pow 2 1076 = unit
  exact congrArg (10 ^ n * ·) (Nat.one_mul unit).symm

/-- The number has its leading digit at its leading place. -/
theorem place_le_scaled {x : Double} (h : x.units ≠ 0) {n : Nat} (hn : n < x.leadingPlace) :
    place n ≤ x.scaled := by
  have hleast : place 0 ≤ x.scaled := by
    have hone : place 0 ≤ 4 * 1 * Nat.pow 10 scaleDown := by decide +kernel
    refine hone.trans (Nat.mul_le_mul_right _ (Nat.mul_le_mul_left 4 ?_))
    omega
  have hpower : 10 ^ n ≤ x.scaled / place 0 := by
    rcases Nat.eq_zero_or_pos n with rfl | hpos
    · exact Nat.div_pos hleast (place_pos 0)
    · by_contra hlt
      have hlength := (Nat.length_toDigits_le_iff (b := 10) (by decide) hpos).2 (not_le.1 hlt)
      exact absurd hn (not_lt.2 hlength)
  rw [place_eq n]
  exact (Nat.mul_le_mul_right _ hpower).trans (Nat.div_mul_le_self _ _)

theorem digits_shortest_ne_zero {x : Double} (h : x.units ≠ 0) (tie : Tie) :
    (x.shortest tie).digits ≠ 0 := by
  have hlead : 0 < x.leadingPlace := Nat.length_toDigits_pos
  have hcut (k : Nat) (hk : 0 < k) : x.scaled / place (x.leadingPlace - k) ≠ 0 := by
    have hle := place_le_scaled h (n := x.leadingPlace - k) (by omega)
    exact (Nat.div_pos hle (place_pos _)).ne'
  rw [shortest, if_neg h]
  refine Decimal.digits_trim_ne_zero ?_
  simp only
  cases hhit : (List.range 17).findSome? fun k =>
      (x.neighbour? tie (x.leadingPlace - (k + 1))).map fun digits =>
        (⟨digits, (x.leadingPlace - (k + 1) : Nat) - scaleDown⟩ : Decimal) with
  | none => exact hcut 17 (by decide)
  | some d =>
    obtain ⟨k, -, hk⟩ := List.exists_of_findSome?_eq_some hhit
    obtain ⟨digits, hdigits, rfl⟩ := Option.map_eq_some_iff.1 hk
    have hle := le_of_neighbour? hdigits
    have hne := hcut (k + 1) (Nat.succ_pos k)
    exact fun hzero => hne (Nat.le_zero.1 (hle.trans hzero.le))

/-- The text of a finite double is a number. -/
theorem isNumber_renderFinite (layout : Layout) (x : Double) :
    IsNumber (x.renderFinite layout) := by
  have hsign : (if x.negative then "-" else "").toList ∈ [[], ['-']] := by
    split <;> decide
  unfold renderFinite
  simp only
  generalize (if x.negative then "-" else "") = sign at hsign ⊢
  split
  · refine .of_toList _ ['0'] ['.', '0'] [] hsign (isWhole_toDigits 0) (.some (isDigits_toDigits 0))
      .none ?_
    simp
  · rename_i hunits
    have hdigits := digits_shortest_ne_zero hunits layout.tie
    split
    · exact isNumber_positional hdigits hsign
    · exact isNumber_scientific hdigits hsign layout

end Double
end LoopNest
