import DevSpecs.Proofs.Text.Ascending
import DevSpecs.Proofs.Text.Words
import DevSpecs.Proofs.Version.Order
import Mathlib.Data.Nat.Digits.Defs

/-!
# Numerals of any length

A number in a version may have more digits than any machine word can hold.  Yet
no arithmetic is needed to compare two of them: without the zeros in front, the
longer one is greater, and of two that are equally long it is the one with the
greater text.  The digits that are left are the canonical spelling of the
segment.
-/

namespace DevSpecs

namespace Version

/-! ## Numerals and their values -/

def IsNumeral (run : Text) : Prop :=
  run ≠ [] ∧ ∀ c ∈ run, c.isDigit = true

/-- The number that a run of digits denotes; the last digit counts ones. -/
def numeralValue (run : Text) : Nat :=
  Nat.ofDigits 10 (run.reverse.map fun c => c.toNat - '0'.toNat)

theorem numeralValue_cons (c : Char) (run : Text) :
    numeralValue (c :: run) =
      10 ^ run.length * (c.toNat - '0'.toNat) + numeralValue run := by
  have hlength : (run.reverse.map fun c => c.toNat - '0'.toNat).length =
      run.length := by rw [List.length_map, List.length_reverse]
  rw [numeralValue, numeralValue, List.reverse_cons, List.map_append,
    Nat.ofDigits_append, hlength, List.map_singleton, Nat.ofDigits_singleton,
    Nat.add_comm]

theorem ofDigitChars_eq_numeralValue (run : Text) :
    Nat.ofDigitChars 10 run 0 = numeralValue run := by
  induction run with
  | nil => rfl
  | cons c run ih =>
      rw [Nat.ofDigitChars_cons, Nat.ofDigitChars_eq_ofDigitChars_zero, ih,
        numeralValue_cons, Nat.mul_zero, Nat.zero_add]

theorem ofRun_of_isNumeral {run : Text} (h : IsNumeral run) :
    Segment.ofRun run = .number (numeralValue run) := by
  rw [Segment.ofRun, if_pos (List.all_eq_true.mpr h.2),
    ofDigitChars_eq_numeralValue]

theorem compare_number (m n : Nat) :
    compare (Segment.number m) (.number n) = compare m n :=
  Ordering.then_eq

/-! ## Values of equally long numerals -/

section Digits

variable {x y run : Text} {c d : Char}

theorem numeralValue_lt (hrun : ∀ c ∈ run, c.isDigit = true) :
    numeralValue run < 10 ^ run.length := by
  have hdigits : ∀ n ∈ run.reverse.map (fun c => c.toNat - '0'.toNat), n < 10 := by
    intro n hn
    obtain ⟨c, hc, rfl⟩ := List.mem_map.mp hn
    have hupper : c.toNat ≤ '9'.toNat :=
      (Char.isDigit_iff_toNat.mp (hrun c (List.mem_reverse.mp hc))).2
    exact Nat.lt_succ_of_le (Nat.sub_le_sub_right hupper '0'.toNat)
  have hlt := Nat.ofDigits_lt_base_pow_length (by decide : 1 < 10) hdigits
  rwa [List.length_map, List.length_reverse] at hlt

theorem pow_le_numeralValue (hc : c.isDigit = true) (hne : c ≠ '0') (run : Text) :
    10 ^ run.length ≤ numeralValue (c :: run) := by
  have hlower : '0'.toNat ≤ c.toNat := (Char.isDigit_iff_toNat.mp hc).1
  have hvalue : c.toNat ≠ '0'.toNat := fun h => hne (Char.toNat_inj.mp h)
  have hpos : 0 < c.toNat - '0'.toNat :=
    Nat.sub_pos_of_lt (Nat.lt_of_le_of_ne hlower hvalue.symm)
  calc 10 ^ run.length
      ≤ 10 ^ run.length * (c.toNat - '0'.toNat) := Nat.le_mul_of_pos_right _ hpos
    _ ≤ numeralValue (c :: run) := by
        rw [numeralValue_cons]
        exact Nat.le_add_right _ _

theorem lt_iff_digit_lt (hc : c.isDigit = true) :
    c < d ↔ c.toNat - '0'.toNat < d.toNat - '0'.toNat := by
  have hlower : '0'.toNat ≤ c.toNat := (Char.isDigit_iff_toNat.mp hc).1
  rw [Nat.sub_lt_sub_iff_right hlower]
  exact Iff.rfl

theorem eq_iff_digit_eq (hc : c.isDigit = true) (hd : d.isDigit = true) :
    c = d ↔ c.toNat - '0'.toNat = d.toNat - '0'.toNat := by
  have hlower : '0'.toNat ≤ c.toNat := (Char.isDigit_iff_toNat.mp hc).1
  have hlower' : '0'.toNat ≤ d.toNat := (Char.isDigit_iff_toNat.mp hd).1
  rw [← Char.toNat_inj]
  omega

theorem leading_digit_decides {p a b v w : Nat} (hv : v < p) (hw : w < p) :
    p * a + v < p * b + w ↔ a < b ∨ a = b ∧ v < w := by
  rcases Nat.lt_trichotomy a b with h | rfl | h
  · have hstep : p * (a + 1) ≤ p * b := Nat.mul_le_mul_left p h
    rw [Nat.mul_succ] at hstep
    omega
  · simp
  · have hstep : p * (b + 1) ≤ p * a := Nat.mul_le_mul_left p h
    rw [Nat.mul_succ] at hstep
    omega

theorem lt_iff_numeralValue_lt (hx : ∀ c ∈ x, c.isDigit = true)
    (hy : ∀ c ∈ y, c.isDigit = true) (hlength : x.length = y.length) :
    x < y ↔ numeralValue x < numeralValue y := by
  induction x generalizing y with
  | nil =>
      obtain rfl : y = [] := List.length_eq_zero_iff.mp hlength.symm
      simp
  | cons c x ih =>
      cases y with
      | nil => simp at hlength
      | cons d y =>
          obtain ⟨hc, hx⟩ := List.forall_mem_cons.mp hx
          obtain ⟨hd, hy⟩ := List.forall_mem_cons.mp hy
          have hlength : x.length = y.length := Nat.succ.inj hlength
          have hxlt := numeralValue_lt hx
          have hylt := numeralValue_lt hy
          rw [← hlength] at hylt
          rw [List.cons_lt_cons_iff, ih hx hy hlength, numeralValue_cons,
            numeralValue_cons, ← hlength, leading_digit_decides hxlt hylt,
            lt_iff_digit_lt hc, eq_iff_digit_eq hc hd]

theorem compare_numeralValue (hx : ∀ c ∈ x, c.isDigit = true)
    (hy : ∀ c ∈ y, c.isDigit = true) (hlength : x.length = y.length) :
    compare (numeralValue x) (numeralValue y) = compare x y := by
  cases h : compare x y with
  | lt =>
      have hlt : x < y := Text.compare_eq_lt_iff.mp h
      exact Nat.compare_eq_lt.mpr ((lt_iff_numeralValue_lt hx hy hlength).mp hlt)
  | eq =>
      obtain rfl : x = y := Std.LawfulEqOrd.eq_of_compare h
      exact Nat.compare_eq_eq.mpr rfl
  | gt =>
      have hlt : y < x := Text.compare_eq_lt_iff.mp (Std.OrientedCmp.lt_of_gt h)
      exact Nat.compare_eq_gt.mpr
        ((lt_iff_numeralValue_lt hy hx hlength.symm).mp hlt)

end Digits

/-! ## Numerals without zeros in front -/

/-- A numeral that starts with zero only if it is zero. -/
structure IsReduced (run : Text) : Prop where
  isNumeral : IsNumeral run
  eq_zero_of_head : run.head? = some '0' → run = ['0']

/-- A numeral without the zeros in front, of which zero keeps one. -/
def reduced (run : Text) : Text :=
  match run.dropWhile (· == '0') with
  | [] => ['0']
  | c :: rest => c :: rest

section Reduced

variable {x y run : Text}

theorem numeralValue_lt_of_length_lt (hx : IsNumeral x) (hy : IsReduced y)
    (hlength : x.length < y.length) : numeralValue x < numeralValue y := by
  obtain ⟨⟨hne, hdigits⟩, hzero⟩ := hy
  obtain ⟨c, rest, rfl⟩ := List.exists_cons_of_ne_nil hne
  have hpos : 0 < x.length := List.length_pos_iff.mpr hx.1
  have hc : c ≠ '0' := by
    rintro rfl
    have hrest : rest = [] := List.tail_eq_of_cons_eq (hzero rfl)
    rw [hrest, List.length_singleton] at hlength
    omega
  calc numeralValue x
      < 10 ^ x.length := numeralValue_lt hx.2
    _ ≤ 10 ^ rest.length :=
        Nat.pow_le_pow_right (by decide) (Nat.le_of_lt_succ hlength)
    _ ≤ numeralValue (c :: rest) :=
        pow_le_numeralValue (hdigits c List.mem_cons_self) hc rest

/-- Of two reduced numerals the longer one is greater. -/
theorem IsReduced.compare_eq (hx : IsReduced x) (hy : IsReduced y) :
    compare (numeralValue x) (numeralValue y) =
      (compare x.length y.length).then (compare x y) := by
  rcases Nat.lt_trichotomy x.length y.length with h | h | h
  · rw [Nat.compare_eq_lt.mpr h]
    exact Nat.compare_eq_lt.mpr (numeralValue_lt_of_length_lt hx.isNumeral hy h)
  · rw [Nat.compare_eq_eq.mpr h]
    exact compare_numeralValue hx.isNumeral.2 hy.isNumeral.2 h
  · rw [Nat.compare_eq_gt.mpr h]
    exact Nat.compare_eq_gt.mpr (numeralValue_lt_of_length_lt hy.isNumeral hx h)

theorem IsReduced.eq_of_numeralValue_eq (hx : IsReduced x) (hy : IsReduced y)
    (h : numeralValue x = numeralValue y) : x = y := by
  have hcompare := hx.compare_eq hy
  rw [Nat.compare_eq_eq.mpr h] at hcompare
  exact Std.LawfulEqOrd.eq_of_compare (Ordering.then_eq_eq.mp hcompare.symm).2

theorem isReduced_reduced (h : ∀ c ∈ run, c.isDigit = true) :
    IsReduced (reduced run) := by
  have hdigits : ∀ c ∈ run.dropWhile (· == '0'), c.isDigit = true :=
    fun c hc => h c ((List.dropWhile_sublist _).subset hc)
  rw [reduced]
  split
  next => exact ⟨⟨by simp, by simp⟩, fun _ => rfl⟩
  next c rest heq =>
    rw [heq] at hdigits
    refine ⟨⟨by simp, hdigits⟩, fun hhead => ?_⟩
    obtain rfl : c = '0' := Option.some.inj hhead
    have hnot := Text.head?_dropWhile (p := (· == '0')) (t := run) '0' (by rw [heq]; rfl)
    simp at hnot

theorem numeralValue_reduced (run : Text) :
    numeralValue (reduced run) = numeralValue run := by
  have hdrop : numeralValue (run.dropWhile (· == '0')) = numeralValue run := by
    induction run with
    | nil => rfl
    | cons c run ih =>
        rw [List.dropWhile_cons]
        split
        next hc =>
          rw [ih, numeralValue_cons, eq_of_beq hc, Nat.sub_self, Nat.mul_zero,
            Nat.zero_add]
        next => rfl
  rw [← hdrop, reduced]
  split
  next heq =>
    rw [heq]
    rfl
  next heq => rw [heq]

theorem numeralValue_ofNat (n : Nat) : numeralValue (Text.ofNat n) = n := by
  rw [← ofDigitChars_eq_numeralValue, Text.ofNat]
  exact Nat.ofDigitChars_toDigits (by decide) (by decide)

theorem isReduced_ofNat (n : Nat) : IsReduced (Text.ofNat n) := by
  have hdigits : ∀ c ∈ Text.ofNat n, c.isDigit = true := fun c hc =>
    Nat.isDigit_of_mem_toDigits (by decide) (by decide) hc
  refine ⟨⟨Nat.toDigits_ne_nil, hdigits⟩, fun hhead => ?_⟩
  obtain ⟨rest, hcons⟩ := List.head?_eq_some_iff.mp hhead
  by_cases hrest : rest = []
  · rw [hcons, hrest]
  · have hpos : 0 < rest.length := List.length_pos_iff.mpr hrest
    have hvalue : numeralValue rest = n := by
      rw [← numeralValue_ofNat n, hcons, numeralValue_cons, Nat.sub_self,
        Nat.mul_zero, Nat.zero_add]
    have hlt : n < 10 ^ rest.length := by
      rw [← hvalue]
      apply numeralValue_lt
      intro c hc
      exact hdigits c (hcons ▸ List.mem_cons_of_mem '0' hc)
    have hshort : (Text.ofNat n).length ≤ rest.length :=
      (Nat.length_toDigits_le_iff (by decide) hpos).mpr hlt
    rw [hcons, List.length_cons] at hshort
    omega

/-! ## Segments that are numbers -/

/-- The canonical spelling of a number is what it was read from, without the
zeros in front. -/
theorem text_ofRun_of_isNumeral (h : IsNumeral run) :
    (Segment.ofRun run).text = reduced run := by
  rw [ofRun_of_isNumeral h, Segment.text, ← numeralValue_reduced run]
  apply (isReduced_ofNat _).eq_of_numeralValue_eq (isReduced_reduced h.2)
  exact numeralValue_ofNat _

/-- Numbers of any length are compared by their digits alone. -/
theorem compare_ofRun_of_isNumeral (hx : IsNumeral x) (hy : IsNumeral y) :
    compare (Segment.ofRun x) (Segment.ofRun y) =
      (compare (reduced x).length (reduced y).length).then
        (compare (reduced x) (reduced y)) := by
  rw [ofRun_of_isNumeral hx, ofRun_of_isNumeral hy, compare_number,
    ← numeralValue_reduced x, ← numeralValue_reduced y]
  exact (isReduced_reduced hx.2).compare_eq (isReduced_reduced hy.2)

end Reduced

end Version

end DevSpecs
