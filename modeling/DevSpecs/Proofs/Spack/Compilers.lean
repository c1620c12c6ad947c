import DevSpecs.Proofs.Text.Ascending
import DevSpecs.Proofs.Version.Order
import DevSpecs.Spack.Packages

/-!
# The rank of compilers

A compiler ranks above another one by the greater version, where a version that cannot
be read is below all others, and by the greater name if this makes no difference.  The
rank is a linear preorder, so the preferred one of some compilers is one of them that
none ranks above.  Compilers of one rank may still spell their versions differently, and
which of them is preferred depends on the order in which they are given.
-/

namespace DevSpecs

namespace Compiler

/-! ## Rank -/

/-- The compiler `c` ranks above `d`. -/
def RanksAbove (c d : Compiler) : Prop :=
  match Version.ofText? c.version, Version.ofText? d.version with
  | some v, some w => w < v ∨ (w == v) = true ∧ d.name < c.name
  | some _, none => True
  | none, some _ => False
  | none, none => d.name < c.name

instance : Std.TransOrd Compiler :=
  inferInstanceAs <| Std.TransCmp <|
    compareLex (compareOn fun c : Compiler => Version.ofText? c.version) (compareOn name)

theorem compare_eq_lt_iff {c d : Compiler} : compare d c = .lt ↔ RanksAbove c d := by
  change (compare (Version.ofText? d.version) (Version.ofText? c.version)).then
    (compare d.name c.name) = .lt ↔ _
  rw [RanksAbove]
  cases Version.ofText? c.version with
  | none =>
      cases Version.ofText? d.version with
      | none => exact Text.compare_eq_lt_iff
      | some w => exact iff_of_false nofun id
  | some v =>
      cases Version.ofText? d.version with
      | none => exact iff_of_true rfl trivial
      | some w =>
          dsimp only
          rw [Version.lt_iff_compare_eq_lt, Version.beq_iff_compare_eq,
            ← Text.compare_eq_lt_iff]
          exact Ordering.then_eq_lt

instance (c d : Compiler) : Decidable (RanksAbove c d) :=
  decidable_of_iff _ compare_eq_lt_iff

theorem isLE_iff_not_ranksAbove {c d : Compiler} :
    (compare c d).isLE = true ↔ ¬RanksAbove c d := by
  rw [← compare_eq_lt_iff, Std.OrientedOrd.eq_swap]
  cases compare d c <;> decide

theorem not_ranksAbove_self (c : Compiler) : ¬RanksAbove c c :=
  isLE_iff_not_ranksAbove.mp Std.ReflOrd.isLE_rfl

theorem not_ranksAbove_trans {b c d : Compiler} (h : ¬RanksAbove b c)
    (h' : ¬RanksAbove c d) : ¬RanksAbove b d := by
  rw [← isLE_iff_not_ranksAbove] at h h' ⊢
  exact Std.TransOrd.isLE_trans h h'

/-! ## Ties -/

/-- The versions are equal, or neither can be read. -/
def VersionsTie (c d : Compiler) : Prop :=
  match Version.ofText? c.version, Version.ofText? d.version with
  | some v, some w => (v == w) = true
  | some _, none => False
  | none, some _ => False
  | none, none => True

theorem compare_eq_eq_iff {c d : Compiler} :
    compare c d = .eq ↔ VersionsTie c d ∧ c.name = d.name := by
  change (compare (Version.ofText? c.version) (Version.ofText? d.version)).then
    (compare c.name d.name) = .eq ↔ _
  rw [Ordering.then_eq_eq, Std.compare_eq_iff_eq (a := c.name), VersionsTie]
  refine and_congr_left fun _ => ?_
  cases Version.ofText? c.version with
  | none =>
      cases Version.ofText? d.version with
      | none => exact iff_of_true rfl trivial
      | some w => exact iff_of_false nofun id
  | some v =>
      cases Version.ofText? d.version with
      | none => exact iff_of_false nofun id
      | some w => exact Version.beq_iff_compare_eq.symm

/-- If neither of two compilers ranks above the other, only the spelling of their versions
may differ. -/
theorem tie_of_not_ranksAbove {c d : Compiler} (h : ¬RanksAbove c d) (h' : ¬RanksAbove d c) :
    VersionsTie c d ∧ c.name = d.name := by
  rw [← isLE_iff_not_ranksAbove] at h h'
  exact compare_eq_eq_iff.mp (Std.OrientedCmp.isLE_antisymm h h')

/-! ## The preferred compiler -/

variable {P Q : Compiler → Prop} {answer : Option Compiler}

/-- The answer is a compiler of the kind `P` that no other of the kind ranks above, or
there is no such compiler. -/
def IsPreferredAmong (P : Compiler → Prop) : Option Compiler → Prop
  | some c => P c ∧ ∀ d, P d → ¬RanksAbove d c
  | none => ∀ c, ¬P c

theorem isPreferredAmong_preferred? (cs : List Compiler) :
    IsPreferredAmong (· ∈ cs) (preferred? cs) := by
  cases h : preferred? cs with
  | none =>
      rw [maxLast?_eq_none_iff.mp h]
      exact fun c => List.not_mem_nil
  | some c =>
      refine ⟨mem_of_maxLast? h, fun d hd => ?_⟩
      exact isLE_iff_not_ranksAbove.mp (isLE_of_maxLast? h hd)

/-- What is preferred among some compilers is determined up to ties. -/
theorem IsPreferredAmong.unique {answer' : Option Compiler} (h : IsPreferredAmong P answer)
    (h' : IsPreferredAmong P answer') :
    Option.Rel (fun c d => VersionsTie c d ∧ c.name = d.name) answer answer' := by
  cases answer with
  | none =>
      cases answer' with
      | none => exact .none
      | some d => exact absurd h'.1 (h d)
  | some c =>
      cases answer' with
      | none => exact absurd h.1 (h' c)
      | some d => exact .some (tie_of_not_ranksAbove (h'.2 c h.1) (h.2 d h'.1))

theorem IsPreferredAmong.congr (hPQ : ∀ c, P c ↔ Q c)
    (h : IsPreferredAmong P answer) : IsPreferredAmong Q answer := by
  obtain rfl : P = Q := funext fun c => propext (hPQ c)
  exact h

/-- What is preferred among some compilers is preferred among more exactly if none of
these ranks above all the former. -/
theorem IsPreferredAmong.iff_of_imp (h : IsPreferredAmong P answer)
    (hPQ : ∀ c, P c → Q c) :
    IsPreferredAmong Q answer ↔ ∀ c, Q c → ∃ d, P d ∧ ¬RanksAbove c d := by
  cases answer with
  | none =>
      constructor
      · intro hnone c hc
        exact absurd hc (hnone c)
      · intro hcovered c hc
        obtain ⟨d, hd, _⟩ := hcovered c hc
        exact h d hd
  | some b =>
      obtain ⟨hb, htop⟩ := h
      constructor
      · rintro ⟨_, hall⟩ c hc
        exact ⟨b, hb, hall c hc⟩
      · intro hcovered
        refine ⟨hPQ b hb, fun c hc => ?_⟩
        obtain ⟨d, hd, habove⟩ := hcovered c hc
        exact not_ranksAbove_trans habove (htop d hd)

/-- Unless there are no compilers, one of them is preferred that none of them ranks above,
and in any other order one of the same name whose version ties with it. -/
theorem preferred?_isPreferred_in_any_order (cs : List Compiler) :
    (preferred? cs = none ↔ cs = []) ∧
      IsPreferredAmong (· ∈ cs) (preferred? cs) ∧
      ∀ ds : List Compiler, ds.Perm cs →
        Option.Rel (fun d c => VersionsTie d c ∧ d.name = c.name) (preferred? ds)
          (preferred? cs) := by
  refine ⟨maxLast?_eq_none_iff, isPreferredAmong_preferred? cs, fun ds hperm => ?_⟩
  have hsame : ∀ c, c ∈ ds ↔ c ∈ cs := fun c => hperm.mem_iff
  exact ((isPreferredAmong_preferred? ds).congr hsame).unique (isPreferredAmong_preferred? cs)

/-- Two spellings of the newest version, of which the last is preferred, and a version
that cannot be read. -/
theorem preferred?_isPreferred_in_any_order_two_spellings :
    let cs : List Compiler := [⟨"gcc", "12.2"⟩, ⟨"gcc", "12_02"⟩, ⟨"clang", "?"⟩]
    let ds : List Compiler := [⟨"clang", "?"⟩, ⟨"gcc", "12_02"⟩, ⟨"gcc", "12.2"⟩]
    ds.Perm cs ∧ preferred? cs = some ⟨"gcc", "12_02"⟩ ∧ preferred? ds = some ⟨"gcc", "12.2"⟩ ∧
      IsPreferredAmong (· ∈ cs) (some ⟨"gcc", "12_02"⟩) ∧
      VersionsTie ⟨"gcc", "12.2"⟩ ⟨"gcc", "12_02"⟩ := by
  intro cs ds
  have hperm : ds.Perm cs := cs.reverse_perm
  have hcs : preferred? cs = some ⟨"gcc", "12_02"⟩ := by decide +kernel
  have hds : preferred? ds = some ⟨"gcc", "12.2"⟩ := by decide +kernel
  obtain ⟨_, hpreferred, hsame⟩ := preferred?_isPreferred_in_any_order cs
  have htie := hsame ds hperm
  rw [hcs] at hpreferred htie
  rw [hds] at htie
  obtain ⟨⟨hversions, _⟩⟩ := htie
  exact ⟨hperm, hcs, hds, hpreferred, hversions⟩

end Compiler

end DevSpecs
