import Mathlib.Data.List.Forall2

/-!
# Outcomes of computations

A computation may fail, and it may carry a state along.  This file says how the
outcome of a sequence of steps, and of one step for each element of a list,
follows from the outcomes of the steps, and when two outcomes are similar.
-/

namespace DevSpecs

/-! ## Results and failures -/

section Except

variable {ε α β : Type}

/-- An outcome that passes a check is a result. -/
theorem exists_ok_of_any (x : Except ε α) (check : α → Bool)
    (h : x.toOption.any check = true) : ∃ a, x = .ok a ∧ check a = true := by
  cases x with
  | error e => simp [Except.toOption] at h
  | ok a => exact ⟨a, rfl, by simpa [Except.toOption] using h⟩

theorem bind_eq_ok_iff {x : Except ε α} {f : α → Except ε β} {b : β} :
    (x >>= f) = .ok b ↔ ∃ a, x = .ok a ∧ f a = .ok b := by
  cases x with
  | error e => simp [bind, Except.bind]
  | ok a => simp [bind, Except.bind]

theorem check_bind_eq_ok_iff {x : Except ε Unit} {y : Except ε β} {b : β} :
    (x >>= fun _ => y) = .ok b ↔ x = .ok () ∧ y = .ok b := by
  cases x with
  | error e => simp [bind, Except.bind]
  | ok a => simp [bind, Except.bind]

theorem bind_eq_error_iff {x : Except ε α} {f : α → Except ε β} {e : ε} :
    (x >>= f) = .error e ↔ x = .error e ∨ ∃ a, x = .ok a ∧ f a = .error e := by
  cases x with
  | error e' => simp [bind, Except.bind]
  | ok a => simp [bind, Except.bind]

theorem mapError_eq_ok_iff {ε' : Type} {x : Except ε α} {g : ε → ε'} {a : α} :
    x.mapError g = .ok a ↔ x = .ok a := by
  cases x with
  | error e => simp [Except.mapError]
  | ok b => simp [Except.mapError]

theorem mapError_eq_error_iff {ε' : Type} {x : Except ε α} {g : ε → ε'} {e' : ε'} :
    x.mapError g = .error e' ↔ ∃ e, x = .error e ∧ g e = e' := by
  cases x with
  | error e => simp [Except.mapError]
  | ok b => simp [Except.mapError]

theorem map_eq_ok_iff {x : Except ε α} {g : α → β} {b : β} :
    x.map g = .ok b ↔ ∃ a, x = .ok a ∧ g a = b := by
  cases x with
  | error e => simp [Except.map]
  | ok a => simp [Except.map]

theorem map_eq_error_iff {x : Except ε α} {g : α → β} {e : ε} :
    x.map g = .error e ↔ x = .error e := by
  cases x with
  | error e' => simp [Except.map]
  | ok a => simp [Except.map]

variable {f : α → Except ε β} {xs : List α} {ys : List β}

/-- Every element is read when the outcomes are those of a list of results. -/
theorem mapM_eq_ok_iff : xs.mapM f = .ok ys ↔ xs.map f = ys.map .ok := by
  induction xs generalizing ys with
  | nil => cases ys <;> simp [pure, Except.pure]
  | cons x xs ih =>
      rw [List.mapM_cons, List.map_cons]
      cases hx : f x with
      | error e => cases ys <;> simp [bind, Except.bind]
      | ok y =>
          cases ys with
          | nil => cases xs.mapM f <;> simp [bind, Except.bind, pure, Except.pure]
          | cons z zs =>
              rw [List.map_cons, List.cons.injEq, ← ih]
              cases xs.mapM f <;> simp [bind, Except.bind, pure, Except.pure]

theorem mapM_eq_ok_iff_forall₂ :
    xs.mapM f = .ok ys ↔ List.Forall₂ (fun x y => f x = .ok y) xs ys := by
  rw [mapM_eq_ok_iff, ← List.forall₂_eq_eq_eq, List.forall₂_map_left_iff,
    List.forall₂_map_right_iff]

/-- The first element without a result decides the failure. -/
theorem mapM_eq_error_iff {e : ε} :
    xs.mapM f = .error e ↔
      ∃ before x after, xs = before ++ x :: after ∧
        (∀ earlier ∈ before, ∃ y, f earlier = .ok y) ∧ f x = .error e := by
  induction xs with
  | nil => simp [pure, Except.pure]
  | cons x xs ih =>
      have hlater : ∀ y, (xs.mapM f >>= fun ys => pure (y :: ys)) = .error e ↔
          xs.mapM f = .error e := by
        intro y
        rw [bind_eq_error_iff]
        simp [pure, Except.pure]
      rw [List.mapM_cons, bind_eq_error_iff]
      simp only [hlater, ih]
      constructor
      · rintro (hx | ⟨y, hy, before, z, after, rfl, hbefore, hz⟩)
        · exact ⟨[], x, xs, rfl, nofun, hx⟩
        · exact ⟨x :: before, z, after, rfl,
            List.forall_mem_cons.mpr ⟨⟨y, hy⟩, hbefore⟩, hz⟩
      · rintro ⟨before, z, after, heq, hbefore, hz⟩
        cases before with
        | nil =>
            obtain ⟨rfl, rfl⟩ := List.cons.inj heq
            exact .inl hz
        | cons x' before =>
            obtain ⟨rfl, rfl⟩ := List.cons.inj heq
            obtain ⟨⟨y, hy⟩, hbefore⟩ := List.forall_mem_cons.mp hbefore
            exact .inr ⟨y, hy, before, z, after, rfl, hbefore, hz⟩

/-- Combining the results of a step for each element, one after another, is
combining them all in the end. -/
theorem foldlM_eq_map_mapM {σ : Type} (combine : σ → β → σ) (start : σ) :
    (xs.foldlM (fun s x => do return combine s (← f x)) start) =
      (xs.mapM f).map fun ys => ys.foldl combine start := by
  induction xs generalizing start with
  | nil => rfl
  | cons x xs ih =>
      rw [List.foldlM_cons, List.mapM_cons]
      cases hx : f x with
      | error e => rfl
      | ok y =>
          change xs.foldlM _ (combine start y) = _
          rw [ih]
          cases xs.mapM f with
          | error e => rfl
          | ok ys => rfl

theorem exists_mapM_eq_ok (h : ∀ x ∈ xs, ∃ y, f x = .ok y) :
    ∃ ys, xs.mapM f = .ok ys := by
  simp only [mapM_eq_ok_iff]
  induction xs with
  | nil => exact ⟨[], rfl⟩
  | cons x xs ih =>
      obtain ⟨⟨y, hy⟩, hrest⟩ := List.forall_mem_cons.mp h
      obtain ⟨ys, hys⟩ := ih hrest
      exact ⟨y :: ys, by rw [List.map_cons, List.map_cons, hy, hys]⟩

theorem mem_iff_of_mapM_eq_ok (h : xs.mapM f = .ok ys) {y : β} :
    y ∈ ys ↔ ∃ x ∈ xs, f x = .ok y := by
  rw [← List.mem_map, mapM_eq_ok_iff.mp h]
  simp

theorem exists_mem_of_mapM_eq_ok (h : xs.mapM f = .ok ys) {x : α}
    (hx : x ∈ xs) : ∃ y ∈ ys, f x = .ok y := by
  have hmem : f x ∈ xs.map f := List.mem_map_of_mem hx
  rw [mapM_eq_ok_iff.mp h] at hmem
  obtain ⟨y, hy, heq⟩ := List.mem_map.mp hmem
  exact ⟨y, hy, heq.symm⟩

end Except

/-- Steps that are the same on all elements of a list make the same sequence. -/
theorem mapM_congr_left {m : Type → Type} [Monad m] [LawfulMonad m]
    {α β : Type} {f g : α → m β} {xs : List α} (h : ∀ x ∈ xs, f x = g x) :
    xs.mapM f = xs.mapM g := by
  induction xs with
  | nil => rfl
  | cons x xs ih =>
      obtain ⟨hx, hrest⟩ := List.forall_mem_cons.mp h
      rw [List.mapM_cons, List.mapM_cons, hx, ih hrest]

/-! ## Similar outcomes -/

section Alike

variable {ε α : Type} {R S : α → α → Prop}

/-- Every element of either list is related to one of the other. -/
structure Matched (R : α → α → Prop) (xs ys : List α) : Prop where
  right : ∀ x ∈ xs, ∃ y ∈ ys, R x y
  left : ∀ y ∈ ys, ∃ x ∈ xs, R x y

section Matched

variable {xs ys : List α}

theorem Matched.flip (h : Matched R xs ys) :
    Matched (fun y x => R x y) ys xs where
  right := h.left
  left := h.right

theorem matched_eq_iff : Matched Eq xs ys ↔ ∀ x, x ∈ xs ↔ x ∈ ys := by
  constructor
  · intro h x
    constructor
    · intro hx
      obtain ⟨y, hy, rfl⟩ := h.right x hx
      exact hy
    · intro hx
      obtain ⟨y, hy, rfl⟩ := h.left x hx
      exact hy
  · intro h
    exact ⟨fun x hx => ⟨x, (h x).mp hx, rfl⟩, fun x hx => ⟨x, (h x).mpr hx, rfl⟩⟩

theorem matched_refl (hrefl : ∀ x, R x x) (xs : List α) : Matched R xs xs where
  right x hx := ⟨x, hx, hrefl x⟩
  left x hx := ⟨x, hx, hrefl x⟩

end Matched

/-- Both fail, or both have results and the results are related. -/
inductive EndsAlike (R : α → α → Prop) : Except ε α → Except ε α → Prop
  | failed (e e' : ε) : EndsAlike R (.error e) (.error e')
  | succeeded (a b : α) (h : R a b) : EndsAlike R (.ok a) (.ok b)

section EndsAlike

variable {x y : Except ε α}

theorem EndsAlike.of_forall (hright : ∀ a, x = .ok a → ∃ b, y = .ok b ∧ R a b)
    (hleft : ∀ b, y = .ok b → ∃ a, x = .ok a) : EndsAlike R x y := by
  cases x with
  | error e =>
      cases y with
      | error e' => exact .failed e e'
      | ok b =>
          obtain ⟨a, ha⟩ := hleft b rfl
          cases ha
  | ok a =>
      obtain ⟨b, rfl, hab⟩ := hright a rfl
      exact .succeeded a b hab

theorem EndsAlike.exists_of_ok {a : α} (h : EndsAlike R x y) (hx : x = .ok a) :
    ∃ b, y = .ok b ∧ R a b := by
  subst hx
  cases h with
  | succeeded _ b hab => exact ⟨b, rfl, hab⟩

theorem EndsAlike.flip (h : EndsAlike R x y) :
    EndsAlike (fun b a => R a b) y x := by
  cases h with
  | failed e e' => exact .failed e' e
  | succeeded a b hab => exact .succeeded b a hab

theorem EndsAlike.imp (himp : ∀ a b, R a b → S a b) (h : EndsAlike R x y) :
    EndsAlike S x y := by
  cases h with
  | failed e e' => exact .failed e e'
  | succeeded a b hab => exact .succeeded a b (himp a b hab)

theorem EndsAlike.eq_ok_iff {a : α} (h : EndsAlike Eq x y) :
    x = .ok a ↔ y = .ok a := by
  cases h with
  | failed e e' => exact iff_of_false (by simp) (by simp)
  | succeeded _ _ hab => rw [hab]

theorem endsAlike_refl (hrefl : ∀ a, R a a) (x : Except ε α) :
    EndsAlike R x x := by
  cases x with
  | error e => exact .failed e e
  | ok a => exact .succeeded a a (hrefl a)

end EndsAlike

end Alike

/-! ## Runs with a state -/

section Run

variable {ε σ α β : Type}

theorem run_get (s : σ) :
    (get : ExceptT ε (StateM σ) σ).run s = (.ok s, s) :=
  rfl

theorem run_set (s t : σ) :
    (set t : ExceptT ε (StateM σ) PUnit).run s = (.ok ⟨⟩, t) :=
  rfl

theorem run_pure (a : α) (s : σ) :
    (pure a : ExceptT ε (StateM σ) α).run s = (.ok a, s) :=
  rfl

theorem run_bind (x : ExceptT ε (StateM σ) α) (f : α → ExceptT ε (StateM σ) β)
    (s : σ) :
    (x >>= f).run s =
      match x.run s with
      | (.ok a, t) => (f a).run t
      | (.error e, t) => (.error e, t) := by
  change (match x.run s with
    | (a, t) => ExceptT.bindCont f a t) = _
  rcases x.run s with ⟨e | a, t⟩
  · rfl
  · rfl

theorem run_bind_pure_fst (x : ExceptT ε (StateM σ) α) (k : α → β) (s : σ) :
    ((x >>= fun a => pure (k a)).run s).1 = (x.run s).1.map k := by
  rw [run_bind]
  rcases x.run s with ⟨e | a, t⟩ <;> rfl

theorem run_bind_pure_snd (x : ExceptT ε (StateM σ) α) (k : α → β) (s : σ) :
    ((x >>= fun a => pure (k a)).run s).2 = (x.run s).2 := by
  rw [run_bind]
  rcases x.run s with ⟨e | a, t⟩ <;> rfl

/-- When the state has no influence on the outcome of any step, it has none on
the outcome of all of them. -/
theorem run_mapM_fst {f : α → ExceptT ε (StateM σ) β} {g : α → Except ε β}
    (hstep : ∀ a s, ((f a).run s).1 = g a) (xs : List α) (s : σ) :
    ((xs.mapM f).run s).1 = xs.mapM g := by
  induction xs generalizing s with
  | nil => rfl
  | cons x xs ih =>
      rw [List.mapM_cons, List.mapM_cons, run_bind, ← hstep x s]
      rcases (f x).run s with ⟨e | y, t⟩
      · rfl
      · dsimp only
        rw [run_bind, ← ih t]
        rcases (xs.mapM f).run t with ⟨e | ys, u⟩ <;> rfl

/-- The results of steps for distinct elements are the values of a function, each
of which is what the step for the element answers at some point of the run. -/
theorem exists_map_of_run_mapM [Inhabited β]
    {f : α → ExceptT ε (StateM σ) β} {xs : List α} {ys : List β} {s : σ}
    (hnodup : xs.Nodup) (h : ((xs.mapM f).run s).1 = .ok ys) :
    ∃ g : α → β, ys = xs.map g ∧
      ∀ x ∈ xs, ∃ t, ((f x).run t).1 = .ok (g x) := by
  classical
  induction xs generalizing s ys with
  | nil =>
      obtain rfl : [] = ys := Except.ok.inj h
      exact ⟨fun _ => default, rfl, by simp⟩
  | cons x xs ih =>
      obtain ⟨hx, hnodup⟩ := List.nodup_cons.mp hnodup
      rw [List.mapM_cons, run_bind] at h
      rcases hfirst : (f x).run s with ⟨e | y, t⟩
      · rw [hfirst] at h
        contradiction
      · rw [hfirst] at h
        dsimp only at h
        rw [run_bind_pure_fst] at h
        cases hrest : ((xs.mapM f).run t).1 with
        | error e =>
            rw [hrest] at h
            contradiction
        | ok zs =>
            rw [hrest] at h
            obtain rfl : y :: zs = ys := Except.ok.inj h
            obtain ⟨g, rfl, hg⟩ := ih hnodup hrest
            let extended (a : α) : β := if a = x then y else g a
            have hself : extended x = y := if_pos rfl
            have hother : ∀ a ∈ xs, extended a = g a := by
              intro a ha
              refine if_neg ?_
              rintro rfl
              exact hx ha
            refine ⟨extended, ?_, ?_⟩
            · rw [List.map_cons, hself, List.map_congr_left hother]
            · intro a ha
              rcases List.mem_cons.mp ha with rfl | ha
              · exact ⟨s, by rw [hself, hfirst]⟩
              · rw [hother a ha]
                exact hg a ha

/-- When every step has a result of its own whatever the environment and the
state are, and leaves the state, so has the sequence of the steps. -/
theorem exists_run_mapM_of_quiet {ι : Type}
    {f : ι → α → ExceptT ε (StateM σ) β} {xs : List α}
    (hquiet : ∀ x ∈ xs, ∃ y, ∀ i s, (f i x).run s = (.ok y, s)) :
    ∃ ys, ∀ i s, (xs.mapM (f i)).run s = (.ok ys, s) := by
  induction xs with
  | nil => exact ⟨[], fun i s => rfl⟩
  | cons x xs ih =>
      obtain ⟨⟨y, hy⟩, hrest⟩ := List.forall_mem_cons.mp hquiet
      obtain ⟨ys, hys⟩ := ih hrest
      refine ⟨y :: ys, fun i s => ?_⟩
      rw [List.mapM_cons, run_bind, hy]
      dsimp only
      rw [run_bind, hys]
      rfl

end Run

end DevSpecs
