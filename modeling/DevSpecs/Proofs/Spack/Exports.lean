import DevSpecs.Proofs.Spec.Pieces
import DevSpecs.Proofs.Text.Cutting
import DevSpecs.Spack.Output

/-!
# Reading exported variables back

A loading script holds one export with a quoted value on every line.  Its statements are
told apart at semicolons before quotes are looked at.  So a value without semicolons is
read as it is written, while a value with semicolons is cut at the first one, and what
follows in it may be read as exports of other variables.
-/

namespace DevSpecs

namespace Spack

open Text

/-! ## Single statements -/

theorem insideQuotes?_eq_some_iff {quote : Char} {t inside : Text} :
    insideQuotes? quote t = some inside ↔ t = quote :: (inside ++ [quote]) := by
  simp only [insideQuotes?, Option.bind_eq_bind, Option.bind_eq_some_iff,
    dropStart?_eq_some_iff, dropEnd?_eq_some_iff, exists_eq_right, List.singleton_append]

theorem withoutQuotes_of_quoted (value : Text) :
    withoutQuotes ('\'' :: (value ++ ['\''])) = value := by
  rw [withoutQuotes, insideQuotes?_eq_some_iff.mpr rfl]
  rfl

theorem mem_of_mem_withoutQuotes {t : Text} {c : Char} (h : c ∈ withoutQuotes t) : c ∈ t := by
  have hinside : ∀ quote inside, insideQuotes? quote t = some inside → c ∈ inside → c ∈ t := by
    intro quote inside hquoted hc
    rw [insideQuotes?_eq_some_iff.mp hquoted]
    exact List.mem_cons_of_mem _ (List.mem_append_left _ hc)
  rw [withoutQuotes] at h
  cases hsingle : insideQuotes? '\'' t with
  | some inside => exact hinside _ inside hsingle (by simpa [hsingle] using h)
  | none =>
      cases hdouble : insideQuotes? '"' t with
      | some inside => exact hinside _ inside hdouble (by simpa [hsingle, hdouble] using h)
      | none => simpa [hsingle, hdouble] using h

/-- What a statement that exports a value looks like. -/
theorem exported?_eq_some_iff {statement name value : Text} :
    exported? statement = some (name, value) ↔
      ∃ key written, trim statement = "export " ++ (key ++ '=' :: written) ∧ '=' ∉ key ∧
        trim key = name ∧ withoutQuotes (trim written) = value := by
  constructor
  · intro h
    rw [exported?, Option.bind_eq_bind, Option.bind_eq_some_iff] at h
    obtain ⟨assignment, hassignment, h⟩ := h
    obtain ⟨⟨key, written⟩, hcut, hread⟩ := Option.bind_eq_some_iff.mp h
    obtain ⟨rfl, hkey⟩ := cutAt_eq_some_iff.mp hcut
    obtain ⟨rfl, rfl⟩ := Prod.mk.inj (Option.some.inj hread)
    exact ⟨key, written, dropStart?_eq_some_iff.mp hassignment, hkey, rfl, rfl⟩
  · rintro ⟨key, written, hstatement, hkey, rfl, rfl⟩
    rw [exported?, dropStart?_eq_some_iff.mpr hstatement, Option.bind_eq_bind,
      Option.bind_some, cutAt_append hkey]
    rfl

theorem mem_of_exported? {statement name value : Text} {c : Char}
    (h : exported? statement = some (name, value)) (hc : c ∈ value) : c ∈ statement := by
  obtain ⟨key, written, hstatement, _, _, rfl⟩ := exported?_eq_some_iff.mp h
  have hwritten : c ∈ written := mem_of_mem_trim (mem_of_mem_withoutQuotes hc)
  apply mem_of_mem_trim
  rw [hstatement]
  simp [hwritten]

/-! ## The last of several assignments -/

/-- The last value that is assigned to the name. -/
def lastValue? (name : Text) (assignments : List (Text × Text)) : Option Text :=
  ((assignments.filter (·.1 == name)).getLast?).map Prod.snd

section LastValue

variable {name value : Text} {xs ys : List (Text × Text)}

theorem lastValue?_append :
    lastValue? name (xs ++ ys) = (lastValue? name ys).or (lastValue? name xs) := by
  rw [lastValue?, List.filter_append, List.getLast?_append, Option.map_or]
  rfl

theorem lastValue?_cons_of_ne {x : Text × Text} (h : x.1 ≠ name) :
    lastValue? name (x :: xs) = lastValue? name xs := by
  rw [lastValue?, List.filter_cons_of_neg (by simpa using h)]
  rfl

theorem lastValue?_singleton : lastValue? name [(name, value)] = some value := by
  simp [lastValue?]

theorem lastValue?_eq_none_iff : lastValue? name xs = none ↔ ∀ x ∈ xs, x.1 ≠ name := by
  simp [lastValue?]

theorem mem_of_lastValue? (h : lastValue? name xs = some value) : (name, value) ∈ xs := by
  obtain ⟨x, hx, rfl⟩ := Option.map_eq_some_iff.mp h
  obtain ⟨hmem, hname⟩ := List.mem_filter.mp (List.mem_of_getLast? hx)
  rwa [← beq_iff_eq.mp hname]

end LastValue

/-! ## Statements of a script -/

/-- Where a statement ends. -/
def endsStatement (c : Char) : Bool :=
  c == ';' || c == '\n'

theorem endsStatement_eq_false_iff {c : Char} :
    endsStatement c = false ↔ c ≠ ';' ∧ c ≠ '\n' := by
  rw [endsStatement, Bool.or_eq_false_iff, beq_eq_false_iff_ne, beq_eq_false_iff_ne]

/-- All that a script assigns, in order. -/
def assignments (script : Text) : List (Text × Text) :=
  (script.splitOnP endsStatement).filterMap exported?

theorem exportedVariable?_eq_lastValue? (script name : Text) :
    exportedVariable? script name = lastValue? name (assignments script) :=
  rfl

theorem assignments_append_cons (s t : Text) {c : Char} (hc : endsStatement c = true) :
    assignments (s ++ c :: t) = assignments s ++ assignments t := by
  rw [assignments, List.splitOnP_append_cons s t hc, List.filterMap_append]
  rfl

/-- A value that is read never spans statements, whatever the script. -/
theorem endsStatement_of_mem_exportedVariable? {script name value : Text}
    (h : exportedVariable? script name = some value) :
    ∀ c ∈ value, endsStatement c = false := by
  intro c hc
  obtain ⟨piece, hpiece, hexported⟩ := List.mem_filterMap.mp (mem_of_lastValue? h)
  exact (mem_splitOnP hpiece c (mem_of_exported? hexported hc)).1

/-! ## Exports with quoted values -/

/-- The characters of shell identifiers. -/
def isIdentifierChar (c : Char) : Bool :=
  isAlphanumeric c || c == '_'

/-- A shell identifier does not start with a digit. -/
def IsIdentifier (t : Text) : Prop :=
  t.head?.any (!·.isDigit) = true ∧ t.all isIdentifierChar = true

instance (t : Text) : Decidable (IsIdentifier t) :=
  inferInstanceAs (Decidable (_ ∧ _))

/-- A variable and a value that single quotes can hold on one line. -/
structure Export where
  name : Text
  value : Text
  isIdentifier : IsIdentifier name
  noBreak : '\n' ∉ value
  noQuote : '\'' ∉ value

namespace Export

/-- The statement up to the opening quote. -/
def opening (e : Export) : Text :=
  "export " ++ (e.name ++ ['=', '\''])

/-- The value up to the closing quote. -/
def closed (e : Export) : Text :=
  e.value ++ ['\'']

def statement (e : Export) : Text :=
  e.opening ++ e.closed

/-- One export on every line. -/
def script (es : List Export) : Text :=
  es.flatMap fun e => e.statement ++ [';', '\n']

def assignment (e : Export) : Text × Text :=
  (e.name, e.value)

/-- What is read of the value: what stands before its first semicolon, with the opening
quote if the closing one is not there. -/
def read (e : Export) : Text :=
  withoutQuotes (trim ('\'' :: (e.closed.splitOnP endsStatement).headD []))

/-- What the rest of the value assigns, if it is read as statements. -/
def strays (e : Export) : List (Text × Text) :=
  (e.closed.splitOnP endsStatement).tail.filterMap exported?

theorem not_mem_name {e : Export} {c : Char} (hc : isIdentifierChar c = false) :
    c ∉ e.name := by
  intro hmem
  rw [List.all_eq_true.mp e.isIdentifier.2 c hmem] at hc
  contradiction

theorem isBlank_of_isIdentifierChar {c : Char} (h : isIdentifierChar c = true) :
    isBlank c = false := by
  rw [isIdentifierChar, Bool.or_eq_true, beq_iff_eq] at h
  obtain hletter | rfl := h
  · exact Spec.isBlank_of_isAlphanumeric hletter
  · decide

theorem trim_name (e : Export) : trim e.name = e.name := by
  obtain ⟨hfirst, hall⟩ := e.isIdentifier
  refine trim_of_isWord
    ⟨?_, fun c hc => isBlank_of_isIdentifierChar (List.all_eq_true.mp hall c hc)⟩
  intro hnil
  rw [hnil] at hfirst
  contradiction

/-- An export that is cut within its quotes still assigns to its variable. -/
theorem exported?_opening_append (e : Export) (t : Text) :
    exported? (e.opening ++ t) = some (e.name, withoutQuotes (trim ('\'' :: t))) := by
  have hquote : trim ('\'' :: t) = trimEnd ('\'' :: t) := by
    rw [trim, trimStart_cons (by decide)]
  have hstart : trimStart ("export " ++ (e.name ++ ['='])) = "export " ++ (e.name ++ ['=']) :=
    trimStart_cons (by decide) ("xport " ++ (e.name ++ ['=']))
  have hopening : e.opening ++ t = ("export " ++ (e.name ++ ['='])) ++ '\'' :: t := by
    -- not by rewriting: the equation of `opening` takes the literal apart
    unfold opening
    rw [List.append_assoc, List.append_assoc, List.append_assoc, List.append_assoc]
    rfl
  refine exported?_eq_some_iff.mpr
    ⟨e.name, trim ('\'' :: t), ?_, not_mem_name (by decide), e.trim_name, by rw [trim_trim]⟩
  rw [hopening, trim_append_cons _ (by decide), hstart, hquote, List.append_assoc,
    List.append_assoc]
  rfl

theorem endsStatement_of_mem_opening {e : Export} {c : Char}
    (h : c ∈ e.opening) : endsStatement c = false := by
  have hkeyword : ("export " : Text).all (!endsStatement ·) = true := by decide
  have hsigns : ['=', '\''].all (!endsStatement ·) = true := by decide
  unfold opening at h
  rw [List.mem_append, List.mem_append] at h
  obtain hc | hc | hc := h
  · simpa using List.all_eq_true.mp hkeyword c hc
  · rw [endsStatement_eq_false_iff]
    exact ⟨fun heq => not_mem_name (by decide) (heq ▸ hc),
      fun heq => not_mem_name (by decide) (heq ▸ hc)⟩
  · simpa using List.all_eq_true.mp hsigns c hc

theorem assignments_statement (e : Export) :
    assignments e.statement = (e.name, e.read) :: e.strays := by
  obtain ⟨first, rest, hsplit⟩ :=
    List.exists_cons_of_ne_nil (List.splitOnP_ne_nil endsStatement e.closed)
  rw [assignments, statement, splitOnP_append_of_all _ fun c hc => endsStatement_of_mem_opening hc,
    hsplit, List.modifyHead_cons, List.filterMap_cons_some (exported?_opening_append e first),
    read, strays, hsplit]
  rfl

theorem closed_splitOnP {e : Export} (h : ';' ∉ e.value) :
    e.closed.splitOnP endsStatement = [e.closed] := by
  refine List.splitOnP_eq_singleton fun c hc => ?_
  rw [endsStatement_eq_false_iff]
  obtain hc | hc := List.mem_append.mp hc
  · exact ⟨fun heq => h (heq ▸ hc), fun heq => e.noBreak (heq ▸ hc)⟩
  · rw [List.mem_singleton.mp hc]
    decide

theorem read_of_not_mem {e : Export} (h : ';' ∉ e.value) : e.read = e.value := by
  have htrim : trim ('\'' :: e.closed) = '\'' :: e.closed := by
    rw [trim, trimStart_cons (by decide), closed, ← List.cons_append,
      trimEnd_append_singleton (by decide)]
  rw [read, closed_splitOnP h, List.headD_cons, htrim]
  exact withoutQuotes_of_quoted e.value

theorem strays_of_not_mem {e : Export} (h : ';' ∉ e.value) : e.strays = [] := by
  rw [strays, closed_splitOnP h]
  rfl

/-! ## Scripts -/

theorem assignments_script (es : List Export) :
    assignments (script es) = es.flatMap fun e => (e.name, e.read) :: e.strays := by
  induction es with
  | nil => rfl
  | cons e es ih =>
      have hscript : script (e :: es) = e.statement ++ ';' :: ([] ++ '\n' :: script es) := by
        simp [script]
      rw [hscript, assignments_append_cons _ _ (by decide), assignments_statement,
        assignments_append_cons _ _ (by decide), ih]
      rfl

variable {name : Text} {es before after : List Export} {e : Export}

/-- Of exports of other variables only what their values hold is read. -/
theorem lastValue?_assignments_of_ne (h : ∀ e ∈ es, e.name ≠ name) :
    lastValue? name (assignments (script es)) = lastValue? name (es.flatMap strays) := by
  rw [assignments_script]
  induction es with
  | nil => rfl
  | cons e es ih =>
      rw [List.flatMap_cons, lastValue?_append, lastValue?_cons_of_ne (h e List.mem_cons_self),
        ih fun f hf => h f (List.mem_cons_of_mem e hf), List.flatMap_cons, lastValue?_append]

/-- Behind the last export of a variable, only what later values hold is read. -/
theorem lastValue?_assignments_of_last (hafter : ∀ f ∈ after, f.name ≠ e.name)
    (huncut : ';' ∉ e.value) :
    lastValue? e.name (assignments (script (before ++ e :: after))) =
      some ((lastValue? e.name (after.flatMap strays)).getD e.value) := by
  have hlater := lastValue?_assignments_of_ne hafter
  rw [assignments_script] at hlater
  rw [assignments_script, List.flatMap_append, List.flatMap_cons, strays_of_not_mem huncut,
    read_of_not_mem huncut, lastValue?_append, lastValue?_append, hlater, lastValue?_singleton]
  cases lastValue? e.name (after.flatMap strays) <;> rfl

theorem lastValue?_map_of_ne (h : ∀ e ∈ es, e.name ≠ name) :
    lastValue? name (es.map assignment) = none := by
  rw [lastValue?_eq_none_iff, List.forall_mem_map]
  exact h

theorem lastValue?_map_of_last (hafter : ∀ f ∈ after, f.name ≠ e.name) :
    lastValue? e.name ((before ++ e :: after).map assignment) = some e.value := by
  rw [List.map_append, List.map_cons, ← List.singleton_append, lastValue?_append,
    lastValue?_append, lastValue?_map_of_ne hafter, assignment, lastValue?_singleton]
  rfl

theorem exists_last_of_name (h : ∃ e ∈ es, e.name = name) :
    ∃ before e after, es = before ++ e :: after ∧ e.name = name ∧
      ∀ f ∈ after, f.name ≠ name := by
  induction es with
  | nil => simp at h
  | cons e es ih =>
      by_cases hlater : ∃ f ∈ es, f.name = name
      · obtain ⟨before, f, after, rfl, hname, hafter⟩ := ih hlater
        exact ⟨e :: before, f, after, rfl, hname, hafter⟩
      · obtain ⟨f, hf, hname⟩ := h
        obtain rfl | hf := List.mem_cons.mp hf
        · exact ⟨[], f, es, rfl, hname, fun g hg heq => hlater ⟨g, hg, heq⟩⟩
        · exact absurd ⟨f, hf, hname⟩ hlater

/-- Nothing gets in the way of reading the variable back. -/
inductive ReadsBack (name : Text) : List Export → Prop
  /-- No export has the name, and no value holds one that has. -/
  | absent {es : List Export} (hes : ∀ e ∈ es, e.name ≠ name)
      (hstrays : ∀ e ∈ es, ∀ stray ∈ e.strays, stray.1 ≠ name) : ReadsBack name es
  /-- The last export of the name has no semicolon in its value, and what later values
  hold does not replace it by another one. -/
  | last {before after : List Export} {e : Export} (hname : e.name = name)
      (hafter : ∀ f ∈ after, f.name ≠ name) (huncut : ';' ∉ e.value)
      (hstrays : ∀ value ∈ lastValue? name (after.flatMap strays), value = e.value) :
      ReadsBack name (before ++ e :: after)

/-- Scripts without semicolons in their values are read back for every variable. -/
theorem readsBack_of_not_mem (name : Text) (h : ∀ e ∈ es, ';' ∉ e.value) :
    ReadsBack name es := by
  by_cases hown : ∃ e ∈ es, e.name = name
  · obtain ⟨before, e, after, rfl, hname, hafter⟩ := exists_last_of_name hown
    refine .last hname hafter (h e (by simp)) fun value hvalue => ?_
    obtain ⟨f, hf, hstray⟩ := List.mem_flatMap.mp (mem_of_lastValue? hvalue)
    rw [strays_of_not_mem (h f (by simp [hf]))] at hstray
    contradiction
  · refine .absent (fun e he hname => hown ⟨e, he, hname⟩) fun e he stray hstray => ?_
    rw [strays_of_not_mem (h e he)] at hstray
    contradiction

/-- A script of quoted exports gives back the last value of a variable, or nothing if it
exports none, exactly if this value has no semicolon and no later value holds another
export of the variable behind a semicolon. -/
theorem exportedVariable?_script_iff (es : List Export) (name : Text) :
    exportedVariable? (script es) name = lastValue? name (es.map assignment) ↔
      ReadsBack name es := by
  constructor
  · intro h
    by_cases hown : ∃ e ∈ es, e.name = name
    · obtain ⟨before, e, after, rfl, rfl, hafter⟩ := exists_last_of_name hown
      rw [lastValue?_map_of_last hafter] at h
      have huncut : ';' ∉ e.value := by
        intro hmem
        exact (endsStatement_eq_false_iff.mp
          (endsStatement_of_mem_exportedVariable? h ';' hmem)).1 rfl
      refine .last rfl hafter huncut fun value hvalue => ?_
      rw [exportedVariable?_eq_lastValue?, lastValue?_assignments_of_last hafter huncut,
        hvalue] at h
      exact Option.some.inj h
    · have hne : ∀ e ∈ es, e.name ≠ name := fun e he hname => hown ⟨e, he, hname⟩
      rw [lastValue?_map_of_ne hne, exportedVariable?_eq_lastValue?,
        lastValue?_assignments_of_ne hne, lastValue?_eq_none_iff] at h
      exact .absent hne fun e he stray hstray => h stray (List.mem_flatMap.mpr ⟨e, he, hstray⟩)
  · intro h
    rw [exportedVariable?_eq_lastValue?]
    cases h with
    | absent hes hstrays =>
        rw [lastValue?_assignments_of_ne hes, lastValue?_map_of_ne hes, lastValue?_eq_none_iff]
        intro stray hstray
        obtain ⟨e, he, hstray⟩ := List.mem_flatMap.mp hstray
        exact hstrays e he stray hstray
    | last hname hafter huncut hstrays =>
        subst hname
        rw [lastValue?_assignments_of_last hafter huncut, lastValue?_map_of_last hafter]
        cases hlater : lastValue? _ (List.flatMap strays _) with
        | none => rfl
        | some value => exact congrArg some (hstrays value hlater)

/-- A search path with a semicolon is cut, and what follows the semicolon in another
variable is taken for an export. -/
theorem exportedVariable?_cut_at_semicolon :
    let path : Export := ⟨"PATH", "/a;/b", by decide, by decide, by decide⟩
    let other : Export := ⟨"LUA_PATH", "/a;export PATH=/b", by decide, by decide, by decide⟩
    lastValue? "PATH" ([path].map assignment) = some "/a;/b" ∧
      exportedVariable? (script [path]) "PATH" = some "'/a" ∧
      lastValue? "PATH" ([other].map assignment) = none ∧
      exportedVariable? (script [other]) "PATH" = some "/b'" := by
  decide +kernel

end Export

end Spack

end DevSpecs
