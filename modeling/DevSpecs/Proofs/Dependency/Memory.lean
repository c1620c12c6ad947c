import DevSpecs.Proofs.Dependency.Asking

/-!
# What a dependency remembers

All that a dependency wants to know from an index comes from two kinds of
inquiry.  If nothing were remembered, every inquiry would send its query, and
what the index answers at that moment would decide how it ends.  This is what
happens until an inquiry of the kind succeeds; from then on its answer is
repeated and no query of the kind is sent.  A failure leaves no trace.
-/

namespace DevSpecs
namespace Dependency

variable {d : Dependency} {index : Index} {s t : Knowledge}

/-! ## Inquiries -/

/-- The two kinds of inquiry. -/
inductive Kind where
  | latest
  | externals
  deriving DecidableEq

/-- The queries of an inquiry.  There is no newest version without ranges, so
the index is not asked for it. -/
def queriesFor (d : Dependency) : Kind → List Query
  | .latest => if d.ranges = [] then [] else [.latest d.package]
  | .externals => [.externals d.package]

/-- How an inquiry ends when its query is sent after a history. -/
def freshOutcome (d : Dependency) (index : Index) (history : History) :
    Kind → Except ResolveError (Option Version)
  | .latest =>
    if d.ranges = [] then .ok none
    else
      match index.latest history d.package with
      | .error cause => .error (.index cause)
      | .ok newest =>
        match VersionRange.newestUpTo? newest d.ranges with
        | none =>
          .error (.emptyIntersection d.package newest.text d.versionToken)
        | some v => .ok (some v)
  | .externals =>
    match index.externals history d.package with
    | .error cause => .error (.index cause)
    | .ok versions => .ok (VersionRange.newestInAll? d.ranges versions)

/-- Make an inquiry. -/
def inquire (d : Dependency) (index : Index) :
    Kind → Asking (Option Version)
  | .latest => d.newestVersion index
  | .externals => d.newestExternal index

/-- The remembered answer of a kind, if there is one. -/
def Learnt.recall (learnt : Learnt) : Kind → Option (Option Version)
  | .latest => learnt.latest.map some
  | .externals => learnt.external

/-- What is learnt from how an inquiry ends: an answer, but no failure. -/
def Learnt.remember (learnt : Learnt) :
    Kind → Except ResolveError (Option Version) → Learnt
  | .latest, .ok (some v) => { learnt with latest := some v }
  | .externals, .ok answer => { learnt with external := some answer }
  | _, _ => learnt

theorem inquire_of_recall_none {kind : Kind}
    (hrecall : s.1.recall kind = none) :
    (d.inquire index kind).run s =
      (d.freshOutcome index s.2 kind,
        s.1.remember kind (d.freshOutcome index s.2 kind),
        s.2 ++ d.queriesFor kind) := by
  cases kind with
  | latest =>
      have hlearnt : s.1.latest = none := by
        simpa [Learnt.recall] using hrecall
      have hends := newestVersion_ends d index s
      simp only [inquire]
      generalize (d.newestVersion index).run s = r at hends
      cases hends with
      | unconstrained hranges =>
          simp [freshOutcome, queriesFor, hranges, Learnt.remember]
      | repeated v _ h => simp [hlearnt] at h
      | failed cause hranges _ hquery =>
          simp [freshOutcome, queriesFor, hranges, hquery, Learnt.remember]
      | empty newest hranges _ hquery hwalk =>
          simp [freshOutcome, queriesFor, hranges, hquery, hwalk,
            Learnt.remember]
      | found newest v hranges _ hquery hwalk =>
          simp [freshOutcome, queriesFor, hranges, hquery, hwalk,
            Learnt.remember]
  | externals =>
      have hlearnt : s.1.external = none := hrecall
      have hends := newestExternal_ends d index s
      simp only [inquire]
      generalize (d.newestExternal index).run s = r at hends
      cases hends with
      | repeated answer h => simp [hlearnt] at h
      | failed cause _ hquery =>
          simp [freshOutcome, queriesFor, hquery, Learnt.remember]
      | found versions _ hquery =>
          simp [freshOutcome, queriesFor, hquery, Learnt.remember]

theorem inquire_of_recall_some {kind : Kind} {answer : Option Version}
    (hranges : kind = .latest → d.ranges ≠ [])
    (hrecall : s.1.recall kind = some answer) :
    (d.inquire index kind).run s = (.ok answer, s) := by
  cases kind with
  | latest =>
      obtain ⟨v, hlearnt, rfl⟩ : ∃ v, s.1.latest = some v ∧ some v = answer :=
        Option.map_eq_some_iff.mp hrecall
      have hends := newestVersion_ends d index s
      simp only [inquire]
      generalize (d.newestVersion index).run s = r at hends
      cases hends with
      | unconstrained hnone => exact absurd hnone (hranges rfl)
      | repeated w _ h =>
          obtain rfl : v = w := Option.some.inj (hlearnt.symm.trans h)
          rfl
      | failed _ _ h _ => simp [hlearnt] at h
      | empty _ _ h _ _ => simp [hlearnt] at h
      | found _ _ _ h _ _ => simp [hlearnt] at h
  | externals =>
      have hlearnt : s.1.external = some answer := hrecall
      have hends := newestExternal_ends d index s
      simp only [inquire]
      generalize (d.newestExternal index).run s = r at hends
      cases hends with
      | repeated answer' h =>
          obtain rfl : answer = answer' :=
            Option.some.inj (hlearnt.symm.trans h)
          rfl
      | failed _ h _ => simp [hlearnt] at h
      | found _ h _ => simp [hlearnt] at h

/-! ## Transcripts -/

/-- An inquiry that has been made. -/
structure Inquiry where
  kind : Kind
  outcome : Except ResolveError (Option Version)
  /-- The queries sent for it. -/
  sent : List Query

/-- The inquiry that is made when `s` is known. -/
def inquiry (d : Dependency) (index : Index) (s : Knowledge) (kind : Kind) :
    Inquiry where
  kind := kind
  outcome := ((d.inquire index kind).run s).1
  sent := ((d.inquire index kind).run s).2.2.drop s.2.length

/-- The inquiries of a question.  The specs for a mode take an external and then
a newest version, if they take any. -/
def Question.inquiries (d : Dependency) (index : Index) (s : Knowledge) :
    Question → List Inquiry
  | newestVersion => [d.inquiry index s .latest]
  | newestExternal => [d.inquiry index s .externals]
  | specs mode unresolve =>
    if d.ranges = [] ∨ d.effectiveMode mode unresolve ≠ .latest then []
    else
      d.inquiry index s .externals ::
        match (d.inquire index .externals).run s with
        | (.error _, _) => []
        | (.ok _, t) => [d.inquiry index t .latest]

/-- The inquiries of several questions, one after the other. -/
def transcript (d : Dependency) (index : Index) (s : Knowledge) :
    List Question → List Inquiry
  | [] => []
  | q :: rest =>
    q.inquiries d index s ++ transcript d index (q.after d index s) rest

/-- The first answer to an inquiry of a kind. -/
def firstAnswer (kind : Kind) (inquiries : List Inquiry) :
    Option (Option Version) :=
  inquiries.findSome? fun x =>
    if x.kind = kind then x.outcome.toOption else none

/-- Inquiries made one after the other lead from one knowledge to another. -/
inductive Leads (d : Dependency) (index : Index) :
    Knowledge → List Inquiry → Knowledge → Prop
  | nil (s : Knowledge) : Leads d index s [] s
  | cons {s t : Knowledge} {inquiries : List Inquiry} (kind : Kind)
      (hrest : Leads d index ((d.inquire index kind).run s).2 inquiries t) :
      Leads d index s (d.inquiry index s kind :: inquiries) t

theorem Leads.append {u : Knowledge} {xs ys : List Inquiry}
    (hxs : Leads d index s xs t) (hys : Leads d index t ys u) :
    Leads d index s (xs ++ ys) u := by
  induction hxs with
  | nil => exact hys
  | cons kind _ ih => exact .cons kind (ih hys)

/-- An external and then a newest version are inquired about. -/
theorem leads_externals_latest {u : Knowledge} {external : Option Version}
    {outcome : Except ResolveError (Option Version)}
    (hexternal : (d.inquire index .externals).run s = (.ok external, t))
    (hlatest : (d.inquire index .latest).run t = (outcome, u)) :
    Leads d index s
      [d.inquiry index s .externals, d.inquiry index t .latest] u := by
  have hlast : Leads d index t [d.inquiry index t .latest] u := by
    have hone : Leads d index t [d.inquiry index t .latest]
        ((d.inquire index .latest).run t).2 := .cons .latest (.nil _)
    rwa [hlatest] at hone
  refine .cons .externals ?_
  rwa [hexternal]

/-- A question changes what is known by its inquiries only. -/
theorem Question.inquiries_lead (q : Question) :
    Leads d index s (q.inquiries d index s) (q.after d index s) := by
  cases q with
  | newestVersion => exact .cons .latest (.nil _)
  | newestExternal => exact .cons .externals (.nil _)
  | specs mode unresolve =>
      have hends := specs_ends d mode unresolve index s
      simp only [Question.inquiries, Question.after]
      generalize (d.specs mode unresolve index).run s = r at hends
      cases hends with
      | unconstrained hranges => simpa [hranges] using Leads.nil s
      | any _ hmode => simpa [hmode] using Leads.nil s
      | minimum _ hmode => simpa [hmode] using Leads.nil s
      | externalFailed e t hranges hmode hexternal =>
          have hrun : (d.inquire index .externals).run s = (.error e, t) :=
            hexternal
          have hone : Leads d index s [d.inquiry index s .externals]
              ((d.inquire index .externals).run s).2 := .cons .externals (.nil _)
          simpa [hranges, hmode, hrun] using hone
      | versionFailed external e t u hranges hmode hexternal hlatest =>
          have hrun : (d.inquire index .externals).run s = (.ok external, t) :=
            hexternal
          simpa [hranges, hmode, hrun] using
            leads_externals_latest hexternal hlatest
      | latest external latest t u hranges hmode hexternal hlatest =>
          have hrun : (d.inquire index .externals).run s = (.ok external, t) :=
            hexternal
          simpa [hranges, hmode, hrun] using
            leads_externals_latest hexternal hlatest

theorem transcript_leads (questions : List Question) :
    Leads d index s (transcript d index s questions)
      (afterAll d index s questions) := by
  induction questions generalizing s with
  | nil => exact .nil s
  | cons q rest ih => exact q.inquiries_lead.append ih

/-! ## First answers -/

theorem firstAnswer_concat_of_ne {kind : Kind} {x : Inquiry}
    (xs : List Inquiry) (h : x.kind ≠ kind) :
    firstAnswer kind (xs ++ [x]) = firstAnswer kind xs := by
  simp [firstAnswer, h]

theorem firstAnswer_concat_of_some {kind : Kind} {x : Inquiry}
    {xs : List Inquiry} {answer : Option Version}
    (h : firstAnswer kind xs = some answer) :
    firstAnswer kind (xs ++ [x]) = some answer := by
  rw [firstAnswer] at h
  rw [firstAnswer, List.findSome?_append, h]
  rfl

theorem firstAnswer_concat_of_none {kind : Kind} {x : Inquiry}
    {xs : List Inquiry} (hkind : x.kind = kind)
    (h : firstAnswer kind xs = none) :
    firstAnswer kind (xs ++ [x]) = x.outcome.toOption := by
  rw [firstAnswer] at h
  rw [firstAnswer, List.findSome?_append, h]
  simp [hkind]

/-- Answers of this kind are stored.  There is nothing to store about newest
versions without ranges. -/
def Stores (d : Dependency) (kind : Kind) : Prop :=
  kind = .latest → d.ranges ≠ []

/-- The stored answers are the first ones. -/
structure Records (d : Dependency) (learnt : Learnt)
    (inquiries : List Inquiry) : Prop where
  recall_eq : ∀ kind, d.Stores kind →
    learnt.recall kind = firstAnswer kind inquiries
  nothing : ∀ kind, ¬d.Stores kind →
    learnt.recall kind = none ∧
      ∀ answer ∈ firstAnswer kind inquiries, answer = none

theorem records_nil : Records d {} [] where
  recall_eq kind _ := by cases kind <;> rfl
  nothing kind _ := ⟨by cases kind <;> rfl, by simp [firstAnswer]⟩

theorem not_stores {kind : Kind} (h : ¬d.Stores kind) :
    kind = .latest ∧ d.ranges = [] := by
  simpa [Stores] using h

theorem remember_error {learnt : Learnt} (kind : Kind) (e : ResolveError) :
    learnt.remember kind (.error e) = learnt := by
  cases kind <;> rfl

theorem recall_remember_of_ne {learnt : Learnt} {kind kind' : Kind}
    {outcome : Except ResolveError (Option Version)} (h : kind ≠ kind') :
    (learnt.remember kind outcome).recall kind' = learnt.recall kind' := by
  rcases outcome with e | answer
  · rw [remember_error]
  · cases kind <;> cases kind'
    case latest.externals => cases answer <;> rfl
    case externals.latest => rfl
    all_goals exact absurd rfl h

theorem recall_remember_self {learnt : Learnt} {kind : Kind}
    {outcome : Except ResolveError (Option Version)}
    (hrecall : learnt.recall kind = none)
    (hversion : kind = .latest → outcome ≠ .ok none) :
    (learnt.remember kind outcome).recall kind = outcome.toOption := by
  rcases outcome with e | answer
  · rw [remember_error, hrecall]
    rfl
  · cases kind with
    | externals => rfl
    | latest =>
        cases answer with
        | none => exact absurd rfl (hversion rfl)
        | some v => rfl

/-- With ranges, the index is asked for a version until there is one. -/
theorem freshOutcome_latest_ne_none {history : History}
    (hranges : d.ranges ≠ []) :
    d.freshOutcome index history .latest ≠ .ok none := by
  simp only [freshOutcome, hranges, if_false]
  cases index.latest history d.package with
  | error cause => simp
  | ok newest =>
      dsimp only
      cases VersionRange.newestUpTo? newest d.ranges <;> simp

theorem freshOutcome_of_not_stores (index : Index) (history : History)
    {kind : Kind} (h : ¬d.Stores kind) :
    d.freshOutcome index history kind = .ok none ∧ d.queriesFor kind = [] := by
  obtain ⟨rfl, hranges⟩ := not_stores h
  simp [freshOutcome, queriesFor, hranges]

/-! ## One inquiry -/

/-- How an inquiry is made after others. -/
structure FollowsUp (d : Dependency) (index : Index) (history : History)
    (earlier : List Inquiry) (x : Inquiry) : Prop where
  /-- The first answer is repeated, and the index is not asked. -/
  repeats : ∀ answer, firstAnswer x.kind earlier = some answer →
    x.outcome = .ok answer ∧ x.sent = []
  /-- Without an answer the index is asked, even if it was asked before. -/
  asks : firstAnswer x.kind earlier = none →
    x.outcome =
        d.freshOutcome index (history ++ earlier.flatMap Inquiry.sent) x.kind ∧
      x.sent = d.queriesFor x.kind

theorem inquiry_of_recall_none (d : Dependency) (index : Index) {kind : Kind}
    (hrecall : s.1.recall kind = none) :
    (d.inquiry index s kind).outcome = d.freshOutcome index s.2 kind ∧
      (d.inquiry index s kind).sent = d.queriesFor kind := by
  simp [inquiry, inquire_of_recall_none hrecall]

theorem inquiry_of_recall_some (index : Index) {kind : Kind}
    {answer : Option Version} (hstores : d.Stores kind) (hrecall : s.1.recall kind = some answer) :
    (d.inquiry index s kind).outcome = .ok answer ∧
      (d.inquiry index s kind).sent = [] := by
  simp [inquiry, inquire_of_recall_some hstores hrecall]

/-- What is stored, or that nothing is. -/
theorem Records.cases {learnt : Learnt} {inquiries : List Inquiry}
    (h : Records d learnt inquiries) (kind : Kind) :
    (learnt.recall kind = none ∧
      ∀ answer ∈ firstAnswer kind inquiries,
        answer = none ∧ ¬d.Stores kind) ∨
    ∃ answer, d.Stores kind ∧ learnt.recall kind = some answer ∧
      firstAnswer kind inquiries = some answer := by
  by_cases hstores : d.Stores kind
  · have heq := h.recall_eq kind hstores
    cases hrecall : learnt.recall kind with
    | none => exact .inl ⟨rfl, by simp [← heq, hrecall]⟩
    | some answer => exact .inr ⟨answer, hstores, rfl, heq ▸ hrecall⟩
  · obtain ⟨hrecall, hanswer⟩ := h.nothing kind hstores
    exact .inl ⟨hrecall, fun answer ha => ⟨hanswer answer ha, hstores⟩⟩

theorem inquiry_followsUp (index : Index) {earlier : List Inquiry} {history : History}
    (kind : Kind) (hrecords : Records d s.1 earlier)
    (hhistory : s.2 = history ++ earlier.flatMap Inquiry.sent) :
    FollowsUp d index history earlier (d.inquiry index s kind) := by
  rcases hrecords.cases kind with ⟨hrecall, hnothing⟩ | ⟨a, hstores, hrecall, ha⟩
  · obtain ⟨houtcome, hsent⟩ :=
      inquiry_of_recall_none d index hrecall
    constructor
    · intro answer hanswer
      obtain ⟨rfl, hstores⟩ := hnothing answer hanswer
      obtain ⟨hfresh, hqueries⟩ := freshOutcome_of_not_stores index s.2 hstores
      exact ⟨houtcome.trans hfresh, hsent.trans hqueries⟩
    · intro _
      exact ⟨hhistory ▸ houtcome, hsent⟩
  · obtain ⟨houtcome, hsent⟩ :=
      inquiry_of_recall_some index hstores hrecall
    constructor
    · intro answer hanswer
      obtain rfl : a = answer := Option.some.inj (ha.symm.trans hanswer)
      exact ⟨houtcome, hsent⟩
    · intro hnone
      exact absurd (ha.symm.trans hnone) (by simp)

/-! ## Runs of inquiries -/

/-- Every inquiry of a list follows up on those before it. -/
def FollowUps (d : Dependency) (index : Index) (history : History)
    (inquiries : List Inquiry) : Prop :=
  ∀ earlier x later, inquiries = earlier ++ x :: later →
    FollowsUp d index history earlier x

/-- What is known after inquiries: their first answers, and their queries. -/
structure LeftBehind (d : Dependency) (history : History)
    (inquiries : List Inquiry) (s : Knowledge) : Prop where
  records : Records d s.1 inquiries
  history_eq : s.2 = history ++ inquiries.flatMap Inquiry.sent

/-- A repeated answer changes nothing. -/
theorem LeftBehind.repeat {history : History} {earlier : List Inquiry}
    {kind : Kind} {answer : Option Version}
    (h : LeftBehind d history earlier s) (hstores : d.Stores kind)
    (hrecall : s.1.recall kind = some answer)
    (hanswer : firstAnswer kind earlier = some answer) :
    LeftBehind d history (earlier ++ [d.inquiry index s kind]) s where
  records := by
    constructor
    · intro kind' hstores'
      have heq := h.records.recall_eq kind' hstores'
      by_cases hkind : kind = kind'
      · subst hkind
        rw [hrecall, firstAnswer_concat_of_some hanswer]
      · rw [heq, firstAnswer_concat_of_ne earlier hkind]
    · intro kind' hstores'
      have hkind : kind ≠ kind' := fun heq => hstores' (heq ▸ hstores)
      rw [firstAnswer_concat_of_ne earlier hkind]
      exact h.records.nothing kind' hstores'
  history_eq := by
    have hsent := (inquiry_of_recall_some index hstores hrecall).2
    simp [hsent, h.history_eq]

/-- A query leaves its answer behind, if it has one. -/
theorem LeftBehind.ask {history : History} {earlier : List Inquiry}
    {kind : Kind} (h : LeftBehind d history earlier s)
    (hrecall : s.1.recall kind = none)
    (hanswer : d.Stores kind → firstAnswer kind earlier = none) :
    LeftBehind d history (earlier ++ [d.inquiry index s kind])
      ((d.inquire index kind).run s).2 where
  records := by
    obtain ⟨houtcome, -⟩ :=
      inquiry_of_recall_none d index hrecall
    have hself : (d.inquiry index s kind).kind = kind := rfl
    rw [inquire_of_recall_none hrecall]
    constructor
    · intro kind' hstores
      by_cases hkind : kind' = kind
      · subst hkind
        have hversion : kind' = .latest →
            d.freshOutcome index s.2 kind' ≠ .ok none := by
          rintro rfl
          exact freshOutcome_latest_ne_none (hstores rfl)
        rw [recall_remember_self hrecall hversion,
          firstAnswer_concat_of_none hself (hanswer hstores), houtcome]
      · rw [recall_remember_of_ne (Ne.symm hkind),
          h.records.recall_eq kind' hstores,
          firstAnswer_concat_of_ne earlier (Ne.symm hkind)]
    · intro kind' hstores
      obtain ⟨hnone, hnothing⟩ := h.records.nothing kind' hstores
      by_cases hkind : kind' = kind
      · subst hkind
        obtain ⟨hfresh, -⟩ :=
          freshOutcome_of_not_stores index s.2 hstores
        have hremember : s.1.remember kind' (.ok none) = s.1 := by
          rw [(not_stores hstores).1]
          rfl
        rw [hfresh, hremember]
        refine ⟨hnone, fun answer ha => ?_⟩
        cases hfirst : firstAnswer kind' earlier with
        | none =>
            rw [firstAnswer_concat_of_none hself hfirst, houtcome, hfresh] at ha
            exact (Option.some.inj ha).symm
        | some a =>
            rw [firstAnswer_concat_of_some hfirst] at ha
            exact hnothing answer (hfirst.trans ha)
      · rw [recall_remember_of_ne (Ne.symm hkind),
          firstAnswer_concat_of_ne earlier (Ne.symm hkind)]
        exact ⟨hnone, hnothing⟩
  history_eq := by
    have hsent := (inquiry_of_recall_none d index hrecall).2
    simp [hsent, inquire_of_recall_none hrecall, h.history_eq]

theorem LeftBehind.inquire {history : History} {earlier : List Inquiry}
    (h : LeftBehind d history earlier s) (kind : Kind) :
    LeftBehind d history (earlier ++ [d.inquiry index s kind])
      ((d.inquire index kind).run s).2 := by
  rcases h.records.cases kind with ⟨hrecall, hnothing⟩ | ⟨a, hstores, hrecall, ha⟩
  · refine h.ask hrecall fun hstores => ?_
    rw [Option.eq_none_iff_forall_ne_some]
    intro answer hanswer
    exact (hnothing answer hanswer).2 hstores
  · rw [inquire_of_recall_some hstores hrecall]
    exact h.repeat hstores hrecall ha

theorem FollowUps.concat {history : History} {earlier : List Inquiry}
    {x : Inquiry} (hearlier : FollowUps d index history earlier)
    (hx : FollowsUp d index history earlier x) :
    FollowUps d index history (earlier ++ [x]) := by
  intro before y after hsplit
  rcases List.eq_nil_or_concat after with rfl | ⟨after, z, rfl⟩
  · obtain ⟨rfl, hy⟩ := List.append_inj' hsplit rfl
    obtain rfl := List.singleton_inj.mp hy
    exact hx
  · have hsplit' : earlier ++ [x] = (before ++ y :: after) ++ [z] := by
      simpa using hsplit
    obtain ⟨rfl, -⟩ := List.append_inj' hsplit' rfl
    exact hearlier before y after rfl

/-- Inquiries that lead on from what others left behind follow up on them. -/
theorem Leads.followUps {history : History} {earlier later : List Inquiry}
    (hleads : Leads d index s later t)
    (hearlier : FollowUps d index history earlier)
    (hs : LeftBehind d history earlier s) :
    FollowUps d index history (earlier ++ later) ∧
      LeftBehind d history (earlier ++ later) t := by
  induction hleads generalizing earlier with
  | nil => simpa using ⟨hearlier, hs⟩
  | cons kind _ ih =>
      have hnext := inquiry_followsUp index kind hs.records hs.history_eq
      have hrest := ih (hearlier.concat hnext) (hs.inquire kind)
      simpa using hrest

/-! ## Runs of questions -/

/-- What a question is replied. -/
inductive Reply where
  | version (v : Option Version)
  | specs (specs : List Text)

/-- The reply to a question. -/
def Question.reply (d : Dependency) (index : Index) (s : Knowledge) :
    Question → Except ResolveError Reply
  | newestVersion => ((d.newestVersion index).run s).1.map .version
  | newestExternal => ((d.newestExternal index).run s).1.map .version
  | specs mode unresolve => ((d.specs mode unresolve index).run s).1.map .specs

/-- The reply to a question when its inquiries have these answers. -/
def Question.replyFrom (d : Dependency) :
    Question → List (Option Version) → Reply
  | newestVersion, answers => .version answers.head?.join
  | newestExternal, answers => .version answers.head?.join
  | specs mode unresolve, answers =>
    if d.ranges = [] then .specs [d.base]
    else
      match d.effectiveMode mode unresolve, answers with
      | .latest, [external, some latest] =>
        .specs (sortedDistinct
          [d.text, Spec.withVersion d.base (pinnedToken external latest)])
      | .minimum, _ => .specs [d.minimumSpec]
      | _, _ => .specs [d.text]

/-- A reply is made of the answers to inquiries, or it is the first failure of
an inquiry. -/
theorem Question.reply_eq (q : Question) :
    q.reply d index s =
      ((q.inquiries d index s).mapM Inquiry.outcome).map (q.replyFrom d) := by
  have hone : ∀ kind, [d.inquiry index s kind].mapM Inquiry.outcome =
      (d.inquiry index s kind).outcome.map ([·]) := by
    intro kind
    rw [List.mapM_cons, List.mapM_nil]
    cases (d.inquiry index s kind).outcome <;> rfl
  cases q with
  | newestVersion =>
      rw [Question.inquiries, hone]
      simp only [inquiry, inquire, Question.reply]
      cases ((d.newestVersion index).run s).1 <;> rfl
  | newestExternal =>
      rw [Question.inquiries, hone]
      simp only [inquiry, inquire, Question.reply]
      cases ((d.newestExternal index).run s).1 <;> rfl
  | specs mode unresolve =>
      have hends := specs_ends d mode unresolve index s
      simp only [Question.inquiries, Question.reply, inquire]
      generalize (d.specs mode unresolve index).run s = r at hends
      cases hends with
      | unconstrained hranges =>
          simp [hranges, Question.replyFrom, Except.map, pure, Except.pure]
      | any hranges hmode =>
          simp [hranges, hmode, Question.replyFrom, Except.map, pure,
            Except.pure]
      | minimum hranges hmode =>
          simp [hranges, hmode, Question.replyFrom, Except.map, pure,
            Except.pure]
      | externalFailed e t hranges hmode hexternal =>
          simp [hranges, hmode, hexternal, inquiry, inquire, Except.map, bind,
            Except.bind]
      | versionFailed external e t u hranges hmode hexternal hlatest =>
          simp [hranges, hmode, hexternal, hlatest, inquiry, inquire,
            Except.map, bind, Except.bind]
      | latest external latest t u hranges hmode hexternal hlatest =>
          simp [hranges, hmode, hexternal, hlatest, inquiry, inquire,
            Question.replyFrom, Except.map, bind, Except.bind, pure,
            Except.pure]

/-- In any run of questions, the index is asked in every inquiry of a kind until
one succeeds, and in none after that: the first answer is repeated.  At the end
exactly the first answers are stored, and no other queries have been sent. -/
theorem asks_until_first_answer (d : Dependency) (index : Index)
    (history : History) (questions : List Question) :
    FollowUps d index history (d.transcript index ({}, history) questions) ∧
      LeftBehind d history (d.transcript index ({}, history) questions)
        (afterAll d index ({}, history) questions) ∧
      ∀ s (q : Question), q.reply d index s =
        ((q.inquiries d index s).mapM Inquiry.outcome).map (q.replyFrom d) := by
  have hnone : FollowUps d index history [] := by
    intro earlier x later hsplit
    simp at hsplit
  have hstart : LeftBehind d history [] ({}, history) :=
    ⟨records_nil, (List.append_nil history).symm⟩
  obtain ⟨hfollow, hleft⟩ :=
    (transcript_leads questions).followUps hnone hstart
  exact ⟨hfollow, hleft, fun _ q => q.reply_eq⟩

/-- The index fails when it is asked for a newest version for the first time.
Next time the external is repeated and the newest version asked for again. -/
example :
    let newest : Version := ⟨"3", by decide, by decide⟩
    let d : Dependency :=
      ⟨"foo", "foo", [⟨some ⟨"1", by decide, by decide⟩, none⟩], none⟩
    let index : Index :=
      ⟨fun history package =>
        if history.length = 1 then .error (.noVersions package "mirror")
        else .ok newest, fun _ _ => .ok []⟩
    (d.transcript index ({}, []) [.specs .latest [], .specs .latest []]).map
        Inquiry.sent =
      [[.externals "foo"], [.latest "foo"], [], [.latest "foo"]] := by
  decide +kernel

end Dependency
end DevSpecs
