import OpGraph.Proofs.HandleReuse

/-!
# What a session has counted

A pass counts each deletion and each replacement where it tells of it, and whatever its rule does,
the two accounts agree wherever the pass stops (`PassM.keepsCount_handleMatches`). A session takes over
the count of a pass when the pass has succeeded; the count of a pass that fails is dropped, though
what it has told of has been done. Along a run of calls the tally of a session is therefore short of
what was told by what the calls that failed have told (`Session.tally_after`).
-/

namespace OpGraph

/-! ### Counting what a journal tells -/

@[simp] theorem CleanupCount.add_empty (c : CleanupCount) : c.add {} = c := rfl

@[simp] theorem CleanupCount.empty_add (c : CleanupCount) : CleanupCount.add {} c = c := by
  simp [add]

theorem CleanupCount.add_assoc (a b c : CleanupCount) : (a.add b).add c = a.add (b.add c) := by
  simp [add, Nat.add_assoc]

/-- What the cleanup that an event tells of has removed. -/
def Event.cleanup? : Event → Option CleanupCount
  | deleted _ _ | replaced _ _ _ => none
  | cleanedUp count => some count

namespace Journal

/-- The number of deletions that a journal tells of. -/
def deletions (j : Journal) : Nat :=
  j.events.countP fun
    | .deleted _ _ => true
    | _ => false

/-- The number of replacements that a journal tells of. -/
def replacements (j : Journal) : Nat :=
  j.events.countP fun
    | .replaced _ _ _ => true
    | _ => false

/-- What the cleanups that a journal tells of have removed together. -/
def cleaned (j : Journal) : CleanupCount :=
  (j.events.filterMap Event.cleanup?).foldr CleanupCount.add {}

variable {j k : Journal}

@[simp] theorem deletions_append : (j ++ k).deletions = j.deletions + k.deletions := by
  simp [deletions]

@[simp] theorem replacements_append : (j ++ k).replacements = j.replacements + k.replacements := by
  simp [replacements]

@[simp] theorem cleaned_append : (j ++ k).cleaned = j.cleaned.add k.cleaned := by
  simp only [cleaned, events_append, List.filterMap_append]
  induction j.events.filterMap Event.cleanup? with
  | nil => simp
  | cons count counts ih => rw [List.cons_append, List.foldr_cons, ih, List.foldr_cons,
      CleanupCount.add_assoc]

/-- A journal without events tells of nothing that is counted. -/
theorem counts_of_events_nil (h : j.events = []) :
    j.deletions = 0 ∧ j.replacements = 0 ∧ j.cleaned = {} := by
  simp [deletions, replacements, cleaned, h]

end Journal

/-! ### Steps of a pass -/

/-- A pass has counted all deletions and replacements that it has told of, and there was no cleanup
so far. -/
structure Progress.Counted (p : Progress) : Prop where
  deletions : p.tally.deletions = p.journal.deletions
  replacements : p.tally.replacements = p.journal.replacements
  uncleaned : p.tally.cleanup = {}
  untold : p.journal.cleaned = {}

namespace Progress.Counted

variable {p : Progress}

/-- What is told of is counted. -/
theorem tell (hp : p.Counted) (d : Draft) {t : Tally} {notices : Journal}
    (ht : t.deletions = p.tally.deletions + notices.deletions ∧
      t.replacements = p.tally.replacements + notices.replacements ∧ t.cleanup = p.tally.cleanup)
    (hnotices : notices.cleaned = {}) :
    ({ draft := d, tally := t, journal := p.journal ++ notices } : Progress).Counted := by
  obtain ⟨hdeletions, hreplacements, hcleanup⟩ := ht
  constructor
  · rw [hdeletions, hp.deletions, Journal.deletions_append]
  · rw [hreplacements, hp.replacements, Journal.replacements_append]
  · rw [hcleanup, hp.uncleaned]
  · rw [Journal.cleaned_append, hp.untold, hnotices, CleanupCount.add_empty]

/-- Where there is no event, nothing is counted that is told of. -/
theorem quiet (hp : p.Counted) (d : Draft) {t : Tally} {notices : Journal}
    (ht : t.deletions = p.tally.deletions ∧ t.replacements = p.tally.replacements ∧
      t.cleanup = p.tally.cleanup)
    (hnotices : notices.events = []) :
    ({ draft := d, tally := t, journal := p.journal ++ notices } : Progress).Counted := by
  obtain ⟨hdeletions, hreplacements, hcleaned⟩ := Journal.counts_of_events_nil hnotices
  refine hp.tell d ?_ hcleaned
  rwa [hdeletions, hreplacements]

end Progress.Counted

namespace PassM

variable {α β : Type} {x : PassM α} {f : α → PassM β}

/-- A step that has counted what it has told of, wherever it stops, if this was so before it. -/
def KeepsCount (x : PassM α) : Prop :=
  ∀ p : Progress, p.Counted →
    match x.run p with
    | .ok _ q | .error _ q => q.Counted

theorem KeepsCount.bind (hx : x.KeepsCount) (hf : ∀ a, (f a).KeepsCount) :
    (x >>= f).KeepsCount := by
  intro p hp
  have hfirst := hx p hp
  cases hrun : x.run p with
  | ok a q =>
    rw [hrun] at hfirst
    rw [run_bind_of_ok hrun]
    exact hf a q hfirst
  | error e q =>
    rw [hrun] at hfirst
    rw [run_bind_of_error hrun]
    exact hfirst

theorem keepsCount_pure (a : α) : (pure a : PassM α).KeepsCount := fun _ hp => hp

theorem keepsCount_draft : draft.KeepsCount := fun _ hp => hp

theorem keepsCount_check (e : Except Error α) : (check e).KeepsCount := by
  intro p hp
  cases e with
  | ok a => exact hp
  | error e => exact hp

theorem keepsCount_setDraft (d : Draft) : (setDraft d).KeepsCount := fun _ hp =>
  ⟨hp.deletions, hp.replacements, hp.uncleaned, hp.untold⟩

theorem keepsCount_note {notices : Journal} (h : notices.events = []) :
    (note notices).KeepsCount := fun p hp => hp.quiet p.draft ⟨rfl, rfl, rfl⟩ h

theorem keepsCount_count {f : Tally → Tally}
    (h : ∀ t, (f t).deletions = t.deletions ∧ (f t).replacements = t.replacements ∧
      (f t).cleanup = t.cleanup) : (count f).KeepsCount := by
  intro p hp
  obtain ⟨ht, ht', ht''⟩ := h p.tally
  exact ⟨ht.trans hp.deletions, ht'.trans hp.replacements, ht''.trans hp.uncleaned, hp.untold⟩

theorem keepsCount_takeOut (chain : Chain) : (takeOut chain).KeepsCount := by
  induction chain with
  | nil => exact keepsCount_pure _
  | cons h chain ih =>
    refine .bind keepsCount_draft fun d => ?_
    cases d.node? h with
    | none => exact fun _ hp => hp
    | some node =>
      exact .bind (keepsCount_setDraft _) fun _ => .bind ih fun _ => keepsCount_pure _

theorem keepsCount_putIn (index position : Nat) (taken : List Entry) (nodes : List Replacement) :
    (putIn index position taken nodes).KeepsCount := by
  induction nodes generalizing position taken with
  | nil => exact keepsCount_pure _
  | cons replacement nodes ih =>
    cases replacement with
    | insert node =>
      refine .bind keepsCount_draft fun d => .bind (keepsCount_setDraft _) fun _ => ?_
      refine .bind (keepsCount_count fun t => ⟨rfl, rfl, rfl⟩) fun _ => ?_
      exact .bind (ih _ _) fun _ => keepsCount_pure _
    | keep h =>
      unfold putIn
      split
      · exact fun _ hp => hp
      · split
        · exact fun _ hp => hp
        · refine .bind keepsCount_draft fun d => .bind (keepsCount_setDraft _) fun _ => ?_
          exact .bind (ih _ _) fun _ => keepsCount_pure _

theorem keepsCount_bypassChain (index : Nat) (labels : List String) (taken : List Entry)
    (first last : Node) : (bypassChain index labels taken first last).KeepsCount := by
  refine .bind (keepsCount_check _) fun _ => .bind keepsCount_draft fun d => ?_
  refine .bind (keepsCount_setDraft _) fun _ => .bind (keepsCount_note (events_remarks _)) ?_
  exact fun _ p hp => hp.tell p.draft ⟨rfl, rfl, rfl⟩ rfl

theorem keepsCount_removeConstantsOf (options : PassOptions) (dropped : List Entry) :
    (removeConstantsOf options dropped).KeepsCount := by
  intro p hp
  rw [run_removeConstantsOf]
  exact hp.quiet _ ⟨rfl, rfl, rfl⟩ (events_remarks _)

theorem keepsCount_dropAndAdd (options : PassOptions) (s : Substitution) (dropped : List Entry) :
    (dropAndAdd options s dropped).KeepsCount :=
  .bind (keepsCount_removeConstantsOf options dropped) fun _ _ hp =>
    ⟨hp.deletions, hp.replacements, hp.uncleaned, hp.untold⟩

theorem keepsCount_substitute (options : PassOptions) (index : Nat) (chain : Chain)
    (s : Substitution) : (substitute options index chain s).KeepsCount := by
  have hrefill (labels : List String) (position : Nat) (taken : List Entry) :
      (refill options index labels position s taken).KeepsCount := by
    unfold refill
    split
    · split
      · exact .bind (keepsCount_bypassChain _ _ _ _ _) fun _ => keepsCount_dropAndAdd _ _ _
      · exact keepsCount_pure ()
    · refine .bind (keepsCount_putIn _ _ _ _) fun r => fun p hp => ?_
      exact keepsCount_dropAndAdd options s r.2 _ (hp.tell p.draft ⟨rfl, rfl, rfl⟩ rfl)
  intro p hp
  rw [run_substitute]
  cases p.draft.checkSubstitution index chain s with
  | error e => exact hp
  | ok u => exact KeepsCount.bind (keepsCount_takeOut chain) (hrefill _ _) p hp

theorem keepsCount_consult (rule : Rule) (index : Nat) (chain : Chain) :
    (consult rule index chain).KeepsCount := by
  intro p hp
  cases hproposed : rule index chain p.draft with
  | ok s d =>
    rw [run_consult_of_ok hproposed]
    exact (hp.quiet p.draft ⟨rfl, rfl, rfl⟩ rfl).quiet d ⟨rfl, rfl, rfl⟩ rfl
  | error e d =>
    rw [run_consult_of_error hproposed]
    exact hp.quiet d ⟨rfl, rfl, rfl⟩ rfl

/-- Wherever the handling of matches stops, and whatever a rule does, all that was told of has been
counted. -/
theorem keepsCount_handleMatches (options : PassOptions) (rule? : Option Rule) (index : Nat)
    (chains : List Chain) : (handleMatches options rule? index chains).KeepsCount := by
  induction chains generalizing index with
  | nil => exact keepsCount_pure ()
  | cons chain chains ih =>
    unfold handleMatches
    refine .bind keepsCount_draft fun d => .bind (keepsCount_check _) fun _ => ?_
    cases rule? with
    | none =>
      refine .bind (keepsCount_pure _) fun s => ?_
      exact .bind (keepsCount_substitute options index chain s) fun _ => ih (index + 1)
    | some rule =>
      refine .bind (keepsCount_consult rule index chain) fun s => ?_
      exact .bind (keepsCount_substitute options index chain s) fun _ => ih (index + 1)

end PassM

/-! ### Passes -/

/-- The cleanup at the end of a pass is counted and told of. -/
theorem Progress.Counted.finish {p : Progress} (hp : p.Counted) (options : PassOptions) :
    let q := p.finish options
    q.tally.deletions = q.journal.deletions ∧ q.tally.replacements = q.journal.replacements ∧
      q.tally.cleanup = q.journal.cleaned := by
  intro q
  cases hcleanup : options.cleanupAfter with
  | false =>
    have hq : q = p := Progress.finish_of_not_cleanup hcleanup
    rw [hq]
    exact ⟨hp.deletions, hp.replacements, hp.uncleaned.trans hp.untold.symm⟩
  | true =>
    have hq : q = _ := if_pos hcleanup
    rw [hq]
    dsimp only
    rw [List.append_assoc, Journal.deletions_append, Journal.replacements_append,
      Journal.cleaned_append, hp.untold, CleanupCount.empty_add]
    exact ⟨hp.deletions, hp.replacements, rfl⟩

namespace Draft

variable {d : Draft} {options : PassOptions} {pattern : Pattern}

/-- A search tells of nothing that is counted. -/
theorem counts_searched :
    (d.searched options pattern).journal.deletions = 0 ∧
      (d.searched options pattern).journal.replacements = 0 ∧
      (d.searched options pattern).journal.cleaned = {} :=
  Journal.counts_of_events_nil events_searched

theorem counted_checked : (d.checked options pattern).Counted := by
  obtain ⟨hdeletions, hreplacements, hcleaned⟩ := counts_searched
  exact ⟨hdeletions.symm, hreplacements.symm, rfl, hcleaned⟩

/-- Where a pass stops, it has counted all it has told of; where it fails, it has told of no
cleanup. -/
theorem runPass_counts (d : Draft) (options : PassOptions) (pattern : Pattern)
    (rule? : Option Rule) :
    let run := d.runPass options pattern rule?
    run.1.tally.deletions = run.1.journal.deletions ∧
    run.1.tally.replacements = run.1.journal.replacements ∧
    run.1.tally.cleanup = run.1.journal.cleaned ∧
    ∀ e, run.2 = .error e → run.1.journal.cleaned = {} := by
  intro run
  rcases d.runPass_outcome options pattern rule? with ⟨e, hrun⟩ | hrun
  · rw [show run = _ from hrun]
    obtain ⟨hdeletions, hreplacements, hcleaned⟩ := counts_searched
    exact ⟨hdeletions.symm, hreplacements.symm, hcleaned.symm, fun _ _ => hcleaned⟩
  · have hcounted := PassM.keepsCount_handleMatches options rule? 0
      (pattern.findAll d options.maxStates) (d.checked options pattern) counted_checked
    rw [show run = _ from hrun]
    generalize (handleMatches options rule? 0 (pattern.findAll d options.maxStates)).run
      (d.checked options pattern) = result at hcounted
    cases result with
    | error e q =>
      exact ⟨hcounted.deletions, hcounted.replacements,
        hcounted.uncleaned.trans hcounted.untold.symm, fun _ _ => hcounted.untold⟩
    | ok u q =>
      obtain ⟨hdeletions, hreplacements, hcleaned⟩ := hcounted.finish options
      exact ⟨hdeletions, hreplacements, hcleaned, nofun⟩

end Draft

/-! ### Sessions -/

/-- Whether an act has failed. -/
def SessionOutcome.failed {α : Type} (o : SessionOutcome α) : Bool :=
  !o.result.isOk

/-- An outcome without the value of its result. -/
def SessionOutcome.discardValue {α : Type} (o : SessionOutcome α) : SessionOutcome Unit where
  session := o.session
  journal := o.journal
  result := o.result.map fun _ => ()

namespace Session

/-- An act of a session: a pass, with or without a rule, or a cleanup. -/
inductive Act
  | pass (pattern : Pattern) (rule? : Option Rule)
  | cleanup

/-- How an act ends. -/
def Act.outcome (s : Session) : Act → SessionOutcome Unit
  | pass pattern rule? => (s.runPass pattern rule?).discardValue
  | cleanup => s.cleanup.discardValue

/-- How acts end that are done one after the other, whether they fail or not. -/
def outcomes (s : Session) : List Act → List (SessionOutcome Unit)
  | [] => []
  | act :: acts => act.outcome s :: outcomes (act.outcome s).session acts

/-- The session after some acts. -/
def after (s : Session) : List Act → Session
  | [] => s
  | act :: acts => after (act.outcome s).session acts

/-- All that was told in some acts. -/
def told (s : Session) (acts : List Act) : Journal :=
  (s.outcomes acts).flatMap (·.journal)

/-- What was told in those of some acts that have failed. -/
def toldInVain (s : Session) (acts : List Act) : Journal :=
  ((s.outcomes acts).filter (·.failed)).flatMap (·.journal)

theorem outcome_pass_of_ok {s : Session} {pattern : Pattern} {rule? : Option Rule} {q : Progress}
    (hrun : s.draft.runPass s.options pattern rule? = (q, .ok ())) :
    (Act.pass pattern rule?).outcome s =
      { session := { s with draft := q.draft, tally := s.tally.add q.tally }, journal := q.journal
        result := .ok () } := by
  simp only [Act.outcome, runPass, hrun]
  rfl

theorem outcome_pass_of_error {s : Session} {pattern : Pattern} {rule? : Option Rule}
    {q : Progress} {e : Error}
    (hrun : s.draft.runPass s.options pattern rule? = (q, .error e)) :
    (Act.pass pattern rule?).outcome s =
      { session := { s with draft := q.draft }, journal := q.journal, result := .error e } := by
  simp only [Act.outcome, runPass, hrun]
  rfl

/-- A session counts what an act has told of, but for the deletions and replacements of an act that
has failed. -/
theorem tally_outcome (s : Session) (act : Act) :
    let o := act.outcome s
    let lost : Journal := if o.failed then o.journal else []
    o.session.tally.deletions + lost.deletions = s.tally.deletions + o.journal.deletions ∧
    o.session.tally.replacements + lost.replacements =
      s.tally.replacements + o.journal.replacements ∧
    o.session.tally.cleanup = s.tally.cleanup.add o.journal.cleaned := by
  cases act with
  | cleanup => exact ⟨rfl, rfl, rfl⟩
  | pass pattern rule? =>
    obtain ⟨hdeletions, hreplacements, hcleanup, huntold⟩ :=
      s.draft.runPass_counts s.options pattern rule?
    rcases hrun : s.draft.runPass s.options pattern rule? with ⟨q, e | u⟩
    all_goals rw [hrun] at hdeletions hreplacements hcleanup huntold
    · rw [outcome_pass_of_error hrun]
      exact ⟨rfl, rfl, by rw [huntold _ rfl, CleanupCount.add_empty]⟩
    · rw [outcome_pass_of_ok hrun]
      exact ⟨congrArg (s.tally.deletions + ·) hdeletions,
        congrArg (s.tally.replacements + ·) hreplacements, congrArg s.tally.cleanup.add hcleanup⟩

theorem told_cons (s : Session) (act : Act) (acts : List Act) :
    s.told (act :: acts) = (act.outcome s).journal ++ (act.outcome s).session.told acts := by
  rw [told, outcomes, List.flatMap_cons]
  rfl

theorem toldInVain_cons (s : Session) (act : Act) (acts : List Act) :
    s.toldInVain (act :: acts) =
      (if (act.outcome s).failed then (act.outcome s).journal else []) ++
        (act.outcome s).session.toldInVain acts := by
  rw [toldInVain, outcomes, List.filter_cons]
  split
  · rw [List.flatMap_cons]
    rfl
  · rfl

/-- What was told in vain counts for nothing just where this is so for every act that has failed. -/
theorem counts_toldInVain_eq_zero_iff (s : Session) (acts : List Act) :
    (s.toldInVain acts).deletions = 0 ∧ (s.toldInVain acts).replacements = 0 ↔
      ∀ o ∈ s.outcomes acts, o.failed → o.journal.deletions = 0 ∧ o.journal.replacements = 0 := by
  induction acts generalizing s with
  | nil => simp [toldInVain, outcomes, Journal.deletions, Journal.replacements, Journal.events]
  | cons act acts ih =>
    rw [toldInVain_cons, outcomes, List.forall_mem_cons, ← ih, Journal.deletions_append,
      Journal.replacements_append]
    cases (act.outcome s).failed with
    | true =>
      simp only [if_true, Nat.add_eq_zero_iff, forall_const]
      tauto
    | false => simp [Journal.deletions, Journal.replacements, Journal.events]

/-- Along every run of acts a tally goes up by what is told of, but for the deletions and
replacements of acts that have failed. -/
theorem counts_after (s : Session) (acts : List Act) :
    (s.after acts).tally.deletions + (s.toldInVain acts).deletions =
      s.tally.deletions + (s.told acts).deletions ∧
    (s.after acts).tally.replacements + (s.toldInVain acts).replacements =
      s.tally.replacements + (s.told acts).replacements ∧
    (s.after acts).tally.cleanup = s.tally.cleanup.add (s.told acts).cleaned := by
  induction acts generalizing s with
  | nil => exact ⟨rfl, rfl, rfl⟩
  | cons act acts ih =>
    obtain ⟨hdeletions, hreplacements, hcleanup⟩ := s.tally_outcome act
    obtain ⟨hdeletions', hreplacements', hcleanup'⟩ := ih (act.outcome s).session
    rw [after, told_cons, toldInVain_cons]
    simp only [Journal.deletions_append, Journal.replacements_append, Journal.cleaned_append]
    refine ⟨by omega, by omega, ?_⟩
    rw [hcleanup', hcleanup, CleanupCount.add_assoc]

/-- **A tally is short of what was told in acts that failed.** Along every run of passes and
cleanups, whatever their rules do and wherever they fail, the tally of a session goes up by all
deletions and replacements that are told of but those of acts that fail, and by all that is told to
be cleaned up. So it agrees with what is told where no act fails after it has handled a match, and
only there. -/
theorem tally_after (s : Session) (acts : List Act) :
    let tally := (s.after acts).tally
    let told := s.told acts
    let lost := s.toldInVain acts
    tally.deletions + lost.deletions = s.tally.deletions + told.deletions ∧
    tally.replacements + lost.replacements = s.tally.replacements + told.replacements ∧
    tally.cleanup = s.tally.cleanup.add told.cleaned ∧
    (tally.deletions = s.tally.deletions + told.deletions ∧
        tally.replacements = s.tally.replacements + told.replacements ↔
      ∀ o ∈ s.outcomes acts, o.failed →
        o.journal.deletions = 0 ∧ o.journal.replacements = 0) := by
  obtain ⟨hdeletions, hreplacements, hcleanup⟩ := s.counts_after acts
  refine ⟨hdeletions, hreplacements, hcleanup, ?_⟩
  rw [← counts_toldInVain_eq_zero_iff]
  omega

/-- A pass deletes its first match and fails at the second one: the deletion is told of and stays,
and the session has not counted it. -/
theorem tally_after_failed_pass :
    let s : Session := { draft := .ofGraph pairedGraph }
    let acts := [.pass pairPattern (some (Recipe.rule [{}, { failure := some "rule" }]))]
    Pattern.parse "Conv(?, t)\nRelu(t, ?)" = .ok pairPattern ∧
      (s.after acts).draft.handles = [⟨2⟩, ⟨3⟩] ∧
      (s.told acts).deletions = 1 ∧ (s.after acts).tally.deletions = 0 := by
  intro s acts
  let rule := Recipe.rule [{}, { failure := some "rule" }]
  obtain ⟨htallied, -⟩ := s.draft.runPass_counts s.options pairPattern (some rule)
  have houtcome := @outcome_pass_of_error s pairPattern (some rule)
  have hrun : s.draft.runPass s.options pairPattern (some rule) = _ :=
    Draft.runPass_some_of_nodup rule (by rw [findAll_pairedGraph]; decide)
  rw [findAll_pairedGraph] at hrun
  generalize s.draft.runPass s.options pairPattern (some rule) = run at htallied houtcome hrun
  have hresult : run.2 = .error (.missingField "rule") := by rw [hrun]; rfl
  have hhandles : run.1.draft.handles = [⟨2⟩, ⟨3⟩] := by rw [hrun]; decide +kernel
  have hcounted : run.1.tally.deletions = 1 := by rw [hrun]; rfl
  replace houtcome := houtcome (Prod.ext rfl hresult)
  -- what the pass came to is all that matters from here on
  clear hrun hresult
  have htold : s.told acts = run.1.journal := by
    rw [told_cons, houtcome]
    exact List.append_nil _
  have hafter : s.after acts = { s with draft := run.1.draft } := by
    rw [after, houtcome]
    rfl
  rw [htold, hafter, ← htallied]
  exact ⟨by decide +kernel, hhandles, hcounted, rfl⟩

/-- An act without a rule. -/
def Act.Plain : Act → Prop
  | pass _ rule? => rule? = none
  | cleanup => True

/-- An act without a rule tells of nothing where it fails. -/
theorem events_of_plain {s : Session} {act : Act} (hplain : act.Plain)
    (hfailed : (act.outcome s).failed) : (act.outcome s).journal.events = [] := by
  cases act with
  | cleanup => cases hfailed
  | pass pattern rule? =>
    obtain rfl : rule? = none := hplain
    rcases hrun : s.draft.runPass s.options pattern none with ⟨q, e | u⟩
    · rw [outcome_pass_of_error hrun, Draft.runPass_none_of_error hrun]
      exact Draft.events_searched
    · rw [outcome_pass_of_ok hrun] at hfailed
      cases hfailed

theorem events_of_mem_outcomes {s : Session} {acts : List Act} {o : SessionOutcome Unit}
    (hplain : ∀ act ∈ acts, act.Plain) (ho : o ∈ s.outcomes acts) (hfailed : o.failed) :
    o.journal.events = [] := by
  induction acts generalizing s with
  | nil => cases ho
  | cons act acts ih =>
    obtain ⟨hact, hplain⟩ := List.forall_mem_cons.1 hplain
    rcases List.mem_cons.1 ho with rfl | ho
    · exact events_of_plain hact hfailed
    · exact ih hplain ho

/-- Without rules a tally agrees with what is told. -/
theorem tally_after_of_plain (s : Session) {acts : List Act} (hplain : ∀ act ∈ acts, act.Plain) :
    let tally := (s.after acts).tally
    let told := s.told acts
    tally.deletions = s.tally.deletions + told.deletions ∧
      tally.replacements = s.tally.replacements + told.replacements := by
  intro tally told
  have hlost : (s.toldInVain acts).deletions = 0 ∧ (s.toldInVain acts).replacements = 0 := by
    rw [counts_toldInVain_eq_zero_iff]
    intro o ho hfailed
    obtain ⟨hdeletions, hreplacements, -⟩ :=
      Journal.counts_of_events_nil (events_of_mem_outcomes hplain ho hfailed)
    exact ⟨hdeletions, hreplacements⟩
  obtain ⟨hdeletions, hreplacements, -⟩ := s.counts_after acts
  rw [hlost.1] at hdeletions
  rw [hlost.2] at hreplacements
  exact ⟨hdeletions, hreplacements⟩

end Session

end OpGraph
