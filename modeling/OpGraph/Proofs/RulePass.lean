import OpGraph.Proofs.Substituting
import OpGraph.Recipe

/-!
# Passes with a rule

A rule may do to the draft what it likes, and it may fail. A pass that fails with a rule that
leaves the nodes of its matches where they are has come to a match and stopped there: what it
leaves is what the rule left for this match, or what the matches before it left
(`Draft.runPass_some_stops_at_match`). A rule that takes nodes of its own match out makes the pass
fail, but the nodes that come before them in the match are then gone as well
(`Draft.runPass_some_keeps_match_iff`).
-/

namespace OpGraph

open PassM

/-- What a rule leaves of a draft, whether it fails or not. -/
def Rule.leaves (rule : Rule) (index : Nat) (chain : Chain) (d : Draft) : Draft :=
  match rule index chain d with
  | .ok _ d' => d'
  | .error _ d' => d'

/-- A rule that takes no node out of the draft that is in the match it is consulted about. -/
def Rule.SparesMatch (rule : Rule) : Prop :=
  ∀ index chain d s d', rule index chain d = .ok s d' → ∀ h ∈ chain, h ∈ d.handles → h ∈ d'.handles

/-- The handling of one match with a rule. -/
def handleMatch (options : PassOptions) (rule : Rule) (index : Nat) (chain : Chain) :
    PassM Unit := do
  check ((← draft).checkPresent chain)
  let s ← consult rule index chain
  substitute options index chain s

variable {options : PassOptions} {rule : Rule} {index : Nat} {p : Progress} {chain : Chain}
  {chains : List Chain}

theorem handleMatches_some_cons :
    handleMatches options (some rule) index (chain :: chains) =
      handleMatch options rule index chain >>= fun _ =>
        handleMatches options (some rule) (index + 1) chains := by
  simp only [handleMatches, handleMatch, bind_assoc]

theorem handleMatches_append (earlier later : List Chain) :
    handleMatches options (some rule) index (earlier ++ later) =
      handleMatches options (some rule) index earlier >>= fun _ =>
        handleMatches options (some rule) (index + earlier.length) later := by
  induction earlier generalizing index with
  | nil => simp [handleMatches]
  | cons chain earlier ih =>
    rw [List.cons_append, handleMatches_some_cons, handleMatches_some_cons, ih, bind_assoc,
      List.length_cons, Nat.add_right_comm, Nat.add_assoc]

/-! ### One match -/

namespace Draft

theorem checkPresent_of_absent {d : Draft} (hgone : ∃ h ∈ chain, h ∉ d.handles) :
    ∃ e, d.checkPresent chain = .error e := by
  induction chain with
  | nil => simp at hgone
  | cons h chain ih =>
    by_cases hmem : h ∈ d.handles
    · obtain ⟨n, hn⟩ := node?_of_mem_handles hmem
      obtain ⟨e, he⟩ := ih (by simpa [hmem] using hgone)
      refine ⟨e, ?_⟩
      simp only [checkPresent, require_of_node? hn]
      exact he
    · refine ⟨.nodeNotFound (.absent h), ?_⟩
      simp only [checkPresent, require_of_not_mem hmem]
      rfl

end Draft

/-- The state of a pass after a rule was consulted and has proposed a substitution. -/
def Progress.consulted (p : Progress) (index : Nat) (chain : Chain) (s : Substitution)
    (d : Draft) : Progress :=
  { p with
    draft := d
    journal := p.journal ++ [.consulted index chain] ++ [.proposed s.nodes.length] }

theorem Progress.extends_consulted (p : Progress) (index : Nat) (chain : Chain) (s : Substitution)
    (d : Draft) :
    p.journal.Extends (p.consulted index chain s d).journal [] [(chain, index)] :=
  (Journal.Extends.consulted _ index chain).trans (.proposed _ _)

theorem run_consult_of_ok {s : Substitution} {d : Draft}
    (hrule : rule index chain p.draft = .ok s d) :
    (consult rule index chain).run p = .ok s (p.consulted index chain s d) := by
  simp only [consult, EStateM.run_bind, run_note, EStateM.run_get, hrule, run_setDraft]
  rfl

theorem run_consult_of_error {e : Error} {d : Draft}
    (hrule : rule index chain p.draft = .error e d) :
    (consult rule index chain).run p =
      .error e { p with draft := d, journal := p.journal ++ [.consulted index chain] } := by
  simp only [consult, EStateM.run_bind, run_note, EStateM.run_get, hrule, run_setDraft]
  rfl

theorem handleMatch_of_ok (options : PassOptions) (hmem : ∀ h ∈ chain, h ∈ p.draft.handles)
    {s : Substitution} {d : Draft} (hrule : rule index chain p.draft = .ok s d) :
    (handleMatch options rule index chain).run p =
      (substitute options index chain s).run (p.consulted index chain s d) := by
  rw [handleMatch, run_bind_of_ok (run_draft p), Draft.checkPresent_eq_ok hmem,
    run_bind_of_ok (run_check_ok _ _), run_bind_of_ok (run_consult_of_ok hrule)]

/-- A pass stops at a match: a node of the match is gone before the rule is consulted, and nothing
changes, or the rule is consulted, and then the draft is what the rule leaves. -/
def StopsAt (rule : Rule) (index : Nat) (chain : Chain) (p q : Progress) : Prop :=
  (∃ h ∈ chain, h ∉ p.draft.handles) ∧ q = p ∨
    (∀ h ∈ chain, h ∈ p.draft.handles) ∧ q.draft = rule.leaves index chain p.draft ∧
      p.journal.Extends q.journal [] [(chain, index)]

/-- A match is handled, with one event, or the pass stops at it. -/
theorem handleMatch_outcome (options : PassOptions) (index : Nat) (p : Progress)
    (hspares : rule.SparesMatch) (hne : chain ≠ []) (hnodup : chain.Nodup) :
    (∃ q, (handleMatch options rule index chain).run p = .ok () q ∧
      p.journal.Extends q.journal [index] [(chain, index)]) ∨
    ∃ e q, (handleMatch options rule index chain).run p = .error e q ∧
      StopsAt rule index chain p q := by
  by_cases hmem : ∀ h ∈ chain, h ∈ p.draft.handles
  · cases hrule : rule index chain p.draft with
    | ok s d =>
      rw [handleMatch_of_ok options hmem hrule]
      have hconsulted := p.extends_consulted index chain s d
      have hpresent : ∀ h ∈ chain, h ∈ (p.consulted index chain s d).draft.handles :=
        fun h hh => hspares index chain p.draft s d hrule h hh (hmem h hh)
      -- all that can fail now are the checks of the substitution
      by_cases hadmits : d.Admits chain s
      · obtain ⟨q, hrun, hjournal⟩ := substitute_of_admits options index
          (p := p.consulted index chain s d) hne hnodup hpresent hadmits
        exact .inl ⟨q, hrun, hconsulted.trans hjournal⟩
      · obtain ⟨e, hrun⟩ := substitute_of_not_admits options index
          (p := p.consulted index chain s d) hne hadmits
        exact .inr ⟨e, _, hrun, .inr ⟨hmem, by simp [Rule.leaves, hrule, Progress.consulted],
          hconsulted⟩⟩
    | error e d =>
      refine .inr ⟨e, { p with draft := d, journal := p.journal ++ [.consulted index chain] }, ?_,
        .inr ⟨hmem, by simp [Rule.leaves, hrule], .consulted _ _ _⟩⟩
      rw [handleMatch, run_bind_of_ok (run_draft p), Draft.checkPresent_eq_ok hmem,
        run_bind_of_ok (run_check_ok _ _), run_bind_of_error (run_consult_of_error hrule)]
  · push Not at hmem
    obtain ⟨e, he⟩ := Draft.checkPresent_of_absent hmem
    refine .inr ⟨e, p, ?_, .inl ⟨hmem, rfl⟩⟩
    rw [handleMatch, run_bind_of_ok (run_draft p), he, run_bind_of_error (run_check_error _ _)]

/-! ### All matches -/

/-- A pass that fails while it handles matches has handled the ones before some match, with one
event and one consultation for each, and has stopped at that match. -/
theorem handleMatches_stops (options : PassOptions) (index : Nat) (hspares : rule.SparesMatch)
    (hne : ∀ chain ∈ chains, chain ≠ []) (hnodup : ∀ chain ∈ chains, chain.Nodup) {e : Error}
    {q : Progress} (hrun : (handleMatches options (some rule) index chains).run p = .error e q) :
    ∃ k chain before, chains[k]? = some chain ∧
      (handleMatches options (some rule) index (chains.take k)).run p = .ok () before ∧
      p.journal.Extends before.journal (List.range' index k) ((chains.take k).zipIdx index) ∧
      StopsAt rule (index + k) chain before q := by
  induction chains generalizing index p with
  | nil => cases hrun
  | cons chain chains ih =>
    rw [handleMatches_some_cons] at hrun
    rcases handleMatch_outcome options index p hspares (hne chain List.mem_cons_self)
      (hnodup chain List.mem_cons_self) with
      ⟨r, hfirst, hjournal⟩ | ⟨e', r, hfirst, hstops⟩
    -- the first match is handled, so that the pass stops at a later one
    · rw [run_bind_of_ok hfirst] at hrun
      obtain ⟨k, c, before, hget, hbefore, hextends, hstops⟩ := ih (index + 1)
        (fun c hc => hne c (List.mem_cons_of_mem _ hc))
        (fun c hc => hnodup c (List.mem_cons_of_mem _ hc)) hrun
      refine ⟨k + 1, c, before, hget, ?_, hjournal.trans hextends, ?_⟩
      · rw [List.take_succ_cons, handleMatches_some_cons, run_bind_of_ok hfirst]
        exact hbefore
      · rwa [← Nat.add_assoc, Nat.add_right_comm]
    · rw [run_bind_of_error hfirst] at hrun
      cases hrun
      exact ⟨0, chain, p, rfl, rfl, .refl _, hstops⟩

/-! ### Two matches in a row -/

/-- A graph with two pairs of nodes, one after the other. -/
def pairedGraph : Graph where
  nodes :=
    [{ op := "Conv", inputs := ["x"], outputs := ["a"], name := "first" },
      { op := "Relu", inputs := ["a"], outputs := ["b"], name := "second" },
      { op := "Conv", inputs := ["b"], outputs := ["c"], name := "third" },
      { op := "Relu", inputs := ["c"], outputs := ["y"], name := "fourth" }]
  inputs := [{ name := "x" }]
  outputs := [{ name := "y" }]

/-- The pattern of a pair in the graph. -/
def pairPattern : Pattern where
  steps :=
    [{ ops := .oneOf ["Conv"], inputs := [.any], outputs := [.variable 0], line := "Conv(?,t)" },
      { ops := .oneOf ["Relu"], inputs := [.variable 0], outputs := [.any], line := "Relu(t,?)" }]
  names := ["t"]

theorem findAll_pairedGraph :
    pairPattern.findAll (.ofGraph pairedGraph) ({} : PassOptions).maxStates =
      [[⟨0⟩, ⟨1⟩], [⟨2⟩, ⟨3⟩]] := by
  rw [Pattern.findAll_eq, Pattern.matchAt_eq_searchFrom]
  decide +kernel

/-- A rule that keeps its first match and fails at every other one, after an edit. -/
def obstinateRule : Rule := fun index chain d =>
  if index = 0 then .ok { nodes := chain.map .keep } d
  else .error (.missingField "rule") (d.redirect "c" "x")

theorem obstinateRule_sparesMatch : obstinateRule.SparesMatch := by
  intro index chain d s d' hrule h _ hh
  unfold obstinateRule at hrule
  split at hrule <;> cases hrule
  exact hh

/-- A recipe that takes the second node of its match out and puts another one in the place of the
match. -/
def halvingRecipe : Recipe where
  edits := [.remove (.inChain 1)]
  nodes := [.insert { op := .plain "Gelu", inputs := [.plain "x"], outputs := [.plain "b"] }]

namespace Draft

variable {d : Draft} {pattern : Pattern}

/-- A pass with a rule handles its matches, where no two of them share a node. -/
theorem runPass_some_of_nodup (rule : Rule)
    (hnodup : (pattern.findAll d options.maxStates).flatten.Nodup) :
    d.runPass options pattern (some rule) =
      match (handleMatches options (some rule) 0 (pattern.findAll d options.maxStates)).run
        (d.checked options pattern) with
      | .ok () q => (q.finish options, .ok ())
      | .error e q => (q, .error e) := by
  have hoverlaps : d.checkOverlaps [] (indexedNodes (pattern.findAll d options.maxStates)) =
      .ok () := checkOverlaps_of_nodup hnodup
  suffices hrun : (OpGraph.runPass options pattern (some rule)).run { draft := d } =
      match (handleMatches options (some rule) 0 (pattern.findAll d options.maxStates)).run
        (d.checked options pattern) with
      | .ok () q => .ok () (q.finish options)
      | .error e q => .error e q by
    unfold runPass
    rw [show OpGraph.runPass options pattern (some rule) { draft := d } = _ from hrun]
    split <;> split <;> simp_all
  rw [Pattern.findAll] at hoverlaps ⊢
  rw [OpGraph.runPass, PassM.run_bind_of_ok (PassM.run_draft _), checked, searched,
    Pattern.findAll]
  dsimp only
  generalize pattern.outcomes d options.maxStates = outcomes at hoverlaps ⊢
  rw [PassM.run_bind_of_ok (PassM.run_note _ _), hoverlaps,
    PassM.run_bind_of_ok (PassM.run_check_ok _ _), Option.isNone_some, if_neg (by simp),
    PassM.run_bind_of_ok (PassM.run_count _ _)]
  rw [EStateM.run_bind]
  dsimp only [List.nil_append]
  cases EStateM.run (handleMatches options (some rule) 0 (Pattern.chainsOf outcomes)) _ with
  | error e q => rfl
  | ok u q =>
    unfold Progress.finish
    cases options.cleanupAfter <;> rfl

/-- A pass fails in its checks, before anything is touched, or it handles its matches one after the
other and ends with what they leave. -/
theorem runPass_outcome (d : Draft) (options : PassOptions) (pattern : Pattern)
    (rule? : Option Rule) :
    (∃ e, d.runPass options pattern rule? = (d.searched options pattern, .error e)) ∨
      d.runPass options pattern rule? =
        match (handleMatches options rule? 0 (pattern.findAll d options.maxStates)).run
          (d.checked options pattern) with
        | .ok () q => (q.finish options, .ok ())
        | .error e q => (q, .error e) := by
  by_cases hnodup : (pattern.findAll d options.maxStates).flatten.Nodup
  · cases rule? with
    | some rule => exact .inr (runPass_some_of_nodup rule hnodup)
    | none =>
      cases hfind : (pattern.findAll d options.maxStates).find? fun c => !d.isBalanced c with
      | some chain => exact .inl ⟨_, runPass_none_of_find? hnodup hfind⟩
      | none =>
        have hbalanced : ∀ chain ∈ pattern.findAll d options.maxStates, d.isBalanced chain := by
          simpa using hfind
        have hd : (d.checked options pattern).draft.Deletable
            (pattern.findAll d options.maxStates) := deletable_findAll hnodup hbalanced
        rw [runPass_none_of_balanced hnodup hbalanced, handleMatches_none hd]
        exact .inr rfl
  · obtain ⟨_, _, _, _, _, -, -, -, -, hrun⟩ := runPass_of_repeat rule? hnodup
    exact .inl ⟨_, hrun⟩

/-- A pass with a rule comes to a match: no two matches share a node, and the matches before this
one have been handled, which left the given state. -/
structure ComesTo (d : Draft) (options : PassOptions) (pattern : Pattern) (rule : Rule)
    (index : Nat) (chain : Chain) (before : Progress) : Prop where
  nodup : (pattern.findAll d options.maxStates).flatten.Nodup
  chain_eq : (pattern.findAll d options.maxStates)[index]? = some chain
  run_eq : (handleMatches options (some rule) 0
    ((pattern.findAll d options.maxStates).take index)).run (d.checked options pattern) =
      .ok () before

variable {before : Progress}

namespace ComesTo

theorem ne_nil (hcomes : d.ComesTo options pattern rule index chain before) : chain ≠ [] :=
  (Pattern.isChain_of_mem_findAll (List.mem_of_getElem? hcomes.chain_eq)).ne_nil

theorem chain_nodup (hcomes : d.ComesTo options pattern rule index chain before) : chain.Nodup :=
  (List.nodup_flatten.1 hcomes.nodup).1 chain (List.mem_of_getElem? hcomes.chain_eq)

/-- Where the handling of a match fails, so does the pass. -/
theorem runPass_eq_error (hcomes : d.ComesTo options pattern rule index chain before)
    {e : Error} {after : Progress}
    (hfail : (handleMatch options rule index chain).run before = .error e after) :
    d.runPass options pattern (some rule) = (after, .error e) := by
  have hlt : index < (pattern.findAll d options.maxStates).length :=
    (List.getElem?_eq_some_iff.1 hcomes.chain_eq).1
  have hlength : ((pattern.findAll d options.maxStates).take index).length = index :=
    List.length_take_of_le hlt.le
  -- the chains are the ones before the match, the match, and the ones after it
  have hsplit : pattern.findAll d options.maxStates =
      (pattern.findAll d options.maxStates).take index ++
        chain :: (pattern.findAll d options.maxStates).drop (index + 1) := by
    rw [← (List.getElem?_eq_some_iff.1 hcomes.chain_eq).2, List.getElem_cons_drop,
      List.take_append_drop]
  have hrun : (handleMatches options (some rule) 0 (pattern.findAll d options.maxStates)).run
      (d.checked options pattern) = .error e after := by
    conv_lhs => rw [hsplit, handleMatches_append, run_bind_of_ok hcomes.run_eq, hlength,
      Nat.zero_add, handleMatches_some_cons, run_bind_of_error hfail]
  rw [runPass_some_of_nodup rule hcomes.nodup, hrun]

end ComesTo

theorem not_ofCleanup_checked {n : Notice} (hn : n ∈ (d.checked options pattern).journal) :
    ¬ n.OfCleanup := by
  obtain ⟨r, hr, rfl⟩ := List.mem_map.1 hn
  obtain ⟨anchor, -, rfl⟩ := List.mem_map.1 hr
  exact id

/-- **A pass that fails stops at a match.** With a rule that leaves the nodes of its matches where
they are, either two matches share a node and nothing has happened, or the pass has handled the
matches before some match, with one event for each, and then leaves what the rule left for this
match, or what the matches before it left where one of its nodes was gone already. -/
theorem runPass_some_stops_at_match (hspares : rule.SparesMatch) {after : Progress} {e : Error}
    (hrun : d.runPass options pattern (some rule) = (after, .error e)) :
    let chains := pattern.findAll d options.maxStates
    ((∃ first second label, e = .overlappingMatches first second label) ∧ after.draft = d ∧
      after.journal.events = [] ∧ after.journal.consultations = []) ∨
    ∃ index chain before, d.ComesTo options pattern rule index chain before ∧
      after.journal.events.map Event.index? = (List.range index).map some ∧
      (∀ n ∈ after.journal, ¬ n.OfCleanup) ∧
      ((∃ h ∈ chain, h ∉ before.draft.handles) ∧ after.draft = before.draft ∧
          after.journal.consultations = (chains.take index).zipIdx ∨
        (∀ h ∈ chain, h ∈ before.draft.handles) ∧
          after.draft = rule.leaves index chain before.draft ∧
          after.journal.consultations = (chains.take (index + 1)).zipIdx) := by
  intro chains
  have hevents : (d.checked options pattern).journal.events = [] := events_searched
  have hconsultations : (d.checked options pattern).journal.consultations = [] :=
    Journal.consultations_remarks _
  by_cases hnodup : chains.flatten.Nodup
  · right
    rw [runPass_some_of_nodup rule hnodup] at hrun
    have herror : (handleMatches options (some rule) 0 chains).run (d.checked options pattern) =
        .error e after := by
      split at hrun
      · cases hrun
      · rename_i hfail
        cases hrun
        exact hfail
    obtain ⟨index, chain, before, hchain, hbefore, hextends, hstops⟩ :=
      handleMatches_stops options 0 hspares
        (fun c hc => (Pattern.isChain_of_mem_findAll hc).ne_nil)
        (fun c hc => (List.nodup_flatten.1 hnodup).1 c hc) herror
    rw [Nat.zero_add] at hstops
    have hrange : before.journal.events.map Event.index? = (List.range index).map some := by
      rw [hextends.events, hevents, List.range_eq_range']
      rfl
    have hearlier : before.journal.consultations = (chains.take index).zipIdx := by
      rw [hextends.consultations, hconsultations, List.nil_append]
    have hclean : ∀ n ∈ before.journal, ¬ n.OfCleanup := fun n hn hof =>
      not_ofCleanup_checked (hextends.cleanup n hn hof) hof
    refine ⟨index, chain, before, ⟨hnodup, hchain, hbefore⟩, ?_⟩
    rcases hstops with ⟨hgone, rfl⟩ | ⟨hpresent, hdraft, hjournal⟩
    · exact ⟨hrange, hclean, .inl ⟨hgone, rfl, hearlier⟩⟩
    · have hlast : chains.take (index + 1) = chains.take index ++ [chain] := by
        obtain ⟨hlt, rfl⟩ := List.getElem?_eq_some_iff.1 hchain
        exact (List.take_append_getElem hlt).symm
      have hlength : (chains.take index).length = index :=
        List.length_take_of_le (List.getElem?_eq_some_iff.1 hchain).1.le
      refine ⟨?_, fun n hn hof => hclean n (hjournal.cleanup n hn hof) hof,
        .inr ⟨hpresent, hdraft, ?_⟩⟩
      · rw [hjournal.events, hrange, List.map_nil, List.append_nil]
      · rw [hjournal.consultations, hearlier, hlast, List.zipIdx_append, hlength, Nat.zero_add]
        rfl
  · left
    obtain ⟨first, second, a, b, h, -, -, -, -, heq⟩ := runPass_of_repeat (some rule) hnodup
    cases heq.symm.trans hrun
    exact ⟨⟨first, second, d.label h, rfl⟩, rfl, hevents, hconsultations⟩

/-- A rule fails at the second of two matches: the pass has come to a match, has told of the ones
before it, and leaves what the rule left. -/
theorem runPass_some_stops_at_second :
    let d := ofGraph pairedGraph
    let chains := pairPattern.findAll d ({} : PassOptions).maxStates
    let run := d.runPass {} pairPattern (some obstinateRule)
    obstinateRule.SparesMatch ∧ run = (run.1, .error (.missingField "rule")) ∧
    ∃ index chain before, d.ComesTo {} pairPattern obstinateRule index chain before ∧
      run.1.journal.events.map Event.index? = (List.range index).map some ∧
      (∀ n ∈ run.1.journal, ¬ n.OfCleanup) ∧
      ((∃ h ∈ chain, h ∉ before.draft.handles) ∧ run.1.draft = before.draft ∧
          run.1.journal.consultations = (chains.take index).zipIdx ∨
        (∀ h ∈ chain, h ∈ before.draft.handles) ∧
          run.1.draft = obstinateRule.leaves index chain before.draft ∧
          run.1.journal.consultations = (chains.take (index + 1)).zipIdx) := by
  intro d chains run
  have hrun : run = (run.1, .error (.missingField "rule")) := by
    refine Prod.ext rfl ?_
    show (d.runPass {} pairPattern (some obstinateRule)).2 = _
    rw [runPass_some_of_nodup _ (by rw [findAll_pairedGraph]; decide), findAll_pairedGraph]
    rfl
  refine ⟨obstinateRule_sparesMatch, hrun,
    (runPass_some_stops_at_match obstinateRule_sparesMatch hrun).resolve_left ?_⟩
  rintro ⟨⟨_, _, _, herror⟩, -⟩
  cases herror

/-! ### Rules that take nodes of their match out -/

theorem head_mem_leading {d' : Draft} {h : Handle} (hhead : chain.head? = some h)
    (hmem : h ∈ d'.handles) : h ∈ d'.leading chain := by
  obtain ⟨rest, rfl⟩ := List.head?_eq_some_iff.1 hhead
  simp [leading, hmem]

theorem leading_of_head_absent {d' : Draft} (hhead : ∀ h, chain.head? = some h → h ∉ d'.handles) :
    d'.leading chain = [] := by
  cases chain with
  | nil => rfl
  | cons h rest => simp [leading, hhead h rfl]

/-- **A match may be removed by half.** Where a rule takes a node of the match it is consulted about
out of the draft and proposes a substitution, the pass fails. It leaves the draft as the rule left
it if the substitution is not admitted, and takes the nodes before the first missing one out if it
is. So the rest of the match stays as and where it was just if its first node is missing or the
substitution is not admitted. -/
theorem runPass_some_keeps_match_iff
    (hcomes : d.ComesTo options pattern rule index chain before)
    (hpresent : ∀ h ∈ chain, h ∈ before.draft.handles) {s : Substitution} {d' : Draft}
    (hrule : rule index chain before.draft = .ok s d') (hgone : ∃ h ∈ chain, h ∉ d'.handles) :
    let run := d.runPass options pattern (some rule)
    (∃ e, run.2 = .error e) ∧
    (d'.Admits chain s → run.1.draft = d'.removeChain (d'.leading chain)) ∧
    (¬ d'.Admits chain s → run.1.draft = d') ∧
    ((∀ e ∈ d'.entries, e.handle ∈ chain → e ∈ run.1.draft.entries ∧
        run.1.draft.position? e.handle = d'.position? e.handle) ↔
      (d'.Admits chain s → ∀ h, chain.head? = some h → h ∉ d'.handles)) := by
  intro run
  have hmatch := handleMatch_of_ok options hpresent hrule
  by_cases hadmits : d'.Admits chain s
  · obtain ⟨e, hsubstitute⟩ := substitute_of_absent options index
      (p := before.consulted index chain s d') hcomes.ne_nil hcomes.chain_nodup hadmits hgone
    rw [hsubstitute] at hmatch
    have hrun : run = _ := hcomes.runPass_eq_error hmatch
    have hdraft : run.1.draft = d'.removeChain (d'.leading chain) := by rw [hrun]; rfl
    refine ⟨⟨e, by rw [hrun]⟩, fun _ => hdraft, fun hnot => absurd hadmits hnot, ?_, ?_⟩
    -- the first node of the match is taken out, if it is there
    · intro hkeeps _ h hhead hmem
      obtain ⟨first, hfirst, rfl⟩ := List.mem_map.1 hmem
      have hleft := (hkeeps first hfirst (List.mem_of_head? hhead)).1
      rw [hdraft] at hleft
      exact (mem_entries_removeChain.1 hleft).2 (head_mem_leading hhead hmem)
    · intro hhead e he _
      rw [hdraft, leading_of_head_absent (hhead hadmits), removeChain_nil]
      exact ⟨he, rfl⟩
  · obtain ⟨e, hsubstitute⟩ := substitute_of_not_admits options index
      (p := before.consulted index chain s d') hcomes.ne_nil hadmits
    rw [hsubstitute] at hmatch
    have hrun : run = _ := hcomes.runPass_eq_error hmatch
    have hdraft : run.1.draft = d' := by rw [hrun]; rfl
    refine ⟨⟨e, by rw [hrun]⟩, fun h => absurd h hadmits, fun _ => hdraft,
      fun _ h => absurd h hadmits, fun _ e he _ => ?_⟩
    rw [hdraft]
    exact ⟨he, rfl⟩

/-- A pass over the two pairs with a rule that takes one node of its match out comes to the first
pair. -/
theorem comesTo_pairedGraph :
    (ofGraph pairedGraph).ComesTo {} pairPattern (Recipe.rule [halvingRecipe]) 0 [⟨0⟩, ⟨1⟩]
      ((ofGraph pairedGraph).checked {} pairPattern) where
  nodup := by rw [findAll_pairedGraph]; decide
  chain_eq := by rw [findAll_pairedGraph]; rfl
  run_eq := rfl

/-- The substitution of the recipe for the first pair. -/
def halvingSubstitution : Substitution where
  nodes := [.insert { op := "Gelu", inputs := ["x"], outputs := ["b"] }]

theorem halvingRecipe_rule :
    Recipe.rule [halvingRecipe] 0 [⟨0⟩, ⟨1⟩] (ofGraph pairedGraph) =
      .ok halvingSubstitution ((ofGraph pairedGraph).remove ⟨1⟩) :=
  rfl

/-- The pass fails at the first pair, and the node of it that the rule left goes. -/
theorem runPass_some_halves_pair :
    let d := ofGraph pairedGraph
    let rule := Recipe.rule [halvingRecipe]
    let run := d.runPass {} pairPattern (some rule)
    d.ComesTo {} pairPattern rule 0 [⟨0⟩, ⟨1⟩] (d.checked {} pairPattern) ∧
    (∀ h ∈ [(⟨0⟩ : Handle), ⟨1⟩], h ∈ d.handles) ∧
    rule 0 [⟨0⟩, ⟨1⟩] d = .ok halvingSubstitution (d.remove ⟨1⟩) ∧
    (∃ h ∈ [(⟨0⟩ : Handle), ⟨1⟩], h ∉ (d.remove ⟨1⟩).handles) ∧
    (∃ e, run.2 = .error e) ∧
    ((∀ e ∈ (d.remove ⟨1⟩).entries, e.handle ∈ [(⟨0⟩ : Handle), ⟨1⟩] → e ∈ run.1.draft.entries ∧
        run.1.draft.position? e.handle = (d.remove ⟨1⟩).position? e.handle) ↔
      ((d.remove ⟨1⟩).Admits [⟨0⟩, ⟨1⟩] halvingSubstitution →
        ∀ h, [(⟨0⟩ : Handle), ⟨1⟩].head? = some h → h ∉ (d.remove ⟨1⟩).handles)) := by
  intro d rule run
  have hpresent : ∀ h ∈ [(⟨0⟩ : Handle), ⟨1⟩], h ∈ d.handles := by decide
  have hgone : ∃ h ∈ [(⟨0⟩ : Handle), ⟨1⟩], h ∉ (d.remove ⟨1⟩).handles :=
    ⟨⟨1⟩, by decide, by decide⟩
  have hkeeps := runPass_some_keeps_match_iff comesTo_pairedGraph hpresent halvingRecipe_rule hgone
  exact ⟨comesTo_pairedGraph, hpresent, halvingRecipe_rule, hgone, hkeeps.1, hkeeps.2.2.2⟩

/-- A node that the rule left in its match is taken out by a pass that fails. -/
theorem runPass_some_loses_head :
    let d := ofGraph pairedGraph
    let rule := Recipe.rule [halvingRecipe]
    let run := d.runPass {} pairPattern (some rule)
    d.ComesTo {} pairPattern rule 0 [⟨0⟩, ⟨1⟩] (d.checked {} pairPattern) ∧
    rule 0 [⟨0⟩, ⟨1⟩] d = .ok halvingSubstitution (d.remove ⟨1⟩) ∧
    ⟨0⟩ ∈ (d.remove ⟨1⟩).handles ∧ (∃ e, run.2 = .error e) ∧ ⟨0⟩ ∉ run.1.draft.handles := by
  intro d rule run
  have hrun : run = _ := runPass_some_of_nodup _ comesTo_pairedGraph.nodup
  rw [findAll_pairedGraph] at hrun
  refine ⟨comesTo_pairedGraph, halvingRecipe_rule, by decide, ?_, ?_⟩
  · exact ⟨.nodeNotFound (.absent ⟨1⟩), by rw [hrun]; rfl⟩
  · rw [hrun]
    decide

end Draft

end OpGraph
