import OpGraph.Proofs.Cleanup
import OpGraph.Proofs.DeletionPass
import OpGraph.Proofs.VariableScope

/-!
# Patterns of one step

In a pattern that is read, nothing is bound before the first step, so that none of its inputs can
name a variable. A pattern of one step therefore looks at nothing but operators: its matches are the
nodes that the step accepts, each on its own, whatever the limit on states
(`Pattern.findAll_of_single`). A bypass renames the tensors that a node reads and writes and keeps
its operator, so that a pass neither loses a match nor makes one. After a deletion there is nothing
left to delete, and a second one changes nothing (`Session.delete_exhausts`).
-/

namespace OpGraph

/-- Whether a node is no constant and of an operator that a step takes. -/
def PatternStep.acceptsNode (step : PatternStep) (n : Node) : Bool :=
  !n.isConstant && step.ops.accepts n.op

theorem Node.Rewired.acceptsNode_eq {n n' : Node} (h : n.Rewired n') (step : PatternStep) :
    step.acceptsNode n' = step.acceptsNode n := by
  rw [PatternStep.acceptsNode, PatternStep.acceptsNode, h.isConstant_eq, h.op_eq]

/-! ### The matches -/

namespace Pattern

variable {p : Pattern} {d : Draft} {step : PatternStep} {later : List PatternStep}

/-- The first step of a pattern asks nothing of what its node reads. -/
theorem WellScoped.inputsSatisfied_first (hp : p.WellScoped) (hsteps : p.steps = step :: later)
    (node : Node) (b : Bindings) : step.inputsSatisfied node b := by
  refine List.all_eq_true.2 fun slot hslot => ?_
  cases slot with
  | any => rfl
  | «variable» x =>
    obtain ⟨before, hbefore, -⟩ := hp.bound [] step later hsteps x hslot
    exact absurd hbefore List.not_mem_nil

/-- The match of an anchor is the anchor, if the step accepts its node. One state is enough to see
that. -/
theorem matchAt_of_single (hp : p.WellScoped) (hsteps : p.steps = [step]) (cap : Nat) {e : Entry}
    (he : e ∈ d.entries) :
    p.matchAt d cap e.handle = if step.acceptsNode e.node then some [e.handle] else none := by
  have hnode : d.node? e.handle = some e.node := Draft.node?_of_mem he
  cases hconst : e.node.isConstant with
  | true =>
    rw [matchAt_eq_none (by simp [hnode, hconst])]
    simp [PatternStep.acceptsNode, hconst]
  | false =>
    obtain ⟨budget, hbudget⟩ : ∃ budget, max cap 1 = budget + 1 := ⟨max cap 1 - 1, by omega⟩
    rw [matchAt_eq, firstStates_of_cons hsteps hnode hconst, hbudget, SearchState.search]
    by_cases haccepts : step.ops.accepts e.node.op
    · have htakes : (p.start step [] e.handle).Takes d e.node :=
        ⟨hnode, haccepts, hp.inputsSatisfied_first hsteps _ _⟩
      rw [htakes.expand_of_last rfl]
      simp [PatternStep.acceptsNode, hconst, haccepts, SearchOutcome.chain?, SearchState.chain,
        start]
    · have htakes : ∀ node, ¬ (p.start step [] e.handle).Takes d node := by
        rintro node ⟨hnode', haccepts', -⟩
        obtain rfl : e.node = node := Option.some.inj (hnode.symm.trans hnode')
        exact haccepts haccepts'
      rw [SearchState.expand_of_not_takes htakes]
      simp [PatternStep.acceptsNode, haccepts, SearchOutcome.chain?, SearchState.search]

/-- The matches are the nodes that the step accepts, in order. -/
theorem findAll_of_single (hp : p.WellScoped) (hsteps : p.steps = [step]) (d : Draft)
    (cap : Nat) : p.findAll d cap = (d.select step.acceptsNode).map fun h => [h] := by
  rw [findAll_eq, Draft.handles, Draft.select, List.filterMap_map, List.map_map,
    ← List.filterMap_eq_map, List.filterMap_filter]
  refine List.filterMap_congr fun e he => ?_
  exact matchAt_of_single hp hsteps cap he

end Pattern

/-! ### Passes that find nothing -/

/-- A pass that finds nothing counts nothing and changes nothing, unless there is something to clean
up. -/
theorem Draft.cleared_of_findAll_eq_nil {d : Draft} {options : PassOptions} {p : Pattern}
    (hnone : p.findAll d options.maxStates = [])
    (hclean : options.cleanupAfter = true → d.withoutDead = d) :
    (d.cleared options p).draft = d ∧ (d.cleared options p).tally = {} := by
  rw [cleared, hnone, Progress.deleteChains, checked, hnone, Progress.finish]
  split
  · rename_i hcleanup
    simp [hclean hcleanup, cleanupCount_self]
  · exact ⟨rfl, rfl⟩

namespace Session

variable {s : Session} {p : Pattern} {count : Nat}

theorem delete_of_findAll_eq_nil (hnone : s.findAll p = [])
    (hclean : s.options.cleanupAfter = true → s.draft.withoutDead = s.draft) :
    (s.delete p).session = s ∧ (s.delete p).result = .ok 0 := by
  have hrun : s.draft.runPass s.options p none = (s.draft.cleared s.options p, .ok ()) := by
    rw [findAll] at hnone
    exact Draft.runPass_none_of_balanced (by simp [hnone]) (by simp [hnone])
  obtain ⟨hdraft, htally⟩ := Draft.cleared_of_findAll_eq_nil hnone hclean
  rw [delete, runPass, hrun]
  dsimp only
  rw [hdraft, htally]
  exact ⟨rfl, rfl⟩

theorem options_delete (s : Session) (p : Pattern) : (s.delete p).session.options = s.options := by
  rw [delete, runPass]
  obtain ⟨progress, result⟩ := s.draft.runPass s.options p none
  cases result <;> rfl

section

variable (hok : (s.delete p).result = .ok count)

include hok

theorem count_eq_of_delete : count = (s.findAll p).length := by
  have hd := deletable_of_delete hok
  rw [(delete_of_balanced hd.nodup hd.balanced).2] at hok
  exact (Except.ok.inj hok).symm

/-- No node of a match is left by a deletion that succeeds. -/
theorem not_mem_handles_delete {chain : Chain} (hchain : chain ∈ s.findAll p) {h : Handle}
    (hmem : h ∈ chain) : h ∉ (s.delete p).session.draft.handles := by
  rw [(delete_eq_cleared hok).1]
  intro hleft
  exact not_mem_handles_deleteChains hchain hmem (Progress.trims_finish.mem_handles hleft)

/-- What a deletion leaves is clean, where it cleans up. -/
theorem withoutDead_delete (hcleanup : s.options.cleanupAfter = true) :
    (s.delete p).session.draft.withoutDead = (s.delete p).session.draft := by
  rw [draft_delete hok, if_pos hcleanup, Draft.withoutDead_withoutDead]

/-- A deletion leaves no node that the step of its pattern accepts. -/
theorem acceptsNode_delete (hp : p.WellScoped) {step : PatternStep} (hsteps : p.steps = [step])
    {n : Node} (hn : n ∈ (s.delete p).session.draft.nodes) : step.acceptsNode n = false := by
  obtain ⟨e, he, rfl⟩ := List.mem_map.1 hn
  by_contra haccepts
  rw [Bool.not_eq_false] at haccepts
  -- the node had the same operator before the pass, so that it was a match
  obtain ⟨n, hn, hrewired⟩ := (trims_delete hok).exists_node? (Draft.node?_of_mem he)
  rw [hrewired.acceptsNode_eq] at haccepts
  have hchain : [e.handle] ∈ s.findAll p := by
    rw [findAll, Pattern.findAll_of_single hp hsteps]
    exact List.mem_map_of_mem (Draft.mem_select.2 ⟨n, hn, haccepts⟩)
  exact not_mem_handles_delete hok hchain (List.mem_singleton_self _) (List.mem_map_of_mem he)

/-- What the step of its pattern does not accept is left by a deletion that does not clean up, but
for constants that are spent. -/
theorem exists_rewiredFrom_delete (hp : p.WellScoped) {step : PatternStep}
    (hsteps : p.steps = [step]) (hcleanup : s.options.cleanupAfter = false) {e : Entry}
    (he : e ∈ s.draft.entries) (hrefused : step.acceptsNode e.node = false) :
    (∃ e' ∈ (s.delete p).session.draft.entries, e'.RewiredFrom e) ∨
      e.node.isConstant ∧ s.draft.Spends s.options.protectShared (s.findAll p) e.handle := by
  have hnot : ∀ chain ∈ s.findAll p, e.handle ∉ chain := by
    rw [findAll, Pattern.findAll_of_single hp hsteps]
    intro chain hchain hmem
    obtain ⟨h, hselected, rfl⟩ := List.mem_map.1 hchain
    obtain ⟨n, hn, haccepts⟩ := Draft.mem_select.1 hselected
    obtain rfl := List.mem_singleton.1 hmem
    rw [Draft.node?_of_mem he, Option.some.injEq] at hn
    rw [← hn, hrefused] at haccepts
    cases haccepts
  rw [draft_delete hok, hcleanup, if_neg Bool.false_ne_true]
  exact Draft.exists_rewiredFrom_or_spends _ he hnot

end

/-- **A deletion by one step is complete and idempotent.** Where a deletion by a pattern of a single
step succeeds, whatever its options, every node that is left is a constant or of an operator that
the step does not take, and the pattern has no match with any limit on states. The deletion has
counted the nodes that there were to delete. A second one counts nothing and leaves the session as
it is. Where nothing is cleaned up, the other nodes are all left, but for constants that are spent
on a node that is deleted. -/
theorem delete_exhausts {text : String} {step : PatternStep} (hp : Pattern.parse text = .ok p)
    (hsteps : p.steps = [step]) (hok : (s.delete p).result = .ok count) :
    let after := (s.delete p).session
    (∀ n ∈ after.draft.nodes, n.isConstant = false → step.ops.accepts n.op = false) ∧
    (∀ cap, p.findAll after.draft cap = []) ∧
    count = s.draft.nodes.countP (fun n => !n.isConstant && step.ops.accepts n.op) ∧
    (after.delete p).result = .ok 0 ∧ (after.delete p).session = after ∧
    (s.options.cleanupAfter = false → ∀ e ∈ s.draft.entries,
      (e.node.isConstant ∨ step.ops.accepts e.node.op = false) →
        (∃ e' ∈ after.draft.entries, e'.RewiredFrom e) ∨
          e.node.isConstant ∧
            s.draft.Spends s.options.protectShared (s.findAll p) e.handle) := by
  intro after
  have hscoped : p.WellScoped := Pattern.parse_wellScoped hp
  have hnone : ∀ n ∈ after.draft.nodes, step.acceptsNode n = false := fun n hn =>
    acceptsNode_delete hok hscoped hsteps hn
  have hfind : ∀ cap, p.findAll after.draft cap = [] := by
    intro cap
    rw [Pattern.findAll_of_single hscoped hsteps, List.map_eq_nil_iff, ← List.length_eq_zero_iff,
      Draft.length_select, List.countP_eq_zero]
    exact fun n hn => by simp [hnone n hn]
  obtain ⟨hsession, hresult⟩ := delete_of_findAll_eq_nil (hfind _) fun hcleanup =>
    withoutDead_delete hok (by rwa [← options_delete s p])
  refine ⟨fun n hn hconst => ?_, hfind, ?_, hresult, hsession, fun hcleanup e he hother => ?_⟩
  · simpa [PatternStep.acceptsNode, hconst] using hnone n hn
  · rw [count_eq_of_delete hok, findAll, Pattern.findAll_of_single hscoped hsteps, List.length_map,
      Draft.length_select]
    rfl
  · have hrefused : step.acceptsNode e.node = false := by
      simpa [PatternStep.acceptsNode, imp_iff_or_not] using hother.symm
    exact exists_rewiredFrom_delete hok hscoped hsteps hcleanup he hrefused

end Session

/-- A graph with two nodes in a row that hand on what they read, and a third one at its output. -/
def droppedGraph : Graph where
  nodes :=
    [{ op := "Dropout", inputs := ["x"], outputs := ["a"] },
      { op := "Identity", inputs := ["a"], outputs := ["b"] },
      { op := "Relu", inputs := ["b"], outputs := ["c"] },
      { op := "Dropout", inputs := ["c"], outputs := ["y"] }]
  inputs := [{ name := "x" }]
  outputs := [{ name := "y" }]

/-- The pattern of such a node. -/
def droppedStep : Pattern where
  steps :=
    [{ ops := .oneOf ["Dropout", "Identity"], inputs := [.any], outputs := [.any]
       line := "Dropout/Identity(?,?)" }]

theorem Session.delete_exhausts_dropped :
    let s : Session := { draft := .ofGraph droppedGraph }
    let after := (s.delete droppedStep).session
    Pattern.parse "Dropout/Identity(?, ?)" = .ok droppedStep ∧
      (s.delete droppedStep).result = .ok 3 ∧ (∀ cap, droppedStep.findAll after.draft cap = []) ∧
      (after.delete droppedStep).result = .ok 0 ∧ (after.delete droppedStep).session = after ∧
      (after.draft.node? ⟨2⟩).map (·.op) = some "Relu" := by
  intro s after
  have hparse : Pattern.parse "Dropout/Identity(?, ?)" = .ok droppedStep := by decide +kernel
  have hfind : s.findAll droppedStep = [[⟨0⟩], [⟨1⟩], [⟨3⟩]] := by
    rw [Session.findAll, Pattern.findAll_of_single (Pattern.parse_wellScoped hparse) rfl]
    decide +kernel
  have hok : (s.delete droppedStep).result = .ok 3 := by
    rw [(Session.delete_of_balanced _ _).2, hfind]
    · rfl
    · rw [hfind]
      decide
    · rw [hfind]
      decide
  obtain ⟨-, hnone, -, hresult, hsession, hkept⟩ := Session.delete_exhausts hparse rfl hok
  refine ⟨hparse, hok, hnone, hresult, hsession, ?_⟩
  obtain ⟨e, he, hhandle, hop, hconst⟩ : ∃ e ∈ s.draft.entries,
      e.handle = ⟨2⟩ ∧ e.node.op = "Relu" ∧ e.node.isConstant = false := by decide
  have hother : e.node.isConstant = true ∨
      (OpTypes.oneOf ["Dropout", "Identity"]).accepts e.node.op = false := by
    rw [hop]
    exact .inr (by decide)
  rcases hkept rfl e he hother with ⟨e', he', hrewired⟩ | ⟨hconst', -⟩
  · rw [← hhandle, Draft.op_node?_of_rewiredFrom he' hrewired, hop]
  · cases hconst.symm.trans hconst'

end OpGraph
