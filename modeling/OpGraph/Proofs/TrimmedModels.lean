import OpGraph.Proofs.Loading

/-!
# What a deletion leaves of a model

A graph is trimmed where nodes and initializers are left out of it and names of
tensors have become others, no name from or to the empty one; of its inputs and
outputs the first ones of each name are there, and all else is as it was
(`Graph.Trims`). A pass over a model that deletes the matches of a pattern trims
its graph and leaves the rest of the model alone (`Model.trims_runPass_none`).
-/

namespace OpGraph

/-- A graph with nodes and initializers left out and other nodes rewired. -/
structure Graph.Trims (g g' : Graph) : Prop where
  fields : g' = { g with
    nodes := g'.nodes
    initializers := g'.initializers
    inputs := g'.inputs
    outputs := g'.outputs }
  inputs : g'.inputs = (g.inputs.zipIdx.filter (IsFirstOfName g.inputs)).map (·.1)
  outputs : g'.outputs = (g.outputs.zipIdx.filter (IsFirstOfName g.outputs)).map (·.1)
  initializers : g'.initializers.Sublist g.initializers
  nodes : List.SublistForall₂ (fun n' n => n.Rewired n') g'.nodes g.nodes

/-- The nodes of a trimmed draft are rewired ones of a sublist. -/
theorem Draft.Trims.nodes {d d' : Draft} (h : d.Trims d') :
    List.SublistForall₂ (fun n' n => n.Rewired n') d'.nodes d.nodes := by
  obtain ⟨kept, hkept, hsub⟩ := List.sublistForall₂_iff.1 h.entries
  refine List.sublistForall₂_iff.2 ⟨kept.map (·.node), ?_, hsub.map _⟩
  rw [Draft.nodes, List.forall₂_map_left_iff, List.forall₂_map_right_iff]
  exact hkept.imp fun _ _ hentry => hentry.2

/-- Where the draft of a graph is trimmed, so is the graph. -/
theorem Draft.Trims.toGraph {g : Graph} {d : Draft} (h : (ofGraph g).Trims d) :
    g.Trims d.toGraph where
  fields := by
    rw [Draft.toGraph, h.frame]
    rfl
  inputs := by
    rw [Draft.toGraph, h.frame, ← firstPerName_eq]
    rfl
  outputs := by
    rw [Draft.toGraph, h.frame, ← firstPerName_eq]
    rfl
  initializers := h.initializers
  nodes := by
    have hnodes : (ofGraph g).nodes = g.nodes := Entry.number_node 0 g.nodes
    exact hnodes ▸ h.nodes

/-- **A deletion touches nothing else.** A pass over a model that deletes the matches of a pattern,
with or without a cleanup after it, changes the graph only. This keeps its name, its notes, the
types of its tensors, its sparse initializers, quantizations and metadata, and the first inputs and
outputs of each name. Its initializers are some of those it had, in order, and its nodes are some
of those it had, in order, in which names of tensors have become other names. -/
theorem Model.trims_runPass_none {m m' : Model} {p : Pattern} {options : PassOptions}
    {summary : PassSummary} (hok : m.runPass p none options = .ok (m', summary)) :
    ∃ g g', m.graph = some g ∧ m' = { m with graph := some g' } ∧ g.Trims g' := by
  obtain ⟨g, count, hg, hresult, rfl⟩ := exists_graph_of_runPass hok
  have htrims := Session.trims_delete hresult
  exact ⟨g, _, hg, rfl, htrims.toGraph⟩

/-- A graph with an input named twice, a constant that feeds one node only, and a branch that
reaches no output. -/
def ladenGraph : Graph where
  name := "laden"
  nodes :=
    [{ op := "Constant", outputs := ["k"] },
      { op := "Relu", inputs := ["x"], outputs := ["a"] },
      { op := "Mul", inputs := ["a", "k"], outputs := ["b", ""], domain := "com.example" },
      { op := "Neg", inputs := ["b", ""], outputs := ["y"] },
      { op := "Exp", inputs := ["a", "w"], outputs := ["z"] }]
  initializers := [{ name := "w" }, { name := "v" }]
  inputs := [{ name := "x" }, { name := "x", doc := "the same again" }]
  outputs := [{ name := "y" }]

/-- A model of the graph. -/
def ladenModel : Model where
  producerName := "bench"
  graph := some ladenGraph

/-- The pattern of the node with the constant. -/
def scalePattern : Pattern where
  steps := [{ ops := .oneOf ["Mul"], inputs := [.any], outputs := [.any], line := "Mul(?,?)" }]

theorem Model.trims_runPass_none_laden :
    ∃ m' summary, ladenModel.runPass scalePattern none { cleanupAfter := true } =
        .ok (m', summary) ∧
      ∃ g g', ladenModel.graph = some g ∧ m' = { ladenModel with graph := some g' } ∧
        g.Trims g' := by
  let s := Session.ofGraph ladenGraph { cleanupAfter := true }
  have hfind : s.findAll scalePattern = [[⟨2⟩]] := by
    rw [Session.findAll, Pattern.findAll_eq, Pattern.matchAt_eq_searchFrom]
    decide +kernel
  have hresult : (s.delete scalePattern).result = .ok 1 := by
    rw [(Session.delete_of_balanced _ _).2, hfind]
    · rfl
    · rw [hfind]
      decide
    · rw [hfind]
      decide
  obtain ⟨m', summary, hok⟩ := exists_runPass_of_result (m := ladenModel) rfl hresult
  exact ⟨m', summary, hok, trims_runPass_none hok⟩

end OpGraph
