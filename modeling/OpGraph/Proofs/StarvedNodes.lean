import Mathlib.Logic.Relation
import OpGraph.Proofs.Chains
import OpGraph.Proofs.Cleanup

/-!
# Needed nodes that no data reaches

A node leads to an output where it writes an output of the graph, or a node does that data comes to
from it. The walk of a cleanup starts from inputs, initializers and nodes that read nothing, so that
it does not come to a node whose inputs have no source, and such a node goes with the cleanup even
where it leads to an output (`Draft.withoutDead_drops_needed`). A node that leads to an output is
kept just where data reaches a needed tensor that it writes, or reaches a reader of it by another
input; on an acyclic draft all such nodes are kept that read nothing, or something that has a source
(`Draft.withoutDead_keeps_needed_iff`).
-/

namespace OpGraph.Draft

variable {d : Draft} {e : Entry} {h : Handle} {n : Node}

/-- An output of the graph is reached from a node: some node writes it that the node itself or one
of its readers, or a reader of a reader, and so on, is. -/
def LeadsToOutput (d : Draft) (h : Handle) : Prop :=
  ∃ last n t, Relation.ReflTransGen d.Follows h last ∧ d.node? last = some n ∧ t ∈ n.outputs ∧
    t ≠ "" ∧ d.isOutput t

theorem LeadsToOutput.of_follows {next : Handle} (hfollows : d.Follows h next)
    (hnext : d.LeadsToOutput next) : d.LeadsToOutput h := by
  obtain ⟨last, n, t, hreach, hlast⟩ := hnext
  exact ⟨last, n, t, .head hfollows hreach, hlast⟩

/-- A needed tensor is an output, or a node reads it that leads to one. -/
theorem Needed.leadsToOutput {t : String} (ht : d.Needed t) :
    t ≠ "" → d.node? h = some n → t ∈ n.outputs → d.LeadsToOutput h := by
  induction ht generalizing h n with
  | @output t hout => exact fun hne hn ht => ⟨h, n, t, .refl, hn, ht, hne, hout⟩
  | @step m i o hm ho hone _ hi hine ih =>
    intro hne hn ht
    obtain ⟨e, he, rfl⟩ := mem_nodes.1 hm
    have hm := node?_of_mem he
    exact .of_follows ⟨n, e.node, i, hn, hm, hne, ht, hi⟩ (ih hone hm ho)

/-- A node leads to an output where it writes a needed tensor. -/
theorem leadsToOutput_iff (hn : d.node? h = some n) :
    d.LeadsToOutput h ↔ ∃ o ∈ n.outputs, o ≠ "" ∧ d.Needed o := by
  constructor
  · rintro ⟨last, m, t, hreach, hm, ht, hne, hout⟩
    induction hreach using Relation.ReflTransGen.head_induction_on generalizing n with
    | refl =>
      obtain rfl := Option.some.inj (hn.symm.trans hm)
      exact ⟨t, ht, hne, .output hout⟩
    | head hfollows _ ih =>
      obtain ⟨n', next, i, hn', hnext, hine, hi, hread⟩ := hfollows
      obtain rfl := Option.some.inj (hn.symm.trans hn')
      obtain ⟨o, ho, hone, hneeded⟩ := ih hnext
      exact ⟨i, hi, hine, .step (node_mem_nodes (node?_eq_some_iff.1 hnext)) ho hone hneeded hread
        hine⟩
  · rintro ⟨o, ho, hone, hneeded⟩
    exact hneeded.leadsToOutput hone hn ho

theorem mem_entries_withoutDead :
    e ∈ d.withoutDead.entries ↔ e ∈ d.entries ∧ ∃ o ∈ e.node.outputs, d.OnDataPath o := by
  simp only [entries_withoutDead, List.mem_filter, List.any_eq_true, Std.HashSet.contains_iff_mem,
    mem_liveTensors]

/-- What a cleanup keeps of the nodes: those that write a tensor which is fed and needed, and those
that write for a node which leads to an output and is fed by another input. -/
theorem mem_entries_withoutDead_iff (he : e ∈ d.entries) :
    e ∈ d.withoutDead.entries ↔
      (∃ o ∈ e.node.outputs, d.Fed o ∧ d.Needed o) ∨
        ∃ e' ∈ d.entries, d.Follows e.handle e'.handle ∧ d.LeadsToOutput e'.handle ∧
          ∃ i ∈ e'.node.inputs, i ≠ "" ∧ d.Fed i := by
  rw [mem_entries_withoutDead, and_iff_right he]
  constructor
  · rintro ⟨o, ho, hpath | ⟨m, hm, hread, hne, hfed, hneeded⟩⟩
    · exact .inl ⟨o, ho, hpath⟩
    · obtain ⟨e', he', rfl⟩ := mem_nodes.1 hm
      have hnode := node?_of_mem he'
      exact .inr ⟨e', he', ⟨e.node, e'.node, o, node?_of_mem he, hnode, hne, ho, hread⟩,
        (leadsToOutput_iff hnode).2 hneeded, hfed⟩
  · rintro (⟨o, ho, hpath⟩ | ⟨e', he', hfollows, hleads, hfed⟩)
    · exact ⟨o, ho, .inl hpath⟩
    · have hnode := node?_of_mem he'
      obtain ⟨n, n', o, hn, hn', hne, ho, hread⟩ := hfollows
      obtain rfl := Option.some.inj (hn.symm.trans (node?_of_mem he))
      obtain rfl := Option.some.inj (hn'.symm.trans hnode)
      exact ⟨o, ho, .inr ⟨e'.node, node_mem_nodes he', hread, hne, hfed,
        (leadsToOutput_iff hnode).1 hleads⟩⟩

/-- A node that reads nothing, or something that has a source. -/
def HasSource (d : Draft) (n : Node) : Prop :=
  (∀ i ∈ n.inputs, i = "") ∨ ∃ i ∈ n.inputs, i ≠ "" ∧ d.isDefined i

/-- Where every node that leads to an output reads nothing, or something that has a source, data
reaches all that these nodes write. -/
theorem Acyclic.fed_of_leadsToOutput (hacyclic : d.Acyclic)
    (hsources : ∀ e ∈ d.entries, d.LeadsToOutput e.handle → d.HasSource e.node)
    (he : e ∈ d.entries) (hleads : d.LeadsToOutput e.handle) {o : String}
    (ho : o ∈ e.node.outputs) (hone : o ≠ "") : d.Fed o := by
  obtain ⟨rank, hranked⟩ := hacyclic
  induction hr : rank e.handle using Nat.strongRecOn generalizing e o with
  | _ r ih =>
    subst hr
    rcases hsources e he hleads with hempty | ⟨i, hi, hine, hdefined⟩
    · exact .start (node_mem_nodes he) hempty ho hone
    · refine .step (node_mem_nodes he) hi hine ?_ ho hone
      rcases isDefined_iff.1 hdefined with h | h | h | ⟨m, hm, hwritten⟩
      · exact .input h
      · exact .initializer h
      · exact .sparse h
      -- the writer ranks lower, and leads to the same output
      · obtain ⟨w, hw, rfl⟩ := mem_nodes.1 hm
        have hfollows : d.Follows w.handle e.handle :=
          ⟨w.node, e.node, i, node?_of_mem hw, node?_of_mem he, hine, hwritten, hi⟩
        exact ih _ (hranked w hw e he i hwritten hine hi) hw (.of_follows hfollows hleads) hwritten
          hine rfl

/-- **What a cleanup keeps of the needed nodes.** A node is kept just where data reaches a needed
tensor that it writes, or where a reader of it leads to an output and is reached by another input.
So a node that leads to an output may be lost; but on an acyclic draft all of them are kept where
each of them reads nothing, or something that has a source. -/
theorem withoutDead_keeps_needed_iff (d : Draft) :
    (∀ e ∈ d.entries,
      (e ∈ d.withoutDead.entries ↔
        (∃ o ∈ e.node.outputs, d.Fed o ∧ d.Needed o) ∨
          ∃ e' ∈ d.entries, d.Follows e.handle e'.handle ∧ d.LeadsToOutput e'.handle ∧
            ∃ i ∈ e'.node.inputs, i ≠ "" ∧ d.Fed i)) ∧
    (d.Acyclic → (∀ e ∈ d.entries, d.LeadsToOutput e.handle → d.HasSource e.node) →
      ∀ e ∈ d.entries, d.LeadsToOutput e.handle → e ∈ d.withoutDead.entries) := by
  refine ⟨fun e he => mem_entries_withoutDead_iff he, fun hacyclic hsources e he hleads => ?_⟩
  obtain ⟨o, ho, hone, hneeded⟩ := (leadsToOutput_iff (node?_of_mem he)).1 hleads
  have hfed : d.Fed o := hacyclic.fed_of_leadsToOutput hsources he hleads ho hone
  exact (mem_entries_withoutDead_iff he).2 (.inl ⟨o, ho, hfed, hneeded⟩)

/-- A path to an output whose first and last node also read tensors without a source. -/
def halfFedGraph : Graph where
  nodes :=
    [{ op := "Mul", inputs := ["u", "x"], outputs := ["p"] },
      { op := "Neg", inputs := ["p"], outputs := ["q"] },
      { op := "Add", inputs := ["q", "v"], outputs := ["y"] }]
  inputs := [{ name := "x" }]
  outputs := [{ name := "y" }]

theorem withoutDead_keeps_needed_halfFed :
    let d := ofGraph halfFedGraph
    d.Acyclic ∧ d.dangling = ["u", "v"] ∧
      (∃ e ∈ d.withoutDead.entries, e.handle = ⟨0⟩ ∧ ∃ o ∈ e.node.outputs, d.Fed o ∧ d.Needed o) ∧
      ∀ e ∈ d.entries, d.LeadsToOutput e.handle ∧ e ∈ d.withoutDead.entries := by
  intro d
  have hacyclic : d.Acyclic := ⟨Handle.index, by unfold Ranked; decide⟩
  have hsources : ∀ e ∈ d.entries, d.HasSource e.node := by
    unfold HasSource
    decide
  have hmul : d.node? ⟨0⟩ = some { op := "Mul", inputs := ["u", "x"], outputs := ["p"] } := rfl
  have hleads : ∀ e ∈ d.entries, d.LeadsToOutput e.handle := by
    have hlast : d.LeadsToOutput ⟨2⟩ := ⟨⟨2⟩, _, "y", .refl, rfl, by decide⟩
    have hmiddle : d.LeadsToOutput ⟨1⟩ := hlast.of_follows ⟨_, _, "q", rfl, rfl, by decide⟩
    have hfirst : d.LeadsToOutput ⟨0⟩ := hmiddle.of_follows ⟨_, _, "p", hmul, rfl, by decide⟩
    simpa [d, ofGraph, halfFedGraph, Entry.number] using ⟨hfirst, hmiddle, hlast⟩
  obtain ⟨hkept, hall⟩ := withoutDead_keeps_needed_iff d
  have hneeded : ∃ o ∈ ["p"], d.Fed o ∧ d.Needed o := by
    obtain ⟨o, ho, hone, hneeded⟩ := (leadsToOutput_iff hmul).1 (hleads _ (node?_eq_some_iff.1 hmul))
    obtain rfl := List.mem_singleton.1 ho
    have hnode := node_mem_nodes (node?_eq_some_iff.1 hmul)
    exact ⟨"p", ho, .step hnode (i := "x") (by decide) (by decide) (.input rfl) ho hone, hneeded⟩
  exact ⟨hacyclic, by decide,
    ⟨_, (hkept _ (node?_eq_some_iff.1 hmul)).2 (.inl hneeded), rfl, hneeded⟩,
    fun e he => ⟨hleads e he, hall hacyclic (fun e he _ => hsources e he) e he (hleads e he)⟩⟩

/-- A graph where a branch of two nodes that nothing feeds joins a path from an input to an
output. -/
def starvedGraph : Graph where
  nodes :=
    [{ op := "Exp", inputs := ["u"], outputs := ["p"], name := "exp" },
      { op := "Neg", inputs := ["p"], outputs := ["q"], name := "neg" },
      { op := "Add", inputs := ["x", "q"], outputs := ["y"], name := "add" }]
  inputs := [{ name := "x" }]
  outputs := [{ name := "y" }]

theorem follows_starvedGraph :
    (ofGraph starvedGraph).Follows ⟨0⟩ ⟨1⟩ ∧ (ofGraph starvedGraph).Follows ⟨1⟩ ⟨2⟩ :=
  ⟨⟨_, _, "p", rfl, rfl, by decide⟩, ⟨_, _, "q", rfl, rfl, by decide⟩⟩

theorem leadsToOutput_starvedGraph : (ofGraph starvedGraph).LeadsToOutput ⟨2⟩ :=
  ⟨⟨2⟩, _, "y", .refl, rfl, by decide⟩

theorem fed_starvedGraph {t : String} (h : (ofGraph starvedGraph).Fed t) : t = "x" ∨ t = "y" := by
  have hnodes : ∀ n ∈ (ofGraph starvedGraph).nodes, (¬ ∀ i ∈ n.inputs, i = "") ∧
      ("x" ∈ n.inputs ∨ "y" ∈ n.inputs → n.outputs = ["y"]) := by decide
  induction h with
  | @input t h =>
    have hname : t ∈ (ofGraph starvedGraph).frame.inputs.map (·.name) := isInput_iff.1 h
    exact .inl (List.mem_singleton.1 hname)
  | initializer h => exact absurd (isInitializer_iff.1 h) List.not_mem_nil
  | sparse h => exact absurd h List.not_mem_nil
  | start hn hi => exact absurd hi (hnodes _ hn).1
  | step hn hi _ _ ho _ ih =>
    have hread := ih.imp (fun heq => heq ▸ hi) (fun heq => heq ▸ hi)
    rw [(hnodes _ hn).2 hread] at ho
    exact .inr (List.mem_singleton.1 ho)

/-- No data comes by the tensor between the two nodes of the branch. -/
theorem not_onDataPath_starvedGraph : ¬ (ofGraph starvedGraph).OnDataPath "p" := by
  have hreaders : ∀ n ∈ (ofGraph starvedGraph).nodes, "p" ∈ n.inputs → n.inputs = ["p"] := by
    decide
  rintro (⟨hfed, -⟩ | ⟨n, hn, hread, -, ⟨i, hi, -, hfed⟩, -⟩)
  · exact absurd (fed_starvedGraph hfed) (by decide)
  · rw [hreaders n hn hread] at hi
    obtain rfl := List.mem_singleton.1 hi
    exact absurd (fed_starvedGraph hfed) (by decide)

/-- The second node of the branch is kept for the sake of its reader, which is fed. -/
theorem keeps_starvedGraph :
    ∃ e ∈ (ofGraph starvedGraph).withoutDead.entries, e.handle = ⟨1⟩ ∧ e.node.inputs = ["p"] := by
  have hneg : (ofGraph starvedGraph).node? ⟨1⟩ =
      some { op := "Neg", inputs := ["p"], outputs := ["q"], name := "neg" } := rfl
  have hmem := node?_eq_some_iff.1 hneg
  refine ⟨_, (mem_entries_withoutDead_iff hmem).2 (.inr ?_), rfl, rfl⟩
  exact ⟨⟨⟨2⟩, _⟩, .tail _ (.tail _ (.head _)), follows_starvedGraph.2, leadsToOutput_starvedGraph,
    "x", by decide, by decide, .input rfl⟩

/-- A cleanup removes a node that leads to an output, since nothing feeds it. Its reader is kept and
reads a tensor afterwards that had a source and has none any more. -/
theorem withoutDead_drops_needed :
    let d := ofGraph starvedGraph
    ∃ e ∈ d.entries, d.LeadsToOutput e.handle ∧ e ∉ d.withoutDead.entries ∧
      ∃ e' ∈ d.withoutDead.entries, d.Follows e.handle e'.handle ∧
        ∃ t ∈ e'.node.inputs, d.isDefined t ∧ ¬ d.withoutDead.isDefined t := by
  intro d
  have hwriters : ∀ n ∈ d.nodes, "p" ∈ n.outputs → n.outputs = ["p"] := by decide
  have hleads : d.LeadsToOutput ⟨0⟩ :=
    .of_follows follows_starvedGraph.1 (.of_follows follows_starvedGraph.2 leadsToOutput_starvedGraph)
  obtain ⟨e', he', hhandle, hinputs⟩ := keeps_starvedGraph
  refine ⟨⟨⟨0⟩, _⟩, .head _, hleads, ?_, e', he', hhandle ▸ follows_starvedGraph.1, "p", ?_, by decide,
    ?_⟩
  · rintro hkept
    obtain ⟨-, o, ho, hpath⟩ := mem_entries_withoutDead.1 hkept
    obtain rfl := List.mem_singleton.1 ho
    exact not_onDataPath_starvedGraph hpath
  · rw [hinputs]
    exact List.mem_singleton_self _
  · rw [isDefined_iff]
    rintro (h | h | h | ⟨n, hn, ho⟩)
    · exact absurd h (by decide)
    · exact absurd (isInitializer_withoutDead.1 h).1 (by decide)
    · exact absurd h (by decide)
    · obtain ⟨hn, o, ho', hpath⟩ := mem_nodes_withoutDead.1 hn
      rw [hwriters n hn ho] at ho'
      obtain rfl := List.mem_singleton.1 ho'
      exact not_onDataPath_starvedGraph hpath

end OpGraph.Draft
