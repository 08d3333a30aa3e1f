import Mathlib.Logic.Relation
import OpGraph.Proofs.Bridging

/-!
# What feeds an input across a bypass

Each input of a node is fed by a source (`Draft.ReadsFrom`). A bypass leaves the inputs alone that
sources outside the chain feed, and connects the others by place: an input that was fed by an output
of the last node is fed by what feeds the input of the first node at the same place, unless that is
a node that feeds an earlier place of the first node too (`Draft.bypass_feeds`). Then nothing feeds
it any more (`Draft.bypass_starves_doubled`).
-/

namespace OpGraph

namespace Draft

variable {d d' : Draft} {chain : Chain} {s s' : Source} {t x : String} {first last h : Handle}
  {slot place : Nat} {f : String → String} {m n : Node}

/-! ### Inputs of nodes -/

/-- An input of a node with a name is fed by a source. -/
def ReadsFrom (d : Draft) (h : Handle) (slot : Nat) (s : Source) : Prop :=
  ∃ n t, d.node? h = some n ∧ n.inputs[slot]? = some t ∧ t ≠ "" ∧ d.Defines s t

theorem readsFrom_iff : d.ReadsFrom h slot s ↔
    ∃ t ∈ (d.node? h).bind (·.inputs[slot]?), t ≠ "" ∧ (s, t) ∈ d.definitions := by
  simp only [ReadsFrom, Option.mem_def, Option.bind_eq_some_iff, mem_definitions]
  constructor
  · rintro ⟨n, t, hn, ht, hne, hs⟩
    exact ⟨t, ⟨n, hn, ht⟩, hne, hs⟩
  · rintro ⟨t, ⟨n, hn, ht⟩, hne, hs⟩
    exact ⟨n, t, hn, ht, hne, hs⟩

instance (d : Draft) (h : Handle) (slot : Nat) (s : Source) : Decidable (d.ReadsFrom h slot s) :=
  decidable_of_iff _ readsFrom_iff.symm

theorem SingleSource.readsFrom_eq (hsingle : d.SingleSource) (hs : d.ReadsFrom h slot s)
    (hs' : d.ReadsFrom h slot s') : s = s' := by
  obtain ⟨n, t, hn, ht, hne, hs⟩ := hs
  obtain ⟨n', t', hn', ht', -, hs'⟩ := hs'
  cases hn.symm.trans hn'
  cases ht.symm.trans ht'
  exact hsingle t hne s s' hs hs'

/-- What a node gives at a place is its output there. -/
theorem Defines.getElem?_outputs (hs : d.Defines (.output h place) t) (hn : d.node? h = some n) :
    n.outputs[place]? = some t := by
  generalize hsource : Source.output h place = s at hs
  cases hs with
  | input | initializer | sparse => cases hsource
  | output he ht =>
    injection hsource with hhandle hindex
    subst hhandle hindex
    cases hn.symm.trans (node?_of_mem he)
    exact ht

theorem node?_removeChain (hout : h ∉ chain) : (d.removeChain chain).node? h = d.node? h := by
  ext n
  rw [node?_eq_some_iff, node?_eq_some_iff, mem_entries_removeChain, and_iff_left hout]

theorem Renames.node? (hf : d.Renames d' f) (h : Handle) :
    d'.node? h = (d.node? h).map fun n =>
      { n with inputs := n.inputs.map f, outputs := n.outputs.map f } := by
  ext n
  rw [node?_eq_some_iff, hf.entries, List.mem_map, Option.map_eq_some_iff]
  constructor
  · rintro ⟨e, he, heq⟩
    cases heq
    exact ⟨e.node, node?_of_mem he, rfl⟩
  · rintro ⟨m, hm, rfl⟩
    exact ⟨_, node?_eq_some_iff.1 hm, rfl⟩

/-! ### Across a bypass -/

namespace Bypassable

variable (hb : d.Bypassable chain)

include hb

/-- After a bypass an input is fed by the source that the tensor it has read is rerouted to. -/
theorem readsFrom_bypassed (hout : h ∉ chain) (hn : d.node? h = some n)
    (ht : n.inputs[slot]? = some t) (hne : t ≠ "") :
    (d.bypassed chain).draft.ReadsFrom h slot s ↔
      d.Rerouted chain (fun t s => d.Defines s t) t s := by
  obtain ⟨f, hf, hdefines⟩ := hb.renames_bypassed
  have hnode := hf.node? h
  rw [node?_removeChain hout, hn, Option.map_some] at hnode
  have hslot : (n.inputs.map f)[slot]? = some (f t) := by
    rw [List.getElem?_map, ht, Option.map_some]
  rw [← hdefines t s hne]
  constructor
  · rintro ⟨n', u, hn', hu, -, hs⟩
    cases hnode.symm.trans hn'
    cases hslot.symm.trans hu
    exact hs
  · exact fun hs => ⟨_, _, hnode, hslot, fun heq => hne ((hf.empty t).1 heq), hs⟩

/-- What a source outside the chain gives stays with it. -/
theorem rerouted_of_outside (hne : t ≠ "") (hs : d.Defines s t)
    (hout : ∀ h ∈ chain, s.handle? ≠ some h) :
    d.Rerouted chain (fun t s => d.Defines s t) t s' ↔ s' = s := by
  constructor
  · intro hrerouted
    cases hrerouted with
    | past hs' => exact hb.single t hne _ _ hs' hs
    | through hlast ht =>
      rw [← hb.single t hne _ _ ht hs] at hout
      exact absurd rfl (hout _ (List.mem_of_getLast? hlast))
  · rintro rfl
    exact .past hs hout

/-- What the last node gives at a place goes to what gives the input of the first node there, if no
other place before it has taken that. -/
theorem rerouted_of_last (hlast : chain.getLast? = some last) (hne : t ≠ "")
    (ht : d.Defines (.output last place) t) (hx : (d.firstNode chain).inputs[place]? = some x)
    (hxne : x ≠ "") (hs : d.Defines s x) :
    d.Rerouted chain (fun t s => d.Defines s t) t s' ↔
      s' = s ∧ (s.handle? = none ∨
        ∀ i < place, ∀ x' y', d.Connects chain i x' y' → ¬ d.Defines s x') := by
  constructor
  · intro hrerouted
    cases hrerouted with
    | past hs' hout =>
      rw [hb.single t hne _ _ hs' ht] at hout
      exact absurd rfl (hout last (List.mem_of_getLast? hlast))
    | @through x' _ _ _ place' hlast' ht' hplace hs' hfirst =>
      cases hb.single t hne _ _ ht' ht
      obtain rfl : x' = x := Option.some.inj (hplace.1.symm.trans hx)
      cases hb.single x' hxne _ _ hs' hs
      exact ⟨rfl, hfirst⟩
  · rintro ⟨rfl, hfirst⟩
    obtain ⟨e, he, htail, hnode⟩ := hb.last
    obtain rfl : e.handle = last := Option.some.inj (htail.symm.trans hlast)
    refine .through hlast ht ⟨hx, ?_, hxne, hne⟩ hs hfirst
    rw [hnode]
    exact ht.getElem?_outputs (node?_of_mem he)

end Bypassable

/-! ### A bypass between two nodes -/

/-- Reachable nodes rank higher. -/
theorem Ranked.rank_le {rank : Handle → Nat} (hranked : d.Ranked rank)
    (hreach : Relation.ReflTransGen d.Follows first last) : rank first ≤ rank last := by
  induction hreach with
  | refl => exact Nat.le_refl _
  | tail _ hfollows ih =>
    obtain ⟨n, n', t, hn, hn', hne, ht, ht'⟩ := hfollows
    exact ih.trans (Nat.le_of_lt
      (hranked _ (node?_eq_some_iff.1 hn) _ (node?_eq_some_iff.1 hn') t ht hne ht'))

theorem bypassable_pair (hacyclic : d.Acyclic) (hsingle : d.SingleSource)
    (hm : d.node? first = some m) (hn : d.node? last = some n)
    (hreach : Relation.ReflTransGen d.Follows first last) : d.Bypassable [first, last] := by
  have hfirst := node?_eq_some_iff.1 hm
  have hlast := node?_eq_some_iff.1 hn
  obtain ⟨rank, hranked⟩ := hacyclic
  refine ⟨hsingle, ⟨_, hlast, rfl, lastNode_eq hlast rfl⟩, fun {x} hx hne {s} hs h hh hsource => ?_⟩
  rw [firstNode_eq hfirst rfl] at hx
  obtain ⟨e, he, rfl, hwrites⟩ := hs.exists_entry hsource
  -- what the first node reads is written below it, and the last node does not rank below it
  have hlt : rank e.handle < rank first := hranked e he _ hfirst x hwrites hne hx
  have hle : rank first ≤ rank last := hranked.rank_le hreach
  simp only [List.mem_cons, List.not_mem_nil, or_false] at hh
  rcases hh with heq | heq <;> rw [heq] at hlt <;> omega

theorem firstNode_pair (hm : d.node? first = some m) : d.firstNode [first, last] = m :=
  firstNode_eq (node?_eq_some_iff.1 hm) rfl

theorem lastNode_pair (hn : d.node? last = some n) : d.lastNode [first, last] = n :=
  lastNode_eq (node?_eq_some_iff.1 hn) rfl

theorem bypassed_pair (hm : d.node? first = some m) (hn : d.node? last = some n) :
    d.bypassed [first, last] = ((d.remove first).remove last).bypass m n := by
  rw [bypassed, firstNode_pair hm, lastNode_pair hn, ← removeChain_remove, ← removeChain_remove,
    removeChain_nil]

/-- Where all outputs have names, what feeds an input of the first node is connected. -/
theorem exists_connects_pair (hm : d.node? first = some m) (hn : d.node? last = some n)
    (hlength : m.inputs.length = n.outputs.length) (houtputs : "" ∉ n.outputs) :
    (∃ x y, d.Connects [first, last] place x y ∧ d.Defines s x) ↔ d.ReadsFrom first place s := by
  constructor
  · rintro ⟨x, y, ⟨hx, -, hxne, -⟩, hs⟩
    rw [firstNode_pair hm] at hx
    exact ⟨m, x, hm, hx, hxne, hs⟩
  · rintro ⟨m', x, hm', hx, hxne, hs⟩
    cases hm.symm.trans hm'
    have hplace : place < n.outputs.length := by
      rw [← hlength]
      exact (List.getElem?_eq_some_iff.1 hx).1
    refine ⟨x, n.outputs[place], ⟨?_, ?_, hxne, ?_⟩, hs⟩
    · rw [firstNode_pair hm, hx]
    · rw [lastNode_pair hn, List.getElem?_eq_getElem hplace]
    · exact ne_of_mem_of_not_mem (List.getElem_mem hplace) houtputs

/-- **A bypass connects by place.** Let a node of an acyclic draft, where no tensor has two sources
and nothing dangles, be reachable from another one or be the same, and let it write as many tensors
as the other one reads, all of them with names. Where both are taken out and bypassed, every input
that was fed from elsewhere still is fed by the same source. An input that was fed by an output of
the last node is fed by the source of the input of the first node at that place and by no other, and
it is fed by that one if and only if it is not at a node or feeds no earlier place of the first
node. -/
theorem bypass_feeds (hacyclic : d.Acyclic) (hsingle : d.SingleSource) (hdangling : d.dangling = [])
    (hm : d.node? first = some m) (hn : d.node? last = some n)
    (hreach : Relation.ReflTransGen d.Follows first last)
    (hlength : m.inputs.length = n.outputs.length) (hinputs : "" ∉ m.inputs)
    (houtputs : "" ∉ n.outputs) (label : String) :
    let after := (((d.remove first).remove last).bypass m n).draft
    checkArity m n label = .ok () ∧ ∀ h, h ≠ first → h ≠ last → ∀ slot,
      (∀ s, d.ReadsFrom h slot s → s.handle? ≠ some first → s.handle? ≠ some last →
        ∀ s', after.ReadsFrom h slot s' ↔ s' = s) ∧
      ∀ place, d.ReadsFrom h slot (.output last place) → ∃ s, d.ReadsFrom first place s ∧
        ∀ s', after.ReadsFrom h slot s' ↔
          s' = s ∧ (s.handle? = none ∨ ∀ i < place, ¬ d.ReadsFrom first i s) := by
  intro after
  have hb := bypassable_pair hacyclic hsingle hm hn hreach
  refine ⟨if_pos hlength, fun h hfirst hlast slot => ?_⟩
  have hout : h ∉ [first, last] := by simp [hfirst, hlast]
  have hafter {k : Node} {t : String} (hk : d.node? h = some k) (ht : k.inputs[slot]? = some t)
      (hne : t ≠ "") (s' : Source) : after.ReadsFrom h slot s' ↔
        d.Rerouted [first, last] (fun t s => d.Defines s t) t s' := by
    rw [← hb.readsFrom_bypassed hout hk ht hne, bypassed_pair hm hn]
  constructor
  · rintro s ⟨k, t, hk, ht, hne, hs⟩ hsfirst hslast s'
    rw [hafter hk ht hne]
    exact hb.rerouted_of_outside hne hs (by simp [hsfirst, hslast])
  · rintro place ⟨k, t, hk, ht, hne, hs⟩
    have hy := hs.getElem?_outputs hn
    have hplace : place < m.inputs.length := by
      rw [hlength]
      exact (List.getElem?_eq_some_iff.1 hy).1
    -- there is an input of the first node at the place, and something feeds it
    obtain ⟨x, hx⟩ : ∃ x, m.inputs[place]? = some x := ⟨_, List.getElem?_eq_getElem hplace⟩
    have hxne : x ≠ "" := ne_of_mem_of_not_mem (List.mem_of_getElem? hx) hinputs
    obtain ⟨s, hsx⟩ := isDefined_iff_defines.1 (dangling_eq_nil_iff.1 hdangling m
      (node_mem_nodes (node?_eq_some_iff.1 hm)) x (List.mem_of_getElem? hx) hxne)
    refine ⟨s, ⟨m, x, hm, hx, hxne, hsx⟩, fun s' => ?_⟩
    rw [hafter hk ht hne, hb.rerouted_of_last rfl hne hs (by rwa [firstNode_pair hm]) hxne hsx]
    refine and_congr_right fun _ => or_congr_right (forall₂_congr fun i _ => ?_)
    rw [← exists_connects_pair hm hn hlength houtputs]
    push Not
    rfl

/-- A graph where a node joins what another one writes and an input of the graph, which it reads
twice, and a third one forks what it writes. -/
def joinedGraph : Graph where
  nodes :=
    [{ op := "Conv", inputs := ["x"], outputs := ["p"] },
      { op := "Join", inputs := ["p", "x", "x"], outputs := ["j"] },
      { op := "Fork", inputs := ["j"], outputs := ["a", "b", "c"] },
      { op := "Neg", inputs := ["a"], outputs := ["y"] },
      { op := "Add", inputs := ["b", "c"], outputs := ["z"] },
      { op := "Mul", inputs := ["x", "p"], outputs := ["w"] }]
  inputs := [{ name := "x" }]
  outputs := [{ name := "y" }, { name := "z" }, { name := "w" }]

/-- Without these two nodes, what read the three outputs reads the node and the input of the graph,
and what has read that node before still does. -/
theorem bypass_feeds_joined :
    let d := ofGraph joinedGraph
    let join : Node := { op := "Join", inputs := ["p", "x", "x"], outputs := ["j"] }
    let fork : Node := { op := "Fork", inputs := ["j"], outputs := ["a", "b", "c"] }
    let after := (((d.remove ⟨1⟩).remove ⟨2⟩).bypass join fork).draft
    d.Acyclic ∧ d.SingleSource ∧ d.dangling = [] ∧ Relation.ReflTransGen d.Follows ⟨1⟩ ⟨2⟩ ∧
      checkArity join fork "" = .ok () ∧ after.ReadsFrom ⟨3⟩ 0 (.output ⟨0⟩ 0) ∧
      after.ReadsFrom ⟨4⟩ 0 (.input "x") ∧ after.ReadsFrom ⟨4⟩ 1 (.input "x") ∧
      after.ReadsFrom ⟨5⟩ 1 (.output ⟨0⟩ 0) := by
  intro d join fork after
  have hacyclic : d.Acyclic := ⟨Handle.index, by unfold Ranked; decide⟩
  have hsingle : d.SingleSource := by decide
  have hdangling : d.dangling = [] := by decide
  have hreach : Relation.ReflTransGen d.Follows ⟨1⟩ ⟨2⟩ :=
    .single ⟨join, fork, "j", rfl, rfl, by decide, by decide, by decide⟩
  obtain ⟨harity, hfeeds⟩ := bypass_feeds hacyclic hsingle hdangling (m := join) (n := fork) rfl rfl
    hreach rfl (by decide) (by decide) ""
  refine ⟨hacyclic, hsingle, hdangling, hreach, harity, ?_, ?_, ?_, ?_⟩
  · obtain ⟨s, hs, hiff⟩ := (hfeeds ⟨3⟩ (by decide) (by decide) 0).2 0 (by decide)
    obtain rfl := hsingle.readsFrom_eq hs (show d.ReadsFrom ⟨1⟩ 0 (.output ⟨0⟩ 0) by decide)
    exact (hiff _).2 ⟨rfl, .inr (by decide)⟩
  · obtain ⟨s, hs, hiff⟩ := (hfeeds ⟨4⟩ (by decide) (by decide) 0).2 1 (by decide)
    obtain rfl := hsingle.readsFrom_eq hs (show d.ReadsFrom ⟨1⟩ 1 (.input "x") by decide)
    exact (hiff _).2 ⟨rfl, .inl rfl⟩
  · obtain ⟨s, hs, hiff⟩ := (hfeeds ⟨4⟩ (by decide) (by decide) 1).2 2 (by decide)
    obtain rfl := hsingle.readsFrom_eq hs (show d.ReadsFrom ⟨1⟩ 2 (.input "x") by decide)
    exact (hiff _).2 ⟨rfl, .inl rfl⟩
  · exact ((hfeeds ⟨5⟩ (by decide) (by decide) 1).1 (.output ⟨0⟩ 0) (by decide) (by decide)
      (by decide) _).2 rfl

/-- A graph where a node reads twice what another one writes. -/
def doubledGraph : Graph where
  nodes :=
    [{ op := "Conv", inputs := ["x"], outputs := ["p"], name := "conv" },
      { op := "Split", inputs := ["p", "p"], outputs := ["a", "b"], name := "split" },
      { op := "Neg", inputs := ["a"], outputs := ["y"], name := "neg" },
      { op := "Exp", inputs := ["b"], outputs := ["z"], name := "exp" }]
  inputs := [{ name := "x" }]
  outputs := [{ name := "y" }, { name := "z" }]

/-- When it comes to the second output, the node that feeds both inputs writes under the name of the
first one already. So it feeds the reader of the first output, and nothing feeds the reader of the
second one any more. -/
theorem bypass_starves_doubled :
    let d := ofGraph doubledGraph
    let split : Node :=
      { op := "Split", inputs := ["p", "p"], outputs := ["a", "b"], name := "split" }
    let after := (((d.remove ⟨1⟩).remove ⟨1⟩).bypass split split).draft
    d.Acyclic ∧ d.SingleSource ∧ d.dangling = [] ∧ d.node? ⟨1⟩ = some split ∧
      split.inputs.length = split.outputs.length ∧ "" ∉ split.inputs ∧ "" ∉ split.outputs ∧
      d.ReadsFrom ⟨1⟩ 1 (.output ⟨0⟩ 0) ∧ d.ReadsFrom ⟨3⟩ 0 (.output ⟨1⟩ 1) ∧
      (∀ s, ¬ after.ReadsFrom ⟨3⟩ 0 s) ∧ after.dangling = ["p"] := by
  intro d split after
  refine ⟨⟨Handle.index, by unfold Ranked; decide⟩, by decide, by decide, rfl, rfl, by decide,
    by decide, by decide, by decide, ?_, by decide⟩
  rintro s ⟨n, t, hn, ht, -, hs⟩
  have hslot : (after.node? ⟨3⟩).bind (fun n => n.inputs[0]?) = some "p" := by decide
  rw [hn, Option.bind_some, ht, Option.some.injEq] at hslot
  have hundefined : after.isDefined "p" = false := by decide
  rw [← hslot, isDefined_iff_defines.2 ⟨s, hs⟩] at hundefined
  cases hundefined

end Draft

end OpGraph
