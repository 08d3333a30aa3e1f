import OpGraph.Proofs.Bridging
import OpGraph.Proofs.Cleanup
import OpGraph.Proofs.DeletionPass
import OpGraph.Proofs.Joining

/-!
# What feeds the readers that are left

A pass without a rule takes chains out one after the other. What feeds a tensor after it can be told
from the draft before it, by following what each chain reroutes (`Draft.Feeds`): the readers that
are left are fed by just these sources, under other names (`Draft.Tracks`). So a pass leaves a
reader without a source where nothing feeds what it reads, as it happens to a tensor that is written
inside of a chain and read outside, or to the second of two outputs opposite one input
(`Session.delete_dangling_iff`).
-/

namespace OpGraph

namespace Draft

/-- Which sources feed a tensor once chains have been taken out, one after the other. -/
def Feeds (d : Draft) (chains : List Chain) : String → Source → Prop :=
  chains.foldl (fun feeds chain => d.Rerouted chain feeds) fun t s => d.Defines s t

/-- What is left of a draft: its nodes read and write tensors under other names, and a tensor comes
from the sources that are told to feed it, as far as these are left. -/
structure Tracks (d d' : Draft) (feeds : String → Source → Prop) (f : String → String) : Prop where
  empty : ∀ t, f t = "" ↔ t = ""
  entries : ∀ e' ∈ d'.entries, ∃ e ∈ d.entries, e' = e.rename f
  defines : ∀ t s, t ≠ "" → (d'.Defines s (f t) ↔ feeds t s ∧ d'.Offers s)

variable {d d' : Draft} {feeds : String → Source → Prop} {f : String → String}
  {rank : Handle → Nat} {chain : Chain} {chains : List Chain} {s : Source} {t : String}

namespace Tracks

theorem start (d : Draft) : d.Tracks d (fun t s => d.Defines s t) id where
  empty _ := Iff.rfl
  entries e he := ⟨e, he, e.rename_id.symm⟩
  defines _ _ _ := ⟨fun h => ⟨h, h.offers⟩, And.left⟩

theorem ne_empty (ht : d.Tracks d' feeds f) (hne : t ≠ "") : f t ≠ "" :=
  fun h => hne ((ht.empty t).1 h)

/-- A node that is left under a handle was there under the same handle. -/
theorem exists_entry (ht : d.Tracks d' feeds f) {e' : Entry} (he' : e' ∈ d'.entries) :
    ∃ e ∈ d.entries, e.handle = e'.handle ∧ e' = e.rename f := by
  obtain ⟨e, he, rfl⟩ := ht.entries e' he'
  exact ⟨e, he, rfl, rfl⟩

theorem rename_mem (ht : d.Tracks d' feeds f) {e : Entry} (he : e ∈ d.entries)
    (hleft : e.handle ∈ d'.handles) : e.rename f ∈ d'.entries := by
  obtain ⟨e', he', heq⟩ := List.mem_map.1 hleft
  obtain ⟨e₁, he₁, rfl⟩ := ht.entries e' he'
  obtain rfl := eq_of_handle_eq he₁ he heq
  exact he'

section

variable (ht : d.Tracks d' feeds f) (hb : d'.Bridgeable rank (chain :: chains))

include ht hb

theorem inputs_firstNode :
    (d'.firstNode chain).inputs = (d.firstNode chain).inputs.map f := by
  obtain ⟨e', he', hhead, hnode⟩ := hb.exists_first
  obtain ⟨e, he, rfl⟩ := ht.entries e' he'
  rw [hnode, firstNode_eq he hhead, Entry.rename_inputs]

theorem outputs_lastNode :
    (d'.lastNode chain).outputs = (d.lastNode chain).outputs.map f := by
  obtain ⟨e', he', hlast, hnode⟩ := hb.exists_last
  obtain ⟨e, he, rfl⟩ := ht.entries e' he'
  rw [hnode, lastNode_eq he hlast, Entry.rename_outputs]

/-- A chain that is left connects what it connected, under other names. -/
theorem connects_iff {place : Nat} {x' y' : String} :
    d'.Connects chain place x' y' ↔ ∃ x y, d.Connects chain place x y ∧ f x = x' ∧ f y = y' := by
  unfold Connects
  rw [ht.inputs_firstNode hb, ht.outputs_lastNode hb, List.getElem?_map, List.getElem?_map,
    Option.map_eq_some_iff, Option.map_eq_some_iff]
  constructor
  · rintro ⟨⟨x, hx, rfl⟩, ⟨y, hy, rfl⟩, hxne, hyne⟩
    exact ⟨x, y, ⟨hx, hy, fun h => hxne ((ht.empty x).2 h), fun h => hyne ((ht.empty y).2 h)⟩,
      rfl, rfl⟩
  · rintro ⟨x, y, ⟨hx, hy, hxne, hyne⟩, rfl, rfl⟩
    exact ⟨⟨x, hx, rfl⟩, ⟨y, hy, rfl⟩, ht.ne_empty hxne, ht.ne_empty hyne⟩

/-- A chain that is left reroutes what it is told to reroute, under other names. -/
theorem rerouted_iff (hoffers : d'.Offers s) (hne : t ≠ "") :
    d'.Rerouted chain (fun t s => d'.Defines s t) (f t) s ↔ d.Rerouted chain feeds t s := by
  constructor
  · generalize hu : f t = u
    intro h
    cases h with
    | past hs hout =>
      rw [← hu, ht.defines t s hne] at hs
      exact .past hs.1 hout
    | through hlast hread hplace hs hfirst =>
      obtain ⟨x, y, hconnects, rfl, -⟩ := (ht.connects_iff hb).1 hplace
      rw [← hu, ht.defines t _ hne] at hread
      rw [ht.defines x s hconnects.2.2.1] at hs
      refine .through hlast hread.1 hconnects hs.1 (hfirst.imp_right fun hfirst => ?_)
      intro i hi x' y' hconnects' hfeeds
      exact hfirst i hi (f x') (f y') ((ht.connects_iff hb).2 ⟨x', y', hconnects', rfl, rfl⟩)
        ((ht.defines x' s hconnects'.2.2.1).2 ⟨hfeeds, hoffers⟩)
  · intro h
    cases h with
    | past hs hout => exact .past ((ht.defines t s hne).2 ⟨hs, hoffers⟩) hout
    | @through x y _ last place hlast hread hplace hs hfirst =>
      -- the last node is still there to be read
      have hlast' : d'.Offers (.output last place) := hb.mem_handles (List.mem_of_getLast? hlast)
      refine .through hlast ((ht.defines t _ hne).2 ⟨hread, hlast'⟩)
        ((ht.connects_iff hb).2 ⟨x, y, hplace, rfl, rfl⟩)
        ((ht.defines x s hplace.2.2.1).2 ⟨hs, hoffers⟩) (hfirst.imp_right fun hfirst => ?_)
      intro i hi x' y' hconnects' hdefines
      obtain ⟨x₀, y₀, hconnects, rfl, -⟩ := (ht.connects_iff hb).1 hconnects'
      exact hfirst i hi x₀ y₀ hconnects ((ht.defines x₀ s hconnects.2.2.1).1 hdefines).1

/-- The deletion of a chain reroutes what feeds the readers that are left. -/
theorem next (protectShared : Bool) :
    ∃ g, d.Tracks (d'.deleteChain protectShared chain) (d.Rerouted chain feeds) g := by
  obtain ⟨g, hempty, hentries, hdefines⟩ := hb.renames_deleteChain protectShared
  refine ⟨g ∘ f, fun t => (hempty (f t)).trans (ht.empty t), fun e'' he'' => ?_, fun t s hne => ?_⟩
  · obtain ⟨e', he', rfl⟩ := hentries e'' he''
    obtain ⟨e, he, rfl⟩ := ht.entries e' he'
    exact ⟨e, he, e.rename_rename f g⟩
  · rw [Function.comp_apply, hdefines (f t) s (ht.ne_empty hne)]
    refine and_congr_left fun hoffers => ht.rerouted_iff hb ?_ hne
    exact (d'.trims_deleteChain protectShared chain).offers hoffers

end

/-- The same holds for the deletion of chains, one after the other. -/
theorem deleteChains (protectShared : Bool) (ht : d.Tracks d' feeds f)
    (hb : d'.Bridgeable rank chains) :
    ∃ g, d.Tracks (d'.deleteChains protectShared chains)
      (chains.foldl (fun feeds chain => d.Rerouted chain feeds) feeds) g := by
  induction chains generalizing d' feeds f with
  | nil => exact ⟨f, ht⟩
  | cons chain chains ih =>
    obtain ⟨g, hg⟩ := ht.next hb protectShared
    exact ih hg (hb.next protectShared)

end Tracks

/-! ### Constants that are read -/

/-- What feeds a reader that is left is left with it. -/
def Supplies (d d' : Draft) (feeds : String → Source → Prop) : Prop :=
  ∀ e ∈ d.entries, e.handle ∈ d'.handles → ∀ t ∈ e.node.inputs, t ≠ "" → ∀ s, feeds t s →
    d'.Offers s

namespace Supplies

variable (hconstants : ∀ e ∈ d.entries, e.node.isConstant → e.node.outputs.length = 1)

include hconstants

/-- Where shared tensors are protected, the deletion of a chain takes no constant from a reader that
is left. -/
theorem next (hs : d.Supplies d' feeds) (ht : d.Tracks d' feeds f)
    (hb : d'.Bridgeable rank (chain :: chains)) :
    d.Supplies (d'.deleteChain true chain) (d.Rerouted chain feeds) := by
  intro e he hleft t hmem hne s hrerouted
  have htrims := d'.trims_deleteChain true chain
  -- the chain takes the source from a tensor that it reads, or the reader has it already
  have hoffers : d'.Offers s := by
    cases hrerouted with
    | past hfeeds => exact hs e he (htrims.mem_handles hleft) t hmem hne s hfeeds
    | through _ _ hplace hfeeds =>
      obtain ⟨first', hfirst', hhead, -⟩ := hb.exists_first
      obtain ⟨first, hfirst, rfl⟩ := ht.entries first' hfirst'
      have hread := List.mem_of_getElem? hplace.1
      rw [firstNode_eq hfirst hhead] at hread
      exact hs first hfirst (List.mem_map_of_mem (f := (·.handle)) hfirst') _ hread hplace.2.2.1 s
        hfeeds
  obtain ⟨g, hg, hdefines⟩ := hb.bypassable.renames_bypassed
  have hspares : (d'.bypassed chain).draft.Spares (d'.deleteChain true chain) :=
    spares_removePrivateConstants _ _
  have hbefore : ∀ e' ∈ (d'.bypassed chain).draft.entries,
      ∃ e ∈ d.entries, e' = (e.rename f).rename g := by
    intro e' he'
    rw [hg.entries] at he'
    obtain ⟨e₁, he₁, rfl⟩ := List.mem_map.1 he'
    obtain ⟨e, he, rfl⟩ := ht.entries e₁ (mem_entries_removeChain.1 he₁).1
    exact ⟨e, he, rfl⟩
  have hread : (d'.deleteChain true chain).IsRead (g (f t)) := by
    obtain ⟨e', he', heq⟩ := List.mem_map.1 hleft
    obtain ⟨e₁, he₁, rfl⟩ := hbefore e' (hspares.entries he')
    obtain rfl := eq_of_handle_eq he₁ he heq
    exact ⟨_, he', List.mem_map_of_mem (List.mem_map_of_mem hmem)⟩
  have hconstants' : ∀ e' ∈ (d'.bypassed chain).draft.entries,
      e'.node.isConstant → e'.node.outputs.length = 1 := by
    intro e' he' hconst
    obtain ⟨e, he, rfl⟩ := hbefore e' he'
    simpa using hconstants e he hconst
  exact (hspares.defines hconstants' ((hdefines _ s (ht.ne_empty hne)).2
    ((ht.rerouted_iff hb hoffers hne).2 hrerouted)) hread).offers

theorem deleteChains (hs : d.Supplies d' feeds) (ht : d.Tracks d' feeds f)
    (hb : d'.Bridgeable rank chains) :
    d.Supplies (d'.deleteChains true chains)
      (chains.foldl (fun feeds chain => d.Rerouted chain feeds) feeds) := by
  induction chains generalizing d' feeds f with
  | nil => exact hs
  | cons chain chains ih =>
    obtain ⟨g, hg⟩ := ht.next hb true
    exact ih (hs.next hconstants ht hb) hg (hb.next true)

end Supplies

/-! ### What dangles after a pass -/

/-- After the deletion of chains nothing dangles where all that a node reads that is left is fed by
a source that is left. -/
theorem dangling_deleteChains_iff (protectShared : Bool) (hb : d.Bridgeable rank chains) :
    (d.deleteChains protectShared chains).dangling = [] ↔
      ∀ e ∈ d.entries, e.handle ∈ (d.deleteChains protectShared chains).handles →
        ∀ t ∈ e.node.inputs, t ≠ "" →
          ∃ s, d.Feeds chains t s ∧ (d.deleteChains protectShared chains).Offers s := by
  obtain ⟨f, ht⟩ := (Tracks.start d).deleteChains protectShared hb
  rw [dangling_eq_nil_iff]
  constructor
  · intro h e he hleft t hmem hne
    have hread : f t ∈ (e.rename f).node.inputs := List.mem_map_of_mem hmem
    obtain ⟨s, hs⟩ := isDefined_iff_defines.1
      (h _ (node_mem_nodes (ht.rename_mem he hleft)) (f t) hread (ht.ne_empty hne))
    exact ⟨s, (ht.defines t s hne).1 hs⟩
  · intro h n hn u hu hne
    obtain ⟨e', he', rfl⟩ := mem_nodes.1 hn
    obtain ⟨e, he, rfl⟩ := ht.entries e' he'
    obtain ⟨t, hmem, rfl⟩ := List.mem_map.1 hu
    have htne : t ≠ "" := fun heq => hne ((ht.empty t).2 heq)
    obtain ⟨s, hs⟩ := h e he (List.mem_map_of_mem (f := (·.handle)) he') t hmem htne
    exact isDefined_iff_defines.2 ⟨s, (ht.defines t s htne).2 hs⟩

/-- Of two outputs opposite one input the first takes over, and the reader of the second is left
without a source. -/
example :
    let d := ofGraph
      { nodes :=
          [{ op := "Conv", inputs := ["x"], outputs := ["p"] },
            { op := "Split", inputs := ["p", "p"], outputs := ["a", "b"] },
            { op := "Neg", inputs := ["a"], outputs := ["y"] },
            { op := "Exp", inputs := ["b"], outputs := ["z"] }]
        inputs := [{ name := "x" }] }
    d.dangling = [] ∧ (d.deleteChains true [[⟨1⟩]]).dangling = ["p"] := by
  decide

end Draft

theorem Session.bridgeable_of_delete {s : Session} {p : Pattern} {rank : Handle → Nat}
    (hranked : s.draft.Ranked rank) (hsingle : s.draft.SingleSource) {count : Nat}
    (hok : (s.delete p).result = .ok count) : s.draft.Bridgeable rank (s.findAll p) where
  ranked := hranked
  single := hsingle
  deletable := Session.deletable_of_delete hok
  rising _ hchain := Draft.rising_of_mem_findAll hranked hchain

/-- **What a pass leaves without a source.** On an acyclic draft where no tensor has two sources,
nothing dangles after a pass that deletes its chains if and only if all that is read by a node that
is left is fed, past the chains, by a source that is left. With protected constants of one output
each, what feeds a reader is left. A cleanup after the pass leaves nothing dangling where nothing
was. -/
theorem Session.delete_dangling_iff {s : Session} {p : Pattern} (hacyclic : s.draft.Acyclic)
    (hsingle : s.draft.SingleSource) {count : Nat} (hok : (s.delete p).result = .ok count) :
    let chains := s.findAll p
    let bridged := s.draft.deleteChains s.options.protectShared chains
    let after := (s.delete p).session.draft
    after = (if s.options.cleanupAfter then bridged.withoutDead else bridged) ∧
    (bridged.dangling = [] ↔
      ∀ e ∈ s.draft.entries, e.handle ∈ bridged.handles → ∀ t ∈ e.node.inputs, t ≠ "" →
        ∃ source, s.draft.Feeds chains t source ∧ bridged.Offers source) ∧
    (s.options.protectShared = true →
      (∀ e ∈ s.draft.entries, e.node.isConstant → e.node.outputs.length = 1) →
        s.draft.Supplies bridged (s.draft.Feeds chains)) ∧
    (bridged.dangling = [] → s.draft.isOutput "" = false → after.dangling = []) := by
  intro chains bridged after
  obtain ⟨rank, hranked⟩ := hacyclic
  have hb : s.draft.Bridgeable rank chains := Session.bridgeable_of_delete hranked hsingle hok
  have hafter : after = if s.options.cleanupAfter then bridged.withoutDead else bridged :=
    Session.draft_delete hok
  refine ⟨hafter, Draft.dangling_deleteChains_iff _ hb, fun hprotect hconstants => ?_,
    fun hclean hout => ?_⟩
  · have hstart : s.draft.Supplies s.draft fun t source => s.draft.Defines source t :=
      fun _ _ _ _ _ _ _ h => h.offers
    have hsupplies := hstart.deleteChains hconstants (.start s.draft) hb
    rwa [← hprotect] at hsupplies
  · rw [hafter]
    split
    · have hleft : bridged.Bridgeable rank [] :=
        Draft.Bridgeable.deleteChains _ (by rwa [List.append_nil])
      refine Draft.Acyclic.dangling_withoutDead ⟨rank, hleft.ranked⟩ hclean ?_
      rw [(s.draft.trims_deleteChains s.options.protectShared chains).isOutput_eq, hout]
    · exact hclean

/-- A graph with a node that only changes the names of the two tensors it reads. -/
def crossedGraph : Graph where
  nodes :=
    [{ op := "Split", inputs := ["x"], outputs := ["p", "q"] },
      { op := "Copy", inputs := ["p", "q"], outputs := ["a", "b"] },
      { op := "Neg", inputs := ["a"], outputs := ["y"] },
      { op := "Add", inputs := ["b", "p"], outputs := ["z"] }]
  inputs := [{ name := "x" }]
  outputs := [{ name := "y" }, { name := "z" }]

/-- The pattern of that node. -/
def copyPattern : Pattern where
  steps := [{ ops := .oneOf ["Copy"], inputs := [.any], outputs := [.any], line := "Copy(?,?)" }]
  names := []

/-- A session on the graph with a cleanup after each pass. -/
def crossed : Session :=
  { draft := .ofGraph crossedGraph, options := { cleanupAfter := true } }

theorem Session.findAll_crossed : crossed.findAll copyPattern = [[⟨1⟩]] := by
  rw [Session.findAll, Pattern.findAll_eq, Pattern.matchAt_eq_searchFrom]
  decide +kernel

theorem Session.delete_dangling_crossed :
    crossed.draft.Acyclic ∧ crossed.draft.SingleSource ∧
      (crossed.delete copyPattern).result = .ok 1 ∧
      (∀ e ∈ crossed.draft.entries,
        e.handle ∈ (crossed.draft.deleteChains true [[⟨1⟩]]).handles →
          ∀ t ∈ e.node.inputs, t ≠ "" →
            ∃ source, crossed.draft.Feeds [[⟨1⟩]] t source ∧
              (crossed.draft.deleteChains true [[⟨1⟩]]).Offers source) ∧
      (crossed.delete copyPattern).session.draft.dangling = [] := by
  have hacyclic : crossed.draft.Acyclic := ⟨Handle.index, by unfold Draft.Ranked; decide⟩
  have hsingle : crossed.draft.SingleSource := by decide
  have hok : (crossed.delete copyPattern).result = .ok 1 := by
    rw [(Session.delete_of_balanced _ _).2, findAll_crossed]
    · rfl
    · rw [findAll_crossed]
      decide
    · rw [findAll_crossed]
      decide
  obtain ⟨-, hiff, -, hclean⟩ := Session.delete_dangling_iff hacyclic hsingle hok
  rw [findAll_crossed] at hiff hclean
  have hdangling : (crossed.draft.deleteChains true [[⟨1⟩]]).dangling = [] := by decide
  exact ⟨hacyclic, hsingle, hok, hiff.1 hdangling, hclean hdangling (by decide)⟩

/-- A graph where what the first node of a pair writes is also read outside the pair. -/
def leakyGraph : Graph where
  nodes :=
    [{ op := "Conv", inputs := ["x"], outputs := ["a"] },
      { op := "Relu", inputs := ["a"], outputs := ["b"] },
      { op := "Neg", inputs := ["b"], outputs := ["y"] },
      { op := "Exp", inputs := ["a"], outputs := ["z"] }]
  inputs := [{ name := "x" }]
  outputs := [{ name := "y" }, { name := "z" }]

/-- The pattern of the pair. -/
def leakyPattern : Pattern where
  steps :=
    [{ ops := .oneOf ["Conv"], inputs := [.any], outputs := [.variable 0], line := "Conv(?,t)" },
      { ops := .oneOf ["Relu"], inputs := [.variable 0], outputs := [.any], line := "Relu(t,?)" }]
  names := ["t"]

/-- A session on the graph with the default options. -/
def leaky : Session :=
  { draft := .ofGraph leakyGraph }

/-- A reader of a tensor inside a chain is left without a source. -/
theorem Session.delete_dangling_leaky :
    Pattern.parse "Conv(?, t)\nRelu(t, ?)" = .ok leakyPattern ∧
      leaky.draft.Acyclic ∧ leaky.draft.SingleSource ∧ leaky.draft.dangling = [] ∧
      leaky.options.protectShared = true ∧ (leaky.delete leakyPattern).result = .ok 1 ∧
      (leaky.delete leakyPattern).session.draft.dangling = ["a"] := by
  have hfind : leaky.findAll leakyPattern = [[⟨0⟩, ⟨1⟩]] := by
    rw [Session.findAll, Pattern.findAll_eq, Pattern.matchAt_eq_searchFrom]
    decide +kernel
  have hok : (leaky.delete leakyPattern).result = .ok 1 := by
    rw [(Session.delete_of_balanced _ _).2, hfind]
    · rfl
    · rw [hfind]
      decide
    · rw [hfind]
      decide
  refine ⟨by decide +kernel, ⟨Handle.index, by unfold Draft.Ranked; decide⟩, by decide, by decide,
    rfl, hok, ?_⟩
  rw [Session.draft_delete hok, hfind]
  decide

end OpGraph
