import Mathlib.Data.List.Chain
import OpGraph.Proofs.SearchStates

/-!
# The chains that a search finds

Whatever the pattern and the limit on states, a chain that the search finds has
a node for each step, none of them a constant, and each node after the first
reads an output of the one before it (`Pattern.isChain_of_mem_findAll`). The
chains come in the order of their anchors.
-/

namespace OpGraph

namespace Draft

/-- A handle of a node that is not a constant. -/
def IsMovable (d : Draft) (h : Handle) : Prop :=
  ∃ n, d.node? h = some n ∧ n.isConstant = false

/-- A node reads an output of another one. -/
def Follows (d : Draft) (h h' : Handle) : Prop :=
  ∃ n n' t, d.node? h = some n ∧ d.node? h' = some n' ∧ t ≠ "" ∧ t ∈ n.outputs ∧ t ∈ n'.inputs

/-- Nodes that are no constants, each reading an output of the one before. -/
structure IsChain (d : Draft) (chain : Chain) : Prop where
  ne_nil : chain ≠ []
  movable : ∀ h ∈ chain, d.IsMovable h
  follows : chain.IsChain d.Follows

end Draft

namespace SearchState

variable {d : Draft}

/-- The nodes up to a state make a chain from an anchor. -/
def ChainFrom (d : Draft) (anchor : Handle) (s : SearchState) : Prop :=
  d.IsChain s.chain ∧ s.chain.head? = some anchor

theorem ChainFrom.next {anchor : Handle} {s t : SearchState} (hs : s.ChainFrom d anchor)
    {states : List SearchState} (hexpand : s.expand d (consumersOf d) = .next states)
    (ht : t ∈ states) : t.ChainFrom d anchor := by
  obtain ⟨n, step, later, b, o, handle, htakes, -, -, ho, hmem, rfl⟩ :=
    exists_after_of_mem hexpand ht
  obtain ⟨hone, n', hn', hconst, hread⟩ := mem_consumersOf.1 hmem
  obtain ⟨hchain, hhead⟩ := hs
  rw [ChainFrom, chain_after]
  refine ⟨⟨by simp, ?_, ?_⟩, ?_⟩
  · intro h hh
    rcases List.mem_append.1 hh with hh | hh
    · exact hchain.movable h hh
    · rw [List.mem_singleton.1 hh]
      exact ⟨n', hn', hconst⟩
  · refine List.isChain_append.2 ⟨hchain.follows, List.isChain_singleton _, ?_⟩
    intro a ha b hb
    obtain rfl : s.handle = a := by simpa [chain] using ha
    obtain rfl : handle = b := by simpa using hb
    exact ⟨n, n', o, htakes.1, hn', hone, ho, hread⟩
  · rw [List.head?_append, hhead]
    rfl

end SearchState

namespace Pattern

variable {p : Pattern} {d : Draft} {cap : Nat} {anchor : Handle} {chain : Chain}

theorem chainFrom_of_mem_firstStates {s : SearchState} (hs : s ∈ p.firstStates d anchor) :
    s.ChainFrom d anchor := by
  obtain ⟨step, later, node, -, hnode, hmovable, rfl⟩ := mem_firstStates.1 hs
  refine ⟨⟨by simp [SearchState.chain], ?_, List.isChain_singleton _⟩, rfl⟩
  intro h hh
  obtain rfl : h = anchor := by simpa [SearchState.chain, start] using hh
  exact ⟨node, hnode, hmovable⟩

theorem chainFrom_of_matchAt (h : p.matchAt d cap anchor = some chain) :
    d.IsChain chain ∧ chain.head? = some anchor := by
  obtain ⟨s, hs, -, rfl⟩ := exists_mem_popped_of_matchAt h
  exact forall_mem_popped (fun s => chainFrom_of_mem_firstStates)
    (fun s states hs hexpand t => hs.next hexpand) s hs

theorem isChain_of_mem_findAll (h : chain ∈ p.findAll d cap) : d.IsChain chain := by
  rw [findAll_eq] at h
  obtain ⟨anchor, -, hmatch⟩ := List.mem_filterMap.1 h
  exact (chainFrom_of_matchAt hmatch).1

/-- A chain has a node for each step. -/
theorem length_of_mem_findAll (h : chain ∈ p.findAll d cap) : chain.length = p.steps.length := by
  rw [findAll_eq] at h
  obtain ⟨anchor, -, hmatch⟩ := List.mem_filterMap.1 h
  let motive (s : SearchState) : Prop := s.chain.length + s.later.length = p.steps.length
  have hstart : ∀ s ∈ p.firstStates d anchor, motive s := by
    intro s hs
    obtain ⟨step, later, node, hsteps, -, -, rfl⟩ := mem_firstStates.1 hs
    show 1 + later.length = _
    rw [hsteps, List.length_cons, Nat.add_comm]
  have hnext : ∀ s states, motive s → s.expand d (SearchState.consumersOf d) = .next states →
      ∀ t ∈ states, motive t := by
    intro s states hs hexpand t ht
    obtain ⟨-, step, later, b, -, handle, -, hlater, -, -, -, rfl⟩ :=
      SearchState.exists_after_of_mem hexpand ht
    show ((s.after step later b handle).chain).length + later.length = _
    rw [← hs, SearchState.chain_after, hlater, List.length_append, List.length_singleton,
      List.length_cons, Nat.add_assoc, Nat.add_comm 1]
  obtain ⟨s, hs, hlater, rfl⟩ := exists_mem_popped_of_matchAt hmatch
  have hlength : s.chain.length + s.later.length = p.steps.length :=
    forall_mem_popped hstart hnext s hs
  rwa [hlater] at hlength

end Pattern

end OpGraph
