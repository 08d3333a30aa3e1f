import Mathlib.Data.List.Dedup
import OpGraph.Proofs.Dataflow
import OpGraph.Proofs.Deletion

/-!
# Sources of tensors

A tensor comes from an input, an initializer or a place among the outputs of a
node. Where chains are taken for wires, it comes from what feeds the chain that
writes it (`Draft.Contracted`). A tensor that is read from outside the chains
has such a source wherever the draft is acyclic and nothing dangles
(`Contractible.exists_contracted`).
-/

namespace OpGraph

/-- Where a tensor comes from. -/
inductive Source
  | input (name : String)
  | initializer (name : String)
  | sparse (name : String)
  | output (h : Handle) (index : Nat)
deriving DecidableEq

/-- The node of a source. -/
def Source.handle? : Source → Option Handle
  | .input _ | .initializer _ | .sparse _ => none
  | .output h _ => some h

namespace Draft

/-- A tensor comes from a source. -/
inductive Defines (d : Draft) : Source → String → Prop
  | input {t : String} (h : d.isInput t) : Defines d (.input t) t
  | initializer {t : String} (h : d.isInitializer t) : Defines d (.initializer t) t
  | sparse {t : String} (h : t ∈ d.sparseNames) : Defines d (.sparse t) t
  | output {e : Entry} {i : Nat} {t : String} (he : e ∈ d.entries)
      (ht : e.node.outputs[i]? = some t) : Defines d (.output e.handle i) t

/-- No tensor with a name has two sources. -/
def SingleSource (d : Draft) : Prop :=
  ∀ t, t ≠ "" → ∀ s s', d.Defines s t → d.Defines s' t → s = s'

/-- A tensor comes from a source, where chains are taken for wires. -/
inductive Contracted (d : Draft) (chains : List Chain) : String → Source → Prop
  | outside {t : String} {s : Source} (hs : d.Defines s t)
      (hout : ∀ h ∈ chains.flatten, s.handle? ≠ some h) : Contracted d chains t s
  | through {chain : Chain} {x y : String} {s : Source} (hchain : chain ∈ chains)
      (hx : x ∈ (d.firstNode chain).inputs) (hy : y ∈ (d.lastNode chain).outputs)
      (hs : Contracted d chains x s) : Contracted d chains y s

/-- A chain that can be taken for a wire: it reads one tensor and writes one, and what its nodes
before the last one write is not read outside. -/
structure IsWire (d : Draft) (chain : Chain) : Prop where
  input : ∃ x, x ≠ "" ∧ (d.firstNode chain).inputs = [x]
  output : ∃ y, y ≠ "" ∧ (d.lastNode chain).outputs = [y]
  inner : ∀ e ∈ d.entries, e.handle ∈ chain.dropLast → ∀ t ∈ e.node.outputs, t ≠ "" →
    ∀ e' ∈ d.entries, t ∈ e'.node.inputs → e'.handle ∈ chain

/-- What a pass relies on, so that its chains can be taken for wires. -/
structure Contractible (d : Draft) (rank : Handle → Nat) (chains : List Chain) : Prop where
  ranked : d.Ranked rank
  single : d.SingleSource
  constants : ∀ e ∈ d.entries, e.node.isConstant → e.node.outputs.length = 1
  deletable : d.Deletable chains
  rising : ∀ chain ∈ chains, chain.Pairwise fun h h' => rank h < rank h'
  wire : ∀ chain ∈ chains, d.IsWire chain

variable {d : Draft} {rank : Handle → Nat} {chains : List Chain} {chain : Chain} {s : Source}
  {t : String}

/-! ### Sources -/

theorem exists_defines_of_mem {e : Entry} (he : e ∈ d.entries) (ht : t ∈ e.node.outputs) :
    ∃ i, d.Defines (.output e.handle i) t := by
  obtain ⟨i, hi⟩ := List.mem_iff_getElem?.1 ht
  exact ⟨i, .output he hi⟩

/-- What a source at a node gives is written by that node. -/
theorem Defines.exists_entry {h : Handle} (hs : d.Defines s t) (hh : s.handle? = some h) :
    ∃ e ∈ d.entries, e.handle = h ∧ t ∈ e.node.outputs := by
  cases hs with
  | input | initializer | sparse => cases hh
  | output he ht =>
    cases hh
    exact ⟨_, he, rfl, List.mem_of_getElem? ht⟩

/-- A source gives one tensor. -/
theorem Defines.tensor_eq {u : String} (h : d.Defines s t) (h' : d.Defines s u) : t = u := by
  cases h with
  | input | initializer | sparse => cases h'; rfl
  | output he ht =>
    generalize hs : Source.output _ _ = s at h'
    cases h' with
    | input | initializer | sparse => cases hs
    | output he' hu =>
      injection hs with hhandle hindex
      rw [eq_of_handle_eq he he' hhandle, hindex, hu] at ht
      exact (Option.some.inj ht).symm

theorem isDefined_iff_defines : d.isDefined t ↔ ∃ s, d.Defines s t := by
  rw [isDefined_iff]
  constructor
  · rintro (h | h | h | ⟨n, hn, ht⟩)
    · exact ⟨_, .input h⟩
    · exact ⟨_, .initializer h⟩
    · exact ⟨_, .sparse h⟩
    · obtain ⟨e, he, rfl⟩ := mem_nodes.1 hn
      obtain ⟨i, hi⟩ := exists_defines_of_mem he ht
      exact ⟨_, hi⟩
  · rintro ⟨s, hs⟩
    cases hs with
    | input h => exact .inl h
    | initializer h => exact .inr (.inl h)
    | sparse h => exact .inr (.inr (.inl h))
    | output he ht =>
      exact .inr (.inr (.inr ⟨_, node_mem_nodes he, List.mem_of_getElem? ht⟩))

/-- Two nodes do not write the same tensor. -/
theorem SingleSource.handle_eq (hsingle : d.SingleSource) {e : Entry} (he : e ∈ d.entries)
    (ht : t ∈ e.node.outputs) (hne : t ≠ "") (hs : d.Defines s t) :
    s.handle? = some e.handle := by
  obtain ⟨i, hi⟩ := exists_defines_of_mem he ht
  rw [hsingle t hne s _ hs hi]
  rfl

/-- All sources with what they give. -/
def definitions (d : Draft) : List (Source × String) :=
  d.frame.inputs.map (fun v => (.input v.name, v.name)) ++
    d.initializers.map (fun i => (.initializer i.name, i.name)) ++
    d.sparseNames.map (fun t => (.sparse t, t)) ++
    d.entries.flatMap fun e => e.node.outputs.zipIdx.map fun o => (.output e.handle o.2, o.1)

theorem mem_definitions : (s, t) ∈ d.definitions ↔ d.Defines s t := by
  simp only [definitions, List.mem_append, List.mem_map, List.mem_flatMap, Prod.mk.injEq,
    Prod.exists, List.mem_zipIdx_iff_getElem?]
  constructor
  · rintro (((⟨v, hv, rfl, rfl⟩ | ⟨i, hi, rfl, rfl⟩) | ⟨t, ht, rfl, rfl⟩) |
      ⟨e, he, o, i, ho, rfl, rfl⟩)
    · exact .input (isInput_iff.2 (List.mem_map_of_mem hv))
    · exact .initializer (isInitializer_iff.2 (List.mem_map_of_mem hi))
    · exact .sparse ht
    · exact .output he ho
  · intro hs
    cases hs with
    | input h =>
      obtain ⟨v, hv, rfl⟩ := List.mem_map.1 (isInput_iff.1 h)
      exact .inl (.inl (.inl ⟨v, hv, rfl, rfl⟩))
    | initializer h =>
      obtain ⟨i, hi, rfl⟩ := List.mem_map.1 (isInitializer_iff.1 h)
      exact .inl (.inl (.inr ⟨i, hi, rfl, rfl⟩))
    | sparse h => exact .inl (.inr ⟨t, h, rfl, rfl⟩)
    | output he ht => exact .inr ⟨_, he, t, _, ht, rfl, rfl⟩

theorem singleSource_iff :
    d.SingleSource ↔
      ∀ a ∈ d.definitions, ∀ b ∈ d.definitions, a.2 ≠ "" → a.2 = b.2 → a.1 = b.1 := by
  constructor
  · rintro h ⟨s, t⟩ hs ⟨s', t'⟩ hs' hne rfl
    exact h t hne s s' (mem_definitions.1 hs) (mem_definitions.1 hs')
  · intro h t hne s s' hs hs'
    exact h _ (mem_definitions.2 hs) _ (mem_definitions.2 hs') hne rfl

instance (d : Draft) : Decidable d.SingleSource :=
  decidable_of_iff _ singleSource_iff.symm

/-! ### Chains that go up -/

/-- The chains that a search finds go up by rank. -/
theorem rising_of_mem_findAll {p : Pattern} {cap : Nat} (hranked : d.Ranked rank)
    (hchain : chain ∈ p.findAll d cap) : chain.Pairwise fun h h' => rank h < rank h' := by
  have : Trans (fun h h' : Handle => rank h < rank h') (fun h h' => rank h < rank h')
      (fun h h' => rank h < rank h') := ⟨fun h h' => Nat.lt_trans h h'⟩
  rw [← List.isChain_iff_pairwise]
  refine (Pattern.isChain_of_mem_findAll hchain).follows.imp ?_
  rintro h h' ⟨n, n', t, hn, hn', hne, ht, ht'⟩
  exact hranked _ (node?_eq_some_iff.1 hn) _ (node?_eq_some_iff.1 hn') t ht hne ht'

/-- No node of a chain that goes up ranks below its first node. -/
theorem rank_head_le_of_rising {first h : Handle}
    (hrising : chain.Pairwise fun h h' => rank h < rank h') (hfirst : chain.head? = some first)
    (hh : h ∈ chain) : rank first ≤ rank h := by
  cases chain with
  | nil => simp at hfirst
  | cons a rest =>
    obtain rfl : a = first := by simpa using hfirst
    rcases List.mem_cons.1 hh with rfl | hh
    · exact Nat.le_refl _
    · exact Nat.le_of_lt (List.rel_of_pairwise_cons hrising hh)

/-! ### Contractible chains -/

namespace Contractible

variable {h : Handle}

theorem mem_handles (hc : d.Contractible rank chains) (hchain : chain ∈ chains)
    (hh : h ∈ chain) : h ∈ d.handles :=
  (hc.deletable.movable chain hchain h hh).mem_handles

/-- No two of the chains have a node in common. -/
theorem eq_of_mem (hc : d.Contractible rank chains) {other : Chain} (hchain : chain ∈ chains)
    (hother : other ∈ chains) (hh : h ∈ chain) (hh' : h ∈ other) : chain = other := by
  by_contra hne
  have hdisjoint := (List.nodup_flatten.1 hc.deletable.nodup).2
  have : Std.Symm (List.Disjoint (α := Handle)) := ⟨fun _ _ => List.Disjoint.symm⟩
  exact hdisjoint.forall hchain hother hne hh hh'

theorem rank_head_le (hc : d.Contractible rank chains) (hchain : chain ∈ chains) {first : Handle}
    (hfirst : chain.head? = some first) (hh : h ∈ chain) : rank first ≤ rank h :=
  rank_head_le_of_rising (hc.rising chain hchain) hfirst hh

/-- A node of a chain that does not end it is read only in the chain. -/
theorem getLast?_of_read (hc : d.Contractible rank chains) (hchain : chain ∈ chains) {e e' : Entry}
    (he : e ∈ d.entries) (hmem : e.handle ∈ chain) (ht : t ∈ e.node.outputs) (hne : t ≠ "")
    (he' : e' ∈ d.entries) (ht' : t ∈ e'.node.inputs) (hnot : e'.handle ∉ chain) :
    chain.getLast? = some e.handle := by
  by_contra hlast
  have hinner : e.handle ∈ chain.dropLast := by
    rcases List.eq_nil_or_concat chain with rfl | ⟨rest, last, rfl⟩
    · simp at hmem
    · rw [List.concat_eq_append] at hmem hlast ⊢
      rw [List.dropLast_concat]
      simp only [List.getLast?_concat, Option.some.injEq] at hlast
      simpa [Ne.symm hlast] using hmem
  exact hnot ((hc.wire chain hchain).inner e he hinner t ht hne e' he' ht')

/-- What a chain writes at its end comes from one of its nodes. -/
theorem source_mem (hc : d.Contractible rank chains) (hchain : chain ∈ chains)
    (ht : t ∈ (d.lastNode chain).outputs) (hne : t ≠ "") (hs : d.Defines s t) :
    ∃ h ∈ chain, s.handle? = some h := by
  obtain ⟨e, he, hlast, hnode⟩ :=
    exists_last (hc.deletable.ne_nil chain hchain) fun _ => hc.mem_handles hchain
  exact ⟨e.handle, List.mem_of_getLast? hlast, hc.single.handle_eq he (hnode ▸ ht) hne hs⟩

/-- A chain does not write at its end what it reads at its start. -/
theorem ne_of_ends (hc : d.Contractible rank chains) (hchain : chain ∈ chains) {x y : String}
    (hx : x ∈ (d.firstNode chain).inputs) (hy : y ∈ (d.lastNode chain).outputs) (hne : x ≠ "") :
    x ≠ y := by
  rintro rfl
  have hpresent : ∀ h ∈ chain, h ∈ d.handles := fun _ => hc.mem_handles hchain
  obtain ⟨first, hfirst, hhead, hfirstNode⟩ :=
    exists_first (hc.deletable.ne_nil chain hchain) hpresent
  obtain ⟨last, hlast, hlast', hlastNode⟩ :=
    exists_last (hc.deletable.ne_nil chain hchain) hpresent
  have hlt := hc.ranked last hlast first hfirst x (hlastNode ▸ hy) hne (hfirstNode ▸ hx)
  exact absurd (hc.rank_head_le hchain hhead (List.mem_of_getLast? hlast')) (Nat.not_le_of_lt hlt)

/-- What is read outside the chains, or at the start of one, comes from a source outside. -/
theorem exists_contracted (hc : d.Contractible rank chains) (hdangling : d.dangling = [])
    {e : Entry} (he : e ∈ d.entries)
    (hstart : ∀ chain ∈ chains, e.handle ∈ chain → chain.head? = some e.handle)
    (ht : t ∈ e.node.inputs) (hne : t ≠ "") : ∃ s, d.Contracted chains t s := by
  induction hr : rank e.handle using Nat.strongRecOn generalizing e t with
  | _ r ih =>
    subst hr
    obtain ⟨s, hs⟩ := isDefined_iff_defines.1
      (dangling_eq_nil_iff.1 hdangling _ (node_mem_nodes he) t ht hne)
    by_cases hout : ∀ h ∈ chains.flatten, s.handle? ≠ some h
    · exact ⟨s, .outside hs hout⟩
    push Not at hout
    obtain ⟨h, hflatten, hsource⟩ := hout
    obtain ⟨chain, hchain, hmem⟩ := List.mem_flatten.1 hflatten
    obtain ⟨w, hw, rfl, htw⟩ := hs.exists_entry hsource
    have hlt : rank w.handle < rank e.handle := hc.ranked w hw e he t htw hne ht
    -- the reader is not in the chain of the writer, where it would come first
    have hnot : e.handle ∉ chain := fun hin =>
      absurd (hc.rank_head_le hchain (hstart chain hchain hin) hmem) (Nat.not_le_of_lt hlt)
    have hlast := hc.getLast?_of_read hchain hw hmem htw hne he ht hnot
    obtain ⟨first, hfirst, hhead, hfirstNode⟩ :=
      exists_first (hc.deletable.ne_nil chain hchain) fun _ => hc.mem_handles hchain
    obtain ⟨x, hxne, hx⟩ := (hc.wire chain hchain).input
    have hxmem : x ∈ first.node.inputs := by simp [← hfirstNode, hx]
    obtain ⟨s', hs'⟩ := ih (rank first.handle)
      (Nat.lt_of_le_of_lt (hc.rank_head_le hchain hhead hmem) hlt) hfirst
      (fun other hother hin => by
        rw [← hc.eq_of_mem hchain hother (List.mem_of_head? hhead) hin]
        exact hhead) hxmem hxne rfl
    exact ⟨s', .through hchain (hfirstNode ▸ hxmem) (lastNode_eq hw hlast ▸ htw) hs'⟩

end Contractible

end Draft

end OpGraph
