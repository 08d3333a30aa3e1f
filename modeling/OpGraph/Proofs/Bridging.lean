import OpGraph.Proofs.Bypassing

/-!
# Chains that are bridged

Chains of an acyclic draft where no tensor has two sources can be bridged one after the other
(`Draft.Bridgeable.next`), whatever they read and write. Of a chain that is taken out only the
outputs of the last node go on, each under the source of the input of the first node at its place
(`Draft.Rerouted`), and with the constants that go with the chain the tensors go that only they give
(`Draft.Offers`).
-/

namespace OpGraph

/-! ### Sources that are left -/

namespace Draft

variable {d d' d'' : Draft} {s : Source} {t : String}

/-- A source is there: the graph has the input or the sparse initializer, the draft has the
initializer or the node. -/
def Offers (d : Draft) : Source → Prop
  | .input t => d.isInput t
  | .initializer t => d.isInitializer t
  | .sparse t => t ∈ d.sparseNames
  | .output h _ => h ∈ d.handles

theorem Defines.offers (h : d.Defines s t) : d.Offers s := by
  cases h with
  | input h => exact h
  | initializer h => exact h
  | sparse h => exact h
  | output he => exact List.mem_map_of_mem he

/-- A draft with nodes and initializers left out. -/
structure Thins (d d' : Draft) : Prop where
  entries : d'.entries ⊆ d.entries
  initializers : d'.initializers ⊆ d.initializers
  frame : d'.frame = d.frame

namespace Thins

theorem trans (h : d.Thins d') (h' : d'.Thins d'') : d.Thins d'' :=
  ⟨fun _ he => h.entries (h'.entries he), fun _ hi => h.initializers (h'.initializers hi),
    h'.frame.trans h.frame⟩

theorem keepEntries (d : Draft) (keep : Entry → Bool) : d.Thins (d.keepEntries keep) :=
  ⟨List.filter_sublist.subset, fun _ h => h, rfl⟩

theorem keepInitializers (d : Draft) (keep : Tensor → Bool) : d.Thins (d.keepInitializers keep) :=
  ⟨fun _ h => h, List.filter_sublist.subset, rfl⟩

/-- What a source gave, it still gives if it is left. -/
theorem defines_iff (h : d.Thins d') : d'.Defines s t ↔ d.Defines s t ∧ d'.Offers s := by
  constructor
  · intro hdefines
    refine ⟨?_, hdefines.offers⟩
    cases hdefines with
    | input hi => exact .input (by rwa [isInput, ← h.frame])
    | initializer hi =>
      obtain ⟨i, hmem, rfl⟩ := List.mem_map.1 (isInitializer_iff.1 hi)
      exact .initializer (isInitializer_iff.2 (List.mem_map_of_mem (h.initializers hmem)))
    | sparse hi => exact .sparse (by rwa [sparseNames, ← h.frame])
    | output he ht => exact .output (h.entries he) ht
  · rintro ⟨hdefines, hoffers⟩
    cases hdefines with
    | input => exact .input hoffers
    | initializer => exact .initializer hoffers
    | sparse => exact .sparse hoffers
    | output he ht =>
      obtain ⟨e', he', heq⟩ := List.mem_map.1 hoffers
      obtain rfl := eq_of_handle_eq (h.entries he') he heq
      exact .output he' ht

end Thins

/-- No source comes back. -/
theorem Trims.offers (h : d.Trims d') (hoffers : d'.Offers s) : d.Offers s := by
  cases s with
  | input t =>
    show d.isInput t
    rwa [isInput, ← h.frame]
  | initializer t =>
    obtain ⟨i, hi, rfl⟩ := List.mem_map.1 (isInitializer_iff.1 hoffers)
    exact isInitializer_iff.2 (List.mem_map_of_mem (h.initializers.subset hi))
  | sparse t =>
    show t ∈ d.sparseNames
    rwa [sparseNames, ← h.frame]
  | output a i => exact h.mem_handles hoffers

theorem thins_removePrivateConstants (d : Draft) (dropped : List Node) (protectShared : Bool) :
    d.Thins (d.removePrivateConstants dropped protectShared).draft := by
  obtain ⟨tensors, -, hdraft, -⟩ := d.exists_purge dropped protectShared
  rw [hdraft]
  exact (Thins.keepEntries _ _).trans (.keepInitializers _ _)

/-! ### One chain -/

/-- What the deletion of chains relies on, so that it can be told which sources feed what. -/
structure Bridgeable (d : Draft) (rank : Handle → Nat) (chains : List Chain) : Prop where
  ranked : d.Ranked rank
  single : d.SingleSource
  deletable : d.Deletable chains
  rising : ∀ chain ∈ chains, chain.Pairwise fun h h' => rank h < rank h'

/-- The inputs of the first node of a chain, each with the output of the last one at its place. -/
def ends (d : Draft) (chain : Chain) : List (String × String) :=
  (d.firstNode chain).inputs.zip (d.lastNode chain).outputs

/-- An input of the first node of a chain and an output of the last one, both with a name, are at
one place. -/
def Connects (d : Draft) (chain : Chain) (place : Nat) (x y : String) : Prop :=
  (d.firstNode chain).inputs[place]? = some x ∧ (d.lastNode chain).outputs[place]? = some y ∧
    x ≠ "" ∧ y ≠ ""

/-- Which source feeds a tensor once a chain has been taken out, if it is known which one did
before: a source outside the chain goes on feeding it, and an output of the last node is fed by the
source of the input at its place. A source at a node feeds only the first of several such
outputs. -/
inductive Rerouted (d : Draft) (chain : Chain) (feeds : String → Source → Prop) :
    String → Source → Prop
  | past {t : String} {s : Source} (hs : feeds t s) (hout : ∀ h ∈ chain, s.handle? ≠ some h) :
    Rerouted d chain feeds t s
  | through {t x y : String} {s : Source} {last : Handle} {place : Nat}
      (hlast : chain.getLast? = some last) (ht : feeds t (.output last place))
      (hplace : d.Connects chain place x y) (hs : feeds x s)
      (hfirst : s.handle? = none ∨
        ∀ i < place, ∀ x' y', d.Connects chain i x' y' → ¬ feeds x' s) :
    Rerouted d chain feeds t s

variable {rank : Handle → Nat} {chain : Chain} {chains : List Chain} {x y : String}
  {place : Nat}

theorem mem_ends_iff : (x, y) ∈ d.ends chain ↔ ∃ i : Nat,
    (d.firstNode chain).inputs[i]? = some x ∧ (d.lastNode chain).outputs[i]? = some y := by
  simp only [ends, List.mem_iff_getElem?, List.getElem?_zip_eq_some]

theorem connects_iff :
    d.Connects chain place x y ↔ (d.ends chain)[place]? = some (x, y) ∧ x ≠ "" ∧ y ≠ "" := by
  rw [Connects, ends, List.getElem?_zip_eq_some, and_assoc]

/-- The chain connects what stands at one place, where both have names. -/
theorem exists_connects_iff :
    (∃ place, d.Connects chain place x y) ↔ (x, y) ∈ d.ends chain ∧ x ≠ "" ∧ y ≠ "" := by
  simp only [connects_iff, exists_and_right, List.mem_iff_getElem?]

theorem defines_removeChain : (d.removeChain chain).Defines s t ↔
    d.Defines s t ∧ ∀ h ∈ chain, s.handle? ≠ some h := by
  have hthins : d.Thins (d.removeChain chain) := .keepEntries d _
  rw [hthins.defines_iff]
  refine and_congr_right fun hs => ?_
  have hoffers := hs.offers
  cases s with
  | input | initializer | sparse => exact iff_of_true hoffers nofun
  | output a i =>
    have hleft : a ∈ (d.removeChain chain).handles ↔ a ∉ chain :=
      mem_handles_removeChain.trans (and_iff_right hoffers)
    refine hleft.trans ⟨fun hnot h hh heq => ?_, fun hout hmem => hout a hmem rfl⟩
    cases heq
    exact hnot hh

/-- What the bypass of a chain relies on: no tensor has two sources, the last node is there, and all
that the first node reads comes from outside the chain. -/
structure Bypassable (d : Draft) (chain : Chain) : Prop where
  single : d.SingleSource
  last : ∃ e ∈ d.entries, chain.getLast? = some e.handle ∧ d.lastNode chain = e.node
  outside {x : String} (hx : x ∈ (d.firstNode chain).inputs) (hne : x ≠ "") {s : Source}
    (hs : d.Defines s x) : ∀ h ∈ chain, s.handle? ≠ some h

namespace Bypassable

section

variable (h : d.Bypassable chain)

include h

/-- What the last node of a chain writes comes from that node. -/
theorem handle?_of_mem_outputs (hy : y ∈ (d.lastNode chain).outputs) (hne : y ≠ "")
    (hs : d.Defines s y) : s.handle? = chain.getLast? := by
  obtain ⟨last, hlast, htail, hnode⟩ := h.last
  rw [htail]
  exact h.single.handle_eq hlast (hnode ▸ hy) hne hs

/-- When a chain has been taken out, nothing writes what its last node wrote. -/
theorem awaits : (d.removeChain chain).Awaits (d.ends chain) where
  single t hne s s' hs hs' :=
    h.single t hne s s' (defines_removeChain.1 hs).1 (defines_removeChain.1 hs').1
  undefined p hp hne s hs := by
    obtain ⟨hs, hout⟩ := defines_removeChain.1 hs
    obtain ⟨last, hlast, htail, hnode⟩ := h.last
    obtain ⟨i, -, hi⟩ := mem_ends_iff.1 hp
    have hsource := h.handle?_of_mem_outputs (List.mem_of_getElem? hi) hne hs
    exact hout last.handle (List.mem_of_getLast? htail) (hsource.trans htail)
  distinct := by
    obtain ⟨last, hlast, -, hnode⟩ := h.last
    rw [List.pairwise_iff_getElem]
    intro i j hi hj hij hne heq
    have hoi := (List.getElem?_zip_eq_some.1 (List.getElem?_eq_getElem hi)).2
    have hoj := (List.getElem?_zip_eq_some.1 (List.getElem?_eq_getElem hj)).2
    rw [hnode] at hoi hoj
    rw [← heq] at hoj
    cases h.single _ hne _ _ (.output hlast hoi) (.output hlast hoj)
    exact Nat.lt_irrefl _ hij
  apart p hp q hq hne heq := by
    obtain ⟨i, hi, -⟩ := mem_ends_iff.1 hp
    obtain ⟨j, -, hj⟩ := mem_ends_iff.1 hq
    obtain ⟨last, hlast, htail, hnode⟩ := h.last
    have hmem := List.mem_of_getElem? hj
    rw [hnode, ← heq] at hmem
    obtain ⟨k, hk⟩ := exists_defines_of_mem hlast hmem
    exact h.outside (List.mem_of_getElem? hi) hne hk last.handle (List.mem_of_getLast? htail) rfl

/-- An output with a name has one place. -/
theorem place_eq {i j : Nat} (hi : (d.lastNode chain).outputs[i]? = some y)
    (hj : (d.lastNode chain).outputs[j]? = some y) (hne : y ≠ "") : i = j := by
  obtain ⟨last, hlast, -, hnode⟩ := h.last
  rw [hnode] at hi hj
  cases h.single y hne _ _ (.output hlast hi) (.output hlast hj)
  rfl

/-- The heir of an input is the output at its first place, that is the first one that the source of
the input is at. -/
theorem heir?_eq_some_iff (hxy : d.Connects chain place x y) (hs : d.Defines s x) :
    heir? (d.ends chain) x = some y ↔
      ∀ i < place, ∀ x' y', d.Connects chain i x' y' → ¬ d.Defines s x' := by
  obtain ⟨hplace, hx, hy⟩ := connects_iff.1 hxy
  rw [Draft.heir?_eq_some_iff]
  constructor
  · rintro ⟨-, j, hj, hfirst⟩ i hi x' y' hconnects hs'
    obtain rfl := hs'.tensor_eq hs
    obtain ⟨hi', -, hy'⟩ := connects_iff.1 hconnects
    have hjplace : j = place :=
      h.place_eq (List.getElem?_zip_eq_some.1 hj).2 hxy.2.1 hy
    exact hy' (hfirst i (hjplace ▸ hi) y' hi')
  · refine fun hfirst => ⟨hy, place, hplace, fun i hi z hz => ?_⟩
    by_contra hne
    exact hfirst i hi x z (connects_iff.2 ⟨hz, hx, hne⟩) hs

/-- What feeds a tensor once a chain has been taken out and its outputs receive their sources. -/
theorem rerouted_iff (hne : t ≠ "") :
    d.Rerouted chain (fun t s => d.Defines s t) t s ↔
      (d.removeChain chain).Defines s t ∨ (d.removeChain chain).Receives (d.ends chain) s t := by
  obtain ⟨last, hlast, htail, hnode⟩ := h.last
  constructor
  · intro hrerouted
    cases hrerouted with
    | past hs hout => exact .inl (defines_removeChain.2 ⟨hs, hout⟩)
    | @through x y _ a place hlast' ht hplace hs hfirst =>
      obtain ⟨hmem, hx, hy⟩ := connects_iff.1 hplace
      -- the output at the place is the tensor
      have hyt : y = t := by
        obtain rfl : last.handle = a := Option.some.inj (htail.symm.trans hlast')
        have hslot := hplace.2.1
        rw [hnode] at hslot
        exact (Defines.output hlast hslot).tensor_eq ht
      subst hyt
      refine .inr ⟨x, hx, hy, List.mem_of_getElem? hmem, defines_removeChain.2 ⟨hs, ?_⟩, ?_⟩
      · exact h.outside (List.mem_of_getElem? hplace.1) hx hs
      · exact hfirst.imp_right (h.heir?_eq_some_iff hplace hs).2
  · rintro (hs | ⟨x, hx, -, hmem, hs, hheir⟩)
    · obtain ⟨hs, hout⟩ := defines_removeChain.1 hs
      exact .past hs hout
    · obtain ⟨place, hconnects⟩ := exists_connects_iff.2 ⟨hmem, hx, hne⟩
      have hs := (defines_removeChain.1 hs).1
      have hslot := hconnects.2.1
      rw [hnode] at hslot
      exact .through htail (.output hlast hslot) hconnects hs
        (hheir.imp_right (h.heir?_eq_some_iff hconnects hs).1)

/-- A bypass renames tensors, so that each is fed by the source it is rerouted to. -/
theorem renames_bypassed : ∃ f, (d.removeChain chain).Renames (d.bypassed chain).draft f ∧
    ∀ t s, t ≠ "" → ((d.bypassed chain).draft.Defines s (f t) ↔
      d.Rerouted chain (fun t s => d.Defines s t) t s) := by
  obtain ⟨f, hf, hdefines⟩ :=
    Bypass.renames_connectAll (b := { draft := d.removeChain chain }) h.awaits
  exact ⟨f, hf, fun t s hne => (hdefines t s).trans (h.rerouted_iff hne).symm⟩

theorem singleSource_bypassed : (d.bypassed chain).draft.SingleSource :=
  Bypass.singleSource_connectAll (b := { draft := d.removeChain chain }) h.awaits

end

end Bypassable

namespace Bridgeable

section

variable (hb : d.Bridgeable rank (chain :: chains))

include hb

theorem mem_handles {h : Handle} (hh : h ∈ chain) : h ∈ d.handles :=
  (hb.deletable.movable chain List.mem_cons_self h hh).mem_handles

theorem exists_first : ∃ e ∈ d.entries, chain.head? = some e.handle ∧ d.firstNode chain = e.node :=
  Draft.exists_first (hb.deletable.ne_nil chain List.mem_cons_self) fun _ => hb.mem_handles

theorem exists_last :
    ∃ e ∈ d.entries, chain.getLast? = some e.handle ∧ d.lastNode chain = e.node :=
  Draft.exists_last (hb.deletable.ne_nil chain List.mem_cons_self) fun _ => hb.mem_handles

/-- What the first node of a chain reads comes from a source that ranks below every node of the
chain. -/
theorem rank_lt_of_mem_inputs {e : Entry} (he : e ∈ d.entries) (ht : x ∈ e.node.outputs)
    (hx : x ∈ (d.firstNode chain).inputs) (hne : x ≠ "") {h : Handle} (hh : h ∈ chain) :
    rank e.handle < rank h := by
  obtain ⟨first, hfirst, hhead, hnode⟩ := hb.exists_first
  exact Nat.lt_of_lt_of_le (hb.ranked e he first hfirst x ht hne (hnode ▸ hx))
    (rank_head_le_of_rising (hb.rising chain List.mem_cons_self) hhead hh)

/-- What the first node of a chain reads comes from outside the chain. -/
theorem outside (hx : x ∈ (d.firstNode chain).inputs) (hne : x ≠ "") (hs : d.Defines s x) :
    ∀ h ∈ chain, s.handle? ≠ some h := by
  intro h hh hsource
  obtain ⟨e, he, rfl, hmem⟩ := hs.exists_entry hsource
  exact absurd (hb.rank_lt_of_mem_inputs he hmem hx hne hh) (Nat.lt_irrefl _)

theorem bypassable : d.Bypassable chain :=
  ⟨hb.single, hb.exists_last, fun hx hne _ hs => hb.outside hx hne hs⟩

/-- A node that is left was there before the deletion, under other names for its tensors. -/
theorem renames_deleteChain (protectShared : Bool) : ∃ f, (∀ t, f t = "" ↔ t = "") ∧
    (∀ e' ∈ (d.deleteChain protectShared chain).entries, ∃ e ∈ d.entries, e' = e.rename f) ∧
    ∀ t s, t ≠ "" → ((d.deleteChain protectShared chain).Defines s (f t) ↔
      d.Rerouted chain (fun t s => d.Defines s t) t s ∧
        (d.deleteChain protectShared chain).Offers s) := by
  obtain ⟨f, hf, hdefines⟩ := hb.bypassable.renames_bypassed
  have hthins : (d.bypassed chain).draft.Thins (d.deleteChain protectShared chain) :=
    thins_removePrivateConstants _ _ _
  refine ⟨f, hf.empty, fun e' he' => ?_, fun t s hne => ?_⟩
  · have hmem := hthins.entries he'
    rw [hf.entries] at hmem
    obtain ⟨e, he, rfl⟩ := List.mem_map.1 hmem
    exact ⟨e, (mem_entries_removeChain.1 he).1, rfl⟩
  · rw [hthins.defines_iff, hdefines t s hne]

/-- The deletion of a chain keeps all ranks. -/
theorem ranked_deleteChain (protectShared : Bool) :
    (d.deleteChain protectShared chain).Ranked rank := by
  obtain ⟨f, hempty, hentries, hdefines⟩ := hb.renames_deleteChain protectShared
  intro e₁' he₁' e₂' he₂' u hu hne hu'
  obtain ⟨e₂, he₂, rfl⟩ := hentries e₂' he₂'
  obtain ⟨t, ht, rfl⟩ := List.mem_map.1 hu'
  have htne : t ≠ "" := fun h => hne ((hempty t).2 h)
  obtain ⟨i, hi⟩ := exists_defines_of_mem he₁' hu
  show rank e₁'.handle < rank e₂.handle
  obtain ⟨hrerouted, -⟩ := (hdefines t _ htne).1 hi
  generalize hs : Source.output e₁'.handle i = s at hrerouted
  cases hrerouted with
  | past hdef =>
    obtain ⟨e₁, he₁, heq, hmem⟩ := hdef.exists_entry (by rw [← hs]; rfl)
    rw [← heq]
    exact hb.ranked e₁ he₁ e₂ he₂ t hmem htne ht
  -- from the writer of an input of the chain to a reader of an output, past the chain
  | through hlast hread hplace hdef =>
    obtain ⟨e₁, he₁, heq, hmem⟩ := hdef.exists_entry (by rw [← hs]; rfl)
    obtain ⟨last, hlast', heq', hmem'⟩ := hread.exists_entry rfl
    rw [← heq]
    calc rank e₁.handle < rank last.handle :=
          hb.rank_lt_of_mem_inputs he₁ hmem (List.mem_of_getElem? hplace.1) hplace.2.2.1
            (heq' ▸ List.mem_of_getLast? hlast)
      _ < rank e₂.handle := hb.ranked last hlast' e₂ he₂ t hmem' htne ht

/-- Chains can still be bridged after the one before them. -/
theorem next (protectShared : Bool) :
    (d.deleteChain protectShared chain).Bridgeable rank chains where
  ranked := hb.ranked_deleteChain protectShared
  single t hne s s' hs hs' := by
    have hthins : (d.bypassed chain).draft.Thins (d.deleteChain protectShared chain) :=
      thins_removePrivateConstants _ _ _
    exact hb.bypassable.singleSource_bypassed t hne s s' (hthins.defines_iff.1 hs).1
      (hthins.defines_iff.1 hs').1
  deletable := hb.deletable.next protectShared
  rising c hc := hb.rising c (List.mem_cons_of_mem _ hc)

end

/-- The same holds for chains after several before them. -/
theorem deleteChains {rest : List Chain} (protectShared : Bool)
    (hb : d.Bridgeable rank (chains ++ rest)) :
    (d.deleteChains protectShared chains).Bridgeable rank rest := by
  induction chains generalizing d with
  | nil => exact hb
  | cons chain chains ih => exact ih (hb.next protectShared)

end Bridgeable

end Draft

end OpGraph
