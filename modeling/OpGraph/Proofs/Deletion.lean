import OpGraph.Proofs.Chains
import OpGraph.Proofs.PrivateConstants

/-!
# Deleting chains

A chain is deleted by taking its nodes out, bypassing it and removing the
constants that only fed it (`Draft.deleteChain`). All other nodes are left, but
for constants that are spent on a chain (`Draft.exists_rewiredFrom_or_spends`).
The nodes of other chains are not taken out with it, since chains that can be
deleted one after the other share no node and hold no constants, and no node
changes its number of inputs or outputs. So what can be deleted stays so while
chains before it are deleted (`Draft.Deletable.next`).
-/

namespace OpGraph

namespace Draft

variable {d d' : Draft} {chain : Chain} {h : Handle}

/-! ### The nodes of a chain -/

/-- The draft without the nodes of a chain. -/
def removeChain (d : Draft) (chain : Chain) : Draft :=
  d.keepEntries fun e => e.handle ∉ chain

/-- The entries of a chain, in the order of the chain. -/
def entriesOf (d : Draft) (chain : Chain) : List Entry :=
  chain.filterMap fun h => (d.node? h).map (Entry.mk h)

/-- The first node of a chain. -/
def firstNode (d : Draft) (chain : Chain) : Node :=
  (chain.head?.bind d.node?).getD {}

/-- The last node of a chain. -/
def lastNode (d : Draft) (chain : Chain) : Node :=
  (chain.getLast?.bind d.node?).getD {}

/-- Whether the first node of a chain reads as many tensors as the last one writes. -/
def isBalanced (d : Draft) (chain : Chain) : Bool :=
  (d.firstNode chain).inputs.length == (d.lastNode chain).outputs.length

theorem firstNode_eq {e : Entry} (he : e ∈ d.entries) (hhead : chain.head? = some e.handle) :
    d.firstNode chain = e.node := by
  rw [firstNode, hhead, Option.bind_some, node?_of_mem he]
  rfl

theorem lastNode_eq {e : Entry} (he : e ∈ d.entries) (hlast : chain.getLast? = some e.handle) :
    d.lastNode chain = e.node := by
  rw [lastNode, hlast, Option.bind_some, node?_of_mem he]
  rfl

theorem exists_first (hne : chain ≠ []) (hmem : ∀ h ∈ chain, h ∈ d.handles) :
    ∃ e ∈ d.entries, chain.head? = some e.handle ∧ d.firstNode chain = e.node := by
  obtain ⟨e, he, hhead⟩ := List.mem_map.1 (hmem _ (List.head_mem hne))
  have hhead' : chain.head? = some e.handle := by rw [hhead, List.head?_eq_some_head hne]
  exact ⟨e, he, hhead', firstNode_eq he hhead'⟩

theorem exists_last (hne : chain ≠ []) (hmem : ∀ h ∈ chain, h ∈ d.handles) :
    ∃ e ∈ d.entries, chain.getLast? = some e.handle ∧ d.lastNode chain = e.node := by
  obtain ⟨e, he, hlast⟩ := List.mem_map.1 (hmem _ (List.getLast_mem hne))
  have hlast' : chain.getLast? = some e.handle := by rw [hlast, List.getLast?_eq_some_getLast hne]
  exact ⟨e, he, hlast', lastNode_eq he hlast'⟩

theorem mem_entries_removeChain {e : Entry} :
    e ∈ (d.removeChain chain).entries ↔ e ∈ d.entries ∧ e.handle ∉ chain := by
  simp [removeChain, keepEntries]

theorem mem_handles_removeChain :
    h ∈ (d.removeChain chain).handles ↔ h ∈ d.handles ∧ h ∉ chain := by
  simp only [handles, List.mem_map, mem_entries_removeChain]
  constructor
  · rintro ⟨e, ⟨he, hnot⟩, rfl⟩
    exact ⟨⟨e, he, rfl⟩, hnot⟩
  · rintro ⟨⟨e, he, rfl⟩, hnot⟩
    exact ⟨e, ⟨he, hnot⟩, rfl⟩

theorem node?_remove_of_ne {a : Handle} (hne : a ≠ h) : (d.remove h).node? a = d.node? a := by
  ext n
  simp [node?_eq_some_iff, remove, keepEntries, hne]

theorem removeChain_nil (d : Draft) : d.removeChain [] = d := by
  ext1 <;> simp [removeChain, keepEntries]

theorem removeChain_remove (d : Draft) (h : Handle) (chain : Chain) :
    (d.remove h).removeChain chain = d.removeChain (h :: chain) := by
  ext1
  · rfl
  · simp only [removeChain, remove, keepEntries, List.filter_filter]
    exact List.filter_congr fun e _ => by simp [Bool.and_comm]
  · rfl
  · rfl

theorem IsMovable.mem_handles (hm : d.IsMovable h) : h ∈ d.handles := by
  obtain ⟨n, hn, -⟩ := hm
  exact mem_handles_of_node? hn

/-! ### One deletion -/

/-- The bypass of a chain that is taken out. -/
def bypassed (d : Draft) (chain : Chain) : Bypass :=
  (d.removeChain chain).bypass (d.firstNode chain) (d.lastNode chain)

/-- The removal of constants after the bypass of a chain. -/
def deletion (d : Draft) (protectShared : Bool) (chain : Chain) : ConstantRemoval :=
  (d.bypassed chain).draft.removePrivateConstants ((d.entriesOf chain).map (·.node)) protectShared

/-- The draft after the deletion of a chain. -/
def deleteChain (d : Draft) (protectShared : Bool) (chain : Chain) : Draft :=
  (d.deletion protectShared chain).draft

theorem mem_handles_bypassed :
    h ∈ (d.bypassed chain).draft.handles ↔ h ∈ d.handles ∧ h ∉ chain := by
  rw [bypassed, handles_bypass, mem_handles_removeChain]

theorem trims_bypassed (d : Draft) (chain : Chain) : d.Trims (d.bypassed chain).draft :=
  (Trims.keepEntries d _).trans (trims_bypass _ _ _)

theorem trims_deleteChain (d : Draft) (protectShared : Bool) (chain : Chain) :
    d.Trims (d.deleteChain protectShared chain) :=
  (d.trims_bypassed chain).trans (trims_removePrivateConstants _ _ _)

/-- The draft after the deletion of chains, one after the other. -/
def deleteChains (d : Draft) (protectShared : Bool) (chains : List Chain) : Draft :=
  chains.foldl (fun d chain => d.deleteChain protectShared chain) d

theorem trims_deleteChains (d : Draft) (protectShared : Bool) (chains : List Chain) :
    d.Trims (d.deleteChains protectShared chains) := by
  induction chains generalizing d with
  | nil => exact .refl d
  | cons chain chains ih =>
    exact (d.trims_deleteChain protectShared chain).trans (ih (d.deleteChain protectShared chain))

/-- The nodes of a chain are gone after its deletion. -/
theorem not_mem_handles_deleteChain (protectShared : Bool) (hmem : h ∈ chain) :
    h ∉ (d.deleteChain protectShared chain).handles := by
  intro h'
  have hbypassed := (trims_removePrivateConstants _ _ _).mem_handles h'
  exact (mem_handles_bypassed.1 hbypassed).2 hmem

/-- A deletion takes out no other node that is not a constant. -/
theorem IsMovable.deleteChain (hm : d.IsMovable h) (hnot : h ∉ chain) (protectShared : Bool) :
    (d.deleteChain protectShared chain).IsMovable h := by
  obtain ⟨n, hn, hconst⟩ := hm
  have hmem := mem_handles_bypassed.2 ⟨IsMovable.mem_handles ⟨n, hn, hconst⟩, hnot⟩
  obtain ⟨e, he, rfl⟩ := List.mem_map.1 hmem
  obtain ⟨m, hm, hrewired⟩ := (d.trims_bypassed chain).exists_node? (node?_of_mem he)
  obtain rfl : n = m := Option.some.inj (hn.symm.trans hm)
  have hconst' : e.node.isConstant = false := hrewired.isConstant_eq.trans hconst
  exact ⟨e.node, node?_of_mem (mem_entries_removePrivateConstants he hconst' _ _), hconst'⟩

/-! ### What a deletion leaves -/

/-- A constant is spent on a chain: when the chain is bypassed it writes a tensor that a node of the
chain has read, and where shared tensors are protected, nothing that is left then needs it. -/
def SpendsOn (d : Draft) (protectShared : Bool) (chain : Chain) (h : Handle) : Prop :=
  ∃ e ∈ (d.bypassed chain).draft.entries, e.handle = h ∧ e.node.isConstant ∧
    ∃ t ∈ e.node.outputs, t ≠ "" ∧ (∃ o ∈ d.entriesOf chain, t ∈ o.node.inputs) ∧
      (protectShared = true → ¬ (d.deleteChain protectShared chain).isShared t)

/-- A constant is spent on one of several chains that are deleted one after the other. -/
def Spends (d : Draft) (protectShared : Bool) (chains : List Chain) (h : Handle) : Prop :=
  ∃ earlier chain later, chains = earlier ++ chain :: later ∧
    (d.deleteChains protectShared earlier).SpendsOn protectShared chain h

/-- A node outside a chain is left by its deletion, or it is a constant that is spent on it. -/
theorem mem_handles_deleteChain (protectShared : Bool) (hmem : h ∈ d.handles) (hnot : h ∉ chain) :
    h ∈ (d.deleteChain protectShared chain).handles ∨ d.SpendsOn protectShared chain h := by
  obtain ⟨e, he, rfl⟩ := List.mem_map.1 (mem_handles_bypassed.2 ⟨hmem, hnot⟩)
  obtain ⟨tensors, hread, hdraft, hunshared⟩ := (d.bypassed chain).draft.exists_purge
    ((d.entriesOf chain).map (·.node)) protectShared
  by_cases hgone : e.node.isConstant ∧ ∃ t ∈ e.node.outputs, t ∈ tensors
  · obtain ⟨hconst, t, ht, hmem⟩ := hgone
    obtain ⟨hne, n, hn, hin⟩ := mem_tensorsRead.1 (hread hmem)
    obtain ⟨o, ho, rfl⟩ := List.mem_map.1 hn
    refine .inr ⟨e, he, rfl, hconst, t, ht, hne, ⟨o, ho, hin⟩, fun hprotect => ?_⟩
    rw [deleteChain, deletion, hdraft]
    exact hunshared hprotect t hmem
  · refine .inl ?_
    rw [deleteChain, deletion, hdraft]
    exact List.mem_map_of_mem (List.mem_filter.2 ⟨he, decide_eq_true hgone⟩)

theorem mem_handles_deleteChains (protectShared : Bool) {chains : List Chain}
    (hmem : h ∈ d.handles) (hnot : ∀ chain ∈ chains, h ∉ chain) :
    h ∈ (d.deleteChains protectShared chains).handles ∨ d.Spends protectShared chains h := by
  induction chains generalizing d with
  | nil => exact .inl hmem
  | cons chain chains ih =>
    rcases d.mem_handles_deleteChain protectShared hmem (hnot chain List.mem_cons_self) with
      hleft | hspent
    · rcases ih hleft fun c hc => hnot c (List.mem_cons_of_mem _ hc) with
        hleft | ⟨earlier, c, later, rfl, hspent⟩
      · exact .inl hleft
      · exact .inr ⟨chain :: earlier, c, later, rfl, hspent⟩
    · exact .inr ⟨[], chain, chains, rfl, hspent⟩

/-- Only constants are spent. -/
theorem Spends.isConstant {protectShared : Bool} {chains : List Chain} {e : Entry}
    (hspent : d.Spends protectShared chains e.handle) (he : e ∈ d.entries) : e.node.isConstant := by
  obtain ⟨earlier, chain, later, -, e', he', heq, hconst, -⟩ := hspent
  have htrims := (d.trims_deleteChains protectShared earlier).trans (trims_bypassed _ chain)
  obtain ⟨n, hn, hrewired⟩ := htrims.exists_node? (node?_of_mem he')
  rw [heq, node?_of_mem he, Option.some.injEq] at hn
  rw [hn, ← hrewired.isConstant_eq, hconst]

/-- A node outside the chains is left with other names at most, or it is a constant that is spent on
one of them. -/
theorem exists_rewiredFrom_or_spends (protectShared : Bool) {chains : List Chain} {e : Entry}
    (he : e ∈ d.entries) (hnot : ∀ chain ∈ chains, e.handle ∉ chain) :
    (∃ e' ∈ (d.deleteChains protectShared chains).entries, e'.RewiredFrom e) ∨
      e.node.isConstant ∧ d.Spends protectShared chains e.handle := by
  rcases mem_handles_deleteChains protectShared (List.mem_map_of_mem he) hnot with hleft | hspent
  · exact .inl ((d.trims_deleteChains protectShared chains).exists_rewiredFrom he hleft)
  · exact .inr ⟨hspent.isConstant he, hspent⟩

/-! ### Trimmed drafts and their chains -/

theorem Trims.label_eq (htrims : d.Trims d') (hmem : h ∈ d'.handles) : d'.label h = d.label h := by
  obtain ⟨e, he, rfl⟩ := List.mem_map.1 hmem
  obtain ⟨n, hn, hrewired⟩ := htrims.exists_node? (node?_of_mem he)
  simp [label, hn, node?_of_mem he, hrewired.label_eq]

theorem Trims.isOutput_eq (htrims : d.Trims d') (t : String) : d'.isOutput t = d.isOutput t := by
  rw [isOutput, isOutput, htrims.frame]

theorem Trims.isBalanced_eq (htrims : d.Trims d') (hne : chain ≠ [])
    (hmem : ∀ h ∈ chain, h ∈ d'.handles) : d'.isBalanced chain = d.isBalanced chain := by
  obtain ⟨first, hfirst, hhead, hfirst'⟩ := exists_first hne hmem
  obtain ⟨last, hlast, htail, hlast'⟩ := exists_last hne hmem
  obtain ⟨n, hn, hrewired⟩ := htrims.exists_node? (node?_of_mem hfirst)
  obtain ⟨m, hm, hrewired'⟩ := htrims.exists_node? (node?_of_mem hlast)
  unfold isBalanced
  rw [hfirst', hlast', firstNode_eq (node?_eq_some_iff.1 hn) hhead,
    lastNode_eq (node?_eq_some_iff.1 hm) htail, hrewired.inputs_length, hrewired'.outputs_length]

/-! ### Chains that can be deleted -/

/-- Chains that a pass can delete: they have nodes, all different and none a constant, and each
reads at its start as many tensors as it writes at its end. -/
structure Deletable (d : Draft) (chains : List Chain) : Prop where
  ne_nil : ∀ chain ∈ chains, chain ≠ []
  nodup : chains.flatten.Nodup
  movable : ∀ chain ∈ chains, ∀ h ∈ chain, d.IsMovable h
  balanced : ∀ chain ∈ chains, d.isBalanced chain

/-- No node of a later chain is in an earlier one. -/
theorem Deletable.not_mem {chains : List Chain} (hd : d.Deletable (chain :: chains))
    {later : Chain} (hlater : later ∈ chains) (hmem : h ∈ later) : h ∉ chain := by
  intro hchain
  have hnodup := hd.nodup
  rw [List.flatten_cons] at hnodup
  exact (List.nodup_append'.1 hnodup).2.2 hchain (List.mem_flatten.2 ⟨later, hlater, hmem⟩)

/-- Chains can still be deleted after the one before them. -/
theorem Deletable.next {chains : List Chain} (hd : d.Deletable (chain :: chains))
    (protectShared : Bool) : (d.deleteChain protectShared chain).Deletable chains where
  ne_nil c hc := hd.ne_nil c (List.mem_cons_of_mem _ hc)
  nodup := by
    have hnodup := hd.nodup
    rw [List.flatten_cons] at hnodup
    exact (List.nodup_append'.1 hnodup).2.1
  movable c hc h hh :=
    (hd.movable c (List.mem_cons_of_mem _ hc) h hh).deleteChain (hd.not_mem hc hh) _
  balanced c hc := by
    rw [(d.trims_deleteChain protectShared chain).isBalanced_eq
      (hd.ne_nil c (List.mem_cons_of_mem _ hc)) fun h hh =>
        ((hd.movable c (List.mem_cons_of_mem _ hc) h hh).deleteChain (hd.not_mem hc hh) _).mem_handles]
    exact hd.balanced c (List.mem_cons_of_mem _ hc)

end Draft

end OpGraph
