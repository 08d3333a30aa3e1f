import OpGraph.Proofs.Renaming

/-!
# Deletions as renamings

The deletion of a chain with one input and one output renames tensors: the input
and the output of the chain get one name, and all others stay apart
(`Draft.joins_deleteChain`). The constants and initializers that go with the
chain are read by no node that is left (`Draft.Spares`).
-/

namespace OpGraph

namespace Draft

/-! ### Removing constants that nothing reads -/

/-- Some node reads a tensor. -/
def IsRead (d : Draft) (t : String) : Prop :=
  ∃ e ∈ d.entries, t ∈ e.node.inputs

/-- A draft with constants and initializers left out that nothing reads. -/
structure Spares (d d' : Draft) : Prop where
  entries : d'.entries ⊆ d.entries
  initializers : d'.initializers ⊆ d.initializers
  frame : d'.frame = d.frame
  kept : ∀ e ∈ d.entries,
    e ∈ d'.entries ∨ e.node.isConstant ∧ ∃ t ∈ e.node.outputs, ¬ d'.IsRead t
  kept_initializers : ∀ i ∈ d.initializers, i ∈ d'.initializers ∨ ¬ d'.IsRead i.name

variable {d d' : Draft}

/-- What gives a tensor still gives it, if it is read, where each constant writes one tensor. -/
theorem Spares.defines {s : Source} {t : String} (h : d.Spares d')
    (hconstants : ∀ e ∈ d.entries, e.node.isConstant → e.node.outputs.length = 1)
    (hs : d.Defines s t) (hread : d'.IsRead t) : d'.Defines s t := by
  cases hs with
  | input hi => exact .input (by rwa [isInput, h.frame])
  | sparse hi => exact .sparse (by rwa [sparseNames, h.frame])
  | initializer hi =>
    obtain ⟨i, hmem, rfl⟩ := List.mem_map.1 (isInitializer_iff.1 hi)
    rcases h.kept_initializers i hmem with hkept | hunread
    · exact .initializer (isInitializer_iff.2 (List.mem_map_of_mem hkept))
    · exact absurd hread hunread
  | @output e i _ he ht =>
    rcases h.kept e he with hkept | ⟨hconst, u, hu, hunread⟩
    · exact .output hkept ht
    · obtain ⟨o, ho⟩ := List.length_eq_one_iff.1 (hconstants e he hconst)
      have htmem := List.mem_of_getElem? ht
      rw [ho, List.mem_singleton] at hu htmem
      exact absurd (hu ▸ htmem ▸ hread) hunread

/-- What is protected stays. -/
theorem spares_removePrivateConstants (d : Draft) (dropped : List Node) :
    d.Spares (d.removePrivateConstants dropped true).draft := by
  obtain ⟨tensors, -, hdraft, hunshared⟩ := d.exists_purge dropped true
  rw [hdraft]
  have hunread : ∀ t ∈ tensors, ¬ (d.purge tensors).IsRead t := by
    rintro t ht ⟨e, he, hread⟩
    exact hunshared rfl t ht (isShared_iff.2 (.inl ⟨e.node, node_mem_nodes he, hread⟩))
  refine ⟨List.filter_sublist.subset, List.filter_sublist.subset, rfl, fun e he => ?_,
    fun i hi => ?_⟩
  · by_cases hgone : e.node.isConstant ∧ ∃ t ∈ e.node.outputs, t ∈ tensors
    · obtain ⟨hconst, t, ht, hmem⟩ := hgone
      exact .inr ⟨hconst, t, ht, hunread t hmem⟩
    · exact .inl (List.mem_filter.2 ⟨he, decide_eq_true hgone⟩)
  · by_cases hgone : i.name ∈ tensors
    · exact .inr (hunread i.name hgone)
    · exact .inl (List.mem_filter.2 ⟨hi, decide_eq_true hgone⟩)

/-! ### One name for the ends of a chain -/

/-- Drafts before and after the deletion of a chain from `x` to `y`, which renames all tensors. -/
structure Joins (d d' : Draft) (chain : Chain) (x y : String) (f : String → String) : Prop where
  input : (d.firstNode chain).inputs = [x]
  output : (d.lastNode chain).outputs = [y]
  output_ne : y ≠ ""
  ends_ne : x ≠ y
  joined : f x = f y
  injective : ∀ t u, t ≠ y → u ≠ y → f t = f u → t = u
  empty : ∀ t, f t = "" ↔ t = ""
  fixed : ∀ t, t ≠ "" → ∀ s, d.Defines s t → s.handle? = none → f t = t
  entries : ∀ e' ∈ d'.entries, ∃ e ∈ d.entries, e.handle ∉ chain ∧ e' = e.rename f
  frame : d'.frame = d.frame
  initializers : d'.initializers ⊆ d.initializers
  kept : ∀ e ∈ d.entries, e.handle ∉ chain →
    e.rename f ∈ d'.entries ∨ e.node.isConstant ∧ ∃ t ∈ e.node.outputs, ¬ d'.IsRead (f t)
  kept_initializers : ∀ i ∈ d.initializers, i ∈ d'.initializers ∨ ¬ d'.IsRead i.name

variable {chain : Chain} {x y : String}

theorem draft_bypassed (hx : (d.firstNode chain).inputs = [x])
    (hy : (d.lastNode chain).outputs = [y]) (hxne : x ≠ "") (hyne : y ≠ "") (hxy : x ≠ y) :
    (d.bypassed chain).draft =
      if (d.removeChain chain).writers x = [] then (d.removeChain chain).redirect y x
      else ((d.removeChain chain).renameOutputs x y).redirect x y := by
  rw [bypassed, bypass, hx, hy]
  exact draft_connect { draft := d.removeChain chain } (by simp [hxne, hyne, hxy])

/-- A deletion is a renaming where its bypass is one. -/
theorem joins_of_bypassed {f : String → String} (input : (d.firstNode chain).inputs = [x])
    (output : (d.lastNode chain).outputs = [y]) (output_ne : y ≠ "") (ends_ne : x ≠ y)
    (joined : f x = f y)
    (injective : ∀ t u, t ≠ y → u ≠ y → f t = f u → t = u)
    (fixed : ∀ t, t ≠ "" → ∀ s, d.Defines s t → s.handle? = none → f t = t)
    (hf : (d.removeChain chain).Renames (d.bypassed chain).draft f) :
    d.Joins (d.deleteChain true chain) chain x y f := by
  have hspares : (d.bypassed chain).draft.Spares (d.deleteChain true chain) :=
    spares_removePrivateConstants _ _
  -- the bypass renames, and then constants go that nothing reads
  refine ⟨input, output, output_ne, ends_ne, joined, injective, hf.empty, fixed,
    fun e' he' => ?_, hspares.frame.trans hf.frame, ?_, fun e he hnot => ?_, ?_⟩
  · have hmem := hspares.entries he'
    rw [hf.entries] at hmem
    obtain ⟨e, he, rfl⟩ := List.mem_map.1 hmem
    obtain ⟨he, hnot⟩ := mem_entries_removeChain.1 he
    exact ⟨e, he, hnot, rfl⟩
  · exact fun i hi => (hf.initializers ▸ hspares.initializers hi :)
  · have hmem : e.rename f ∈ (d.bypassed chain).draft.entries := by
      rw [hf.entries]
      exact List.mem_map_of_mem (mem_entries_removeChain.2 ⟨he, hnot⟩)
    rcases hspares.kept _ hmem with hkept | ⟨hconst, u, hu, hunread⟩
    · exact .inl hkept
    · obtain ⟨t, ht, rfl⟩ := List.mem_map.1 hu
      exact .inr ⟨hconst, t, ht, hunread⟩
  · intro i hi
    exact hspares.kept_initializers i (hf.initializers ▸ hi)

variable {rank : Handle → Nat} {chains : List Chain}

/-- The deletion of a wire gives its ends one name. -/
theorem joins_deleteChain (hc : d.Contractible rank chains) (hchain : chain ∈ chains)
    (hx : (d.firstNode chain).inputs = [x]) (hy : (d.lastNode chain).outputs = [y])
    (hxne : x ≠ "") (hyne : y ≠ "") :
    ∃ f, d.Joins (d.deleteChain true chain) chain x y f := by
  have hxmem : x ∈ (d.firstNode chain).inputs := by simp [hx]
  have hymem : y ∈ (d.lastNode chain).outputs := by simp [hy]
  have hxy := hc.ne_of_ends hchain hxmem hymem hxne
  have hdraft := draft_bypassed hx hy hxne hyne hxy
  by_cases hwriters : (d.removeChain chain).writers x = []
  -- nothing writes the input, and the readers of the output come to read it
  · rw [if_pos hwriters] at hdraft
    refine ⟨putFor y x, joins_of_bypassed hx hy hyne hxy ?_ ?_ ?_ ?_⟩
    · simp [putFor]
    · intro t u ht hu heq
      simpa [putFor, ht, hu] using heq
    · intro t ht s hs hbase
      refine if_neg ?_
      rintro rfl
      obtain ⟨h, -, hsource⟩ := hc.source_mem hchain hymem ht hs
      simp [hbase] at hsource
    · rw [hdraft]
      refine renames_redirect (writers_eq_nil_iff.2 fun e he hmem => ?_) hxne hyne
      obtain ⟨he, hnot⟩ := mem_entries_removeChain.1 he
      obtain ⟨i, hi⟩ := exists_defines_of_mem he hmem
      obtain ⟨h, hh, hsource⟩ := hc.source_mem hchain hymem hyne hi
      cases hsource
      exact hnot hh
  -- whatever writes the input writes the output from then on, and its readers follow
  · rw [if_neg hwriters] at hdraft
    refine ⟨putFor x y, joins_of_bypassed hx hy hyne hxy ?_ ?_ ?_ ?_⟩
    · simp [putFor]
    · intro t u ht hu heq
      unfold putFor at heq
      split at heq <;> split at heq <;> simp_all
    · intro t ht s hs hbase
      refine if_neg ?_
      rintro rfl
      rw [writers_eq_nil_iff] at hwriters
      push Not at hwriters
      obtain ⟨e, he, hmem⟩ := hwriters
      have hsource := hc.single.handle_eq (mem_entries_removeChain.1 he).1 hmem ht hs
      simp [hbase] at hsource
    · rw [hdraft]
      exact renames_renameOutputs_redirect hxne hyne

end Draft

end OpGraph
