import OpGraph.Proofs.Rerouting

/-!
# Single assignment and order

A graph is fit to be run from front to back where every tensor is defined once
(`Draft.SingleAssignment`) and every node stands after the nodes whose outputs it reads
(`Draft.Topological`). The place of a node is a rank, and bridging keeps ranks and gives no tensor a
second source; what is left keeps its order. So a pass that deletes its chains keeps both properties
(`Session.delete_keeps_order`).
-/

namespace OpGraph

namespace Draft

variable {d d' : Draft} {rank : Handle → Nat} {s : Source} {t : String}

/-! ### Single assignment -/

/-- The names of the inputs, the initializers and the sparse initializers, each as often as it
occurs. -/
def baseNames (d : Draft) : List String :=
  d.frame.inputs.map (·.name) ++ d.initializers.map (·.name) ++ d.sparseNames

/-- The names that a draft defines, each as often as it is defined. -/
def definedNames (d : Draft) : List String :=
  d.baseNames ++ d.nodes.flatMap (·.outputs)

/-- No tensor with a name is defined twice. -/
def SingleAssignment (d : Draft) : Prop :=
  (d.definedNames.filter (· ≠ "")).Nodup

instance (d : Draft) : Decidable d.SingleAssignment :=
  inferInstanceAs (Decidable (List.Nodup _))

/-- The places among the outputs of nodes, with the names that stand there. -/
def outputPlaces (d : Draft) : List (Source × String) :=
  d.entries.flatMap fun e => e.node.outputs.zipIdx.map fun o => (.output e.handle o.2, o.1)

theorem map_definitions : d.definitions.map (·.2) = d.definedNames := by
  simp [definitions, definedNames, baseNames, nodes, List.map_flatMap, List.flatMap_map,
    Function.comp_def]

theorem map_outputPlaces : d.outputPlaces.map (·.2) = d.nodes.flatMap (·.outputs) := by
  simp [outputPlaces, nodes, List.map_flatMap, List.flatMap_map, Function.comp_def]

theorem mem_definitions_of_mem_outputPlaces {p : Source × String} (h : p ∈ d.outputPlaces) :
    p ∈ d.definitions :=
  List.mem_append_right _ h

theorem nodup_outputPlaces (d : Draft) : d.outputPlaces.Nodup := by
  refine List.nodup_flatMap.2 ⟨fun e _ => ?_, ?_⟩
  · have hplaces : (e.node.outputs.zipIdx.map Prod.snd).Nodup := by
      rw [List.zipIdx_map_snd]
      exact List.nodup_range'
    refine hplaces.of_map.map fun a b h => ?_
    simp only [Prod.mk.injEq, Source.output.injEq, true_and] at h
    exact Prod.ext h.2 h.1
  · refine (List.pairwise_map.1 d.handles_nodup).imp fun hne => ?_
    show List.Disjoint _ _
    rw [List.disjoint_left]
    intro p hp hp'
    obtain ⟨o, -, rfl⟩ := List.mem_map.1 hp
    obtain ⟨o', -, heq⟩ := List.mem_map.1 hp'
    simp only [Prod.mk.injEq, Source.output.injEq] at heq
    exact hne heq.1.1.symm

theorem exists_defines_of_mem_baseNames (h : t ∈ d.baseNames) :
    ∃ s, d.Defines s t ∧ s.handle? = none := by
  rcases List.mem_append.1 h with h | h
  · rcases List.mem_append.1 h with h | h
    · exact ⟨_, .input (isInput_iff.2 h), rfl⟩
    · exact ⟨_, .initializer (isInitializer_iff.2 h), rfl⟩
  · exact ⟨_, .sparse h, rfl⟩

/-- Every tensor is defined once where none has two sources and the names that do not come from
nodes are distinct. -/
theorem singleAssignment_iff :
    d.SingleAssignment ↔ d.SingleSource ∧ (d.baseNames.filter (· ≠ "")).Nodup := by
  constructor
  · intro h
    refine ⟨singleSource_iff.2 fun a ha b hb hne heq => ?_, ?_⟩
    · rw [SingleAssignment, ← map_definitions, List.filter_map] at h
      have hb' : b.2 ≠ "" := heq ▸ hne
      rw [List.inj_on_of_nodup_map h (List.mem_filter.2 ⟨ha, by simpa using hne⟩)
        (List.mem_filter.2 ⟨hb, by simpa using hb'⟩) heq]
    · rw [SingleAssignment, definedNames, List.filter_append] at h
      exact h.of_append_left
  · rintro ⟨hsingle, hbase⟩
    rw [SingleAssignment, definedNames, List.filter_append]
    refine List.nodup_append'.2 ⟨hbase, ?_, ?_⟩
    · rw [← map_outputPlaces, List.filter_map]
      refine List.Nodup.map_on (fun a ha b hb heq => ?_) (d.nodup_outputPlaces.filter _)
      obtain ⟨ha, hne⟩ := List.mem_filter.1 ha
      obtain ⟨hb, -⟩ := List.mem_filter.1 hb
      exact Prod.ext (singleSource_iff.1 hsingle a (mem_definitions_of_mem_outputPlaces ha) b
        (mem_definitions_of_mem_outputPlaces hb) (by simpa using hne) heq) heq
    · refine List.disjoint_left.2 fun t ht ht' => ?_
      obtain ⟨ht, hne⟩ := List.mem_filter.1 ht
      obtain ⟨s, hs, hnone⟩ := exists_defines_of_mem_baseNames ht
      obtain ⟨n, hn, hmem⟩ := List.mem_flatMap.1 (List.mem_filter.1 ht').1
      obtain ⟨e, he, rfl⟩ := mem_nodes.1 hn
      rw [hsingle.handle_eq he hmem (by simpa using hne) hs] at hnone
      cases hnone

/-! ### Order -/

/-- Every node stands after the nodes whose outputs it reads. -/
def Topological (d : Draft) : Prop :=
  ∀ (i j : Nat) (n n' : Node), d.nodes[i]? = some n → d.nodes[j]? = some n' →
    ∀ t ∈ n.outputs, t ≠ "" → t ∈ n'.inputs → i < j

theorem getElem?_nodes {i : Nat} {n : Node} :
    d.nodes[i]? = some n ↔ ∃ e, d.entries[i]? = some e ∧ e.node = n := by
  simp [nodes]

theorem idxOf_handles {i : Nat} (hi : i < d.handles.length) :
    d.handles.idxOf d.handles[i] = i :=
  List.Nodup.idxOf_getElem d.handles_nodup i hi

theorem idxOf_handle {i : Nat} {e : Entry} (h : d.entries[i]? = some e) :
    d.handles.idxOf e.handle = i := by
  have hget : d.handles[i]? = some e.handle := by simp [handles, h]
  obtain ⟨hi, heq⟩ := List.getElem?_eq_some_iff.1 hget
  rw [← heq, idxOf_handles hi]

/-- The place of its node ranks a handle. -/
theorem Topological.ranked (h : d.Topological) : d.Ranked fun a => d.handles.idxOf a := by
  intro e he e' he' t ht hne ht'
  obtain ⟨i, hi⟩ := List.mem_iff_getElem?.1 he
  obtain ⟨j, hj⟩ := List.mem_iff_getElem?.1 he'
  show d.handles.idxOf e.handle < d.handles.idxOf e'.handle
  rw [idxOf_handle hi, idxOf_handle hj]
  exact h i j _ _ (getElem?_nodes.2 ⟨e, hi, rfl⟩) (getElem?_nodes.2 ⟨e', hj, rfl⟩) t ht hne ht'

/-- Nodes that stand by rank stand after the nodes whose outputs they read. -/
theorem Ranked.topological (h : d.Ranked rank)
    (hsorted : d.handles.Pairwise fun a b => rank a < rank b) : d.Topological := by
  intro i j n n' hn hn' t ht hne ht'
  obtain ⟨e, hi, rfl⟩ := getElem?_nodes.1 hn
  obtain ⟨e', hj, rfl⟩ := getElem?_nodes.1 hn'
  have hrank := h e (List.mem_of_getElem? hi) e' (List.mem_of_getElem? hj) t ht hne ht'
  by_contra hle
  rcases Nat.lt_or_eq_of_le (Nat.le_of_not_lt hle) with hlt | rfl
  · obtain ⟨hilt, rfl⟩ := List.getElem?_eq_some_iff.1 hi
    obtain ⟨hjlt, rfl⟩ := List.getElem?_eq_some_iff.1 hj
    have hsorted' := List.pairwise_iff_getElem.1 (List.pairwise_map.1 hsorted) j i hjlt hilt hlt
    exact Nat.lt_asymm hrank hsorted'
  · cases hi.symm.trans hj
    exact Nat.lt_irrefl _ hrank

theorem handles_sorted (d : Draft) :
    d.handles.Pairwise fun a b => d.handles.idxOf a < d.handles.idxOf b := by
  rw [List.pairwise_iff_getElem]
  intro i j hi hj hlt
  rwa [idxOf_handles hi, idxOf_handles hj]

/-! ### What a pass leaves -/

/-- What is left of a draft stands in the order it stood in. -/
theorem Trims.handles_sublist (h : d.Trims d') : d'.handles.Sublist d.handles := by
  obtain ⟨kept, hkept, hsub⟩ := List.sublistForall₂_iff.1 h.entries
  have heq : d'.handles = kept.map (·.handle) := by
    rw [handles, ← List.forall₂_eq_eq_eq, List.forall₂_map_left_iff, List.forall₂_map_right_iff]
    exact hkept.imp fun _ _ hfrom => hfrom.1
  exact heq ▸ hsub.map _

theorem Trims.baseNames_sublist (h : d.Trims d') : d'.baseNames.Sublist d.baseNames := by
  unfold baseNames sparseNames
  rw [h.frame]
  exact ((List.Sublist.refl _).append (h.initializers.map _)).append (List.Sublist.refl _)

theorem Thins.ranked (h : d.Thins d') (hranked : d.Ranked rank) : d'.Ranked rank :=
  fun e he e' he' => hranked e (h.entries he) e' (h.entries he')

theorem Thins.singleSource (h : d.Thins d') (hsingle : d.SingleSource) : d'.SingleSource :=
  fun t hne s s' hs hs' => hsingle t hne s s' (h.defines_iff.1 hs).1 (h.defines_iff.1 hs').1

theorem thins_withoutDead (d : Draft) : d.Thins d.withoutDead :=
  (Thins.keepEntries d _).trans (.keepInitializers _ _)

/-- What is left of a draft is in order if ranks and sources are kept. -/
theorem Trims.keeps_order (h : d.Trims d') (hassigned : d.SingleAssignment)
    (hranked : d'.Ranked fun a => d.handles.idxOf a) (hsingle : d'.SingleSource) :
    d'.SingleAssignment ∧ d'.Topological := by
  have hbase := (singleAssignment_iff.1 hassigned).2
  exact ⟨singleAssignment_iff.2 ⟨hsingle, (h.baseNames_sublist.filter _).nodup hbase⟩,
    hranked.topological (d.handles_sorted.sublist h.handles_sublist)⟩

end Draft

/-- **A pass keeps a graph fit to be run.** Where every tensor is defined once and every node stands
after the nodes whose outputs it reads, the same is true after a pass that deletes its chains,
whatever its options. -/
theorem Session.delete_keeps_order {s : Session} {p : Pattern}
    (hassigned : s.draft.SingleAssignment) (hordered : s.draft.Topological) {count : Nat}
    (hok : (s.delete p).result = .ok count) :
    (s.delete p).session.draft.SingleAssignment ∧ (s.delete p).session.draft.Topological := by
  have hsingle := (Draft.singleAssignment_iff.1 hassigned).1
  have hb := Session.bridgeable_of_delete hordered.ranked hsingle hok
  have htrims := s.draft.trims_deleteChains s.options.protectShared (s.findAll p)
  have hleft : (s.draft.deleteChains s.options.protectShared (s.findAll p)).Bridgeable
      (fun a => s.draft.handles.idxOf a) [] :=
    Draft.Bridgeable.deleteChains _ (by rwa [List.append_nil])
  rw [Session.draft_delete hok]
  split
  -- a cleanup leaves out some more of what the deletion has left
  · have hthins := Draft.thins_withoutDead
      (s.draft.deleteChains s.options.protectShared (s.findAll p))
    exact (htrims.trans (Draft.trims_withoutDead _)).keeps_order hassigned
      (hthins.ranked hleft.ranked) (hthins.singleSource hleft.single)
  · exact htrims.keeps_order hassigned hleft.ranked hleft.single

/-- A graph with two copies, the first of an input and the second of what a node writes. -/
def copiedGraph : Graph where
  nodes :=
    [{ op := "Copy", inputs := ["x", ""], outputs := ["a", ""] },
      { op := "Neg", inputs := ["a"], outputs := ["b"] },
      { op := "Copy", inputs := ["b", "w"], outputs := ["c", "d"] },
      { op := "Add", inputs := ["c", "a", "d", "b"], outputs := ["y"] }]
  initializers := [{ name := "w" }, { name := "" }, { name := "" }]
  inputs := [{ name := "x" }]
  outputs := [{ name := "y" }]

/-- A session on the graph that does not protect what is shared and cleans up after each pass. -/
def copied : Session :=
  { draft := .ofGraph copiedGraph, options := { cleanupAfter := true, protectShared := false } }

theorem Session.delete_keeps_order_copied :
    copied.draft.SingleAssignment ∧ copied.draft.Topological ∧
      (copied.delete copyPattern).result = .ok 2 ∧
      (copied.delete copyPattern).session.draft.SingleAssignment ∧
      (copied.delete copyPattern).session.draft.Topological := by
  have hassigned : copied.draft.SingleAssignment := by decide
  have hranked : copied.draft.Ranked Handle.index := by
    unfold Draft.Ranked
    decide
  have hordered : copied.draft.Topological := hranked.topological (by decide)
  have hfind : copied.findAll copyPattern = [[⟨0⟩], [⟨2⟩]] := by
    rw [Session.findAll, Pattern.findAll_eq, Pattern.matchAt_eq_searchFrom]
    decide +kernel
  have hok : (copied.delete copyPattern).result = .ok 2 := by
    rw [(Session.delete_of_balanced _ _).2, hfind]
    · rfl
    · rw [hfind]
      decide
    · rw [hfind]
      decide
  obtain ⟨hassigned', hordered'⟩ := Session.delete_keeps_order hassigned hordered hok
  exact ⟨hassigned, hordered, hok, hassigned', hordered'⟩

end OpGraph
