import Mathlib.Data.List.Find
import OpGraph.Proofs.Cleanup
import OpGraph.Proofs.Loading

/-!
# Drafts under other handles

What the handles of a draft are does not matter. A draft that has the nodes,
the initializers and the frame of another one, with its nodes under other
handles (`Draft.Renumbers`), has the same matches, fails with the same errors
where they cannot be deleted, and has the other handles still where they are
deleted (`Draft.Renumbers.deleteAll`) and where it is cleaned up
(`Draft.Renumbers.withoutDead`).
-/

namespace OpGraph

/-- A draft under other handles, each given by the one before. -/
structure Draft.Renumbers (f : Handle → Handle) (d d' : Draft) : Prop where
  entries : d'.entries = d.entries.map fun e => ⟨f e.handle, e.node⟩
  frame : d'.frame = d.frame
  initializers : d'.initializers = d.initializers

namespace SearchState

/-- A state of a search under other handles. -/
def renumber (f : Handle → Handle) (s : SearchState) : SearchState :=
  { s with earlier := s.earlier.map f, handle := f s.handle }

/-- What a state leads to, under other handles. -/
def Expansion.renumber (f : Handle → Handle) : Expansion → Expansion
  | found chain => found (chain.map f)
  | next states => next (states.map (.renumber f))

section

variable (f : Handle → Handle) (s : SearchState)

@[simp] theorem handle_renumber : (s.renumber f).handle = f s.handle := rfl

@[simp] theorem step_renumber : (s.renumber f).step = s.step := rfl

@[simp] theorem later_renumber : (s.renumber f).later = s.later := rfl

@[simp] theorem bindings_renumber : (s.renumber f).bindings = s.bindings := rfl

@[simp] theorem chain_renumber : (s.renumber f).chain = s.chain.map f := by
  simp [chain, renumber]

end

/-- A search goes on at nodes of the draft. -/
theorem mem_handles_of_expand {d : Draft} {s : SearchState} {states : List SearchState}
    (h : s.expand d (consumersOf d) = .next states) : ∀ t ∈ states, t.handle ∈ d.handles := by
  intro t ht
  obtain ⟨_, step, later, b, o, handle, -, -, -, -, hmem, rfl⟩ := exists_after_of_mem h ht
  obtain ⟨-, n, hn, -⟩ := mem_consumersOf.1 hmem
  exact Draft.mem_handles_of_node? hn

end SearchState

/-- A node with the index of its chain, under another handle. -/
def renumberPair (f : Handle → Handle) (pair : Handle × Nat) : Handle × Nat :=
  (f pair.1, pair.2)

theorem Entry.number_eq_map_zipIdx (n : Nat) (nodes : List Node) :
    number n nodes = (nodes.zipIdx n).map fun p => ⟨⟨p.2⟩, p.1⟩ := by
  induction nodes generalizing n with
  | nil => rfl
  | cons node nodes ih => rw [number, ih, List.zipIdx_cons, List.map_cons]

namespace Draft.Renumbers

variable {f : Handle → Handle} {d d' : Draft} {a b : Handle} {chain : Chain} {chains : List Chain}
  (hren : d.Renumbers f d')

theorem refl (d : Draft) : d.Renumbers id d :=
  ⟨by simp, rfl, rfl⟩

/-- A draft that is put into a graph and taken out again has its nodes under their places, if its
frame came from a graph. -/
theorem ofGraph_toGraph {g : Graph} (hframe : d.frame = (ofGraph g).frame) :
    d.Renumbers (fun h => ⟨d.handles.idxOf h⟩) (ofGraph d.toGraph) where
  entries := by
    show Entry.number 0 d.nodes = _
    rw [Entry.number_eq_map_zipIdx]
    refine List.ext_getElem (by simp [Draft.nodes]) fun i hi hi' => ?_
    have hlt : i < d.handles.length := by simpa [Draft.handles] using hi'
    have hidx : d.handles.idxOf d.handles[i] = i := List.Nodup.idxOf_getElem d.handles_nodup i hlt
    simp only [Draft.handles, List.getElem_map] at hidx
    simp [Draft.nodes, Draft.handles, hidx]
  frame := frame_ofGraph_toGraph hframe
  initializers := rfl

include hren

/-! ### Questions to a draft -/

theorem handles : d'.handles = d.handles.map f := by
  rw [Draft.handles, hren.entries, Draft.handles, List.map_map, List.map_map]
  rfl

theorem nodes : d'.nodes = d.nodes := by
  rw [Draft.nodes, hren.entries, Draft.nodes, List.map_map]
  rfl

theorem toGraph : d'.toGraph = d.toGraph := by
  rw [Draft.toGraph, Draft.toGraph, hren.frame, hren.nodes, hren.initializers]

/-- No two nodes come under one handle. -/
theorem injOn (ha : a ∈ d.handles) (hb : b ∈ d.handles) (heq : f a = f b) : a = b := by
  have hnodup : d'.handles.Nodup := d'.handles_nodup
  rw [hren.handles] at hnodup
  exact List.inj_on_of_nodup_map hnodup ha hb heq

theorem node? (ha : a ∈ d.handles) : d'.node? (f a) = d.node? a := by
  obtain ⟨e, he, rfl⟩ := List.mem_map.1 ha
  have he' : (⟨f e.handle, e.node⟩ : Entry) ∈ d'.entries := by
    rw [hren.entries]
    exact List.mem_map_of_mem he
  rw [node?_of_mem he, node?_of_mem he']

theorem label (ha : a ∈ d.handles) : d'.label (f a) = d.label a := by
  obtain ⟨n, hn⟩ := node?_of_mem_handles ha
  rw [Draft.label, Draft.label, hren.node? ha, hn]
  rfl

theorem select (p : Node → Bool) : d'.select p = (d.select p).map f := by
  rw [Draft.select, hren.entries, List.filter_map, List.map_map, Draft.select, List.map_map]
  rfl

theorem isOutput (t : String) : d'.isOutput t = d.isOutput t := by
  rw [Draft.isOutput, Draft.isOutput, hren.frame]

theorem isShared (t : String) : d'.isShared t = d.isShared t := by
  rw [Draft.isShared, Draft.isShared, hren.nodes, hren.isOutput]

/-! ### Edits -/

theorem keepEntries {k k' : Entry → Bool} (hk : ∀ e ∈ d.entries, k' ⟨f e.handle, e.node⟩ = k e) :
    (d.keepEntries k).Renumbers f (d'.keepEntries k') where
  entries := by
    show d'.entries.filter k' = (d.entries.filter k).map _
    rw [hren.entries, List.filter_map]
    exact congrArg _ (List.filter_congr hk)
  frame := hren.frame
  initializers := hren.initializers

theorem keepInitializers (k : Tensor → Bool) :
    (d.keepInitializers k).Renumbers f (d'.keepInitializers k) where
  entries := hren.entries
  frame := hren.frame
  initializers := congrArg (List.filter k) hren.initializers

theorem mapNodes {g g' : Entry → Node} (hg : ∀ e ∈ d.entries, g' ⟨f e.handle, e.node⟩ = g e) :
    (d.mapNodes g).Renumbers f (d'.mapNodes g') where
  entries := by
    show d'.entries.map _ = (d.entries.map _).map _
    rw [hren.entries, List.map_map, List.map_map]
    exact List.map_congr_left fun e he => congrArg _ (hg e he)
  frame := hren.frame
  initializers := hren.initializers

theorem redirect (source target : String) :
    (d.redirect source target).Renumbers f (d'.redirect source target) :=
  hren.mapNodes fun _ _ => rfl

theorem renameOutputs (source target : String) :
    (d.renameOutputs source target).Renumbers f (d'.renameOutputs source target) :=
  hren.mapNodes fun _ _ => rfl

theorem removeConstants (tensor : String) :
    (d.removeConstants tensor).Renumbers f (d'.removeConstants tensor) :=
  hren.keepEntries fun _ _ => rfl

/-- Cleanups find the same live tensors. -/
theorem withoutDead : d.withoutDead.Renumbers f d'.withoutDead := by
  have hinitializer (t : String) : d'.isInitializer t = d.isInitializer t := by
    rw [isInitializer, isInitializer, hren.initializers]
  have hwithin : d.Within d' :=
    ⟨hren.frame.symm, fun n hn => hren.nodes ▸ hn, fun t ht => by rwa [hinitializer]⟩
  have hwithin' : d'.Within d :=
    ⟨hren.frame, fun n hn => hren.nodes ▸ hn, fun t ht => by rwa [← hinitializer]⟩
  have hlive : d'.liveTensors.contains = d.liveTensors.contains := by
    funext t
    rw [Bool.eq_iff_iff, Std.HashSet.contains_iff_mem, Std.HashSet.contains_iff_mem,
      mem_liveTensors, mem_liveTensors]
    exact ⟨.mono hwithin', .mono hwithin⟩
  unfold Draft.withoutDead
  dsimp only
  rw [hlive]
  refine keepInitializers (hren.keepEntries fun e _ => ?_) _
  rfl

/-! ### Chains -/

theorem mem_map_iff (hmem : ∀ h ∈ chain, h ∈ d.handles) (ha : a ∈ d.handles) :
    f a ∈ chain.map f ↔ a ∈ chain := by
  refine ⟨fun h => ?_, List.mem_map_of_mem⟩
  obtain ⟨b, hb, heq⟩ := List.mem_map.1 h
  rwa [← hren.injOn (hmem b hb) ha heq]

theorem removeChain (hmem : ∀ h ∈ chain, h ∈ d.handles) :
    (d.removeChain chain).Renumbers f (d'.removeChain (chain.map f)) := by
  refine hren.keepEntries fun e he => ?_
  simp only [hren.mem_map_iff hmem (List.mem_map_of_mem he)]

theorem describe (hmem : ∀ h ∈ chain, h ∈ d.handles) :
    Chain.describe d' (chain.map f) = chain.describe d := by
  rw [Chain.describe, Chain.describe, List.map_map]
  exact congrArg _ (List.map_congr_left fun h hh => hren.label (hmem h hh))

theorem firstNode (hmem : ∀ h ∈ chain, h ∈ d.handles) :
    d'.firstNode (chain.map f) = d.firstNode chain := by
  rw [Draft.firstNode, Draft.firstNode, List.head?_map]
  cases hhead : chain.head? with
  | none => rfl
  | some h =>
    rw [Option.map_some, Option.bind_some, Option.bind_some,
      hren.node? (hmem h (List.mem_of_head? hhead))]

theorem lastNode (hmem : ∀ h ∈ chain, h ∈ d.handles) :
    d'.lastNode (chain.map f) = d.lastNode chain := by
  rw [Draft.lastNode, Draft.lastNode, List.getLast?_map]
  cases hlast : chain.getLast? with
  | none => rfl
  | some h =>
    rw [Option.map_some, Option.bind_some, Option.bind_some,
      hren.node? (hmem h (List.mem_of_getLast? hlast))]

theorem nodes_entriesOf (hmem : ∀ h ∈ chain, h ∈ d.handles) :
    (d'.entriesOf (chain.map f)).map (·.node) = (d.entriesOf chain).map (·.node) := by
  rw [entriesOf, entriesOf, List.filterMap_map, List.map_filterMap, List.map_filterMap]
  refine List.filterMap_congr fun h hh => ?_
  rw [Function.comp_apply, hren.node? (hmem h hh), Option.map_map, Option.map_map]
  rfl

theorem isBalanced (hmem : ∀ h ∈ chain, h ∈ d.handles) :
    d'.isBalanced (chain.map f) = d.isBalanced chain := by
  rw [Draft.isBalanced, Draft.isBalanced, hren.firstNode hmem, hren.lastNode hmem]

theorem arityError (hmem : ∀ h ∈ chain, h ∈ d.handles) :
    d'.arityError (chain.map f) = d.arityError chain := by
  rw [Draft.arityError, Draft.arityError, hren.describe hmem, hren.firstNode hmem,
    hren.lastNode hmem]

/-! ### Deletions -/

omit hren in
/-- A bypass goes on in both drafts alike. -/
theorem connect {b b' : Bypass} (hb : b.draft.Renumbers f b'.draft) (input output : String) :
    (b.connect input output).draft.Renumbers f (b'.connect input output).draft := by
  by_cases h : input = "" ∨ output = "" ∨ input = output
  · rwa [connect_of_skip b h, connect_of_skip b' h]
  · have hwriters : b'.draft.writers input = [] ↔ b.draft.writers input = [] := by
      rw [writers, hb.select, List.map_eq_nil_iff, writers]
    simp only [draft_connect b h, draft_connect b' h, hwriters]
    split
    · exact hb.redirect output input
    · exact (hb.renameOutputs input output).redirect input output

theorem bypass (first last : Node) :
    (d.bypass first last).draft.Renumbers f (d'.bypass first last).draft := by
  unfold Draft.bypass
  exact List.foldl_rel (r := fun b b' : Bypass => b.draft.Renumbers f b'.draft) hren
    fun _ _ _ _ hb => hb.connect _ _

omit hren in
/-- Constants go from both drafts alike. -/
theorem drop {r r' : ConstantRemoval} (hr : r.draft.Renumbers f r'.draft) (protectShared : Bool)
    (t : String) : (r.drop protectShared t).draft.Renumbers f (r'.drop protectShared t).draft := by
  unfold ConstantRemoval.drop
  dsimp only
  rw [hr.isShared]
  split
  · split <;> split <;> exact hr
  · exact (hr.removeConstants t).keepInitializers _

theorem removePrivateConstants (dropped : List Node) (protectShared : Bool) :
    (d.removePrivateConstants dropped protectShared).draft.Renumbers f
      (d'.removePrivateConstants dropped protectShared).draft := by
  unfold Draft.removePrivateConstants
  exact List.foldl_rel (r := fun c c' : ConstantRemoval => c.draft.Renumbers f c'.draft) hren
    fun _ _ _ _ hr => hr.drop protectShared _

theorem deleteChain (hmem : ∀ h ∈ chain, h ∈ d.handles) (protectShared : Bool) :
    (d.deleteChain protectShared chain).Renumbers f
      (d'.deleteChain protectShared (chain.map f)) := by
  unfold Draft.deleteChain deletion bypassed
  rw [hren.firstNode hmem, hren.lastNode hmem, hren.nodes_entriesOf hmem]
  exact ((hren.removeChain hmem).bypass _ _).removePrivateConstants _ protectShared

theorem deleteChains (hd : d.Deletable chains) (protectShared : Bool) :
    (d.deleteChains protectShared chains).Renumbers f
      (d'.deleteChains protectShared (chains.map (List.map f))) := by
  induction chains generalizing d d' with
  | nil => exact hren
  | cons chain chains ih =>
    have hmem : ∀ h ∈ chain, h ∈ d.handles := fun h hh =>
      (hd.movable chain List.mem_cons_self h hh).mem_handles
    exact ih (hren.deleteChain hmem protectShared) (hd.next protectShared)

/-! ### The checks of a pass -/

theorem checkArities (hmem : ∀ chain ∈ chains, ∀ h ∈ chain, h ∈ d.handles) :
    d'.checkArities (chains.map (List.map f)) = d.checkArities chains := by
  have hmem' : ∀ chain ∈ chains.map (List.map f), ∀ h ∈ chain, h ∈ d'.handles := by
    simp only [List.forall_mem_map, hren.handles]
    exact fun chain hchain h hh => List.mem_map_of_mem (hmem chain hchain h hh)
  rw [checkArities_eq hmem', checkArities_eq hmem, List.find?_map]
  have hbalanced : chains.find? ((fun c => !d'.isBalanced c) ∘ List.map f) =
      chains.find? fun c => !d.isBalanced c :=
    List.find?_congr fun chain hchain => by
      rw [Function.comp_apply, hren.isBalanced (hmem chain hchain)]
  rw [hbalanced]
  cases hfind : chains.find? fun c => !d.isBalanced c with
  | none => rfl
  | some chain =>
    exact congrArg Except.error (hren.arityError (hmem chain (List.mem_of_find?_eq_some hfind)))

theorem checkOverlaps (owners pairs : List (Handle × Nat))
    (howners : ∀ o ∈ owners, o.1 ∈ d.handles) (hpairs : ∀ o ∈ pairs, o.1 ∈ d.handles) :
    d'.checkOverlaps (owners.map (renumberPair f)) (pairs.map (renumberPair f)) =
      d.checkOverlaps owners pairs := by
  induction pairs generalizing owners with
  | nil => rfl
  | cons pair pairs ih =>
    obtain ⟨h, index⟩ := pair
    obtain ⟨hmem, hpairs⟩ := List.forall_mem_cons.1 hpairs
    have howner : (owners.find? ((fun o => decide (o.1 = f h)) ∘ renumberPair f)) =
        owners.find? fun o => decide (o.1 = h) := by
      refine List.find?_congr fun o ho => ?_
      rw [Function.comp_apply, renumberPair, decide_eq_decide]
      exact ⟨hren.injOn (howners o ho) hmem, congrArg f⟩
    rw [List.map_cons, renumberPair, Draft.checkOverlaps, Draft.checkOverlaps, List.find?_map,
      howner]
    cases owners.find? fun o => decide (o.1 = h) with
    | none => exact ih ((h, index) :: owners) (List.forall_mem_cons.2 ⟨hmem, howners⟩) hpairs
    | some owner =>
      dsimp only [Option.map_some, renumberPair]
      rw [hren.label hmem]

/-! ### Searches -/

theorem consumersOf (t : String) :
    SearchState.consumersOf d' t = (SearchState.consumersOf d t).map f := by
  unfold SearchState.consumersOf
  rw [getD_consumerMap, getD_consumerMap]
  split
  · rfl
  · exact hren.select _

theorem expand {s : SearchState} (hs : s.handle ∈ d.handles) :
    (s.renumber f).expand d' (SearchState.consumersOf d') =
      (s.expand d (SearchState.consumersOf d)).renumber f := by
  unfold SearchState.expand
  simp only [SearchState.handle_renumber, SearchState.step_renumber, SearchState.later_renumber,
    SearchState.bindings_renumber, SearchState.chain_renumber, hren.node? hs, hren.consumersOf]
  cases d.node? s.handle with
  | none => rfl
  | some node =>
    by_cases htakes : (s.step.ops.accepts node.op && s.step.inputsSatisfied node s.bindings) = true
    · simp only [if_pos htakes]
      cases s.later with
      | nil => rfl
      | cons step later =>
        cases s.step.bindOutputs node s.bindings with
        | none => rfl
        | some bindings =>
          simp only [SearchState.Expansion.renumber, List.map_flatMap, List.map_map]
          rfl
    · simp only [if_neg htakes]
      rfl

/-- A search comes to the same end, step by step. -/
theorem search (budget : Nat) (stack : List SearchState) (hs : ∀ s ∈ stack, s.handle ∈ d.handles) :
    (SearchState.search d' (SearchState.consumersOf d') budget
      (stack.map (SearchState.renumber f))).chain? =
      (SearchState.search d (SearchState.consumersOf d) budget stack).chain?.map (List.map f) := by
  induction budget generalizing stack with
  | zero => cases stack <;> rfl
  | succ budget ih =>
    cases stack with
    | nil => rfl
    | cons s stack =>
      obtain ⟨hs, hstack⟩ := List.forall_mem_cons.1 hs
      rw [List.map_cons, SearchState.search, SearchState.search, hren.expand hs]
      cases hexpand : s.expand d (SearchState.consumersOf d) with
      | found chain => rfl
      | next states =>
        dsimp only [SearchState.Expansion.renumber]
        rw [← List.map_append]
        exact ih (states ++ stack)
          (List.forall_mem_append.2 ⟨SearchState.mem_handles_of_expand hexpand, hstack⟩)

theorem firstStates (p : Pattern) (ha : a ∈ d.handles) :
    p.firstStates d' (f a) = (p.firstStates d a).map (SearchState.renumber f) := by
  obtain ⟨node, hnode⟩ := node?_of_mem_handles ha
  unfold Pattern.firstStates
  rw [hren.node? ha, hnode]
  cases p.steps with
  | nil => rfl
  | cons step later =>
    cases hconst : node.isConstant <;> simp [hconst, Pattern.start, SearchState.renumber]

theorem matchAt (p : Pattern) (maxStates : Nat) (ha : a ∈ d.handles) :
    p.matchAt d' maxStates (f a) = (p.matchAt d maxStates a).map (List.map f) := by
  rw [Pattern.matchAt_eq, Pattern.matchAt_eq, hren.firstStates p ha]
  refine hren.search (max maxStates 1) (p.firstStates d a) fun s hs => ?_
  obtain ⟨step, later, node, -, -, -, rfl⟩ := Pattern.mem_firstStates.1 hs
  exact ha

/-- The matches are the same ones. -/
theorem findAll (p : Pattern) (maxStates : Nat) :
    p.findAll d' maxStates = (p.findAll d maxStates).map (List.map f) := by
  rw [Pattern.findAll_eq, Pattern.findAll_eq, hren.handles, List.filterMap_map,
    List.map_filterMap]
  exact List.filterMap_congr fun a ha => hren.matchAt p maxStates ha

/-! ### Passes -/

theorem checkOverlaps_findAll (options : PassOptions) (p : Pattern) :
    d'.checkOverlaps [] (indexedNodes (p.findAll d' options.maxStates)) =
      d.checkOverlaps [] (indexedNodes (p.findAll d options.maxStates)) := by
  have hpairs : indexedNodes ((p.findAll d options.maxStates).map (List.map f)) =
      (indexedNodes (p.findAll d options.maxStates)).map (renumberPair f) := by
    simp only [indexedNodes, List.zipIdx_map, List.flatMap_map, List.map_flatMap, Prod.map_fst,
      Prod.map_snd, List.map_map]
    rfl
  rw [hren.findAll, hpairs]
  refine hren.checkOverlaps [] _ (by simp) fun o ho => ?_
  obtain ⟨chain, hchain, hmem⟩ := mem_indexedNodes.1 ho
  exact mem_handles_of_mem_findAll (List.mem_of_getElem? hchain) hmem

theorem checkArities_findAll (options : PassOptions) (p : Pattern) :
    d'.checkArities (p.findAll d' options.maxStates) =
      d.checkArities (p.findAll d options.maxStates) := by
  rw [hren.findAll]
  exact hren.checkArities fun chain hchain h hh => mem_handles_of_mem_findAll hchain hh

/-- Where the matches of a pattern can be deleted, they can be deleted under other handles. -/
theorem cleared {options : PassOptions} {p : Pattern}
    (hd : d.Deletable (p.findAll d options.maxStates)) :
    (d.cleared options p).draft.Renumbers f (d'.cleared options p).draft := by
  have hdeleted := hren.deleteChains hd options.protectShared
  rw [← hren.findAll] at hdeleted
  rw [draft_cleared, draft_cleared]
  split
  · exact hdeleted.withoutDead
  · exact hdeleted

/-- A pass that deletes the matches of a pattern fails with the same error under other handles, or
it leaves the same under other handles. -/
theorem runPass_none (options : PassOptions) (p : Pattern) :
    (∃ e q q', d.runPass options p none = (q, .error e) ∧
      d'.runPass options p none = (q', .error e)) ∨
    ∃ q q', d.runPass options p none = (q, .ok ()) ∧ d'.runPass options p none = (q', .ok ()) ∧
      d.Trims q.draft ∧ q.draft.Renumbers f q'.draft := by
  have hoverlaps := hren.checkOverlaps_findAll options p
  have harities := hren.checkArities_findAll options p
  cases hoverlap : d.checkOverlaps [] (indexedNodes (p.findAll d options.maxStates)) with
  | error e =>
    exact .inl ⟨e, _, _, runPass_of_overlap hoverlap, runPass_of_overlap (hoverlaps.trans hoverlap)⟩
  | ok =>
    rw [hoverlap] at hoverlaps
    cases harity : d.checkArities (p.findAll d options.maxStates) with
    | error e =>
      exact .inl ⟨e, _, _, runPass_of_unbalanced hoverlap harity,
        runPass_of_unbalanced hoverlaps (harities.trans harity)⟩
    | ok =>
      rw [harity] at harities
      have hd := deletable_of_checks hoverlap harity
      have hd' := deletable_of_checks hoverlaps harities
      exact .inr ⟨_, _, runPass_of_deletable hd hoverlap harity,
        runPass_of_deletable hd' hoverlaps harities, d.trims_cleared options p, hren.cleared hd⟩

end Draft.Renumbers

end OpGraph
