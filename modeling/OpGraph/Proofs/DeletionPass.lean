import OpGraph.Pass.Session
import OpGraph.Proofs.Chains
import OpGraph.Proofs.Deletion

/-!
# Passes without a rule

A pass without a rule checks all chains before it touches the draft. After that
no step of it can fail, so that it is the deletion of one chain after the other
(`handleMatches_none`), or it stops before the first one
(`Draft.runPass_none_all_or_nothing`).
-/

namespace OpGraph

/-! ### Steps of a pass -/

namespace PassM

variable (p : Progress)

theorem run_bind_of_ok {α β : Type} {x : PassM α} {f : α → PassM β} {a : α} {p q : Progress}
    (h : x.run p = .ok a q) : (x >>= f).run p = (f a).run q := by
  rw [EStateM.run_bind, h]

theorem run_bind_of_error {α β : Type} {x : PassM α} {f : α → PassM β} {e : Error}
    {p q : Progress} (h : x.run p = .error e q) : (x >>= f).run p = .error e q := by
  rw [EStateM.run_bind, h]

@[simp] theorem run_draft : PassM.draft.run p = .ok p.draft p := rfl

@[simp] theorem run_setDraft (d : Draft) :
    (PassM.setDraft d).run p = .ok () { p with draft := d } := rfl

@[simp] theorem run_count (f : Tally → Tally) :
    (PassM.count f).run p = .ok () { p with tally := f p.tally } := rfl

@[simp] theorem run_note (notices : List Notice) :
    (PassM.note notices).run p = .ok () { p with journal := p.journal ++ notices } := rfl

@[simp] theorem run_check_ok {α : Type} (a : α) : (PassM.check (.ok a)).run p = .ok a p := rfl

@[simp] theorem run_check_error (e : Error) :
    (PassM.check (.error e : Except Error Unit)).run p = .error e p := rfl

end PassM

/-! ### The checks before a pass -/

theorem mem_indexedNodes {chains : List Chain} {h : Handle} {index : Nat} :
    (h, index) ∈ indexedNodes chains ↔ ∃ chain, chains[index]? = some chain ∧ h ∈ chain := by
  simp only [indexedNodes, List.mem_flatMap, List.mem_map, Prod.exists, Prod.mk.injEq,
    List.mem_zipIdx_iff_getElem?]
  constructor
  · rintro ⟨chain, i, hchain, a, ha, rfl, rfl⟩
    exact ⟨chain, hchain, ha⟩
  · rintro ⟨chain, hchain, hh⟩
    exact ⟨chain, index, hchain, h, hh, rfl, rfl⟩

theorem map_indexedNodes (chains : List Chain) :
    (indexedNodes chains).map (·.1) = chains.flatten := by
  unfold indexedNodes
  generalize 0 = n
  induction chains generalizing n with
  | nil => rfl
  | cons chain chains ih =>
    rw [List.zipIdx_cons, List.flatMap_cons, List.map_append, ih, List.flatten_cons]
    simp [Function.comp_def]

/-- In a list that repeats something there is a first element that does. -/
theorem exists_first_repeat {α β : Type} {f : α → β} {l : List α} (h : ¬ (l.map f).Nodup) :
    ∃ before a after, l = before ++ a :: after ∧ (before.map f).Nodup ∧ f a ∈ before.map f := by
  induction l using List.reverseRecOn with
  | nil => simp at h
  | append_singleton l a ih =>
    by_cases hnodup : (l.map f).Nodup
    · refine ⟨l, a, [], rfl, hnodup, ?_⟩
      by_contra hnot
      rw [List.map_append, List.map_singleton, List.nodup_append'] at h
      exact h ⟨hnodup, List.nodup_singleton _, by simpa using hnot⟩
    · obtain ⟨before, b, after, rfl, hbefore, hb⟩ := ih hnodup
      exact ⟨before, b, after ++ [a], by simp, hbefore, hb⟩

namespace Draft

variable {d : Draft} {chain : Chain} {chains : List Chain}

/-- The error for a chain that reads another number of tensors than it writes. -/
def arityError (d : Draft) (chain : Chain) : Error :=
  .arityMismatch (chain.describe d) (d.firstNode chain).inputs.length
    (d.lastNode chain).outputs.length

theorem node?_of_mem_handles {h : Handle} (hmem : h ∈ d.handles) : ∃ n, d.node? h = some n := by
  obtain ⟨e, he, rfl⟩ := List.mem_map.1 hmem
  exact ⟨e.node, node?_of_mem he⟩

theorem require_of_node? {h : Handle} {n : Node} (hn : d.node? h = some n) :
    d.require h = .ok n := by
  simp [require, hn]

theorem checkPresent_eq_ok (hmem : ∀ h ∈ chain, h ∈ d.handles) : d.checkPresent chain = .ok () := by
  induction chain with
  | nil => rfl
  | cons h chain ih =>
    obtain ⟨n, hn⟩ := node?_of_mem_handles (hmem h List.mem_cons_self)
    simp only [checkPresent, require_of_node? hn]
    exact ih fun a ha => hmem a (List.mem_cons_of_mem _ ha)

theorem checkChainArity_eq (hmem : ∀ h ∈ chain, h ∈ d.handles) :
    d.checkChainArity chain = if d.isBalanced chain then .ok () else .error (d.arityError chain) := by
  by_cases hne : chain = []
  · subst hne
    rfl
  obtain ⟨first, hfirst, hhead, hfirst'⟩ := exists_first hne hmem
  obtain ⟨last, hlast, htail, hlast'⟩ := exists_last hne hmem
  unfold checkChainArity isBalanced arityError
  rw [hhead, htail, hfirst', hlast']
  simp only [require_of_node? (node?_of_mem hfirst), require_of_node? (node?_of_mem hlast),
    checkArity, beq_iff_eq]
  rfl

/-- The check of several chains fails for the first one that cannot be bypassed. -/
theorem checkArities_eq (hmem : ∀ chain ∈ chains, ∀ h ∈ chain, h ∈ d.handles) :
    d.checkArities chains =
      match chains.find? fun chain => !d.isBalanced chain with
      | none => .ok ()
      | some chain => .error (d.arityError chain) := by
  induction chains with
  | nil => rfl
  | cons chain chains ih =>
    rw [checkArities, checkChainArity_eq (hmem chain List.mem_cons_self), List.find?_cons]
    cases hbalanced : d.isBalanced chain with
    | true => exact ih fun c hc => hmem c (List.mem_cons_of_mem _ hc)
    | false => rfl

theorem find?_owner_eq_none_iff {owners : List (Handle × Nat)} {h : Handle} :
    (owners.find? fun o => o.1 = h) = none ↔ h ∉ owners.map (·.1) := by
  simp only [List.find?_eq_none, decide_eq_true_eq, List.mem_map, not_exists, not_and]

section Overlaps

variable {owners before after pairs : List (Handle × Nat)} {h : Handle} {first second : Nat}

theorem find?_owner_eq_some (howners : (owners.map (·.1)).Nodup) (hmem : (h, first) ∈ owners) :
    owners.find? (fun o => o.1 = h) = some (h, first) := by
  cases hfind : owners.find? fun o => o.1 = h with
  | none => exact absurd (List.mem_map_of_mem hmem) (find?_owner_eq_none_iff.1 hfind)
  | some owner =>
    have heq : owner.1 = h := by simpa using List.find?_some hfind
    rw [List.inj_on_of_nodup_map howners (List.mem_of_find?_eq_some hfind) hmem heq]

/-- Nodes that are met for the first time join the owners. -/
theorem checkOverlaps_append (hnodup : (before.map (·.1)).Nodup)
    (hnew : ∀ h ∈ before.map (·.1), h ∉ owners.map (·.1)) :
    d.checkOverlaps owners (before ++ after) =
      d.checkOverlaps (before.reverse ++ owners) after := by
  induction before generalizing owners with
  | nil => rfl
  | cons pair before ih =>
    obtain ⟨h, index⟩ := pair
    obtain ⟨hnot, hnodup⟩ := List.nodup_cons.1 hnodup
    rw [List.cons_append, checkOverlaps, find?_owner_eq_none_iff.2 (hnew h List.mem_cons_self),
      List.reverse_cons, List.append_assoc, List.singleton_append]
    refine ih hnodup fun a ha hmem => ?_
    rcases List.mem_cons.1 hmem with rfl | hmem
    · exact hnot ha
    · exact hnew a (List.mem_cons_of_mem _ ha) hmem

/-- Nodes that are all different pass the check for overlaps. -/
theorem checkOverlaps_eq_ok (hnodup : (pairs.map (·.1)).Nodup) :
    d.checkOverlaps [] pairs = .ok () := by
  rw [← List.append_nil pairs, checkOverlaps_append hnodup (by simp), checkOverlaps]

theorem checkOverlaps_eq_error (hnodup : (before.map (·.1)).Nodup) (hmem : (h, first) ∈ before) :
    d.checkOverlaps [] (before ++ (h, second) :: after) =
      .error (.overlappingMatches first second (d.label h)) := by
  have howners : (before.reverse.map (·.1)).Nodup := by
    rwa [List.map_reverse, List.nodup_reverse]
  rw [checkOverlaps_append hnodup (by simp), List.append_nil, checkOverlaps,
    find?_owner_eq_some howners (List.mem_reverse.2 hmem)]

/-- The check for overlaps fails at the first node that stands before, with the chain that it was
met in. -/
theorem exists_checkOverlaps_eq_error (d : Draft) (hrepeat : ¬ (pairs.map (·.1)).Nodup) :
    ∃ before first second h after, pairs = before ++ (h, second) :: after ∧
      (before.map (·.1)).Nodup ∧ (h, first) ∈ before ∧
      d.checkOverlaps [] pairs = .error (.overlappingMatches first second (d.label h)) := by
  obtain ⟨before, ⟨h, second⟩, after, rfl, hnodup, hrepeated⟩ := exists_first_repeat hrepeat
  obtain ⟨⟨a, first⟩, hmem, heq⟩ := List.mem_map.1 hrepeated
  obtain rfl : a = h := heq
  exact ⟨before, first, second, a, after, rfl, hnodup, hmem, checkOverlaps_eq_error hnodup hmem⟩

end Overlaps

theorem entriesOf_cons {h : Handle} {n : Node} (hn : d.node? h = some n) (chain : Chain) :
    d.entriesOf (h :: chain) = ⟨h, n⟩ :: d.entriesOf chain := by
  simp [entriesOf, hn]

/-- The nodes of a chain that are all there. -/
theorem entriesOf_eq_map (hmem : ∀ h ∈ chain, h ∈ d.handles) :
    d.entriesOf chain = chain.map fun h => ⟨h, (d.node? h).getD {}⟩ := by
  induction chain with
  | nil => rfl
  | cons h chain ih =>
    obtain ⟨n, hn⟩ := node?_of_mem_handles (hmem h List.mem_cons_self)
    rw [entriesOf_cons hn, ih fun a ha => hmem a (List.mem_cons_of_mem _ ha), List.map_cons, hn]
    rfl

theorem head?_entriesOf (hne : chain ≠ []) (hmem : ∀ h ∈ chain, h ∈ d.handles) :
    (d.entriesOf chain).head? = some ⟨chain.head hne, d.firstNode chain⟩ := by
  rw [entriesOf_eq_map hmem, List.head?_map, firstNode, List.head?_eq_some_head hne]
  rfl

theorem getLast?_entriesOf (hne : chain ≠ []) (hmem : ∀ h ∈ chain, h ∈ d.handles) :
    (d.entriesOf chain).getLast? = some ⟨chain.getLast hne, d.lastNode chain⟩ := by
  rw [entriesOf_eq_map hmem, List.getLast?_map, lastNode, List.getLast?_eq_some_getLast hne]
  rfl

theorem entriesOf_remove {h : Handle} (hnot : h ∉ chain) :
    (d.remove h).entriesOf chain = d.entriesOf chain := by
  refine List.filterMap_congr fun a ha => ?_
  rw [node?_remove_of_ne]
  rintro rfl
  exact hnot ha

end Draft

/-! ### The pass -/

/-- The nodes of a chain are taken out together, if they are all there. -/
theorem takeOut_eq {chain : Chain} {p : Progress} (hnodup : chain.Nodup)
    (hmem : ∀ h ∈ chain, h ∈ p.draft.handles) :
    (takeOut chain).run p =
      .ok (p.draft.entriesOf chain) { p with draft := p.draft.removeChain chain } := by
  induction chain generalizing p with
  | nil =>
    rw [Draft.removeChain_nil]
    rfl
  | cons h chain ih =>
    obtain ⟨hnot, hnodup⟩ := List.nodup_cons.1 hnodup
    obtain ⟨n, hn⟩ := Draft.node?_of_mem_handles (hmem h List.mem_cons_self)
    -- the other nodes of the chain are still there, since none of them is this one
    have hrest : ∀ a ∈ chain, a ∈ (p.draft.remove h).handles := by
      intro a ha
      rw [← Draft.removeChain_nil (p.draft.remove h), Draft.removeChain_remove,
        Draft.mem_handles_removeChain]
      refine ⟨hmem a (List.mem_cons_of_mem _ ha), ?_⟩
      rw [List.mem_singleton]
      rintro rfl
      exact hnot ha
    simp only [takeOut, EStateM.run_bind, PassM.run_draft, hn, PassM.run_setDraft]
    rw [ih hnodup hrest, Draft.removeChain_remove, Draft.entriesOf_remove hnot,
      Draft.entriesOf_cons hn]
    rfl

/-- The state of a pass after the deletion of one more chain. -/
def Progress.deleteChain (p : Progress) (options : PassOptions) (index : Nat) (chain : Chain) :
    Progress :=
  let b := p.draft.bypassed chain
  let r := p.draft.deletion options.protectShared chain
  { draft := p.draft.deleteChain options.protectShared chain
    tally :=
      { p.tally with
        deletions := p.tally.deletions + 1
        nodesRemoved := p.tally.nodesRemoved + chain.length
        constantsRemoved := p.tally.constantsRemoved + r.constants
        initializersRemoved := p.tally.initializersRemoved + r.initializers }
    journal :=
      p.journal ++ b.remarks.map .remark ++ [.event (.deleted index (chain.map p.draft.label))] ++
        r.remarks.map .remark }

/-- The state of a pass after the deletion of chains, the first of them under an index. -/
def Progress.deleteChains (p : Progress) (options : PassOptions) : Nat → List Chain → Progress
  | _, [] => p
  | index, chain :: chains =>
    (p.deleteChain options index chain).deleteChains options (index + 1) chains

section

variable {options : PassOptions} {index : Nat} {p : Progress} {chain : Chain}

/-- A chain that was taken out can be bypassed where it is balanced. -/
theorem run_bypassChain {labels : List String} {taken : List Entry} {first last : Node}
    (hlength : first.inputs.length = last.outputs.length) :
    (bypassChain index labels taken first last).run p =
      let b := p.draft.bypass first last
      .ok ()
        { draft := b.draft
          tally :=
            { p.tally with
              deletions := p.tally.deletions + 1
              nodesRemoved := p.tally.nodesRemoved + taken.length }
          journal := p.journal ++ b.remarks.map .remark ++ [.event (.deleted index labels)] } := by
  simp only [bypassChain, EStateM.run_bind, checkArity, hlength, if_true, PassM.run_check_ok,
    PassM.run_draft, PassM.run_setDraft, PassM.run_note, PassM.run_count]

theorem run_removeConstantsOf {dropped : List Entry} :
    (removeConstantsOf options dropped).run p =
      let r := p.draft.removePrivateConstants (dropped.map (·.node)) options.protectShared
      .ok ()
        { draft := r.draft
          tally :=
            { p.tally with
              constantsRemoved := p.tally.constantsRemoved + r.constants
              initializersRemoved := p.tally.initializersRemoved + r.initializers }
          journal := p.journal ++ r.remarks.map .remark } :=
  rfl

/-- Where nothing is put in the place of nodes that were taken out, these are bypassed. -/
theorem refill_of_isEmpty {labels : List String} {position : Nat} {s : Substitution}
    {taken : List Entry} {first last : Entry} (hnodes : s.nodes.isEmpty)
    (hhead : taken.head? = some first) (hlast : taken.getLast? = some last) :
    refill options index labels position s taken =
      (bypassChain index labels taken first.node last.node >>= fun _ =>
        dropAndAdd options s taken) := by
  rw [refill, if_pos hnodes, hhead, hlast]

/-- A substitution without nodes deletes a chain. -/
theorem substitute_empty (hne : chain ≠ []) (hnodup : chain.Nodup)
    (hmem : ∀ h ∈ chain, h ∈ p.draft.handles) (hbalanced : p.draft.isBalanced chain) :
    (substitute options index chain {}).run p = .ok () (p.deleteChain options index chain) := by
  have hlength : (p.draft.firstNode chain).inputs.length =
      (p.draft.lastNode chain).outputs.length := by
    simpa [Draft.isBalanced] using hbalanced
  simp only [substitute, EStateM.run_bind, PassM.run_draft, Substitution.kept,
    List.filterMap_nil, Draft.checkKept, PassM.run_check_ok, List.isEmpty_nil, if_true,
    Draft.checkChainArity_eq hmem, hbalanced, takeOut_eq hnodup hmem,
    refill_of_isEmpty (s := {}) rfl (Draft.head?_entriesOf hne hmem)
      (Draft.getLast?_entriesOf hne hmem),
    run_bypassChain hlength, dropAndAdd, run_removeConstantsOf, EStateM.run_modify]
  have hcount : (p.draft.entriesOf chain).length = chain.length := by
    rw [Draft.entriesOf_eq_map hmem, List.length_map]
  rw [hcount]
  rfl

/-- A pass without a rule deletes one chain after the other. -/
theorem handleMatches_none {chains : List Chain} (hd : p.draft.Deletable chains) :
    (handleMatches options none index chains).run p =
      .ok () (p.deleteChains options index chains) := by
  induction chains generalizing index p with
  | nil => rfl
  | cons chain chains ih =>
    have hmem : ∀ h ∈ chain, h ∈ p.draft.handles := fun h hh =>
      (hd.movable chain List.mem_cons_self h hh).mem_handles
    have hnodup : chain.Nodup := by
      have hnodup := hd.nodup
      rw [List.flatten_cons] at hnodup
      exact (List.nodup_append'.1 hnodup).1
    simp only [handleMatches, EStateM.run_bind, PassM.run_draft, Draft.checkPresent_eq_ok hmem,
      PassM.run_check_ok, EStateM.run_pure]
    rw [substitute_empty (hd.ne_nil chain List.mem_cons_self) hnodup hmem
      (hd.balanced chain List.mem_cons_self)]
    exact ih (hd.next options.protectShared)

/-! ### What a pass leaves -/

@[simp] theorem events_append (j k : Journal) : (j ++ k).events = j.events ++ k.events :=
  List.filterMap_append

@[simp] theorem events_remarks (remarks : List Remark) :
    Journal.events (remarks.map .remark) = [] := by
  simp [Journal.events, List.filterMap_map]

@[simp] theorem remarks_append (j k : Journal) : (j ++ k).remarks = j.remarks ++ k.remarks :=
  List.filterMap_append

@[simp] theorem remarks_remarks (remarks : List Remark) :
    Journal.remarks (remarks.map .remark) = remarks := by
  simp [Journal.remarks, List.filterMap_map]

theorem events_deleteChain :
    (p.deleteChain options index chain).journal.events =
      p.journal.events ++ [.deleted index (chain.map p.draft.label)] := by
  simp only [Progress.deleteChain, events_append, events_remarks, List.append_nil]
  rfl

theorem draft_deleteChains (chains : List Chain) :
    (p.deleteChains options index chains).draft =
      p.draft.deleteChains options.protectShared chains := by
  induction chains generalizing index p with
  | nil => rfl
  | cons chain chains ih => exact ih

theorem trims_deleteChains (chains : List Chain) :
    p.draft.Trims (p.deleteChains options index chains).draft := by
  rw [draft_deleteChains]
  exact p.draft.trims_deleteChains _ chains

/-- No node of the chains is left. -/
theorem not_mem_handles_deleteChains {chains : List Chain} (hchain : chain ∈ chains) {h : Handle}
    (hmem : h ∈ chain) : h ∉ (p.deleteChains options index chains).draft.handles := by
  induction chains generalizing index p with
  | nil => simp at hchain
  | cons first chains ih =>
    rcases List.mem_cons.1 hchain with rfl | hchain
    · intro hleft
      exact p.draft.not_mem_handles_deleteChain options.protectShared hmem
        ((trims_deleteChains chains).mem_handles hleft)
    · exact ih hchain

theorem matched_deleteChains (chains : List Chain) :
    (p.deleteChains options index chains).tally.matched = p.tally.matched := by
  induction chains generalizing index p with
  | nil => rfl
  | cons chain chains ih => exact ih

theorem deletions_deleteChain :
    (p.deleteChain options index chain).tally.deletions = p.tally.deletions + 1 := rfl

theorem deletions_deleteChains (chains : List Chain) :
    (p.deleteChains options index chains).tally.deletions = p.tally.deletions + chains.length := by
  induction chains generalizing index p with
  | nil => rfl
  | cons chain chains ih =>
    rw [Progress.deleteChains, ih, deletions_deleteChain, List.length_cons, Nat.add_right_comm,
      Nat.add_assoc]

/-- The events of a pass show its chains in order, with the labels from before the pass. -/
theorem events_deleteChains {chains : List Chain} (hd : p.draft.Deletable chains) :
    (p.deleteChains options index chains).journal.events =
      p.journal.events ++
        (chains.zipIdx index).map fun c => .deleted c.2 (c.1.map p.draft.label) := by
  induction chains generalizing index p with
  | nil => simp [Progress.deleteChains]
  | cons chain chains ih =>
    have hnext := hd.next options.protectShared
    -- a later chain has kept its labels
    have hlabels : ∀ c ∈ chains.zipIdx (index + 1),
        c.1.map (p.deleteChain options index chain).draft.label = c.1.map p.draft.label := by
      intro c hc
      refine List.map_congr_left fun h hh => ?_
      exact (p.draft.trims_deleteChain options.protectShared chain).label_eq
        (hnext.movable c.1 (List.fst_mem_of_mem_zipIdx hc) h hh).mem_handles
    rw [Progress.deleteChains, ih hnext, events_deleteChain, List.zipIdx_cons, List.map_cons,
      List.append_assoc, List.singleton_append]
    congr 2
    exact List.map_congr_left fun c hc => by rw [hlabels c hc]

end

/-- The end of a pass: a cleanup, where one is asked for. -/
def Progress.finish (p : Progress) (options : PassOptions) : Progress :=
  if options.cleanupAfter then
    let removed := p.draft.cleanupCount p.draft.withoutDead
    { draft := p.draft.withoutDead
      tally := { p.tally with cleanup := removed }
      journal := p.journal ++ [.remark (.cleanupFinished removed)] ++ [.event (.cleanedUp removed)] }
  else p

namespace Draft

variable {d : Draft} {options : PassOptions} {p : Pattern}

/-- The state of a pass after its search. -/
def searched (d : Draft) (options : PassOptions) (p : Pattern) : Progress :=
  { draft := d
    journal :=
      (searchRemarks d options.maxStates (p.outcomes d options.maxStates)).map .remark }

/-- The state of a pass after its checks. -/
def checked (d : Draft) (options : PassOptions) (p : Pattern) : Progress :=
  { draft := d
    tally := { matched := (p.findAll d options.maxStates).length }
    journal := (d.searched options p).journal }

/-- The state of a pass that has deleted all it found. -/
def cleared (d : Draft) (options : PassOptions) (p : Pattern) : Progress :=
  ((d.checked options p).deleteChains options 0 (p.findAll d options.maxStates)).finish options

theorem runPass_of_run {rule? : Option Rule} {e : Error} {q : Progress}
    (h : (OpGraph.runPass options p rule?).run { draft := d } = .error e q) :
    d.runPass options p rule? = (q, .error e) := by
  unfold runPass
  rw [show OpGraph.runPass options p rule? { draft := d } = .error e q from h]

theorem runPass_of_overlap {rule? : Option Rule} {e : Error}
    (h : d.checkOverlaps [] (indexedNodes (p.findAll d options.maxStates)) = .error e) :
    d.runPass options p rule? = (d.searched options p, .error e) := by
  refine runPass_of_run ?_
  rw [Pattern.findAll] at h
  rw [OpGraph.runPass, PassM.run_bind_of_ok (PassM.run_draft _), searched]
  dsimp only
  generalize p.outcomes d options.maxStates = outcomes at h ⊢
  rw [PassM.run_bind_of_ok (PassM.run_note _ _), PassM.run_bind_of_error]
  rw [h, PassM.run_check_error]
  rfl

theorem runPass_of_unbalanced {e : Error}
    (hok : d.checkOverlaps [] (indexedNodes (p.findAll d options.maxStates)) = .ok ())
    (h : d.checkArities (p.findAll d options.maxStates) = .error e) :
    d.runPass options p none = (d.searched options p, .error e) := by
  refine runPass_of_run ?_
  rw [Pattern.findAll] at h hok
  rw [OpGraph.runPass, PassM.run_bind_of_ok (PassM.run_draft _), searched]
  dsimp only
  generalize p.outcomes d options.maxStates = outcomes at h hok ⊢
  rw [PassM.run_bind_of_ok (PassM.run_note _ _), hok,
    PassM.run_bind_of_ok (PassM.run_check_ok _ _), Option.isNone_none, if_pos rfl, h,
    PassM.run_bind_of_error (PassM.run_check_error _ _)]
  rfl

theorem runPass_of_deletable (hd : d.Deletable (p.findAll d options.maxStates))
    (hoverlaps : d.checkOverlaps [] (indexedNodes (p.findAll d options.maxStates)) = .ok ())
    (harities : d.checkArities (p.findAll d options.maxStates) = .ok ()) :
    d.runPass options p none = (d.cleared options p, .ok ()) := by
  suffices hrun : (OpGraph.runPass options p none).run { draft := d } =
      .ok () (d.cleared options p) by
    unfold runPass
    rw [show OpGraph.runPass options p none { draft := d } = _ from hrun]
  rw [Pattern.findAll] at hd hoverlaps harities
  rw [OpGraph.runPass, PassM.run_bind_of_ok (PassM.run_draft _), cleared, checked,
    searched, Pattern.findAll]
  dsimp only
  generalize p.outcomes d options.maxStates = outcomes at hd hoverlaps harities ⊢
  rw [PassM.run_bind_of_ok (PassM.run_note _ _), hoverlaps,
    PassM.run_bind_of_ok (PassM.run_check_ok _ _), Option.isNone_none, if_pos rfl, harities,
    PassM.run_bind_of_ok (PassM.run_check_ok _ _), PassM.run_bind_of_ok (PassM.run_count _ _),
    PassM.run_bind_of_ok (handleMatches_none hd)]
  unfold Progress.finish
  cases options.cleanupAfter <;> rfl

theorem mem_handles_of_mem_findAll {chain : Chain} (hchain : chain ∈ p.findAll d options.maxStates)
    {h : Handle} (hmem : h ∈ chain) : h ∈ d.handles :=
  ((Pattern.isChain_of_mem_findAll hchain).movable h hmem).mem_handles

/-- A pass whose chains repeat a node fails with the overlap. -/
theorem runPass_of_repeat (rule? : Option Rule)
    (hrepeat : ¬ (p.findAll d options.maxStates).flatten.Nodup) :
    ∃ first second a b h, (p.findAll d options.maxStates)[first]? = some a ∧ h ∈ a ∧
      (p.findAll d options.maxStates)[second]? = some b ∧ h ∈ b ∧
      d.runPass options p rule? =
        (d.searched options p, .error (.overlappingMatches first second (d.label h))) := by
  rw [← map_indexedNodes] at hrepeat
  obtain ⟨before, first, second, h, after, hsplit, -, hfirst, herror⟩ :=
    d.exists_checkOverlaps_eq_error hrepeat
  obtain ⟨a, ha, hmem⟩ := mem_indexedNodes.1 (hsplit ▸ List.mem_append_left _ hfirst)
  obtain ⟨b, hb, hmem'⟩ := mem_indexedNodes.1
    (hsplit ▸ List.mem_append_right before List.mem_cons_self)
  exact ⟨first, second, a, b, h, ha, hmem, hb, hmem', runPass_of_overlap herror⟩

theorem checkOverlaps_of_nodup {chains : List Chain} (hnodup : chains.flatten.Nodup) :
    d.checkOverlaps [] (indexedNodes chains) = .ok () := by
  refine checkOverlaps_eq_ok ?_
  rwa [map_indexedNodes]

/-- A pass with a chain that cannot be bypassed fails with the first such chain. -/
theorem runPass_none_of_find? (hnodup : (p.findAll d options.maxStates).flatten.Nodup)
    {chain : Chain}
    (hfind : (p.findAll d options.maxStates).find? (fun c => !d.isBalanced c) = some chain) :
    d.runPass options p none = (d.searched options p, .error (d.arityError chain)) := by
  refine runPass_of_unbalanced (checkOverlaps_of_nodup hnodup) ?_
  rw [checkArities_eq fun c hc h hh => mem_handles_of_mem_findAll hc hh, hfind]

theorem deletable_findAll (hnodup : (p.findAll d options.maxStates).flatten.Nodup)
    (hbalanced : ∀ chain ∈ p.findAll d options.maxStates, d.isBalanced chain) :
    d.Deletable (p.findAll d options.maxStates) where
  ne_nil _ hchain := (Pattern.isChain_of_mem_findAll hchain).ne_nil
  nodup := hnodup
  movable _ hchain := (Pattern.isChain_of_mem_findAll hchain).movable
  balanced := hbalanced

/-- A pass deletes its chains where they share no node and can all be bypassed. -/
theorem runPass_none_of_balanced (hnodup : (p.findAll d options.maxStates).flatten.Nodup)
    (hbalanced : ∀ chain ∈ p.findAll d options.maxStates, d.isBalanced chain) :
    d.runPass options p none = (d.cleared options p, .ok ()) := by
  refine runPass_of_deletable (deletable_findAll hnodup hbalanced)
    (checkOverlaps_of_nodup hnodup) ?_
  have hfind : (p.findAll d options.maxStates).find? (fun c => !d.isBalanced c) = none := by
    simpa using hbalanced
  rw [checkArities_eq fun c hc h hh => mem_handles_of_mem_findAll hc hh, hfind]

/-- A pass without a rule that fails has come no further than its search. -/
theorem runPass_none_of_error {q : Progress} {e : Error}
    (hrun : d.runPass options p none = (q, .error e)) : q = d.searched options p := by
  by_cases hnodup : (p.findAll d options.maxStates).flatten.Nodup
  · cases hfind : (p.findAll d options.maxStates).find? fun c => !d.isBalanced c with
    | none =>
      rw [runPass_none_of_balanced hnodup (by simpa using hfind)] at hrun
      cases hrun
    | some chain =>
      rw [runPass_none_of_find? hnodup hfind] at hrun
      exact (congrArg Prod.fst hrun).symm
  · obtain ⟨_, _, _, _, _, -, -, -, -, heq⟩ := runPass_of_repeat none hnodup
    exact congrArg Prod.fst (hrun.symm.trans heq)

/-- The checks of a pass let through what can be deleted. -/
theorem deletable_of_checks
    (hoverlaps : d.checkOverlaps [] (indexedNodes (p.findAll d options.maxStates)) = .ok ())
    (harities : d.checkArities (p.findAll d options.maxStates) = .ok ()) :
    d.Deletable (p.findAll d options.maxStates) := by
  refine deletable_findAll ?_ ?_
  · by_contra hrepeat
    rw [← map_indexedNodes] at hrepeat
    obtain ⟨_, _, _, _, _, -, -, -, herror⟩ := d.exists_checkOverlaps_eq_error hrepeat
    cases hoverlaps.symm.trans herror
  · rw [checkArities_eq fun c hc h hh => mem_handles_of_mem_findAll hc hh] at harities
    cases hfind : (p.findAll d options.maxStates).find? fun c => !d.isBalanced c with
    | none => simpa using hfind
    | some chain =>
      rw [hfind] at harities
      cases harities

theorem events_searched : (d.searched options p).journal.events = [] :=
  events_remarks _

end Draft

namespace Progress

variable {p : Progress} {options : PassOptions}

theorem finish_of_not_cleanup (hcleanup : options.cleanupAfter = false) : p.finish options = p :=
  if_neg (by simp [hcleanup])

theorem trims_finish : p.draft.Trims (p.finish options).draft := by
  unfold finish
  split
  · exact Draft.trims_withoutDead p.draft
  · exact .refl _

theorem events_finish :
    (p.finish options).journal.events = p.journal.events ++
      if options.cleanupAfter then [.cleanedUp (p.finish options).tally.cleanup] else [] := by
  unfold finish
  split
  · simp [Journal.events]
  · simp

theorem matched_finish : (p.finish options).tally.matched = p.tally.matched := by
  unfold finish
  split <;> rfl

theorem deletions_finish : (p.finish options).tally.deletions = p.tally.deletions := by
  unfold finish
  split <;> rfl

end Progress

/-- A session takes over what a pass came to. -/
theorem Session.runPass_eq (s : Session) (p : Pattern) (rule? : Option Rule) :
    let run := s.draft.runPass s.options p rule?
    (s.runPass p rule?).session.draft = run.1.draft ∧
    (s.runPass p rule?).journal = run.1.journal ∧
    (s.runPass p rule?).result = run.2.map fun _ => run.1.tally.matched := by
  rw [Session.runPass]
  obtain ⟨progress, result⟩ := s.draft.runPass s.options p rule?
  cases result with
  | ok => exact ⟨rfl, rfl, rfl⟩
  | error e => exact ⟨rfl, rfl, rfl⟩

namespace Draft

variable {d : Draft} {options : PassOptions} {p : Pattern}

/-- What is left of a draft whose chains are all deleted. -/
theorem draft_cleared :
    (d.cleared options p).draft =
      if options.cleanupAfter then
        (d.deleteChains options.protectShared (p.findAll d options.maxStates)).withoutDead
      else d.deleteChains options.protectShared (p.findAll d options.maxStates) := by
  rw [cleared, Progress.finish]
  split
  · rw [draft_deleteChains]
    rfl
  · exact draft_deleteChains _

theorem trims_cleared (d : Draft) (options : PassOptions) (p : Pattern) :
    d.Trims (d.cleared options p).draft :=
  (OpGraph.trims_deleteChains (p := d.checked options p) _).trans Progress.trims_finish

theorem matched_cleared :
    (d.cleared options p).tally.matched = (p.findAll d options.maxStates).length := by
  rw [cleared, Progress.matched_finish, matched_deleteChains]
  rfl

theorem deletions_cleared :
    (d.cleared options p).tally.deletions = (p.findAll d options.maxStates).length := by
  rw [cleared, Progress.deletions_finish, deletions_deleteChains]
  exact Nat.zero_add _

theorem events_cleared (hd : d.Deletable (p.findAll d options.maxStates)) :
    (d.cleared options p).journal.events =
      ((p.findAll d options.maxStates).zipIdx.map fun c => .deleted c.2 (c.1.map d.label)) ++
        if options.cleanupAfter then [.cleanedUp (d.cleared options p).tally.cleanup] else [] := by
  rw [cleared, Progress.events_finish, events_deleteChains (p := d.checked options p) hd,
    checked, events_searched, List.nil_append]

/-- **A pass without a rule does all or nothing.** It fails exactly where its chains repeat a node, or
where one of them reads another number of tensors than it writes, and then the draft is as it was
and nothing was deleted. Otherwise it deletes every chain in order. -/
theorem runPass_none_all_or_nothing (d : Draft) (options : PassOptions) (tally : Tally)
    (p : Pattern) :
    let chains := p.findAll d options.maxStates
    let run := d.runPass options p none
    let deleted := Session.delete { draft := d, options, tally } p
    (run.2 = .ok () ↔ chains.flatten.Nodup ∧ ∀ chain ∈ chains, d.isBalanced chain) ∧
    (¬ chains.flatten.Nodup →
      ∃ first second a b h, chains[first]? = some a ∧ h ∈ a ∧ chains[second]? = some b ∧ h ∈ b ∧
        run.2 = .error (.overlappingMatches first second (d.label h))) ∧
    (chains.flatten.Nodup → ∀ chain, chains.find? (fun c => !d.isBalanced c) = some chain →
      run.2 = .error (.arityMismatch (chain.describe d) (d.firstNode chain).inputs.length
        (d.lastNode chain).outputs.length)) ∧
    (∀ e, run.2 = .error e → run.1.draft = d ∧ run.1.journal.events = []) ∧
    (run.2 = .ok () →
      (∀ chain ∈ chains, ∀ h ∈ chain, h ∉ run.1.draft.handles) ∧
      run.1.tally.matched = chains.length ∧ run.1.tally.deletions = chains.length ∧
      run.1.journal.events =
        (chains.zipIdx.map fun c => .deleted c.2 (c.1.map d.label)) ++
          if options.cleanupAfter then [.cleanedUp run.1.tally.cleanup] else []) ∧
    deleted.session.draft = run.1.draft ∧ deleted.journal = run.1.journal ∧
    deleted.result = run.2.map fun _ => chains.length := by
  intro chains run deleted
  have hdelete : deleted.session.draft = run.1.draft ∧ deleted.journal = run.1.journal ∧
      deleted.result = run.2.map fun _ => run.1.tally.matched :=
    Session.runPass_eq _ p none
  by_cases hnodup : chains.flatten.Nodup
  · cases hfind : chains.find? fun c => !d.isBalanced c with
    | none =>
      have hbalanced : ∀ chain ∈ chains, d.isBalanced chain := by simpa using hfind
      have hrun : run = (d.cleared options p, .ok ()) := runPass_none_of_balanced hnodup hbalanced
      rw [hrun] at hdelete ⊢
      refine ⟨by simpa [hnodup] using hbalanced, by simp [hnodup], by simp, by simp,
        fun _ => ⟨?_, matched_cleared, deletions_cleared,
          events_cleared (deletable_findAll hnodup hbalanced)⟩, hdelete.1, hdelete.2.1, ?_⟩
      · intro chain hchain h hh hleft
        exact not_mem_handles_deleteChains hchain hh (Progress.trims_finish.mem_handles hleft)
      · rw [hdelete.2.2, matched_cleared]
    | some chain =>
      have hrun : run = (d.searched options p, .error (d.arityError chain)) :=
        runPass_none_of_find? hnodup hfind
      -- the checks stop before the first chain is touched
      have hunbalanced : ¬ ∀ chain ∈ chains, d.isBalanced chain := by
        intro hall
        have hnot := List.find?_some hfind
        simp [hall chain (List.mem_of_find?_eq_some hfind)] at hnot
      rw [hrun] at hdelete ⊢
      refine ⟨by simp [hunbalanced], by simp [hnodup], ?_, ?_, by simp, hdelete⟩
      · rintro - chain' hchain'
        obtain rfl := Option.some.inj hchain'
        rfl
      · exact fun _ _ => ⟨rfl, events_searched⟩
  · obtain ⟨first, second, a, b, h, ha, hmem, hb, hmem', heq⟩ := runPass_of_repeat none hnodup
    have hrun : run = _ := heq
    rw [hrun] at hdelete ⊢
    refine ⟨by simp [hnodup], fun _ => ⟨first, second, a, b, h, ha, hmem, hb, hmem', rfl⟩,
      by simp [hnodup], fun _ _ => ⟨rfl, events_searched⟩, by simp, hdelete⟩

end Draft

/-- A session whose chains can all be deleted takes over the draft without them. -/
theorem Session.delete_of_balanced {s : Session} {p : Pattern}
    (hnodup : (s.findAll p).flatten.Nodup)
    (hbalanced : ∀ chain ∈ s.findAll p, s.draft.isBalanced chain) :
    (s.delete p).session.draft = (s.draft.cleared s.options p).draft ∧
      (s.delete p).result = .ok (s.findAll p).length := by
  obtain ⟨hdraft, -, hresult⟩ := Session.runPass_eq s p none
  rw [Draft.runPass_none_of_balanced hnodup hbalanced] at hdraft hresult
  rw [Draft.matched_cleared] at hresult
  exact ⟨hdraft, hresult⟩

section

variable {s : Session} {p : Pattern} {count : Nat} (hok : (s.delete p).result = .ok count)

include hok

/-- Where a deletion succeeds, all its chains could be deleted. -/
theorem Session.deletable_of_delete : s.draft.Deletable (s.findAll p) := by
  obtain ⟨-, -, hresult⟩ := Session.runPass_eq s p none
  have hnodup : (s.findAll p).flatten.Nodup := by
    by_contra hrepeat
    obtain ⟨_, _, _, _, _, -, -, -, -, hrun⟩ := Draft.runPass_of_repeat none hrepeat
    rw [hrun] at hresult
    cases hok.symm.trans hresult
  have hbalanced : ∀ chain ∈ s.findAll p, s.draft.isBalanced chain := by
    cases hfind : (s.findAll p).find? fun chain => !s.draft.isBalanced chain with
    | none => simpa using hfind
    | some chain =>
      rw [Draft.runPass_none_of_find? hnodup hfind] at hresult
      cases hok.symm.trans hresult
  exact Draft.deletable_findAll hnodup hbalanced

theorem Session.delete_eq_cleared :
    (s.delete p).session.draft = (s.draft.cleared s.options p).draft ∧
      (s.delete p).journal = (s.draft.cleared s.options p).journal := by
  have hd := Session.deletable_of_delete hok
  obtain ⟨hdraft, hjournal, -⟩ := Session.runPass_eq s p none
  rw [Draft.runPass_none_of_balanced hd.nodup hd.balanced] at hdraft hjournal
  exact ⟨hdraft, hjournal⟩

/-- A deletion that succeeds leaves the draft without its chains, cleaned up where that is asked
for. -/
theorem Session.draft_delete :
    (s.delete p).session.draft =
      if s.options.cleanupAfter then
        (s.draft.deleteChains s.options.protectShared (s.findAll p)).withoutDead
      else s.draft.deleteChains s.options.protectShared (s.findAll p) := by
  rw [(Session.delete_eq_cleared hok).1, Draft.draft_cleared]
  rfl

theorem Session.trims_delete : s.draft.Trims (s.delete p).session.draft := by
  rw [(Session.delete_eq_cleared hok).1]
  exact s.draft.trims_cleared s.options p

end

end OpGraph
