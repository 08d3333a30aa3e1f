import Mathlib.Data.List.Perm.Basic
import Mathlib.Data.List.TakeWhile
import OpGraph.Proofs.DeletionPass

/-!
# Putting a substitution in the place of a match

A substitution is checked before the nodes of its match are taken out: one that the draft does
not admit fails and leaves everything as it was (`substitute_of_not_admits`). Nothing fails once
the nodes are out (`substitute_of_admits`). Between the two the nodes are taken out one by one,
which stops at the first node that is not there (`substitute_of_absent`).
-/

namespace OpGraph

/-! ### What the handling of matches writes down -/

/-- The index of the match that an event is about. -/
def Event.index? : Event → Option Nat
  | deleted index _ | replaced index _ _ => some index
  | cleanedUp _ => none

/-- Whether a notice tells of a cleanup. -/
def Notice.OfCleanup : Notice → Prop
  | event (.cleanedUp _) | remark (.cleanupFinished _) => True
  | _ => False

/-- The matches that a rule was consulted about, with their chains. -/
def Journal.consultations (j : Journal) : List (Chain × Nat) :=
  j.filterMap fun
    | .consulted index chain => some (chain, index)
    | _ => none

/-- A journal goes on from another one: with events about the matches of some indices, with
consultations about some matches, and without a cleanup. -/
structure Journal.Extends (j j' : Journal) (indices : List Nat) (consulted : List (Chain × Nat)) :
    Prop where
  events : j'.events.map Event.index? = j.events.map Event.index? ++ indices.map some
  consultations : j'.consultations = j.consultations ++ consulted
  cleanup : ∀ n ∈ j', n.OfCleanup → n ∈ j

namespace Journal

variable {j j' j'' : Journal}

@[simp] theorem consultations_append (j k : Journal) :
    (j ++ k).consultations = j.consultations ++ k.consultations :=
  List.filterMap_append

@[simp] theorem consultations_remarks (remarks : List Remark) :
    Journal.consultations (remarks.map .remark) = [] := by
  simp [consultations, List.filterMap_map]

namespace Extends

theorem refl (j : Journal) : j.Extends j [] [] where
  events := by simp
  consultations := by simp
  cleanup _ hn _ := hn

theorem trans {indices indices' : List Nat} {consulted consulted' : List (Chain × Nat)}
    (h : j.Extends j' indices consulted) (h' : j'.Extends j'' indices' consulted') :
    j.Extends j'' (indices ++ indices') (consulted ++ consulted') where
  events := by rw [h'.events, h.events, List.append_assoc, List.map_append]
  consultations := by rw [h'.consultations, h.consultations, List.append_assoc]
  cleanup n hn hcleanup := h.cleanup n (h'.cleanup n hn hcleanup) hcleanup

/-- A journal with more notices, none of them of a cleanup. -/
theorem append (j : Journal) {k : Journal} {indices : List Nat}
    (hevents : k.events.map Event.index? = indices.map some)
    (hcleanup : ∀ n ∈ k, ¬ n.OfCleanup) : j.Extends (j ++ k) indices k.consultations where
  events := by rw [events_append, List.map_append, hevents]
  consultations := consultations_append j k
  cleanup n hn hof := (List.mem_append.1 hn).resolve_right fun hk => hcleanup n hk hof

theorem remarks (j : Journal) {remarks : List Remark}
    (h : ∀ r ∈ remarks, ¬ (Notice.remark r).OfCleanup) :
    j.Extends (j ++ remarks.map .remark) [] [] := by
  rw [← consultations_remarks remarks]
  exact append j (by simp) (by simpa using h)

theorem deleted (j : Journal) (index : Nat) (removed : List String) :
    j.Extends (j ++ [.event (.deleted index removed)]) [index] [] :=
  append j rfl (by simp [Notice.OfCleanup])

theorem replaced (j : Journal) (index : Nat) (removed inserted : List String) :
    j.Extends (j ++ [.event (.replaced index removed inserted)]) [index] [] :=
  append j rfl (by simp [Notice.OfCleanup])

theorem consulted (j : Journal) (index : Nat) (chain : Chain) :
    j.Extends (j ++ [.consulted index chain]) [] [(chain, index)] :=
  append j rfl (by simp [Notice.OfCleanup])

theorem proposed (j : Journal) (length : Nat) : j.Extends (j ++ [.proposed length]) [] [] :=
  append j rfl (by simp [Notice.OfCleanup])

end Extends

end Journal

/-- A bypass does not remark on a cleanup. -/
theorem Draft.not_ofCleanup_bypass (d : Draft) (first last : Node) :
    ∀ r ∈ (d.bypass first last).remarks, ¬ (Notice.remark r).OfCleanup := by
  refine bypass_induction (motive := fun b => ∀ r ∈ b.remarks, ¬ (Notice.remark r).OfCleanup)
    (by simp) fun b pair _ hb => ?_
  unfold Bypass.connect
  dsimp only
  split
  · exact hb
  · split <;> refine List.forall_mem_append.2 ⟨hb, ?_⟩ <;> split <;> simp [Notice.OfCleanup]

/-- A removal of constants does not remark on a cleanup. -/
theorem Draft.not_ofCleanup_removal (d : Draft) (dropped : List Node) (protectShared : Bool) :
    ∀ r ∈ (d.removePrivateConstants dropped protectShared).remarks,
      ¬ (Notice.remark r).OfCleanup := by
  intro r hr
  obtain ⟨t, rfl⟩ := d.remarks_removePrivateConstants dropped protectShared r hr
  exact id

/-! ### The checks -/

namespace Draft

variable {d : Draft} {index : Nat} {chain : Chain} {s : Substitution}

/-- A substitution that passes the checks for a match: it keeps nodes of the match only, each once,
and where it has no nodes, the first and the last node of the match are there and the match can be
bypassed. -/
structure Admits (d : Draft) (chain : Chain) (s : Substitution) : Prop where
  kept : ∀ h ∈ s.kept, h ∈ chain
  nodup : s.kept.Nodup
  bridged : s.nodes = [] → (∀ h, chain.head? = some h → h ∈ d.handles) ∧
    (∀ h, chain.getLast? = some h → h ∈ d.handles) ∧ d.isBalanced chain

/-- The checks of a substitution. -/
def checkSubstitution (d : Draft) (index : Nat) (chain : Chain) (s : Substitution) :
    Except Error Unit := do
  d.checkKept index chain [] s.kept
  if s.nodes.isEmpty then d.checkChainArity chain

theorem checkKept_eq_ok_iff {earlier kept : List Handle} :
    d.checkKept index chain earlier kept = .ok () ↔
      (∀ h ∈ kept, h ∈ chain) ∧ kept.Nodup ∧ ∀ h ∈ kept, h ∉ earlier := by
  induction kept generalizing earlier with
  | nil => simp [checkKept]
  | cons h kept ih =>
    rw [checkKept]
    by_cases hchain : h ∈ chain
    · by_cases hearlier : h ∈ earlier
      · simp [hchain, hearlier]
      · rw [if_neg (not_not.2 hchain), if_neg hearlier, ih]
        simp only [List.mem_cons, forall_eq_or_imp, List.nodup_cons, not_or, hchain, hearlier,
          true_and, not_false_eq_true]
        constructor
        · rintro ⟨hkept, hnodup, hnew⟩
          exact ⟨hkept, ⟨fun hh => (hnew h hh).1 rfl, hnodup⟩, fun a ha => (hnew a ha).2⟩
        · rintro ⟨hkept, ⟨hnot, hnodup⟩, hnew⟩
          refine ⟨hkept, hnodup, fun a ha => ⟨?_, hnew a ha⟩⟩
          rintro rfl
          exact hnot ha
    · simp [hchain]

theorem require_of_not_mem {h : Handle} (hnot : h ∉ d.handles) :
    d.require h = .error (.nodeNotFound (.absent h)) := by
  simp [require, node?_eq_none_iff.2 hnot]

theorem checkChainArity_eq_ok_iff (hne : chain ≠ []) :
    d.checkChainArity chain = .ok () ↔ (∀ h, chain.head? = some h → h ∈ d.handles) ∧
      (∀ h, chain.getLast? = some h → h ∈ d.handles) ∧ d.isBalanced chain := by
  have hhead := List.head?_eq_some_head hne
  have hlast := List.getLast?_eq_some_getLast hne
  unfold checkChainArity isBalanced firstNode lastNode
  rw [hhead, hlast]
  simp only [Option.some.injEq, forall_eq', Option.bind_some, beq_iff_eq]
  by_cases hfirst : chain.head hne ∈ d.handles
  · by_cases hend : chain.getLast hne ∈ d.handles
    · obtain ⟨n, hn⟩ := node?_of_mem_handles hfirst
      obtain ⟨m, hm⟩ := node?_of_mem_handles hend
      simp only [require_of_node? hn, require_of_node? hm, hn, hm, Option.getD_some, hfirst, hend,
        true_and, checkArity]
      show (if n.inputs.length = m.outputs.length then Except.ok () else _) = _ ↔ _
      split <;> simp_all
    · obtain ⟨n, hn⟩ := node?_of_mem_handles hfirst
      rw [require_of_node? hn, require_of_not_mem hend]
      simp only [hend, false_and, and_false, iff_false]
      intro h
      cases h
  · rw [require_of_not_mem hfirst]
    simp only [hfirst, false_and, iff_false]
    intro h
    cases h

/-- The checks let pass what is admitted. -/
theorem checkSubstitution_eq_ok_iff (hne : chain ≠ []) :
    d.checkSubstitution index chain s = .ok () ↔ d.Admits chain s := by
  have hkept : (∀ h ∈ s.kept, h ∈ chain) ∧ s.kept.Nodup ↔
      d.checkKept index chain [] s.kept = .ok () := by
    simp [checkKept_eq_ok_iff]
  unfold checkSubstitution
  cases hcheck : d.checkKept index chain [] s.kept with
  | error e =>
    refine ⟨nofun, fun h => ?_⟩
    have := hkept.1 ⟨h.kept, h.nodup⟩
    rw [hcheck] at this
    cases this
  | ok u =>
    obtain ⟨hmem, hnodup⟩ := hkept.2 hcheck
    by_cases hnodes : s.nodes = []
    · have harity := d.checkChainArity_eq_ok_iff hne
      rw [hnodes]
      exact ⟨fun h => ⟨hmem, hnodup, fun _ => harity.1 h⟩, fun h => harity.2 (h.bridged hnodes)⟩
    · have hnonempty : s.nodes.isEmpty = false := by simpa using hnodes
      rw [hnonempty]
      exact ⟨fun _ => ⟨hmem, hnodup, fun h => absurd h hnodes⟩, fun _ => rfl⟩

end Draft

/-! ### Taking nodes out and putting others in -/

/-- The nodes of a chain that come before the first one that is not there. -/
def Draft.leading (d : Draft) (chain : Chain) : Chain :=
  chain.takeWhile (· ∈ d.handles)

namespace Draft

variable {d : Draft} {chain : Chain} {h : Handle}

theorem mem_handles_remove {a : Handle} : a ∈ (d.remove h).handles ↔ a ∈ d.handles ∧ a ≠ h := by
  rw [← removeChain_nil (d.remove h), removeChain_remove, mem_handles_removeChain,
    List.mem_singleton]

theorem leading_remove (hnot : h ∉ chain) : (d.remove h).leading chain = d.leading chain := by
  unfold leading
  induction chain with
  | nil => rfl
  | cons a chain ih =>
    rw [List.mem_cons, not_or] at hnot
    obtain ⟨hne, hnot⟩ := hnot
    have hiff : (a ∈ (d.remove h).handles) ↔ a ∈ d.handles := by
      simp [mem_handles_remove, Ne.symm hne]
    simp only [List.takeWhile_cons, hiff, ih hnot]

end Draft

/-- Nodes are taken out up to the first one that is not there. -/
theorem takeOut_of_absent {chain : Chain} {p : Progress} (hnodup : chain.Nodup)
    (hgone : ∃ h ∈ chain, h ∉ p.draft.handles) :
    ∃ e, (takeOut chain).run p =
      .error e { p with draft := p.draft.removeChain (p.draft.leading chain) } := by
  induction chain generalizing p with
  | nil => simp at hgone
  | cons h chain ih =>
    obtain ⟨hnot, hnodup⟩ := List.nodup_cons.1 hnodup
    by_cases hmem : h ∈ p.draft.handles
    · obtain ⟨n, hn⟩ := Draft.node?_of_mem_handles hmem
      have hrest : ∃ a ∈ chain, a ∉ (p.draft.remove h).handles := by
        obtain ⟨a, ha, hgone⟩ := hgone
        rcases List.mem_cons.1 ha with rfl | ha
        · exact absurd hmem hgone
        · exact ⟨a, ha, fun hleft => hgone (Draft.mem_handles_remove.1 hleft).1⟩
      obtain ⟨e, he⟩ := ih (p := { p with draft := p.draft.remove h }) hnodup hrest
      have hleading : p.draft.leading (h :: chain) = h :: p.draft.leading chain := by
        simp [Draft.leading, hmem]
      refine ⟨e, ?_⟩
      simp only [takeOut, EStateM.run_bind, PassM.run_draft, hn, PassM.run_setDraft, he,
        Draft.leading_remove hnot, Draft.removeChain_remove, hleading]
    · have hleading : p.draft.leading (h :: chain) = [] := by simp [Draft.leading, hmem]
      refine ⟨.nodeNotFound (.absent h), ?_⟩
      simp only [takeOut, EStateM.run_bind, PassM.run_draft, Draft.node?_eq_none_iff.2 hmem,
        hleading, Draft.removeChain_nil]
      rfl

/-- An element and the list without it have the elements of the list. -/
theorem cons_swapErase_perm {l : List α} {i : Nat} {a : α} (h : l[i]? = some a) :
    (a :: swapErase l i).Perm l := by
  obtain ⟨hi, rfl⟩ := List.getElem?_eq_some_iff.1 h
  rcases List.eq_nil_or_concat' l with rfl | ⟨init, last, rfl⟩
  · simp at hi
  have hlast : (init ++ [last]).getLast? = some last := List.getLast?_concat
  rw [swapErase, hlast]
  dsimp only
  by_cases hlt : i < init.length
  -- the last element comes to the place of the one that is left out
  · rw [List.set_append_left _ _ hlt, List.dropLast_concat, List.getElem_append_left hlt]
    calc (init[i] :: init.set i last).Perm (init[i] :: last :: init.eraseIdx i) :=
          (List.set_perm_cons_eraseIdx hlt last).cons _
      List.Perm _ (last :: init[i] :: init.eraseIdx i) := .swap ..
      List.Perm _ (last :: init) := (List.getElem_cons_eraseIdx_perm hlt).cons _
      List.Perm _ (init ++ [last]) := (List.perm_append_singleton last init).symm
  · obtain rfl : i = init.length := by
      rw [List.length_append, List.length_singleton] at hi
      omega
    simpa using (List.perm_append_singleton last init).symm

/-- The nodes of a substitution can be put in where all that it keeps was taken out, each node
once. -/
theorem putIn_of_kept (index position : Nat) {taken : List Entry} {nodes : List Replacement}
    {p : Progress} (hkept : ∀ h ∈ ({ nodes } : Substitution).kept, h ∈ taken.map (·.handle))
    (hnodup : ({ nodes } : Substitution).kept.Nodup) :
    ∃ r q, (putIn index position taken nodes).run p = .ok r q ∧ q.journal = p.journal := by
  induction nodes generalizing position taken p with
  | nil => exact ⟨_, p, rfl, rfl⟩
  | cons replacement nodes ih =>
    cases replacement with
    | insert node =>
      obtain ⟨r, q, hrun, hjournal⟩ := ih (position + 1)
        (p := { p with
          draft := p.draft.insertAt position node
          tally := { p.tally with nodesInserted := p.tally.nodesInserted + 1 } }) hkept hnodup
      refine ⟨(node.label :: r.1, r.2), q, ?_, hjournal⟩
      simp only [putIn, EStateM.run_bind, PassM.run_draft, PassM.run_setDraft, PassM.run_count,
        hrun]
      rfl
    | keep h =>
      have hcons : ({ nodes := .keep h :: nodes } : Substitution).kept =
          h :: ({ nodes } : Substitution).kept := rfl
      rw [hcons] at hkept hnodup
      obtain ⟨hnot, hnodup⟩ := List.nodup_cons.1 hnodup
      obtain ⟨hfirst, hkept⟩ := List.forall_mem_cons.1 hkept
      -- the node is among those that were taken out, and the others that are kept stay there
      cases hslot : taken.findIdx? fun e => e.handle = h with
      | none =>
        obtain ⟨e, he, heq⟩ := List.mem_map.1 hfirst
        exact absurd heq (by simpa using List.findIdx?_eq_none_iff.1 hslot e he)
      | some slot =>
        obtain ⟨hlt, hhandle, -⟩ := List.findIdx?_eq_some_iff_getElem.1 hslot
        have hget : taken[slot]? = some taken[slot] := List.getElem?_eq_getElem hlt
        have hperm := (cons_swapErase_perm hget).map (·.handle)
        have hrest : ∀ a ∈ ({ nodes } : Substitution).kept,
            a ∈ (swapErase taken slot).map (·.handle) := by
          intro a ha
          have hmem := hperm.mem_iff.2 (hkept a ha)
          rw [List.map_cons, List.mem_cons] at hmem
          refine hmem.resolve_left ?_
          rintro rfl
          rw [decide_eq_true_eq] at hhandle
          exact hnot (hhandle ▸ ha)
        obtain ⟨r, q, hrun, hjournal⟩ := ih (position + 1)
          (p := { p with draft := p.draft.restoreAt position taken[slot] }) hrest hnodup
        refine ⟨(taken[slot].node.label :: r.1, r.2), q, ?_, hjournal⟩
        simp only [putIn, hslot, hget, EStateM.run_bind, PassM.run_draft, PassM.run_setDraft, hrun]
        rfl

/-! ### A substitution as a whole -/

open PassM

section

variable {options : PassOptions} {index : Nat} {p : Progress} {chain : Chain} {s : Substitution}

/-- A substitution is checked, then the nodes of the match are taken out, and then the rest is
done. -/
theorem run_substitute :
    (substitute options index chain s).run p =
      match p.draft.checkSubstitution index chain s with
      | .error e => .error e p
      | .ok () =>
        (takeOut chain >>= refill options index (chain.map p.draft.label)
          (p.draft.lowestPosition chain) s).run p := by
  unfold substitute Draft.checkSubstitution
  rw [run_bind_of_ok (run_draft p)]
  cases hkept : p.draft.checkKept index chain [] s.kept with
  | error e => rfl
  | ok u =>
    rw [run_bind_of_ok (run_check_ok _ _)]
    cases hnodes : s.nodes.isEmpty with
    | false => rfl
    | true =>
      show (check (p.draft.checkChainArity chain) >>= _).run p =
        match p.draft.checkChainArity chain with
        | .error e => .error e p
        | .ok () => _
      cases p.draft.checkChainArity chain with
      | error e => rfl
      | ok u => rfl

/-- A substitution that is not admitted fails before anything is touched. -/
theorem substitute_of_not_admits (options : PassOptions) (index : Nat) (hne : chain ≠ [])
    (hnot : ¬ p.draft.Admits chain s) :
    ∃ e, (substitute options index chain s).run p = .error e p := by
  rw [run_substitute]
  cases hcheck : p.draft.checkSubstitution index chain s with
  | error e => exact ⟨e, rfl⟩
  | ok u => exact absurd ((Draft.checkSubstitution_eq_ok_iff hne).1 hcheck) hnot

/-- A substitution that is admitted for a match with a node that is not there fails after it has
taken out the nodes before that one. -/
theorem substitute_of_absent (options : PassOptions) (index : Nat) (hne : chain ≠ [])
    (hnodup : chain.Nodup) (hadmits : p.draft.Admits chain s) (hgone : ∃ h ∈ chain, h ∉ p.draft.handles) :
    ∃ e, (substitute options index chain s).run p =
      .error e { p with draft := p.draft.removeChain (p.draft.leading chain) } := by
  obtain ⟨e, htake⟩ := takeOut_of_absent hnodup hgone
  refine ⟨e, ?_⟩
  rw [run_substitute, (Draft.checkSubstitution_eq_ok_iff hne).2 hadmits]
  exact run_bind_of_error htake

theorem run_dropAndAdd (options : PassOptions) (p : Progress) (s : Substitution)
    (dropped : List Entry) :
    ∃ q, (dropAndAdd options s dropped).run p = .ok () q ∧ p.journal.Extends q.journal [] [] :=
  ⟨_, by rw [dropAndAdd, run_bind_of_ok run_removeConstantsOf, EStateM.run_modify],
    .remarks _ (Draft.not_ofCleanup_removal _ _ _)⟩

/-- A substitution that is admitted for a match whose nodes are all there is carried out, with one
event about the match. -/
theorem substitute_of_admits (options : PassOptions) (index : Nat) (hne : chain ≠ [])
    (hnodup : chain.Nodup) (hmem : ∀ h ∈ chain, h ∈ p.draft.handles) (hadmits : p.draft.Admits chain s) :
    ∃ q, (substitute options index chain s).run p = .ok () q ∧
      p.journal.Extends q.journal [index] [] := by
  rw [run_substitute, (Draft.checkSubstitution_eq_ok_iff hne).2 hadmits]
  dsimp only
  rw [run_bind_of_ok (takeOut_eq hnodup hmem)]
  by_cases hnodes : s.nodes = []
  -- without nodes the match is bypassed
  · have hlength : (p.draft.firstNode chain).inputs.length =
        (p.draft.lastNode chain).outputs.length := by
      simpa [Draft.isBalanced] using (hadmits.bridged hnodes).2.2
    rw [refill_of_isEmpty (List.isEmpty_iff.2 hnodes) (Draft.head?_entriesOf hne hmem)
      (Draft.getLast?_entriesOf hne hmem), run_bind_of_ok (run_bypassChain hlength)]
    obtain ⟨q, hrun, hjournal⟩ := run_dropAndAdd options _ s (p.draft.entriesOf chain)
    exact ⟨q, hrun, ((Journal.Extends.remarks _ (Draft.not_ofCleanup_bypass _ _ _)).trans
      (.deleted _ _ _)).trans hjournal⟩
  -- with nodes, those that are kept are among the ones that were taken out
  · have hkept : ∀ h ∈ s.kept, h ∈ (p.draft.entriesOf chain).map (·.handle) := by
      intro h hh
      simpa [Draft.entriesOf_eq_map hmem] using hadmits.kept h hh
    obtain ⟨r, q, hput, hsame⟩ := putIn_of_kept index (p.draft.lowestPosition chain)
      (p := { p with draft := p.draft.removeChain chain }) hkept hadmits.nodup
    rw [refill, if_neg (by simpa using hnodes), run_bind_of_ok hput]
    dsimp only
    rw [run_bind_of_ok (run_count _ _), run_bind_of_ok (run_note _ _)]
    obtain ⟨q', hrun, hjournal⟩ := run_dropAndAdd options _ s r.2
    refine ⟨q', hrun, ?_⟩
    have hevent : p.journal.Extends (q.journal ++ [.event (.replaced index
        (chain.map p.draft.label) r.1)]) [index] [] := by
      rw [hsame]
      exact .replaced _ _ _ _
    exact hevent.trans hjournal

end

end OpGraph
