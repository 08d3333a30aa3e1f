import OpGraph.Proofs.Rerouting

/-!
# Outputs of the graph across a deletion

An output of the graph is defined after the deletion of a chain, or the bypass remarks on it, or it
is lost without a word. It is lost where a node of the chain writes it at no place opposite an
input, where the chain reads it opposite an output that takes over, and where it comes from a
constant that goes with the chain (`Draft.Loses`). After a pass the outputs of the graph that were
defined still are, or the journal tells of them, but for those that one of the deletions lost
(`Session.delete_keeps_output_iff`).
-/

namespace OpGraph

namespace Draft

/-- The bypass of a chain remarks on an output of the graph. -/
def Warns (d : Draft) (chain : Chain) (y : String) : Prop :=
  ∃ x, .outputLost x y ∈ (d.bypassed chain).remarks

/-- The deletion of a chain takes the name of a tensor from the graph and says nothing. -/
inductive Loses (d : Draft) (chain : Chain) (y : String) : Prop
  | inside {e : Entry} (he : e ∈ d.entries) (hy : y ∈ e.node.outputs) (hin : e.handle ∈ chain)
    (hnot : ∀ place x, ¬ d.Connects chain place x y)
  | takenOver {e : Entry} {place : Nat} {z : String} (he : e ∈ d.entries) (hy : y ∈ e.node.outputs)
    (hplace : d.Connects chain place y z)
  | dropped (hdefined : (d.bypassed chain).draft.isDefined y)
    (hgone : ¬ (d.deleteChain true chain).isDefined y)

variable {d : Draft} {rank : Handle → Nat} {chain : Chain} {chains : List Chain} {s : Source}
  {y : String}

/-- A tensor keeps its name where the chain does not connect it with an output. -/
theorem heir?_ends_eq_none_iff (hne : y ≠ "") :
    heir? (d.ends chain) y = none ↔ ∀ place z, ¬ d.Connects chain place y z := by
  constructor
  · intro h place z hplace
    obtain ⟨hplace, -, hz⟩ := connects_iff.1 hplace
    rw [heir?, Option.map_eq_none_iff, List.find?_eq_none] at h
    exact h (y, z) (List.mem_of_getElem? hplace) (by simp [hz])
  · intro hnot
    cases hheir : heir? (d.ends chain) y with
    | none => rfl
    | some z =>
      obtain ⟨hz, place, hplace, -⟩ := Draft.heir?_eq_some_iff.1 hheir
      exact absurd (connects_iff.2 ⟨hplace, hne, hz⟩) (hnot place z)

theorem Receives.exists_connects {d' : Draft} (h : d'.Receives (d.ends chain) s y) :
    ∃ place x, d.Connects chain place x y := by
  obtain ⟨x, hx, hy, hmem, -⟩ := h
  obtain ⟨place, hplace⟩ := exists_connects_iff.2 ⟨hmem, hx, hy⟩
  exact ⟨place, x, hplace⟩

theorem isDefined_of_deleteChain {protectShared : Bool}
    (h : (d.deleteChain protectShared chain).isDefined y) :
    (d.bypassed chain).draft.isDefined y := by
  have hthins : (d.bypassed chain).draft.Thins (d.deleteChain protectShared chain) :=
    thins_removePrivateConstants _ _ _
  obtain ⟨s, hs⟩ := isDefined_iff_defines.1 h
  exact isDefined_iff_defines.2 ⟨s, (hthins.defines_iff.1 hs).1⟩

/-! ### One chain -/

section

variable (hb : d.Bridgeable rank (chain :: chains))

include hb

theorem warns_iff : d.Warns chain y ↔
    d.isOutput y ∧ (∃ place x, d.Connects chain place x y) ∧
      ¬ (d.bypassed chain).draft.isDefined y := by
  have hremarks : ∀ x, .outputLost x y ∈ (d.bypassed chain).remarks ↔ _ := fun x =>
    Bypass.mem_remarks_connectAll (b := { draft := d.removeChain chain }) (u := x) (v := y)
      hb.bypassable.awaits
  have hundefined : (∀ s, ¬ (d.bypassed chain).draft.Defines s y) ↔
      ¬ (d.bypassed chain).draft.isDefined y := by
    rw [isDefined_iff_defines, not_exists]
  constructor
  · rintro ⟨x, hx⟩
    obtain ⟨hx, hy, hmem, hout, hnone⟩ := ((hremarks x).1 hx).resolve_left nofun
    obtain ⟨place, hplace⟩ := exists_connects_iff.2 ⟨hmem, hx, hy⟩
    exact ⟨hout, ⟨place, x, hplace⟩, hundefined.1 hnone⟩
  · rintro ⟨hout, ⟨place, x, hplace⟩, hnone⟩
    obtain ⟨hmem, hx, hy⟩ := exists_connects_iff.1 ⟨place, hplace⟩
    exact ⟨x, (hremarks x).2 (.inr ⟨hx, hy, hmem, hout, hundefined.2 hnone⟩)⟩

/-- A chain writes what it connects. -/
theorem isDefined_of_connects {place : Nat} {x : String} (h : d.Connects chain place x y) :
    d.isDefined y := by
  obtain ⟨last, hlast, -, hnode⟩ := hb.exists_last
  have hmem := List.mem_of_getElem? h.2.1
  rw [hnode] at hmem
  exact isDefined_of_mem hlast hmem

variable (hne : y ≠ "")

include hne

theorem defines_bypassed : (d.bypassed chain).draft.Defines s y ↔
    (d.removeChain chain).Defines s y ∧ (s.handle? ≠ none → heir? (d.ends chain) y = none) ∨
      (d.removeChain chain).Receives (d.ends chain) s y ∧ s.handle? ≠ none :=
  Bypass.defines_connectAll (b := { draft := d.removeChain chain }) hb.bypassable.awaits hne

/-- Nothing is defined after a bypass that was not before. -/
theorem isDefined_of_bypassed (h : (d.bypassed chain).draft.isDefined y) : d.isDefined y := by
  obtain ⟨s, hs⟩ := isDefined_iff_defines.1 h
  rcases (defines_bypassed hb hne).1 hs with ⟨hs, -⟩ | ⟨hs, -⟩
  · exact isDefined_iff_defines.2 ⟨s, (defines_removeChain.1 hs).1⟩
  · obtain ⟨place, x, hplace⟩ := hs.exists_connects
    exact isDefined_of_connects hb hplace

/-- What is not written by a node goes on. -/
theorem bypassed_of_base (hs : d.Defines s y) (hbase : s.handle? = none) :
    (d.bypassed chain).draft.isDefined y := by
  have hkept : (d.removeChain chain).Defines s y :=
    defines_removeChain.2 ⟨hs, fun h _ => by simp [hbase]⟩
  exact isDefined_iff_defines.2 ⟨s, (defines_bypassed hb hne).2 (.inl ⟨hkept, absurd hbase⟩)⟩

variable {e : Entry} (he : e ∈ d.entries) (hy : y ∈ e.node.outputs)

include he hy

/-- What a node outside the chain writes goes on, unless an output takes over. -/
theorem bypassed_of_outside (hout : e.handle ∉ chain) :
    (d.bypassed chain).draft.isDefined y ↔ ∀ place z, ¬ d.Connects chain place y z := by
  obtain ⟨i, hi⟩ := exists_defines_of_mem he hy
  rw [← heir?_ends_eq_none_iff hne, isDefined_iff_defines]
  constructor
  · rintro ⟨s, hs⟩
    rcases (defines_bypassed hb hne).1 hs with ⟨hs, hkept⟩ | ⟨hs, -⟩
    · refine hkept ?_
      rw [hb.single.handle_eq he hy hne (defines_removeChain.1 hs).1]
      exact nofun
    -- the chain does not write it, so that it is at no place of the last node
    · obtain ⟨place, x, hplace⟩ := hs.exists_connects
      have hlast := hb.bypassable.handle?_of_mem_outputs (List.mem_of_getElem? hplace.2.1) hne hi
      exact absurd (List.mem_of_getLast? hlast.symm) hout
  · intro hnone
    have hkept : (d.removeChain chain).Defines (.output e.handle i) y := by
      refine defines_removeChain.2 ⟨hi, fun h hh heq => hout ?_⟩
      cases heq
      exact hh
    exact ⟨_, (defines_bypassed hb hne).2 (.inl ⟨hkept, fun _ => hnone⟩)⟩

/-- What a node of the chain writes goes on only where the chain connects it. -/
theorem connects_of_bypassed (hin : e.handle ∈ chain) (h : (d.bypassed chain).draft.isDefined y) :
    ∃ place x, d.Connects chain place x y := by
  obtain ⟨s, hs⟩ := isDefined_iff_defines.1 h
  rcases (defines_bypassed hb hne).1 hs with ⟨hs, -⟩ | ⟨hs, -⟩
  · obtain ⟨hs, hout⟩ := defines_removeChain.1 hs
    exact absurd (hb.single.handle_eq he hy hne hs) (hout e.handle hin)
  · exact hs.exists_connects

end

section

variable (hb : d.Bridgeable rank (chain :: chains))

include hb

theorem Warns.isDefined (h : d.Warns chain y) : d.isDefined y := by
  obtain ⟨-, ⟨_, _, hplace⟩, -⟩ := (warns_iff hb).1 h
  exact isDefined_of_connects hb hplace

theorem Warns.not_isDefined (h : d.Warns chain y) : ¬ (d.deleteChain true chain).isDefined y :=
  fun hdefined => ((warns_iff hb).1 h).2.2 (isDefined_of_deleteChain hdefined)

variable (hne : y ≠ "")

include hne

/-- What is lost was there. -/
theorem Loses.isDefined (h : d.Loses chain y) : d.isDefined y := by
  cases h with
  | inside he hy => exact isDefined_of_mem he hy
  | takenOver he hy => exact isDefined_of_mem he hy
  | dropped hdefined => exact isDefined_of_bypassed hb hne hdefined

/-- An output of the graph that the bypass loses is neither defined after it nor remarked on. -/
theorem Loses.not_isDefined (h : d.Loses chain y) : ¬ (d.deleteChain true chain).isDefined y := by
  intro hdefined
  have hbypassed := isDefined_of_deleteChain hdefined
  cases h with
  | inside he hy hin hnot =>
    obtain ⟨place, x, hplace⟩ := connects_of_bypassed hb hne he hy hin hbypassed
    exact hnot place x hplace
  | @takenOver e place z he hy hplace =>
    obtain ⟨i, hi⟩ := exists_defines_of_mem he hy
    have hout := hb.outside (List.mem_of_getElem? hplace.1) hne hi
    have hout' : e.handle ∉ chain := fun hin => hout e.handle hin rfl
    exact (bypassed_of_outside hb hne he hy hout').1 hbypassed place z hplace
  | dropped _ hgone => exact hgone hdefined

theorem Loses.not_warns (h : d.Loses chain y) : ¬ d.Warns chain y := by
  intro hwarns
  obtain ⟨-, ⟨place, x, hplace⟩, hnone⟩ := (warns_iff hb).1 hwarns
  cases h with
  | inside _ _ _ hnot => exact hnot place x hplace
  | @takenOver e place' z he hy hplace' =>
    -- the chain would read what its last node writes
    obtain ⟨i, hi⟩ := exists_defines_of_mem he hy
    have hlast := hb.bypassable.handle?_of_mem_outputs (List.mem_of_getElem? hplace.2.1) hne hi
    exact hb.outside (List.mem_of_getElem? hplace'.1) hne hi e.handle
      (List.mem_of_getLast? hlast.symm) rfl
  | dropped hdefined => exact hnone hdefined

/-- An output of the graph that is not lost is defined after the deletion or was remarked on. -/
theorem isDefined_or_warns (hout : d.isOutput y) (hdefined : d.isDefined y)
    (hnot : ¬ d.Loses chain y) :
    (d.deleteChain true chain).isDefined y ∨ d.Warns chain y := by
  by_cases hbypassed : (d.bypassed chain).draft.isDefined y
  · by_contra h
    exact hnot (.dropped hbypassed fun hleft => h (.inl hleft))
  · right
    obtain ⟨s, hs⟩ := isDefined_iff_defines.1 hdefined
    cases hsource : s.handle? with
    | none => exact absurd (bypassed_of_base hb hne hs hsource) hbypassed
    | some a =>
      obtain ⟨e, he, rfl, hy⟩ := hs.exists_entry hsource
      by_cases hin : e.handle ∈ chain
      · refine (warns_iff hb).2 ⟨hout, ?_, hbypassed⟩
        by_contra hplace
        push Not at hplace
        exact hnot (.inside he hy hin hplace)
      · rw [bypassed_of_outside hb hne he hy hin] at hbypassed
        push Not at hbypassed
        obtain ⟨place, z, hplace⟩ := hbypassed
        exact absurd (.takenOver he hy hplace) hnot

end

/-! ### All chains of a pass -/

/-- What is not defined is not defined after the deletion of chains, and none of them has to do with
it. -/
theorem not_isDefined_deleteChains (hb : d.Bridgeable rank chains) (hne : y ≠ "")
    (hnot : ¬ d.isDefined y) :
    ¬ (d.deleteChains true chains).isDefined y ∧
      ∀ k chain, chains[k]? = some chain →
        ¬ (d.deleteChains true (chains.take k)).Warns chain y ∧
          ¬ (d.deleteChains true (chains.take k)).Loses chain y := by
  induction chains generalizing d with
  | nil => exact ⟨hnot, fun k chain h => by simp at h⟩
  | cons chain chains ih =>
    have hnot' : ¬ (d.deleteChain true chain).isDefined y := fun h =>
      hnot (isDefined_of_bypassed hb hne (isDefined_of_deleteChain h))
    obtain ⟨hend, hlater⟩ := ih (hb.next true) hnot'
    refine ⟨hend, fun k c hc => ?_⟩
    cases k with
    | zero =>
      obtain rfl : chain = c := Option.some.inj hc
      exact ⟨fun h => hnot (h.isDefined hb), fun h => hnot (h.isDefined hb hne)⟩
    | succ k => exact hlater k c hc

/-- An output of the graph is defined after the deletion of chains or was remarked on just where
none of the deletions lost it. -/
theorem isDefined_deleteChains_or_warns_iff (hb : d.Bridgeable rank chains) (hne : y ≠ "")
    (hout : d.isOutput y) (hdefined : d.isDefined y) :
    ((d.deleteChains true chains).isDefined y ∨
      ∃ k chain, chains[k]? = some chain ∧ (d.deleteChains true (chains.take k)).Warns chain y) ↔
    ∀ k chain, chains[k]? = some chain → ¬ (d.deleteChains true (chains.take k)).Loses chain y := by
  induction chains generalizing d with
  | nil => exact iff_of_true (.inl hdefined) fun k chain h => by simp at h
  | cons chain chains ih =>
    have hb' := hb.next true
    by_cases hnext : (d.deleteChain true chain).isDefined y
    -- the first chain leaves the output as it was
    · have hout' : (d.deleteChain true chain).isOutput y := by
        rwa [(d.trims_deleteChain true chain).isOutput_eq]
      have hrest := ih hb' hout' hnext
      constructor
      · intro h k c hc
        cases k with
        | zero =>
          obtain rfl : chain = c := Option.some.inj hc
          exact fun hloses => hloses.not_isDefined hb hne hnext
        | succ k =>
          refine hrest.1 (h.imp_right ?_) k c hc
          rintro ⟨k', c', hc', hwarns⟩
          cases k' with
          | zero =>
            obtain rfl : chain = c' := Option.some.inj hc'
            exact absurd hnext (Warns.not_isDefined hb hwarns)
          | succ k' => exact ⟨k', c', hc', hwarns⟩
      · intro h
        refine (hrest.2 fun k c hc => h (k + 1) c hc).imp_right ?_
        rintro ⟨k, c, hc, hwarns⟩
        exact ⟨k + 1, c, hc, hwarns⟩
    -- the first chain takes it away, with a remark or without one
    · obtain ⟨hend, hlater⟩ := not_isDefined_deleteChains hb' hne hnext
      constructor
      · rintro (h | ⟨k, c, hc, hwarns⟩)
        · exact absurd h hend
        · cases k with
          | zero =>
            obtain rfl : chain = c := Option.some.inj hc
            intro k' c' hc' hloses
            cases k' with
            | zero =>
              obtain rfl : chain = c' := Option.some.inj hc'
              exact hloses.not_warns hb hne hwarns
            | succ k' => exact (hlater k' c' hc').2 hloses
          | succ k => exact absurd hwarns (hlater k c hc).1
      · intro h
        refine .inr ⟨0, chain, rfl, ?_⟩
        exact (isDefined_or_warns hb hne hout hdefined (h 0 chain rfl)).resolve_left hnext

/-! ### Constants of one output -/

theorem Trims.outputs_length_of_isConstant {d' : Draft} (h : d.Trims d')
    (hconstants : ∀ e ∈ d.entries, e.node.isConstant → e.node.outputs.length = 1) :
    ∀ e ∈ d'.entries, e.node.isConstant → e.node.outputs.length = 1 := by
  intro e he hconst
  obtain ⟨n, hn, hrewired⟩ := h.exists_node? (node?_of_mem he)
  rw [hrewired.outputs_length]
  exact hconstants ⟨e.handle, n⟩ (node?_eq_some_iff.1 hn) (hrewired.isConstant_eq ▸ hconst)

/-- Where each constant writes one tensor, no output of the graph goes with the constants that are
removed. -/
theorem isDefined_removePrivateConstants
    (hconstants : ∀ e ∈ d.entries, e.node.isConstant → e.node.outputs.length = 1)
    (hout : d.isOutput y) (hdefined : d.isDefined y) (dropped : List Node) :
    (d.removePrivateConstants dropped true).draft.isDefined y := by
  obtain ⟨tensors, -, hdraft, hunshared⟩ := d.exists_purge dropped true
  have hy : y ∉ tensors := fun hmem => hunshared rfl y hmem (isShared_iff.2 (.inr hout))
  rw [hdraft]
  -- what gives the output gives none of the tensors that are removed
  rcases isDefined_iff.1 hdefined with h | h | h | ⟨n, hn, hmem⟩
  · exact isDefined_iff.2 (.inl h)
  · obtain ⟨i, hi, rfl⟩ := List.mem_map.1 (isInitializer_iff.1 h)
    refine isDefined_iff.2 (.inr (.inl (isInitializer_iff.2 (List.mem_map_of_mem ?_))))
    exact List.mem_filter.2 ⟨hi, decide_eq_true hy⟩
  · exact isDefined_iff.2 (.inr (.inr (.inl h)))
  · obtain ⟨e, he, rfl⟩ := mem_nodes.1 hn
    refine isDefined_of_mem (List.mem_filter.2 ⟨he, decide_eq_true ?_⟩) hmem
    rintro ⟨hconst, t, ht, htensor⟩
    obtain ⟨o, ho⟩ := List.length_eq_one_iff.1 (hconstants e he hconst)
    rw [ho, List.mem_singleton] at hmem ht
    exact hy (hmem.trans ht.symm ▸ htensor)

end Draft

/-! ### What the journal tells -/

section

variable {options : PassOptions} {p : Progress} {chain : Chain} {chains : List Chain} {x y : String}

theorem outputLost_mem_deleteChain (index : Nat) :
    .outputLost x y ∈ (p.deleteChain options index chain).journal.remarks ↔
      .outputLost x y ∈ p.journal.remarks ∨
        .outputLost x y ∈ (p.draft.bypassed chain).remarks := by
  have hremoval : .outputLost x y ∉ (p.draft.deletion options.protectShared chain).remarks := by
    intro h
    obtain ⟨t, ht⟩ := Draft.remarks_removePrivateConstants _ _ _ _ h
    cases ht
  have hevent : Journal.remarks [.event (.deleted index (chain.map p.draft.label))] = [] := rfl
  simp only [Progress.deleteChain, remarks_append, remarks_remarks, hevent,
    List.append_nil, List.mem_append, hremoval, or_false]

/-- The journal of a pass tells of the outputs that the bypasses remark on. -/
theorem outputLost_mem_deleteChains (index : Nat) :
    .outputLost x y ∈ (p.deleteChains options index chains).journal.remarks ↔
      .outputLost x y ∈ p.journal.remarks ∨
        ∃ k chain, chains[k]? = some chain ∧
          .outputLost x y ∈ ((p.draft.deleteChains options.protectShared
            (chains.take k)).bypassed chain).remarks := by
  induction chains generalizing index p with
  | nil => simp [Progress.deleteChains]
  | cons chain chains ih =>
    rw [Progress.deleteChains, ih, outputLost_mem_deleteChain, or_assoc]
    refine or_congr Iff.rfl ⟨?_, ?_⟩
    · rintro (h | ⟨k, c, hc, h⟩)
      · exact ⟨0, chain, rfl, h⟩
      · exact ⟨k + 1, c, hc, h⟩
    · rintro ⟨k, c, hc, h⟩
      cases k with
      | zero =>
        obtain rfl : chain = c := Option.some.inj hc
        exact .inl h
      | succ k => exact .inr ⟨k, c, hc, h⟩

end

theorem Draft.outputLost_not_mem_checked (d : Draft) (options : PassOptions) (p : Pattern)
    (x y : String) : .outputLost x y ∉ (d.checked options p).journal.remarks := by
  rw [checked, searched, remarks_remarks]
  simp [searchRemarks]

theorem Session.outputLost_mem_delete {s : Session} {p : Pattern} {count : Nat} {x y : String}
    (hok : (s.delete p).result = .ok count) (hcleanup : s.options.cleanupAfter = false) :
    .outputLost x y ∈ (s.delete p).journal.remarks ↔
      ∃ k chain, (s.findAll p)[k]? = some chain ∧ .outputLost x y ∈
        ((s.draft.deleteChains s.options.protectShared
          ((s.findAll p).take k)).bypassed chain).remarks := by
  rw [(Session.delete_eq_cleared hok).2, Draft.cleared, Progress.finish_of_not_cleanup hcleanup,
    outputLost_mem_deleteChains, or_iff_right (s.draft.outputLost_not_mem_checked _ p x y)]
  rfl

/-- **Which outputs a pass loses.** On an acyclic draft where no tensor has two sources, and with
protected constants, an output of the graph that was defined is defined after a pass that deletes
its chains, or the journal tells of its loss, if and only if none of the deletions lost it without a
word. Where each constant has one output, none is lost with a constant. -/
theorem Session.delete_keeps_output_iff {s : Session} {p : Pattern} (hacyclic : s.draft.Acyclic)
    (hsingle : s.draft.SingleSource) (hprotect : s.options.protectShared = true)
    (hcleanup : s.options.cleanupAfter = false) {count : Nat}
    (hok : (s.delete p).result = .ok count) :
    let chains := s.findAll p
    let stage := fun k => s.draft.deleteChains true (chains.take k)
    let after := (s.delete p).session.draft
    (∀ y, y ≠ "" → s.draft.isOutput y → s.draft.isDefined y →
      ((after.isDefined y ∨ ∃ x, .outputLost x y ∈ (s.delete p).journal.remarks) ↔
        ∀ k chain, chains[k]? = some chain → ¬ (stage k).Loses chain y)) ∧
    ((∀ e ∈ s.draft.entries, e.node.isConstant → e.node.outputs.length = 1) →
      ∀ k chain, chains[k]? = some chain → ∀ y, s.draft.isOutput y →
        ((stage k).bypassed chain).draft.isDefined y →
          ((stage k).deleteChain true chain).isDefined y) := by
  intro chains stage after
  obtain ⟨rank, hranked⟩ := hacyclic
  have hb : s.draft.Bridgeable rank chains := Session.bridgeable_of_delete hranked hsingle hok
  have hafter : after = s.draft.deleteChains true chains := by
    have hdraft := Session.draft_delete hok
    rw [hcleanup, hprotect] at hdraft
    exact hdraft
  refine ⟨fun y hne hout hdefined => ?_, fun hconstants k chain _ y hout hbypassed => ?_⟩
  · have hjournal : (∃ x, .outputLost x y ∈ (s.delete p).journal.remarks) ↔
        ∃ k chain, chains[k]? = some chain ∧ (stage k).Warns chain y := by
      simp only [Session.outputLost_mem_delete hok hcleanup, hprotect]
      constructor
      · rintro ⟨x, k, chain, hchain, hx⟩
        exact ⟨k, chain, hchain, x, hx⟩
      · rintro ⟨k, chain, hchain, x, hx⟩
        exact ⟨x, k, chain, hchain, hx⟩
    rw [hafter, hjournal]
    exact Draft.isDefined_deleteChains_or_warns_iff hb hne hout hdefined
  · have htrims : s.draft.Trims ((stage k).bypassed chain).draft :=
      (s.draft.trims_deleteChains true _).trans ((stage k).trims_bypassed chain)
    exact Draft.isDefined_removePrivateConstants (htrims.outputs_length_of_isConstant hconstants)
      (by rwa [htrims.isOutput_eq]) hbypassed _

/-- The pattern of a node that is taken for a wire. -/
def reluPattern : Pattern where
  steps := [{ ops := .oneOf ["Relu"], inputs := [.any], outputs := [.any], line := "Relu(?,?)" }]
  names := []

/-- A session on a row of three nodes whose outputs are those of the graph that are given. -/
def rowWith (outputs : List ValueInfo) : Session where
  draft := .ofGraph
    { nodes :=
        [{ op := "Conv", inputs := ["x"], outputs := ["p"] },
          { op := "Relu", inputs := ["p"], outputs := ["r"] },
          { op := "Neg", inputs := ["r"], outputs := ["z"] }]
      inputs := [{ name := "x" }]
      outputs }

theorem findAll_rowWith (outputs : List ValueInfo) :
    (rowWith outputs).findAll reluPattern = [[⟨1⟩]] := by
  rw [Session.findAll, Pattern.findAll_eq, Pattern.matchAt_eq_searchFrom]
  rfl

theorem result_delete_rowWith (outputs : List ValueInfo) :
    ((rowWith outputs).delete reluPattern).result = .ok 1 := by
  rw [(Session.delete_of_balanced _ _).2, findAll_rowWith]
  · rfl
  · rw [findAll_rowWith]
    decide
  · rw [findAll_rowWith]
    intro chain hchain
    obtain rfl := List.mem_singleton.1 hchain
    rfl

/-- What the deleted node writes is still defined: the node before it has taken over the name. -/
theorem Session.delete_keeps_output_row :
    let s := rowWith [{ name := "r" }, { name := "z" }]
    s.draft.Acyclic ∧ s.draft.SingleSource ∧ s.options.protectShared = true ∧
      s.options.cleanupAfter = false ∧ (s.delete reluPattern).result = .ok 1 ∧
      s.draft.isOutput "r" ∧ s.draft.isDefined "r" ∧
      (s.delete reluPattern).session.draft.isDefined "r" ∧
      ∀ k chain, (s.findAll reluPattern)[k]? = some chain →
        ¬ (s.draft.deleteChains true ((s.findAll reluPattern).take k)).Loses chain "r" := by
  intro s
  have hacyclic : s.draft.Acyclic := ⟨Handle.index, by unfold Draft.Ranked; decide⟩
  have hsingle : s.draft.SingleSource := by decide
  have hok : (s.delete reluPattern).result = .ok 1 := result_delete_rowWith _
  have hafter : (s.delete reluPattern).session.draft.isDefined "r" := by
    rw [Session.draft_delete hok, findAll_rowWith]
    decide
  have hkept := (Session.delete_keeps_output_iff hacyclic hsingle rfl rfl hok).1 "r" (by decide)
    (by decide) (by decide)
  exact ⟨hacyclic, hsingle, rfl, rfl, hok, by decide, by decide, hafter, hkept.1 (.inl hafter)⟩

/-- What the deleted node reads is lost, and the journal does not tell. -/
theorem Session.delete_loses_output_row :
    let s := rowWith [{ name := "p" }, { name := "z" }]
    Pattern.parse "Relu(?, ?)" = .ok reluPattern ∧
      s.draft.Acyclic ∧ s.draft.SingleSource ∧ s.draft.dangling = [] ∧
      (∀ v ∈ s.draft.frame.outputs, s.draft.isDefined v.name) ∧
      s.options.protectShared = true ∧ s.options.cleanupAfter = false ∧
      (s.delete reluPattern).result = .ok 1 ∧ s.draft.isOutput "p" ∧
      ¬ (s.delete reluPattern).session.draft.isDefined "p" ∧
      ∀ x, .outputLost x "p" ∉ (s.delete reluPattern).journal.remarks := by
  intro s
  have hok : (s.delete reluPattern).result = .ok 1 := result_delete_rowWith _
  refine ⟨by decide +kernel, ⟨Handle.index, by unfold Draft.Ranked; decide⟩, by decide, by decide,
    by decide, rfl, rfl, hok, by decide, ?_, ?_⟩
  · rw [Session.draft_delete hok, findAll_rowWith]
    decide
  · intro x hx
    obtain ⟨k, chain, hchain, hx⟩ := (Session.outputLost_mem_delete hok rfl).1 hx
    rw [findAll_rowWith] at hchain hx
    cases k with
    | zero =>
      obtain rfl := Option.some.inj hchain
      have hnone : (s.draft.bypassed [⟨1⟩]).remarks = [] := by decide
      exact absurd (hnone ▸ hx) List.not_mem_nil
    | succ k => cases hchain

end OpGraph
