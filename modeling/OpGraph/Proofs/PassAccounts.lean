import OpGraph.Proofs.HandleReuse
import OpGraph.Proofs.PrivateConstants

/-!
# The accounts of a pass

A pass that succeeds, with a rule that leaves the graph as it finds it or without one, accounts for
all that has changed. Nodes are conserved: each step of a pass moves some of them between the draft,
the nodes that are out of it for now, and what is counted as removed (`Progress.Balances`). From
match to match the counts and the events follow the chains and the substitutions that took their
places (`Draft.Accounts`). The main result puts this together for whole passes
(`Draft.runPass_accounts`).
-/

namespace OpGraph

open PassM

/-! ### Labels -/

namespace Draft

variable {d d' d'' : Draft}

theorem label_of_mem {e : Entry} (he : e ∈ d.entries) : d.label e.handle = e.node.label := by
  simp [label, node?_of_mem he]

/-- The nodes of a draft that are not new since another one have their labels from there. -/
structure KeepsLabels (d d' : Draft) : Prop where
  fresh_le : d.fresh ≤ d'.fresh
  origin : ∀ e ∈ d'.entries, d.fresh ≤ e.handle.index ∨
    ∃ o ∈ d.entries, o.handle = e.handle ∧ o.node.label = e.node.label

namespace KeepsLabels

/-- The same nodes have the same labels. -/
theorem of_entries (hentries : d'.entries = d.entries) (hfresh : d.fresh ≤ d'.fresh) :
    d.KeepsLabels d' :=
  ⟨hfresh, fun e he => .inr ⟨e, hentries ▸ he, rfl, rfl⟩⟩

theorem trans (h : d.KeepsLabels d') (h' : d'.KeepsLabels d'') : d.KeepsLabels d'' := by
  refine ⟨h.fresh_le.trans h'.fresh_le, fun e he => ?_⟩
  rcases h'.origin e he with hnew | ⟨o, ho, hhandle, hlabel⟩
  · exact .inl (h.fresh_le.trans hnew)
  · rcases h.origin o ho with hnew | ⟨o', ho', hhandle', hlabel'⟩
    · exact .inl (hhandle ▸ hnew)
    · exact .inr ⟨o', ho', hhandle'.trans hhandle, hlabel'.trans hlabel⟩

theorem of_trims (h : d.Trims d') : d.KeepsLabels d' := by
  refine ⟨h.fresh.ge, fun e he => .inr ?_⟩
  obtain ⟨n, hn, hrewired⟩ := h.exists_node? (node?_of_mem he)
  exact ⟨⟨e.handle, n⟩, node?_eq_some_iff.1 hn, rfl, hrewired.label_eq.symm⟩

theorem label_eq (h : d.KeepsLabels d') {a : Handle} (hold : a ∈ d.handles)
    (hleft : a ∈ d'.handles) : d'.label a = d.label a := by
  obtain ⟨e, he, rfl⟩ := List.mem_map.1 hleft
  rcases h.origin e he with hnew | ⟨o, ho, hhandle, hlabel⟩
  · obtain ⟨o, ho, heq⟩ := List.mem_map.1 hold
    have hlt := d.handle_lt_fresh o ho
    rw [heq] at hlt
    exact absurd hnew (Nat.not_le_of_lt hlt)
  · rw [label_of_mem he, ← hhandle, label_of_mem ho, hlabel]

end KeepsLabels

end Draft

/-- The label of a node of a substitution. -/
def Replacement.label (d : Draft) : Replacement → String
  | keep h => d.label h
  | insert node => node.label

/-- The event about a match that a substitution has taken the place of. -/
def Substitution.event (s : Substitution) (d : Draft) (index : Nat) (chain : Chain) : Event :=
  if s.nodes.isEmpty then .deleted index (chain.map d.label)
  else .replaced index (chain.map d.label) (s.nodes.map (Replacement.label d))

/-! ### Nodes on the move -/

/-- The books of a pass that has started from a draft: what is in the draft now, what is out of it
and what was counted as removed make up what was there and what was counted as put in. -/
structure Progress.Balances (p : Progress) (d : Draft) (out : Nat) : Prop where
  nodes : p.draft.entries.length + out + p.tally.nodesRemoved + p.tally.constantsRemoved +
    p.tally.cleanup.nodes = d.entries.length + p.tally.nodesInserted
  initializers : p.draft.initializers.length + p.tally.initializersRemoved +
    p.tally.cleanup.initializers = d.initializers.length + p.tally.initializersAdded

section

variable {d : Draft} {p q : Progress} {out index position found : Nat} {chain : Chain}
  {chains : List Chain} {taken : List Entry} {options : PassOptions} {s : Substitution}
  {done : List (Chain × Substitution)} {rule? : Option Rule}

/-- A node that is taken out is one node less. -/
theorem Draft.length_remove {h : Handle} (hmem : h ∈ d.handles) :
    (d.remove h).entries.length + 1 = d.entries.length := by
  have hone : (d.entries.filter fun e => e.handle = h).length = 1 := by
    rw [← List.countP_eq_length_filter, ← List.count_eq_one_of_mem d.handles_nodup hmem, List.count,
      List.countP_map]
    exact List.countP_congr fun e _ => by simp
  have hlength := List.length_eq_length_filter_add (l := d.entries) fun e => e.handle = h
  rw [hone, Nat.add_comm] at hlength
  rw [hlength, remove, keepEntries]
  simp

theorem Draft.length_insertAt (d : Draft) (position : Nat) (node : Node) :
    (d.insertAt position node).entries.length = d.entries.length + 1 := by
  rw [insertAt, (placeAt_perm _ _ _).length_eq, List.length_cons]

theorem Draft.Restorable.length_restoreAt {e : Entry} (hrest : d.Restorable (e :: taken))
    (position : Nat) : (d.restoreAt position e).entries.length = d.entries.length + 1 := by
  rw [entries_restoreAt (hrest.absent e List.mem_cons_self) (hrest.lt_fresh e List.mem_cons_self),
    (placeAt_perm _ _ _).length_eq, List.length_cons]

theorem Draft.mem_entries_restoreAt {e o : Entry} (ho : o ∈ (d.restoreAt position e).entries) :
    o = e ∨ o ∈ d.entries := by
  unfold restoreAt at ho
  split at ho
  · exact mem_placeAt.1 ho
  · exact .inr ho

theorem Draft.initializers_bypass (d : Draft) (first last : Node) :
    (d.bypass first last).draft.initializers = d.initializers := by
  refine bypass_induction (motive := fun b => b.draft.initializers = d.initializers) rfl ?_
  intro b pair _ hb
  by_cases hskip : pair.1 = "" ∨ pair.2 = "" ∨ pair.1 = pair.2
  · rwa [connect_of_skip b hskip]
  · rw [draft_connect b hskip]
    split <;> exact hb

namespace Progress.Balances

/-- Nodes of a chain leave the draft. -/
theorem takeOut (hp : p.Balances d out) (hrun : (takeOut chain).run p = .ok taken q) :
    q.Balances d (out + taken.length) ∧ q.tally = p.tally ∧ q.journal = p.journal := by
  induction chain generalizing p taken out with
  | nil =>
    cases hrun
    exact ⟨hp, rfl, rfl⟩
  | cons h chain ih =>
    obtain ⟨node, rest, hnode, hlater, rfl⟩ := exists_of_takeOut_cons hrun
    have hlength := Draft.length_remove
      (List.mem_map_of_mem (f := Entry.handle) (Draft.node?_eq_some_iff.1 hnode))
    have hremoved : ({ p with draft := p.draft.remove h } : Progress).Balances d (out + 1) := by
      refine ⟨?_, hp.initializers⟩
      have := hp.nodes
      dsimp only at hlength ⊢
      omega
    obtain ⟨hq, htally, hjournal⟩ := ih hremoved hlater
    refine ⟨?_, htally, hjournal⟩
    rwa [List.length_cons, Nat.add_comm rest.length, ← Nat.add_assoc]

end Progress.Balances

namespace PutsIn

variable {nodes : List Replacement} {labels : List String} {left : List Entry}

/-- Nothing but new nodes is counted on the way, and nothing is told. -/
theorem unchanged (h : PutsIn position p taken nodes labels left q) :
    q.journal = p.journal ∧ q.tally = { p.tally with nodesInserted := q.tally.nodesInserted } := by
  induction h with
  | nil position p taken => exact ⟨rfl, rfl⟩
  | insert node hrest ih => exact ih
  | keep e hperm hrest ih => exact ih

/-- The nodes that are left are those that are not kept. -/
theorem length_left (h : PutsIn position p taken nodes labels left q) :
    left.length + ({ nodes } : Substitution).kept.length = taken.length := by
  induction h with
  | nil position p taken => rfl
  | insert node hrest ih => exact ih
  | keep e hperm hrest ih =>
    rw [← hperm.length_eq, List.length_cons, ← ih]
    rfl

/-- The labels that are given are those of the nodes that are put in. -/
theorem labels_eq (h : PutsIn position p taken nodes labels left q)
    (hlabels : ∀ e ∈ taken, d.label e.handle = e.node.label) :
    labels = nodes.map (Replacement.label d) := by
  induction h with
  | nil position p taken => rfl
  | insert node hrest ih => rw [ih hlabels, List.map_cons, Replacement.label]
  | keep e hperm hrest ih =>
    have hfirst := hlabels e (hperm.subset List.mem_cons_self)
    rw [ih fun o ho => hlabels o (hperm.subset (List.mem_cons_of_mem _ ho)), List.map_cons,
      Replacement.label, hfirst]

/-- What is in the draft at the end was there before, or was taken out, or is new. -/
theorem origin (h : PutsIn position p taken nodes labels left q) : p.draft.fresh ≤ q.draft.fresh ∧
    ∀ o ∈ q.draft.entries, o ∈ p.draft.entries ∨ o ∈ taken ∨ p.draft.fresh ≤ o.handle.index := by
  induction h with
  | nil position p taken => exact ⟨Nat.le_refl _, fun o ho => .inl ho⟩
  | @insert position p q taken left nodes labels node hrest ih =>
    obtain ⟨hfresh, horigin⟩ := ih
    refine ⟨(Nat.le_succ _).trans hfresh, fun o ho => ?_⟩
    rcases horigin o ho with ho | ho | ho
    · rcases mem_placeAt.1 ho with rfl | ho
      · exact .inr (.inr (Nat.le_refl _))
      · exact .inl ho
    · exact .inr (.inl ho)
    · exact .inr (.inr ((Nat.le_succ _).trans ho))
  | @keep position p q taken others left nodes labels e hperm hrest ih =>
    obtain ⟨hfresh, horigin⟩ := ih
    rw [Draft.fresh_restoreAt] at hfresh horigin
    refine ⟨hfresh, fun o ho => ?_⟩
    rcases horigin o ho with ho | ho | ho
    · rcases Draft.mem_entries_restoreAt ho with rfl | ho
      · exact .inr (.inl (hperm.subset List.mem_cons_self))
      · exact .inl ho
    · exact .inr (.inl (hperm.subset (List.mem_cons_of_mem _ ho)))
    · exact .inr (.inr ho)

/-- The nodes of the draft at the end have the labels of one where the nodes that were taken out
still had theirs. -/
theorem keepsLabels {before : Draft} (h : PutsIn position p taken nodes labels left q)
    (htrims : before.Trims p.draft) (htaken : ∀ e ∈ taken, e ∈ before.entries) :
    before.KeepsLabels q.draft := by
  obtain ⟨hfresh, horigin⟩ := h.origin
  refine ⟨htrims.fresh.ge.trans hfresh, fun o ho => ?_⟩
  rcases horigin o ho with ho | ho | ho
  · exact (Draft.KeepsLabels.of_trims htrims).origin o ho
  · exact .inr ⟨o, htaken o ho, rfl, rfl⟩
  · exact .inl (htrims.fresh ▸ ho)

end PutsIn

namespace Progress.Balances

/-- Nodes that are kept come back into the draft, and new nodes come into it. -/
theorem putIn {nodes : List Replacement} {labels : List String} {left : List Entry}
    (h : PutsIn position p taken nodes labels left q) (hrest : p.draft.Restorable taken)
    (hp : p.Balances d (out + taken.length)) : q.Balances d (out + left.length) := by
  induction h with
  | nil position p taken => exact hp
  | @insert position p q taken left nodes labels node _ ih =>
    refine ih (hrest.insertAt position node) ⟨?_, hp.initializers⟩
    have hlength := p.draft.length_insertAt position node
    have := hp.nodes
    dsimp only at hlength ⊢
    omega
  | @keep position p q taken others left nodes labels e hperm _ ih =>
    have hfirst := hrest.perm hperm
    refine ih (hfirst.restoreAt position) ⟨?_, ?_⟩
    · have hlength := hfirst.length_restoreAt position
      have htaken := hperm.length_eq
      have := hp.nodes
      dsimp only [List.length_cons] at hlength htaken ⊢
      omega
    · rw [Draft.initializers_restoreAt]
      exact hp.initializers

/-- Constants go, and initializers come. -/
theorem dropAndAdd {dropped : List Entry} (hrun : (dropAndAdd options s dropped).run p = .ok () q)
    (hp : p.Balances d out) : q.Balances d out := by
  rw [OpGraph.dropAndAdd, run_bind_of_ok run_removeConstantsOf, EStateM.run_modify] at hrun
  cases hrun
  obtain ⟨hentries, hinitializers⟩ := p.draft.length_removePrivateConstants
    (dropped.map (·.node)) options.protectShared
  rw [foldl_addInitializer]
  constructor
  · have := hp.nodes
    simp only [Mutation.apply] at hentries ⊢
    omega
  · have := hp.initializers
    simp only [Mutation.apply, List.length_append] at hinitializers ⊢
    omega

end Progress.Balances

/-- The end of a substitution counts nothing but constants and initializers, tells of nothing and
leaves the labels. -/
theorem unchanged_of_dropAndAdd {dropped : List Entry}
    (hrun : (dropAndAdd options s dropped).run p = .ok () q) :
    q.tally =
        { p.tally with
          constantsRemoved := q.tally.constantsRemoved
          initializersRemoved := q.tally.initializersRemoved
          initializersAdded := q.tally.initializersAdded } ∧
      q.journal.events = p.journal.events ∧ p.draft.KeepsLabels q.draft := by
  rw [dropAndAdd, run_bind_of_ok run_removeConstantsOf, EStateM.run_modify] at hrun
  cases hrun
  refine ⟨rfl, ?_, ?_⟩
  · simp
  · refine (Draft.KeepsLabels.of_trims (Draft.trims_removePrivateConstants p.draft
      (dropped.map (·.node)) options.protectShared)).trans ?_
    rw [foldl_addInitializer]
    exact .of_entries rfl (Nat.le_refl _)

/-- A chain that is bypassed is counted as removed and told of as deleted. -/
theorem eq_of_bypassChain {labels : List String} {first last : Node}
    (hrun : (bypassChain index labels taken first last).run p = .ok () q) :
    q =
      { draft := (p.draft.bypass first last).draft
        tally :=
          { p.tally with
            deletions := p.tally.deletions + 1
            nodesRemoved := p.tally.nodesRemoved + taken.length }
        journal := p.journal ++ (p.draft.bypass first last).remarks.map .remark ++
          [.event (.deleted index labels)] } := by
  by_cases hlength : first.inputs.length = last.outputs.length
  · rw [run_bypassChain hlength] at hrun
    cases hrun
    rfl
  · rw [bypassChain, checkArity, if_neg hlength, run_bind_of_error (run_check_error _ _)] at hrun
    cases hrun

/-! ### One match -/

/-- What is counted and told where a substitution has taken the place of some nodes. -/
structure Progress.Tells (p q : Progress) (length : Nat) (s : Substitution) (e : Event) : Prop where
  matched : q.tally.matched = p.tally.matched
  handled : q.tally.deletions + q.tally.replacements = p.tally.deletions + p.tally.replacements + 1
  removed : q.tally.nodesRemoved + s.kept.length = p.tally.nodesRemoved + length
  cleanup : q.tally.cleanup = p.tally.cleanup
  events : q.journal.events = p.journal.events ++ [e]

/-- The end of a substitution adds nothing to what was told. -/
theorem Progress.Tells.dropAndAdd {r : Progress} {length : Nat} {e : Event} {dropped : List Entry}
    (hrun : (dropAndAdd options s dropped).run q = .ok () r) (h : p.Tells q length s e) :
    p.Tells r length s e := by
  obtain ⟨htally, hevents, -⟩ := unchanged_of_dropAndAdd hrun
  constructor
  · rw [htally]
    exact h.matched
  · rw [htally]
    exact h.handled
  · rw [htally]
    exact h.removed
  · rw [htally]
    exact h.cleanup
  · rw [hevents]
    exact h.events

/-- Nodes that were taken out are bypassed. -/
theorem accounts_of_bypass (hp : p.Balances d taken.length) {labels : List String}
    {first last : Node} (hnodes : s.nodes = [])
    (hrun : (bypassChain index labels taken first last >>= fun _ =>
      dropAndAdd options s taken).run p = .ok () q) :
    q.Balances d 0 ∧ p.Tells q taken.length s (.deleted index labels) ∧
      p.draft.KeepsLabels q.draft := by
  obtain ⟨_, t, hbypass, hdrop⟩ := exists_of_run_bind hrun
  obtain rfl := eq_of_bypassChain hbypass
  obtain ⟨-, -, hlabels⟩ := unchanged_of_dropAndAdd hdrop
  refine ⟨.dropAndAdd hdrop ⟨?_, ?_⟩, .dropAndAdd hdrop ⟨rfl, ?_, ?_, rfl, ?_⟩, ?_⟩
  · have hlength := congrArg List.length (p.draft.handles_bypass first last)
    have := hp.nodes
    simp only [Draft.handles, List.length_map] at hlength ⊢
    omega
  · rw [Draft.initializers_bypass]
    exact hp.initializers
  · exact Nat.add_right_comm _ _ _
  · rw [Substitution.kept, hnodes]
    rfl
  · simp [Journal.events]
  · exact (Draft.KeepsLabels.of_trims (p.draft.trims_bypass first last)).trans hlabels

/-- Nodes that were taken out are put back or replaced. -/
theorem accounts_of_putIn {labels : List String} (hrest : p.draft.Restorable taken)
    (hp : p.Balances d taken.length) {before : Draft} (htrims : before.Trims p.draft)
    (htaken : ∀ e ∈ taken, e ∈ before.entries)
    (hrun : (do
      let (inserted, left) ← putIn index position taken s.nodes
      count fun t =>
        { t with
          replacements := t.replacements + 1
          nodesRemoved := t.nodesRemoved + left.length }
      note [.event (.replaced index labels inserted)]
      dropAndAdd options s left : PassM Unit).run p = .ok () q) :
    q.Balances d 0 ∧
      p.Tells q taken.length s
        (.replaced index labels (s.nodes.map (Replacement.label before))) ∧
      before.KeepsLabels q.draft := by
  obtain ⟨⟨inserted, left⟩, t, hput, hlater⟩ := exists_of_run_bind hrun
  dsimp only at hlater
  rw [run_bind_of_ok (run_count _ _), run_bind_of_ok (run_note _ _)] at hlater
  dsimp only at hlater
  have hputs : PutsIn position p taken s.nodes inserted left t := putsIn_of_run hput
  obtain ⟨hjournal, htally⟩ := hputs.unchanged
  obtain ⟨-, -, hlabels⟩ := unchanged_of_dropAndAdd hlater
  have hinserted := hputs.labels_eq fun e he => Draft.label_of_mem (htaken e he)
  have hleft : left.length + s.kept.length = taken.length := hputs.length_left
  have hbalances : t.Balances d left.length := by
    rw [← Nat.zero_add left.length]
    exact .putIn hputs hrest (by rwa [Nat.zero_add])
  refine ⟨.dropAndAdd hlater ⟨?_, hbalances.initializers⟩,
    .dropAndAdd hlater ⟨?_, ?_, ?_, ?_, ?_⟩, (hputs.keepsLabels htrims htaken).trans hlabels⟩
  · have := hbalances.nodes
    dsimp only
    omega
  · rw [htally]
  · rw [htally]
    rfl
  · rw [htally, ← hleft, Nat.add_assoc]
  · rw [htally]
  · rw [hjournal, hinserted]
    simp [Journal.events]

/-- A substitution takes the place of a match. -/
theorem accounts_of_substitute (hne : chain ≠ []) (hp : p.Balances d 0)
    (hrun : (substitute options index chain s).run p = .ok () q) :
    q.Balances d 0 ∧ p.Tells q chain.length s (s.event p.draft index chain) ∧
      p.draft.KeepsLabels q.draft ∧ (∀ h ∈ chain, h ∈ p.draft.handles) ∧
      ∀ h ∈ s.kept, h ∈ chain := by
  rw [run_substitute] at hrun
  cases hcheck : p.draft.checkSubstitution index chain s with
  | error e =>
    rw [hcheck] at hrun
    cases hrun
  | ok u =>
    rw [hcheck] at hrun
    obtain ⟨hkept, -, -⟩ := Draft.checkKept_eq_ok_iff.1 (checkKept_of_checkSubstitution hcheck)
    obtain ⟨taken, t, htake, hrefill⟩ := exists_of_run_bind hrun
    obtain ⟨rfl, hmem, hrest⟩ := restorable_of_takeOut htake
    obtain ⟨hbalances, htally, hjournal⟩ := hp.takeOut htake
    have htrims := trims_takeOut (taken.map (·.handle)) p
    rw [leaves_of_ok htake] at htrims
    have hpresent : ∀ h ∈ taken.map (·.handle), h ∈ p.draft.handles := by
      intro h hh
      obtain ⟨e, he, rfl⟩ := List.mem_map.1 hh
      exact List.mem_map_of_mem (hmem e he)
    rw [Nat.zero_add] at hbalances
    rw [List.length_map]
    -- taking nodes out has counted nothing and told of nothing
    suffices h : q.Balances d 0 ∧
        t.Tells q taken.length s (s.event p.draft index (taken.map (·.handle))) ∧
        p.draft.KeepsLabels q.draft by
      obtain ⟨hq, htells, hlabels⟩ := h
      refine ⟨hq, ?_, hlabels, hpresent, hkept⟩
      exact ⟨htally ▸ htells.matched, htally ▸ htells.handled, htally ▸ htells.removed,
        htally ▸ htells.cleanup, hjournal ▸ htells.events⟩
    unfold Substitution.event
    by_cases hnodes : s.nodes.isEmpty
    · have htaken : taken ≠ [] := by simpa using hne
      rw [refill_of_isEmpty hnodes (List.head?_eq_some_head htaken)
        (List.getLast?_eq_some_getLast htaken)] at hrefill
      obtain ⟨hq, htells, hlabels⟩ := accounts_of_bypass hbalances (List.isEmpty_iff.1 hnodes)
        hrefill
      rw [if_pos hnodes]
      exact ⟨hq, htells, (Draft.KeepsLabels.of_trims htrims).trans hlabels⟩
    · rw [refill, if_neg hnodes] at hrefill
      rw [if_neg hnodes]
      exact accounts_of_putIn hrest hbalances htrims hmem hrefill

/-! ### From match to match -/

/-- The accounts of a pass that has started from a draft, has found a number of matches and has
handled some of them, each with the substitution that took its place: the books balance, each chain
was counted once as deleted or replaced and was told of, and its nodes were removed but for those
that are kept. -/
structure Draft.Accounts (d : Draft) (found : Nat) (done : List (Chain × Substitution))
    (p : Progress) : Prop where
  balances : p.Balances d 0
  matched : p.tally.matched = found
  handled : p.tally.deletions + p.tally.replacements = done.length
  removed : p.tally.nodesRemoved + (done.flatMap fun c => c.2.kept).length =
    (done.flatMap fun c => c.1).length
  uncleaned : p.tally.cleanup = {}
  events : p.journal.events = done.zipIdx.map fun c => c.1.2.event d c.2 c.1.1
  labels : d.KeepsLabels p.draft

/-- The event about a match shows labels of its nodes, and of new ones. -/
theorem Substitution.event_congr {d' : Draft} (hkept : ∀ h ∈ s.kept, h ∈ chain)
    (hlabels : ∀ h ∈ chain, d'.label h = d.label h) :
    s.event d' index chain = s.event d index chain := by
  have hnodes : s.nodes.map (Replacement.label d') = s.nodes.map (Replacement.label d) := by
    refine List.map_congr_left fun r hr => ?_
    cases r with
    | insert node => rfl
    | keep h => exact hlabels h (hkept h (List.mem_filterMap.2 ⟨_, hr, rfl⟩))
  rw [event, event, List.map_congr_left hlabels, hnodes]

/-- A match that is handled joins the accounts. -/
theorem Draft.Accounts.substitute (hp : d.Accounts found done p)
    (hne : chain ≠ []) (hold : ∀ h ∈ chain, h ∈ d.handles)
    (hrun : (substitute options done.length chain s).run p = .ok () q) :
    d.Accounts found (done ++ [(chain, s)]) q := by
  obtain ⟨hbalances, htells, hlabels, hpresent, hkept⟩ :=
    accounts_of_substitute hne hp.balances hrun
  have hevent : s.event p.draft done.length chain = s.event d done.length chain :=
    Substitution.event_congr hkept fun h hh => hp.labels.label_eq (hold h hh) (hpresent h hh)
  refine ⟨hbalances, htells.matched.trans hp.matched, ?_, ?_, htells.cleanup.trans hp.uncleaned,
    ?_, hp.labels.trans hlabels⟩
  · rw [htells.handled, hp.handled, List.length_append, List.length_singleton]
  · have hfirst := hp.removed
    have hlast := htells.removed
    simp only [List.flatMap_append, List.flatMap_singleton, List.length_append]
    omega
  · rw [htells.events, hp.events, hevent, List.zipIdx_append, List.map_append, Nat.zero_add]
    rfl

/-- A rule that, where it succeeds, leaves the nodes and initializers of a draft as they are and
takes no handle back. -/
def Rule.LeavesGraph (rule : Rule) : Prop :=
  ∀ index chain d s d', rule index chain d = .ok s d' →
    d'.entries = d.entries ∧ d'.initializers = d.initializers ∧ d.fresh ≤ d'.fresh

/-- A substitution is what a rule proposes for a match; without a rule a match is deleted. -/
def Proposes (rule? : Option Rule) (index : Nat) (chain : Chain) (d : Draft) (s : Substitution) :
    Prop :=
  match rule? with
  | some rule => ∃ d', rule index chain d = .ok s d'
  | none => s = {}

/-- Choose the substitution for a match. -/
def choose (rule? : Option Rule) (index : Nat) (chain : Chain) : PassM Substitution :=
  match rule? with
  | some rule => consult rule index chain
  | none => pure {}

theorem handleMatches_cons : handleMatches options rule? index (chain :: chains) = (do
    check ((← draft).checkPresent chain)
    let s ← choose rule? index chain
    substitute options index chain s
    handleMatches options rule? (index + 1) chains) := by
  cases rule? <;> rfl

/-- Matches are handled where the first one is and the others are after it. -/
theorem exists_of_handleMatches_cons
    (hrun : (handleMatches options rule? index (chain :: chains)).run p = .ok () q) :
    ∃ s before after, (choose rule? index chain).run p = .ok s before ∧
      (substitute options index chain s).run before = .ok () after ∧
      (∀ chains, (handleMatches options rule? index (chain :: chains)).run p =
        (handleMatches options rule? (index + 1) chains).run after) ∧
      (handleMatches options rule? (index + 1) chains).run after = .ok () q := by
  rw [handleMatches_cons, run_bind_of_ok (run_draft p)] at hrun
  cases hpresent : p.draft.checkPresent chain with
  | error e =>
    rw [hpresent, run_bind_of_error (run_check_error _ _)] at hrun
    cases hrun
  | ok u =>
    rw [hpresent, run_bind_of_ok (run_check_ok _ _)] at hrun
    obtain ⟨s, before, hchoose, hsubstitute⟩ := exists_of_run_bind hrun
    obtain ⟨_, after, hsubstitute, hlater⟩ := exists_of_run_bind hsubstitute
    refine ⟨s, before, after, hchoose, hsubstitute, fun chains => ?_, hlater⟩
    rw [handleMatches_cons, run_bind_of_ok (run_draft p), hpresent,
      run_bind_of_ok (run_check_ok _ _), run_bind_of_ok hchoose, run_bind_of_ok hsubstitute]

/-- A rule that leaves the graph as it is leaves the accounts. -/
theorem Draft.Accounts.choose (hrule : ∀ rule ∈ rule?, rule.LeavesGraph)
    (hp : d.Accounts found done p)
    (hrun : (choose rule? index chain).run p = .ok s q) :
    d.Accounts found done q ∧ Proposes rule? index chain p.draft s := by
  cases rule? with
  | none =>
    cases hrun
    exact ⟨hp, rfl⟩
  | some rule =>
    cases hproposed : rule index chain p.draft with
    | error e d' =>
      cases (run_consult_of_error hproposed).symm.trans hrun
    | ok s' d' =>
      cases (run_consult_of_ok hproposed).symm.trans hrun
      obtain ⟨hentries, hinitializers, hfresh⟩ := hrule rule rfl index chain p.draft s d' hproposed
      refine ⟨⟨⟨?_, ?_⟩, hp.matched, hp.handled, hp.removed, hp.uncleaned, ?_, ?_⟩, d', hproposed⟩
      · exact hentries ▸ hp.balances.nodes
      · exact hinitializers ▸ hp.balances.initializers
      · rw [← hp.events]
        simp [Progress.consulted, Journal.events]
      · exact hp.labels.trans (.of_entries hentries hfresh)

/-- All matches that are handled join the accounts. -/
theorem Draft.Accounts.handleMatches (hrule : ∀ rule ∈ rule?, rule.LeavesGraph)
    (hne : ∀ chain ∈ chains, chain ≠ []) (hold : ∀ chain ∈ chains, ∀ h ∈ chain, h ∈ d.handles)
    (hp : d.Accounts found done p)
    (hrun : (handleMatches options rule? done.length chains).run p = .ok () q) :
    ∃ proposals : List Substitution, proposals.length = chains.length ∧
      (∀ i chain s, chains[i]? = some chain → proposals[i]? = some s →
        ∃ before, (OpGraph.handleMatches options rule? done.length (chains.take i)).run p =
          .ok () before ∧ Proposes rule? (done.length + i) chain before.draft s) ∧
      d.Accounts found (done ++ chains.zip proposals) q := by
  induction chains generalizing done p with
  | nil =>
    cases hrun
    exact ⟨[], rfl, by simp, by simpa using hp⟩
  | cons chain chains ih =>
    obtain ⟨s, before, after, hchoose, hsubstitute, hcons, hlater⟩ :=
      exists_of_handleMatches_cons hrun
    obtain ⟨hbefore, hproposes⟩ := hp.choose hrule hchoose
    have hafter := hbefore.substitute (hne chain List.mem_cons_self) (hold chain List.mem_cons_self)
      hsubstitute
    have hlength : (done ++ [(chain, s)]).length = done.length + 1 := by simp
    rw [← hlength] at hlater
    obtain ⟨proposals, hproposals, hall, hq⟩ := ih (fun c hc => hne c (List.mem_cons_of_mem _ hc))
      (fun c hc => hold c (List.mem_cons_of_mem _ hc)) hafter hlater
    refine ⟨s :: proposals, by rw [List.length_cons, hproposals, List.length_cons], ?_, ?_⟩
    · rintro (_ | i) c s' hc hs'
      · obtain rfl : chain = c := by simpa using hc
        obtain rfl : s = s' := by simpa using hs'
        exact ⟨p, rfl, hproposes⟩
      · obtain ⟨r, hr, hproposes'⟩ := hall i c s' (by simpa using hc) (by simpa using hs')
        refine ⟨r, ?_, ?_⟩
        · rw [List.take_succ_cons, hcons, ← hlength, hr]
        · rw [hlength] at hproposes'
          rwa [Nat.add_assoc, Nat.add_comm 1] at hproposes'
    · rwa [List.append_assoc] at hq

/-! ### Whole passes -/

theorem length_flatMap_of_forall {α β : Type} {f : α → List β} {l : List α} {n : Nat}
    (h : ∀ a ∈ l, (f a).length = n) : (l.flatMap f).length = l.length * n := by
  rw [List.length_flatMap, List.map_congr_left h, List.map_const', List.sum_replicate_nat]

theorem Draft.accounts_checked (d : Draft) (options : PassOptions) (pattern : Pattern) :
    d.Accounts (pattern.findAll d options.maxStates).length [] (d.checked options pattern) where
  balances := ⟨rfl, rfl⟩
  matched := rfl
  handled := rfl
  removed := rfl
  uncleaned := rfl
  events := events_searched
  labels := .of_entries rfl (Nat.le_refl _)

/-- The cleanup at the end of a pass counts what it removes. -/
theorem Progress.Balances.finish (hp : p.Balances d 0) (hcleanup : p.tally.cleanup = {})
    (options : PassOptions) : (p.finish options).Balances d 0 := by
  unfold Progress.finish
  split
  · have hnodes := hp.nodes
    have hinitializers := hp.initializers
    have hentries : p.draft.withoutDead.entries.length ≤ p.draft.entries.length :=
      List.length_filter_le _ _
    have htensors : p.draft.withoutDead.initializers.length ≤ p.draft.initializers.length :=
      List.length_filter_le _ _
    rw [hcleanup] at hnodes hinitializers
    constructor
    · dsimp only [Draft.cleanupCount] at hnodes ⊢
      omega
    · dsimp only [Draft.cleanupCount] at hinitializers ⊢
      omega
  · exact hp

theorem Progress.tally_finish :
    (p.finish options).tally = { p.tally with cleanup := (p.finish options).tally.cleanup } := by
  unfold Progress.finish
  split <;> rfl

/-- **A pass accounts for all that it changes.** Where a pass succeeds, without a rule or with one
that leaves the graph as it is, the nodes and the initializers that are there at the end and those
that were counted as removed make up the ones of the start and those that were counted as put in.
Each match was counted once, as deleted or as replaced, and all its nodes as removed but for those
that its substitution keeps. There is one event for each match in order, with the labels of its
chain and of the nodes of its substitution, and one for the cleanup where one is asked for. -/
theorem Draft.runPass_accounts {pattern : Pattern} (hrule : ∀ rule ∈ rule?, rule.LeavesGraph)
    (hrun : d.runPass options pattern rule? = (q, .ok ())) :
    let chains := pattern.findAll d options.maxStates
    let tally := q.tally
    ∃ proposals : List Substitution, proposals.length = chains.length ∧
      (∀ i chain s, chains[i]? = some chain → proposals[i]? = some s →
        ∃ before, (handleMatches options rule? 0 (chains.take i)).run (d.checked options pattern) =
          .ok () before ∧ Proposes rule? i chain before.draft s) ∧
      q.draft.entries.length + tally.nodesRemoved + tally.constantsRemoved + tally.cleanup.nodes =
        d.entries.length + tally.nodesInserted ∧
      q.draft.initializers.length + tally.initializersRemoved + tally.cleanup.initializers =
        d.initializers.length + tally.initializersAdded ∧
      tally.matched = chains.length ∧ tally.deletions + tally.replacements = chains.length ∧
      tally.nodesRemoved + (proposals.flatMap (·.kept)).length =
        chains.length * pattern.steps.length ∧
      q.journal.events =
        ((chains.zip proposals).zipIdx.map fun c => c.1.2.event d c.2 c.1.1) ++
          if options.cleanupAfter then [.cleanedUp tally.cleanup] else [] := by
  intro chains tally
  rcases d.runPass_outcome options pattern rule? with ⟨e, hfail⟩ | houtcome
  · cases hfail.symm.trans hrun
  rw [houtcome] at hrun
  cases hhandled : (handleMatches options rule? 0 chains).run (d.checked options pattern) with
  | error e r =>
    rw [hhandled] at hrun
    cases hrun
  | ok u r =>
    rw [hhandled] at hrun
    cases hrun
    obtain ⟨proposals, hlength, hproposes, hr⟩ := (d.accounts_checked options pattern).handleMatches
      hrule (fun _ hchain => (Pattern.isChain_of_mem_findAll hchain).ne_nil)
      (fun _ hchain _ hh => mem_handles_of_mem_findAll hchain hh) hhandled
    have hq := hr.balances.finish hr.uncleaned options
    have htally : tally = { r.tally with cleanup := tally.cleanup } := Progress.tally_finish
    have hpairs : (chains.zip proposals).length = chains.length := by
      rw [List.length_zip, hlength, Nat.min_self]
    -- each chain has as many nodes as the pattern has steps
    have hchains : ((chains.zip proposals).flatMap fun c => c.1).length =
        chains.length * pattern.steps.length := by
      rw [← hpairs]
      refine length_flatMap_of_forall fun c hc => ?_
      exact Pattern.length_of_mem_findAll (List.of_mem_zip hc).1
    have hkept : ((chains.zip proposals).flatMap fun c => c.2.kept) =
        proposals.flatMap (·.kept) := by
      calc
        _ = ((chains.zip proposals).map Prod.snd).flatMap (·.kept) := by rw [List.flatMap_map]
        _ = proposals.flatMap (·.kept) := by rw [List.map_snd_zip hlength.le]
    refine ⟨proposals, hlength, ?_, hq.nodes, hq.initializers, ?_, ?_, ?_, ?_⟩
    · intro i chain s hchain hs
      obtain ⟨before, hbefore, hs⟩ := hproposes i chain s hchain hs
      rw [List.length_nil, Nat.zero_add] at hs
      exact ⟨before, hbefore, hs⟩
    · rw [htally]
      exact hr.matched
    · rw [htally]
      exact hr.handled.trans hpairs
    · rw [htally, ← hkept, ← hchains]
      exact hr.removed
    · rw [Progress.events_finish, hr.events]
      rfl

/-- A rule that puts a new node in the place of the first node of a match. -/
def swappingRule : Rule := fun _ chain =>
  pure { nodes := .insert { op := "Gelu", name := "new" } :: chain.tail.map .keep }

theorem swappingRule_leavesGraph : swappingRule.LeavesGraph := by
  intro index chain d s d' hrule
  cases hrule
  exact ⟨rfl, rfl, Nat.le_refl _⟩

/-- In each of two pairs of nodes a new node takes the place of the first one. -/
theorem Draft.runPass_accounts_paired :
    let d := ofGraph pairedGraph
    let q := (d.runPass {} pairPattern (some swappingRule)).1
    swappingRule.LeavesGraph ∧ d.runPass {} pairPattern (some swappingRule) = (q, .ok ()) ∧
      q.tally.matched = 2 ∧ q.tally.deletions + q.tally.replacements = 2 ∧
      q.draft.entries.length + q.tally.nodesRemoved + q.tally.constantsRemoved +
        q.tally.cleanup.nodes = 4 + q.tally.nodesInserted ∧
      ∃ proposals : List Substitution, proposals.length = 2 ∧
        q.tally.nodesRemoved + (proposals.flatMap (·.kept)).length = 4 := by
  intro d q
  have hrun : d.runPass {} pairPattern (some swappingRule) = _ :=
    runPass_some_of_nodup _ (by rw [findAll_pairedGraph]; decide)
  rw [findAll_pairedGraph] at hrun
  have hok : (d.runPass {} pairPattern (some swappingRule)).2 = .ok () := by
    rw [hrun]
    decide +kernel
  have hresult : d.runPass {} pairPattern (some swappingRule) = (q, .ok ()) := Prod.ext rfl hok
  have hrule : ∀ rule ∈ some swappingRule, rule.LeavesGraph := by
    simpa using swappingRule_leavesGraph
  obtain ⟨proposals, hlength, -, hnodes, -, hmatched, hhandled, hremoved, -⟩ :=
    runPass_accounts hrule hresult
  rw [findAll_pairedGraph] at hlength hmatched hhandled hremoved
  exact ⟨swappingRule_leavesGraph, hresult, hmatched, hhandled, hnodes, proposals, hlength,
    hremoved⟩

end

end OpGraph
