import OpGraph.Proofs.Joining
import OpGraph.Proofs.PassAccounts

/-!
# Where a substitution goes

The nodes of a match may stand anywhere in a draft. A substitution goes to where the first of them
stands (`Draft.spliced`): the nodes before that one stay where they are, then come the nodes of the
substitution, then all others in their order. A pass puts its nodes in one by one, each behind the
one before (`PutsIn.splices`), and then removes constants (`substitute_splices`). Where the
substitution writes what the nodes that it drops wrote for others, and reads nothing that has no
source, every tensor that is read still has one in the end (`substitute_resolves`).
-/

namespace OpGraph

open PassM

theorem placeAt_length_append {α : Type} (l m : List α) (a : α) :
    placeAt (l ++ m) l.length a = l ++ [a] ++ m := by
  simp [placeAt]

namespace Draft

variable {d d' : Draft} {chain : Chain} {s : Substitution} {nodes : List Replacement} {n : Nat}
  {e : Entry}

/-! ### The nodes of a substitution -/

/-- The nodes that a substitution puts into a draft: one that is kept stands under its handle, and
new nodes get the handles from a number on. -/
def entriesFor (d : Draft) : Nat → List Replacement → List Entry
  | _, [] => []
  | n, .keep h :: nodes => d.entriesOf [h] ++ d.entriesFor n nodes
  | n, .insert node :: nodes => ⟨⟨n⟩, node⟩ :: d.entriesFor (n + 1) nodes

theorem entriesOf_singleton (he : e ∈ d.entries) : d.entriesOf [e.handle] = [e] := by
  simp [entriesOf, node?_of_mem he]

/-- What a substitution puts in comes from the draft or is new. -/
theorem mem_entriesFor (he : e ∈ d.entriesFor n nodes) :
    e ∈ d.entries ∨ .insert e.node ∈ nodes := by
  induction nodes generalizing n with
  | nil => cases he
  | cons replacement nodes ih =>
    cases replacement with
    | keep h =>
      rcases List.mem_append.1 he with he | he
      · obtain ⟨a, ha, heq⟩ := List.mem_filterMap.1 he
        obtain ⟨node, hnode, rfl⟩ := Option.map_eq_some_iff.1 heq
        exact .inl (node?_eq_some_iff.1 hnode)
      · exact (ih he).imp_right (List.mem_cons_of_mem _)
    | insert node =>
      rcases List.mem_cons.1 he with rfl | he
      · exact .inr List.mem_cons_self
      · exact (ih he).imp_right (List.mem_cons_of_mem _)

/-- What is kept is put in. -/
theorem mem_entriesFor_of_kept (he : e ∈ d.entries)
    (hkept : e.handle ∈ ({ nodes } : Substitution).kept) : e ∈ d.entriesFor n nodes := by
  induction nodes generalizing n with
  | nil => cases hkept
  | cons replacement nodes ih =>
    cases replacement with
    | keep h =>
      rcases List.mem_cons.1 hkept with rfl | hkept
      · exact List.mem_append_left _ (by rw [entriesOf_singleton he]; exact List.mem_cons_self)
      · exact List.mem_append_right _ (ih hkept)
    | insert node => exact List.mem_cons_of_mem _ (ih hkept)

/-! ### The place of a substitution -/

/-- The nodes before the first one of a chain. -/
def entriesBefore (d : Draft) (chain : Chain) : List Entry :=
  d.entries.takeWhile fun e => e.handle ∉ chain

/-- The nodes after the first one of a chain that are not in it. -/
def entriesAfter (d : Draft) (chain : Chain) : List Entry :=
  (d.entries.dropWhile fun e => e.handle ∉ chain).filter fun e => e.handle ∉ chain

/-- The nodes of a draft where a substitution has taken the place of a chain. -/
def spliced (d : Draft) (chain : Chain) (s : Substitution) : List Entry :=
  d.entriesBefore chain ++ d.entriesFor d.fresh s.nodes ++ d.entriesAfter chain

/-- A draft where a substitution has taken the place of a chain. -/
structure Splices (d : Draft) (chain : Chain) (s : Substitution) (d' : Draft) : Prop where
  entries : d'.entries = d.spliced chain s
  fresh : d'.fresh + s.kept.length = d.fresh + s.nodes.length
  frame : d'.frame = d.frame
  initializers : d'.initializers = d.initializers

theorem entries_removeChain (d : Draft) (chain : Chain) :
    (d.removeChain chain).entries = d.entriesBefore chain ++ d.entriesAfter chain := by
  have hbefore : (d.entriesBefore chain).filter (fun e => e.handle ∉ chain) =
      d.entriesBefore chain :=
    List.filter_eq_self.2 fun _ he =>
      List.mem_takeWhile_imp (p := fun e : Entry => e.handle ∉ chain) he
  rw [entriesAfter, ← hbefore, entriesBefore, ← List.filter_append, List.takeWhile_append_dropWhile]
  rfl

theorem mem_spliced : e ∈ d.spliced chain s ↔
    e ∈ d.entries ∧ e.handle ∉ chain ∨ e ∈ d.entriesFor d.fresh s.nodes := by
  rw [← mem_entries_removeChain, entries_removeChain, spliced]
  simp only [List.mem_append]
  tauto

/-- The first node of a chain stands at the lowest position of its nodes. -/
theorem min?_positions (d : Draft) (chain : Chain) :
    (chain.filterMap d.position?).min? = d.entries.findIdx? fun e => e.handle ∈ chain := by
  cases hfirst : d.entries.findIdx? fun e => e.handle ∈ chain with
  | none =>
    rw [List.min?_eq_none_iff, List.filterMap_eq_nil_iff]
    intro h hh
    refine List.findIdx?_eq_none_iff.2 fun e he => decide_eq_false ?_
    rintro rfl
    exact absurd hh (by simpa using List.findIdx?_eq_none_iff.1 hfirst e he)
  | some i =>
    obtain ⟨hi, hin, hout⟩ := List.findIdx?_eq_some_iff_getElem.1 hfirst
    simp only [decide_eq_true_eq] at hin hout
    refine List.min?_eq_some_iff.2 ⟨List.mem_filterMap.2 ⟨_, hin, ?_⟩, fun j hj => ?_⟩
    · refine List.findIdx?_eq_some_iff_getElem.2 ⟨hi, decide_eq_true rfl, fun j hji heq => ?_⟩
      exact hout j hji (of_decide_eq_true heq ▸ hin)
    · obtain ⟨h, hh, hposition⟩ := List.mem_filterMap.1 hj
      obtain ⟨hlt, heq, -⟩ := List.findIdx?_eq_some_iff_getElem.1 hposition
      by_contra hji
      exact hout j (Nat.lt_of_not_le hji) (of_decide_eq_true heq ▸ hh)

theorem lowestPosition_eq (d : Draft) (chain : Chain) :
    d.lowestPosition chain = (d.entriesBefore chain).length := by
  have hbefore : d.entriesBefore chain =
      d.entries.take (d.entries.findIdx fun e => e.handle ∈ chain) := by
    rw [entriesBefore, List.takeWhile_eq_take_findIdx_not]
    simp
  rw [lowestPosition, min?_positions, ← List.findIdx_eq_getD_findIdx?, hbefore, List.length_take,
    Nat.min_eq_left List.findIdx_le_length]

end Draft

/-! ### Putting a substitution in its place -/

section

variable {options : PassOptions} {index position : Nat} {chain : Chain} {s : Substitution}
  {d : Draft} {p q : Progress} {taken left before behind : List Entry} {nodes : List Replacement}
  {labels : List String}

namespace PutsIn

/-- What is left was taken out and is not kept. -/
theorem mem_left (h : PutsIn position p taken nodes labels left q)
    (hnodup : (taken.map (·.handle)).Nodup) :
    ∀ o ∈ left, o ∈ taken ∧ o.handle ∉ ({ nodes } : Substitution).kept := by
  induction h with
  | nil position p taken => exact fun o ho => ⟨ho, List.not_mem_nil⟩
  | insert node hrest ih => exact ih hnodup
  | keep e hperm hrest ih =>
    obtain ⟨hnot, hnodup⟩ := List.nodup_cons.1 ((hperm.map (·.handle)).nodup_iff.2 hnodup)
    intro o ho
    obtain ⟨hothers, hkept⟩ := ih hnodup o ho
    refine ⟨hperm.subset (List.mem_cons_of_mem _ hothers), fun hmem => ?_⟩
    rcases List.mem_cons.1 hmem with heq | hmem
    · exact hnot (List.mem_map.2 ⟨o, hothers, heq⟩)
    · exact hkept hmem

/-- Each node is put in behind the one before, so that all of them come to stand in their order
between what is before the position and what is behind it. -/
theorem splices (h : PutsIn position p taken nodes labels left q)
    (hrest : p.draft.Restorable taken) (htaken : ∀ e ∈ taken, e ∈ d.entries)
    (hentries : p.draft.entries = before ++ behind) (hposition : before.length = position) :
    q.draft.entries = before ++ d.entriesFor p.draft.fresh nodes ++ behind ∧
      q.draft.fresh + ({ nodes } : Substitution).kept.length = p.draft.fresh + nodes.length ∧
      q.draft.frame = p.draft.frame ∧ q.draft.initializers = p.draft.initializers := by
  induction h generalizing before with
  | nil position p taken => exact ⟨by rw [hentries]; simp [Draft.entriesFor], rfl, rfl, rfl⟩
  | @insert position p q taken left nodes labels node _ ih =>
    subst hposition
    have hplaced : (p.draft.insertAt before.length node).entries =
        before ++ [⟨p.draft.next, node⟩] ++ behind := by
      rw [← placeAt_length_append, ← hentries]
      rfl
    obtain ⟨hq, hfresh, hframe, hinitializers⟩ := ih (hrest.insertAt _ node) htaken hplaced
      (by simp)
    refine ⟨?_, ?_, hframe, hinitializers⟩
    · rw [hq]
      simp [Draft.entriesFor, Draft.insertAt, Draft.next]
    · rw [List.length_cons, Nat.add_comm nodes.length, ← Nat.add_assoc]
      exact hfresh
  | @keep position p q taken others left nodes labels e hperm _ ih =>
    subst hposition
    have hfirst := hrest.perm hperm
    have hplaced : (p.draft.restoreAt before.length e).entries = before ++ [e] ++ behind := by
      rw [Draft.entries_restoreAt (hfirst.absent e List.mem_cons_self)
        (hfirst.lt_fresh e List.mem_cons_self), hentries, placeAt_length_append]
    obtain ⟨hq, hfresh, hframe, hinitializers⟩ := ih (hfirst.restoreAt _)
      (fun o ho => htaken o (hperm.subset (List.mem_cons_of_mem _ ho))) hplaced (by simp)
    dsimp only at hq hfresh hframe hinitializers
    rw [Draft.fresh_restoreAt] at hq hfresh
    refine ⟨?_, ?_, ?_, ?_⟩
    · rw [hq, Draft.entriesFor,
        Draft.entriesOf_singleton (htaken e (hperm.subset List.mem_cons_self))]
      simp
    · show q.draft.fresh + (({ nodes } : Substitution).kept.length + 1) = _
      rw [← Nat.add_assoc, hfresh, List.length_cons, Nat.add_assoc]
    · rw [hframe, Draft.frame_restoreAt]
    · rw [hinitializers, Draft.initializers_restoreAt]

end PutsIn

/-- A substitution with nodes is carried out: it takes the place of its match, and then constants go
with the nodes that are dropped, and initializers come. -/
theorem exists_splices (options : PassOptions) (index : Nat) (hnodup : chain.Nodup)
    (hmem : ∀ h ∈ chain, h ∈ p.draft.handles) (hnodes : s.nodes ≠ [])
    (hkept : ∀ h ∈ s.kept, h ∈ chain) (honce : s.kept.Nodup) :
    ∃ (q : Progress) (d' : Draft) (dropped : List Entry),
      (substitute options index chain s).run p = .ok () q ∧
      p.draft.Splices chain s d' ∧
      (∀ e ∈ dropped, e ∈ p.draft.entries ∧ e.handle ∈ chain ∧ e.handle ∉ s.kept) ∧
      q.draft = s.initializers.foldl Draft.addInitializer
        (d'.removePrivateConstants (dropped.map (·.node)) options.protectShared).draft := by
  have hempty : s.nodes.isEmpty = false := by simpa using hnodes
  have hcheck : p.draft.checkSubstitution index chain s = .ok () := by
    rw [Draft.checkSubstitution, hempty,
      Draft.checkKept_eq_ok_iff.2 ⟨hkept, honce, fun _ _ => List.not_mem_nil⟩]
    rfl
  have htake := takeOut_eq hnodup hmem
  obtain ⟨hhandles, htaken, hrest⟩ := restorable_of_takeOut htake
  obtain ⟨⟨inserted, left⟩, r, hput, -⟩ := putIn_of_kept index (p.draft.lowestPosition chain)
    (p := { p with draft := p.draft.removeChain chain }) (hhandles ▸ hkept) honce
  have hputs : PutsIn _ _ _ _ inserted left r := putsIn_of_run hput
  obtain ⟨hentries, hfresh, hframe, hinitializers⟩ := hputs.splices hrest htaken
    (p.draft.entries_removeChain chain) (p.draft.lowestPosition_eq chain).symm
  suffices h : ∃ q, (substitute options index chain s).run p = .ok () q ∧
      q.draft = s.initializers.foldl Draft.addInitializer
        (r.draft.removePrivateConstants (left.map (·.node)) options.protectShared).draft by
    obtain ⟨q, hrun, hq⟩ := h
    refine ⟨q, r.draft, left, hrun, ⟨hentries, hfresh, hframe, hinitializers⟩, fun e he => ?_, hq⟩
    obtain ⟨hout, hdropped⟩ := hputs.mem_left hrest.nodup e he
    exact ⟨htaken e hout, hhandles ▸ List.mem_map_of_mem hout, hdropped⟩
  rw [run_substitute, hcheck]
  dsimp only
  rw [run_bind_of_ok htake, refill, hempty, if_neg Bool.false_ne_true, run_bind_of_ok hput]
  dsimp only
  rw [run_bind_of_ok (run_count _ _), run_bind_of_ok (run_note _ _), dropAndAdd,
    run_bind_of_ok run_removeConstantsOf, EStateM.run_modify]
  exact ⟨_, rfl, rfl⟩

/-- **A substitution goes to where the first node of its match stands.** A substitution that has
nodes, and that keeps nodes of its match, each once, is carried out wherever the nodes of the match
stand. What comes before all of them stays where it is, then come the nodes of the substitution in
their order, those that are kept under their handles and new ones under the next handles, and then
all other nodes in their order. Only constants are missing then, which write tensors that nodes have
read that are dropped. -/
theorem substitute_splices (options : PassOptions) (index : Nat) (hnodup : chain.Nodup)
    (hmem : ∀ h ∈ chain, h ∈ p.draft.handles) (hnodes : s.nodes ≠ [])
    (hkept : ∀ h ∈ s.kept, h ∈ chain) (honce : s.kept.Nodup) :
    ∃ (q : Progress) (tensors : List String), (substitute options index chain s).run p = .ok () q ∧
      (∀ t ∈ tensors, t ≠ "" ∧
        ∃ e ∈ p.draft.entries, e.handle ∈ chain ∧ e.handle ∉ s.kept ∧ t ∈ e.node.inputs) ∧
      q.draft.entries = (p.draft.spliced chain s).filter (fun e =>
        ¬ (e.node.isConstant ∧ ∃ t ∈ e.node.outputs, t ∈ tensors)) ∧
      q.draft.fresh + s.kept.length = p.draft.fresh + s.nodes.length := by
  obtain ⟨q, d', dropped, hrun, hd', hdropped, hq⟩ :=
    exists_splices options index hnodup hmem hnodes hkept honce
  obtain ⟨tensors, hsub, hpurge, -⟩ :=
    d'.exists_purge (dropped.map (·.node)) options.protectShared
  rw [hpurge, foldl_addInitializer] at hq
  refine ⟨q, tensors, hrun, fun t ht => ?_, ?_, ?_⟩
  · obtain ⟨hne, n, hn, hread⟩ := Draft.mem_tensorsRead.1 (hsub ht)
    obtain ⟨e, he, rfl⟩ := List.mem_map.1 hn
    obtain ⟨hmem, hin, hout⟩ := hdropped e he
    exact ⟨hne, e, hmem, hin, hout, hread⟩
  · rw [← hd'.entries, hq]
    rfl
  · rw [← hd'.fresh, hq]
    rfl

/-- A graph with a match of three nodes among others. -/
def scatteredGraph : Graph where
  nodes :=
    [{ op := constantOp, outputs := ["k"] },
      { op := "Conv", inputs := ["x", "k"], outputs := ["a"] },
      { op := "Neg", inputs := ["x"], outputs := ["n"] },
      { op := "Relu", inputs := ["a"], outputs := ["b"] },
      { op := "Add", inputs := ["b", "n"], outputs := ["c"] },
      { op := "Exp", inputs := ["c"], outputs := ["y"] }]
  inputs := [{ name := "x" }]
  outputs := [{ name := "y" }]

/-- A substitution that keeps one of the three nodes between two new ones. -/
def scatteredSubstitution : Substitution where
  nodes :=
    [.insert { op := "Gelu", inputs := ["b", "w"], outputs := ["c"] }, .keep ⟨3⟩,
      .insert { op := "Abs", inputs := ["x"], outputs := ["a"] }]
  initializers := [{ name := "w" }]

/-- The match stands around a node and is listed from its end: the substitution goes before that
node. -/
theorem substitute_splices_scattered :
    let p : Progress := { draft := .ofGraph scatteredGraph }
    let s := scatteredSubstitution
    s.nodes ≠ [] ∧ s.kept = [⟨3⟩] ∧
      (p.draft.spliced [⟨4⟩, ⟨1⟩, ⟨3⟩] s).map (·.handle) = [⟨0⟩, ⟨6⟩, ⟨3⟩, ⟨7⟩, ⟨2⟩, ⟨5⟩] ∧
      ∃ q, (substitute {} 0 [⟨4⟩, ⟨1⟩, ⟨3⟩] s).run p = .ok () q ∧ q.draft.fresh = 8 ∧
        q.draft.select (fun n => !n.isConstant) = [⟨6⟩, ⟨3⟩, ⟨7⟩, ⟨2⟩, ⟨5⟩] := by
  intro p s
  have hnodes : s.nodes ≠ [] := List.cons_ne_nil _ _
  have hmem : ∀ h ∈ ([⟨4⟩, ⟨1⟩, ⟨3⟩] : Chain), h ∈ p.draft.handles := by decide
  obtain ⟨q, tensors, hrun, -, hentries, hfresh⟩ :=
    substitute_splices (s := s) {} 0 (by decide) hmem hnodes (by decide) (by decide)
  refine ⟨hnodes, rfl, by decide, q, hrun, Nat.add_right_cancel hfresh, ?_⟩
  -- what is missing is a constant
  have hselect : q.draft.select (fun n => !n.isConstant) =
      ((p.draft.spliced [⟨4⟩, ⟨1⟩, ⟨3⟩] s).filter fun e => !e.node.isConstant).map (·.handle) := by
    rw [Draft.select, hentries, List.filter_filter]
    refine congrArg (List.map _) (List.filter_congr fun e _ => ?_)
    cases e.node.isConstant <;> simp
  rw [hselect]
  decide

/-! ### Tensors that are read -/

/-- A substitution that covers for its match: what a node that is dropped has written for a node
that is there in the end is written by a node that is put in, and what a new node reads has a source
in the end. -/
structure Draft.Covers (d : Draft) (chain : Chain) (s : Substitution) : Prop where
  outputs : ∀ e ∈ d.entries, e.handle ∈ chain → e.handle ∉ s.kept → ∀ t ∈ e.node.outputs, t ≠ "" →
    (∃ o ∈ d.spliced chain s, t ∈ o.node.inputs) →
      ∃ o ∈ d.entriesFor d.fresh s.nodes, t ∈ o.node.outputs
  inputs : ∀ node, .insert node ∈ s.nodes → ∀ t ∈ node.inputs, t ≠ "" →
    d.isInput t ∨ d.isInitializer t ∨ t ∈ s.initializers.map (·.name) ∨ t ∈ d.sparseNames ∨
      ∃ o ∈ d.spliced chain s, t ∈ o.node.outputs

theorem Draft.isDefined_addInitializers {t : String} (d : Draft) (tensors : List Tensor) :
    (tensors.foldl Draft.addInitializer d).isDefined t ↔
      d.isDefined t ∨ t ∈ tensors.map (·.name) := by
  rw [foldl_addInitializer, isDefined_iff, isDefined_iff, isInitializer_iff, isInitializer_iff]
  show _ ∨ t ∈ (d.initializers ++ tensors).map (·.name) ∨ _ ∨ _ ↔ _
  rw [List.map_append, List.mem_append]
  show d.isInput t ∨ _ ∨ t ∈ d.sparseNames ∨ (∃ n ∈ d.nodes, t ∈ n.outputs) ↔ _
  simp only [or_assoc, or_comm (a := t ∈ tensors.map (·.name))]

/-- Where a substitution covers for its match, all that is read has a source once it has taken the
place, or gets one from its initializers. -/
theorem Draft.Splices.isDefined {d' : Draft} {e : Entry} {t : String}
    (hd' : d.Splices chain s d') (hcovers : d.Covers chain s) (hdangling : d.dangling = [])
    (he : e ∈ d'.entries) (ht : t ∈ e.node.inputs) (hne : t ≠ "") :
    d'.isDefined t ∨ t ∈ s.initializers.map (·.name) := by
  have hspliced : e ∈ d.spliced chain s := hd'.entries ▸ he
  have hwritten : (∃ o ∈ d.spliced chain s, t ∈ o.node.outputs) → d'.isDefined t := by
    rintro ⟨o, ho, hwrites⟩
    exact isDefined_of_mem (hd'.entries ▸ ho) hwrites
  have hbase : d.isInput t ∨ d.isInitializer t ∨ t ∈ d.sparseNames → d'.isDefined t := by
    rw [isDefined_iff]
    unfold isInput isInitializer sparseNames
    rw [hd'.frame, hd'.initializers]
    tauto
  have hold : e ∈ d.entries → d'.isDefined t := by
    intro he
    rcases isDefined_iff.1 (dangling_eq_nil_iff.1 hdangling _ (node_mem_nodes he) t ht hne) with
      h | h | h | ⟨n, hn, hwrites⟩
    · exact hbase (.inl h)
    · exact hbase (.inr (.inl h))
    · exact hbase (.inr (.inr h))
    · obtain ⟨o, ho, rfl⟩ := mem_nodes.1 hn
      by_cases hin : o.handle ∈ chain
      · by_cases hkept : o.handle ∈ s.kept
        · exact hwritten ⟨o, mem_spliced.2 (.inr (mem_entriesFor_of_kept ho hkept)), hwrites⟩
        -- another node has to write for the node that is dropped
        · obtain ⟨o', ho', hwrites'⟩ :=
            hcovers.outputs o ho hin hkept t hwrites hne ⟨e, hspliced, ht⟩
          exact hwritten ⟨o', mem_spliced.2 (.inr ho'), hwrites'⟩
      · exact hwritten ⟨o, mem_spliced.2 (.inl ⟨ho, hin⟩), hwrites⟩
  rcases mem_spliced.1 hspliced with ⟨he, -⟩ | he
  · exact .inl (hold he)
  · rcases mem_entriesFor he with he | hnew
    · exact .inl (hold he)
    · rcases hcovers.inputs e.node hnew t ht hne with h | h | h | h | h
      · exact .inl (hbase (.inl h))
      · exact .inl (hbase (.inr (.inl h)))
      · exact .inr h
      · exact .inl (hbase (.inr (.inr h)))
      · exact .inl (hwritten h)

/-- **A substitution that covers for its match leaves nothing dangling.** Where all that is read has
a source, shared tensors are protected and each constant writes one tensor, a substitution that has
nodes, that keeps nodes of its match, each once, and that covers for the match is carried out, and
then all that is read has a source again. -/
theorem substitute_resolves (index : Nat) (hprotect : options.protectShared = true)
    (hdangling : p.draft.dangling = []) (hnodup : chain.Nodup)
    (hmem : ∀ h ∈ chain, h ∈ p.draft.handles) (hnodes : s.nodes ≠ [])
    (hkept : ∀ h ∈ s.kept, h ∈ chain) (honce : s.kept.Nodup)
    (hconstants : ∀ e ∈ p.draft.spliced chain s, e.node.isConstant → e.node.outputs.length = 1)
    (hcovers : p.draft.Covers chain s) :
    ∃ q, (substitute options index chain s).run p = .ok () q ∧ q.draft.dangling = [] := by
  obtain ⟨q, d', dropped, hrun, hd', -, hq⟩ :=
    exists_splices options index hnodup hmem hnodes hkept honce
  rw [hprotect] at hq
  refine ⟨q, hrun, Draft.dangling_eq_nil_iff.2 fun n hn t ht hne => ?_⟩
  have hspares := d'.spares_removePrivateConstants (dropped.map (·.node))
  rw [hq, Draft.isDefined_addInitializers]
  -- the initializers that come are no nodes
  rw [hq, foldl_addInitializer] at hn
  obtain ⟨e, he, rfl⟩ := Draft.mem_nodes.1 hn
  refine (hd'.isDefined hcovers hdangling (hspares.entries he) ht hne).imp_left fun hdefined => ?_
  obtain ⟨source, hsource⟩ := Draft.isDefined_iff_defines.1 hdefined
  rw [← hd'.entries] at hconstants
  exact Draft.isDefined_iff_defines.2 ⟨source, hspares.defines hconstants hsource ⟨e, he, ht⟩⟩

/-- The new nodes write what the two nodes wrote that are dropped, and read an initializer that
comes with them. -/
theorem substitute_resolves_scattered :
    let p : Progress := { draft := .ofGraph scatteredGraph }
    let s := scatteredSubstitution
    p.draft.dangling = [] ∧ p.draft.Covers [⟨4⟩, ⟨1⟩, ⟨3⟩] s ∧
      ∃ q, (substitute {} 0 [⟨4⟩, ⟨1⟩, ⟨3⟩] s).run p = .ok () q ∧ q.draft.dangling = [] := by
  intro p s
  have hdangling : p.draft.dangling = [] := by decide
  have hcovers : p.draft.Covers [⟨4⟩, ⟨1⟩, ⟨3⟩] s := by
    refine ⟨by decide, fun node hnode => ?_⟩
    simp only [s, scatteredSubstitution, List.mem_cons, Replacement.insert.injEq, reduceCtorEq,
      List.not_mem_nil, or_false, false_or] at hnode
    rcases hnode with rfl | rfl <;> decide
  exact ⟨hdangling, hcovers, substitute_resolves 0 rfl hdangling (by decide) (by decide)
    (List.cons_ne_nil _ _) (by decide) (by decide) (by decide) hcovers⟩

end

end OpGraph
