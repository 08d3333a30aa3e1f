import OpGraph.Proofs.Mutations

/-!
# Handles are never reused

Whatever is done to a draft, a node that is new in it has a handle that had not
been given out before. A pass also takes nodes out and puts some of them back
under the handles that they had, while it and its rule put in new ones, and it
may stop on the way: what it puts in are nodes that it has taken out and new
ones (`PutsIn.mem_handles`), so that every step of a pass leaves a draft that
comes after the one before it, whether it fails or not (`PassM.Advances`). The
relation is transitive, so that it holds along every run
(`Draft.handles_never_reused`).
-/

namespace OpGraph

/-! ### Steps of a pass -/

namespace PassM

variable {α β : Type} {x : PassM α} {f : α → PassM β} {p : Progress}

/-- The draft that a step leaves, whether it fails or not. -/
def leaves (x : PassM α) (p : Progress) : Draft :=
  match x.run p with
  | .ok _ q | .error _ q => q.draft

theorem leaves_of_ok {a : α} {q : Progress} (h : x.run p = .ok a q) : x.leaves p = q.draft := by
  rw [leaves, h]

theorem leaves_of_error {e : Error} {q : Progress} (h : x.run p = .error e q) :
    x.leaves p = q.draft := by
  rw [leaves, h]

theorem leaves_bind_of_ok {a : α} {q : Progress} (h : x.run p = .ok a q) :
    (x >>= f).leaves p = (f a).leaves q := by
  rw [leaves, run_bind_of_ok h, leaves]

/-- What holds of the draft that one step leaves and is kept by the next one holds of what both
leave: where the first step fails, the other is not taken. -/
theorem leaves_bind (motive : Draft → Prop) (hx : motive (x.leaves p))
    (hf : ∀ a q, x.run p = .ok a q → motive q.draft → motive ((f a).leaves q)) :
    motive ((x >>= f).leaves p) := by
  cases hrun : x.run p with
  | ok a q =>
    rw [leaves_bind_of_ok hrun]
    rw [leaves_of_ok hrun] at hx
    exact hf a q hrun hx
  | error e q =>
    rw [leaves_of_error (run_bind_of_error hrun)]
    rwa [leaves_of_error hrun] at hx

theorem leaves_check {e : Except Error α} : (check e).leaves p = p.draft := by
  cases e <;> rfl

/-- Whether it fails or not, a step leaves a draft that comes after the one before it. -/
def Advances (x : PassM α) : Prop :=
  ∀ p : Progress, p.draft.ComesAfter (x.leaves p)

theorem Advances.bind (hx : x.Advances) (hf : ∀ a, (f a).Advances) : (x >>= f).Advances :=
  fun p => leaves_bind p.draft.ComesAfter (hx p) fun a q _ hq => hq.trans (hf a q)

/-- A step that does not touch the draft. -/
theorem Advances.of_leaves_eq (h : ∀ p, x.leaves p = p.draft) : x.Advances := fun p => by
  rw [h p]
  exact .refl _

theorem advances_pure (a : α) : (pure a : PassM α).Advances := .of_leaves_eq fun _ => rfl

theorem advances_draft : draft.Advances := .of_leaves_eq fun _ => rfl

theorem advances_count (f : Tally → Tally) : (count f).Advances := .of_leaves_eq fun _ => rfl

theorem advances_note (notices : List Notice) : (note notices).Advances :=
  .of_leaves_eq fun _ => rfl

theorem advances_check (e : Except Error α) : (check e).Advances :=
  .of_leaves_eq fun _ => leaves_check

/-- A bind succeeds only where both its steps do. -/
theorem exists_of_run_bind {b : β} {r : Progress} (h : (x >>= f).run p = .ok b r) :
    ∃ a q, x.run p = .ok a q ∧ (f a).run q = .ok b r := by
  cases hrun : x.run p with
  | ok a q =>
    rw [run_bind_of_ok hrun] at h
    exact ⟨a, q, rfl, h⟩
  | error e q =>
    rw [run_bind_of_error hrun] at h
    cases h

end PassM

open PassM

section

variable {options : PassOptions} {index position : Nat} {chain : Chain} {p : Progress} {d : Draft}
  {s : Substitution} {rule : Rule} {rule? : Option Rule}

/-! ### Taking nodes out and putting them back -/

/-- Taking nodes out trims a draft, whether all of them are there or not. -/
theorem trims_takeOut (chain : Chain) (p : Progress) :
    p.draft.Trims ((takeOut chain).leaves p) := by
  induction chain generalizing p with
  | nil => exact .refl _
  | cons h chain ih =>
    rw [takeOut, leaves_bind_of_ok (run_draft p)]
    cases p.draft.node? h with
    | none => exact .refl _
    | some node =>
      have htrims : p.draft.Trims (p.draft.remove h) := .keepEntries _ _
      dsimp only
      rw [leaves_bind_of_ok (run_setDraft p _)]
      exact leaves_bind p.draft.Trims (htrims.trans (ih { p with draft := p.draft.remove h }))
        fun _ _ _ hleft => hleft

/-- Nodes that can be put into a draft under their handles: these are given out, and no node of the
draft has them, nor do two of the nodes have the same. -/
structure Draft.Restorable (d : Draft) (taken : List Entry) : Prop where
  nodup : (taken.map (·.handle)).Nodup
  absent : ∀ e ∈ taken, e.handle ∉ d.handles
  lt_fresh : ∀ e ∈ taken, e.handle.index < d.fresh

/-- The nodes of a chain are taken out where its first node is there and the others are taken out
after it. -/
theorem exists_of_takeOut_cons {h : Handle} {taken : List Entry} {q : Progress}
    (hrun : (takeOut (h :: chain)).run p = .ok taken q) :
    ∃ node rest, p.draft.node? h = some node ∧
      (takeOut chain).run { p with draft := p.draft.remove h } = .ok rest q ∧
      taken = ⟨h, node⟩ :: rest := by
  rw [takeOut, run_bind_of_ok (run_draft p)] at hrun
  cases hnode : p.draft.node? h with
  | none =>
    rw [hnode] at hrun
    cases hrun
  | some node =>
    rw [hnode] at hrun
    dsimp only at hrun
    rw [run_bind_of_ok (run_setDraft p _)] at hrun
    obtain ⟨rest, q', hlater, hpure⟩ := exists_of_run_bind hrun
    cases hpure
    exact ⟨node, rest, rfl, hlater, rfl⟩

/-- What was taken out of a draft can be put back into it. -/
theorem restorable_of_takeOut {taken : List Entry} {q : Progress}
    (hrun : (takeOut chain).run p = .ok taken q) :
    taken.map (·.handle) = chain ∧ (∀ e ∈ taken, e ∈ p.draft.entries) ∧
      q.draft.Restorable taken := by
  induction chain generalizing p taken with
  | nil =>
    cases hrun
    exact ⟨rfl, by simp, List.nodup_nil, by simp, by simp⟩
  | cons h chain ih =>
    have htrims := trims_takeOut (h :: chain) p
    rw [leaves_of_ok hrun] at htrims
    obtain ⟨node, rest, hnode, hlater, rfl⟩ := exists_of_takeOut_cons hrun
    have hentry : (⟨h, node⟩ : Entry) ∈ p.draft.entries := Draft.node?_eq_some_iff.1 hnode
    obtain ⟨hhandles, hmem, hrest⟩ := ih hlater
    have hlatertrims := trims_takeOut chain { p with draft := p.draft.remove h }
    rw [leaves_of_ok hlater] at hlatertrims
    -- the other nodes come from the draft without this one
    have hne : ∀ e ∈ rest, e ∈ p.draft.entries ∧ e.handle ≠ h := fun e he => by
      simpa [Draft.remove, Draft.keepEntries] using hmem e he
    have hgone : h ∉ q.draft.handles := fun hleft =>
      (Draft.mem_handles_remove.1 (hlatertrims.mem_handles hleft)).2 rfl
    refine ⟨by rw [List.map_cons, hhandles], ?_, ?_, ?_, ?_⟩
    · exact List.forall_mem_cons.2 ⟨hentry, fun e he => (hne e he).1⟩
    · rw [List.map_cons, List.nodup_cons]
      refine ⟨fun hh => ?_, hrest.nodup⟩
      obtain ⟨e, he, heq⟩ := List.mem_map.1 hh
      exact (hne e he).2 heq
    · exact List.forall_mem_cons.2 ⟨hgone, hrest.absent⟩
    · refine List.forall_mem_cons.2 ⟨?_, hrest.lt_fresh⟩
      rw [htrims.fresh]
      exact p.draft.handle_lt_fresh _ hentry

namespace Draft

variable {taken : List Entry}

theorem mem_handles_insertAt {node : Node} {h : Handle} :
    h ∈ (d.insertAt position node).handles ↔ h.index = d.fresh ∨ h ∈ d.handles := by
  have hnext : d.next = h ↔ h.index = d.fresh := by
    cases h
    simp [next, eq_comm]
  simp [handles, insertAt, hnext]

/-- A node that can be put into a draft gets its place there. -/
theorem entries_restoreAt {e : Entry} (habsent : e.handle ∉ d.handles)
    (hlt : e.handle.index < d.fresh) :
    (d.restoreAt position e).entries = placeAt d.entries position e := by
  have hguard : (∀ o ∈ d.entries, o.handle ≠ e.handle) ∧ e.handle.index < d.fresh :=
    ⟨fun o ho heq => habsent (heq ▸ List.mem_map_of_mem ho), hlt⟩
  rw [restoreAt, dif_pos hguard]

theorem mem_handles_restoreAt {e : Entry} (habsent : e.handle ∉ d.handles)
    (hlt : e.handle.index < d.fresh) {h : Handle} :
    h ∈ (d.restoreAt position e).handles ↔ h = e.handle ∨ h ∈ d.handles := by
  rw [handles, entries_restoreAt habsent hlt]
  simp [handles, eq_comm]

theorem fresh_restoreAt (d : Draft) (position : Nat) (e : Entry) :
    (d.restoreAt position e).fresh = d.fresh := by
  unfold restoreAt
  split <;> rfl

theorem frame_restoreAt (d : Draft) (position : Nat) (e : Entry) :
    (d.restoreAt position e).frame = d.frame := by
  unfold restoreAt
  split <;> rfl

theorem initializers_restoreAt (d : Draft) (position : Nat) (e : Entry) :
    (d.restoreAt position e).initializers = d.initializers := by
  unfold restoreAt
  split <;> rfl

theorem Restorable.insertAt (hrest : d.Restorable taken) (position : Nat) (node : Node) :
    (d.insertAt position node).Restorable taken where
  nodup := hrest.nodup
  absent e he hmem := by
    rcases mem_handles_insertAt.1 hmem with heq | hmem
    · exact absurd heq (Nat.ne_of_lt (hrest.lt_fresh e he))
    · exact hrest.absent e he hmem
  lt_fresh e he := Nat.lt_succ_of_lt (hrest.lt_fresh e he)

theorem Restorable.restoreAt {e : Entry} {rest : List Entry} (hrest : d.Restorable (e :: rest))
    (position : Nat) : (d.restoreAt position e).Restorable rest where
  nodup := (List.nodup_cons.1 hrest.nodup).2
  absent o ho hmem := by
    rcases (mem_handles_restoreAt (hrest.absent e List.mem_cons_self)
      (hrest.lt_fresh e List.mem_cons_self)).1 hmem with heq | hmem
    · exact (List.nodup_cons.1 hrest.nodup).1 (List.mem_map.2 ⟨o, ho, heq⟩)
    · exact hrest.absent o (List.mem_cons_of_mem _ ho) hmem
  lt_fresh o ho := by
    rw [fresh_restoreAt]
    exact hrest.lt_fresh o (List.mem_cons_of_mem _ ho)

theorem Restorable.perm {taken' : List Entry} (hrest : d.Restorable taken)
    (hperm : taken'.Perm taken) : d.Restorable taken' where
  nodup := (hperm.map _).nodup_iff.2 hrest.nodup
  absent e he := hrest.absent e (hperm.mem_iff.1 he)
  lt_fresh e he := hrest.lt_fresh e (hperm.mem_iff.1 he)

end Draft

/-- How the nodes of a substitution are put in from a position on, among those that were taken out
and not put back yet: a node that is kept leaves them, and a new node is counted. -/
inductive PutsIn : Nat → Progress → List Entry → List Replacement → List String → List Entry →
    Progress → Prop
  | nil (position : Nat) (p : Progress) (taken : List Entry) : PutsIn position p taken [] [] taken p
  | insert {position : Nat} {p q : Progress} {taken left : List Entry} {nodes : List Replacement}
      {labels : List String} (node : Node)
      (hrest : PutsIn (position + 1) { p with
        draft := p.draft.insertAt position node
        tally := { p.tally with nodesInserted := p.tally.nodesInserted + 1 } } taken nodes labels
        left q) : PutsIn position p taken (.insert node :: nodes) (node.label :: labels) left q
  | keep {position : Nat} {p q : Progress} {taken others left : List Entry}
      {nodes : List Replacement} {labels : List String} (e : Entry)
      (hperm : (e :: others).Perm taken)
      (hrest : PutsIn (position + 1) { p with draft := p.draft.restoreAt position e } others nodes
        labels left q) :
      PutsIn position p taken (.keep e.handle :: nodes) (e.node.label :: labels) left q

theorem putsIn_of_run {nodes : List Replacement} {r : List String × List Entry}
    (hrun : (putIn index position taken nodes).run p = .ok r q) :
    PutsIn position p taken nodes r.1 r.2 q := by
  induction nodes generalizing position taken p r with
  | nil =>
    cases hrun
    exact .nil _ _ _
  | cons replacement nodes ih =>
    cases replacement with
    | insert node =>
      rw [putIn, run_bind_of_ok (run_draft p), run_bind_of_ok (run_setDraft _ _),
        run_bind_of_ok (run_count _ _)] at hrun
      obtain ⟨r', q', hlater, hpure⟩ := exists_of_run_bind hrun
      cases hpure
      exact .insert node (ih hlater)
    | keep h =>
      rw [putIn] at hrun
      cases hslot : taken.findIdx? fun e => e.handle = h with
      | none =>
        rw [hslot] at hrun
        cases hrun
      | some slot =>
        obtain ⟨hlt, hhandle, -⟩ := List.findIdx?_eq_some_iff_getElem.1 hslot
        obtain rfl : taken[slot].handle = h := by simpa using hhandle
        have hget : taken[slot]? = some taken[slot] := List.getElem?_eq_getElem hlt
        rw [hslot] at hrun
        dsimp only at hrun
        rw [hget] at hrun
        dsimp only at hrun
        rw [run_bind_of_ok (run_draft p), run_bind_of_ok (run_setDraft _ _)] at hrun
        obtain ⟨r', q', hlater, hpure⟩ := exists_of_run_bind hrun
        cases hpure
        exact .keep taken[slot] (cons_swapErase_perm hget) (ih hlater)

/-- What a substitution puts in are the nodes that it keeps, all of them, and new nodes under the
handles that are given out meanwhile. -/
theorem PutsIn.mem_handles {taken left : List Entry} {nodes : List Replacement}
    {labels : List String} {q : Progress} (hputs : PutsIn position p taken nodes labels left q)
    (hrest : p.draft.Restorable taken) :
    p.draft.fresh ≤ q.draft.fresh ∧
      ∀ h, h ∈ q.draft.handles ↔ h ∈ p.draft.handles ∨ h ∈ ({ nodes } : Substitution).kept ∨
        p.draft.fresh ≤ h.index ∧ h.index < q.draft.fresh := by
  induction hputs with
  | nil position p taken =>
    refine ⟨Nat.le_refl _, fun h => ?_⟩
    have hnone : ¬ (p.draft.fresh ≤ h.index ∧ h.index < p.draft.fresh) := by omega
    simp [Substitution.kept, hnone]
  | @insert position p q taken left nodes labels node _ ih =>
    have hkept : ({ nodes := .insert node :: nodes } : Substitution).kept =
        ({ nodes } : Substitution).kept := rfl
    obtain ⟨hle, hmem⟩ := ih (hrest.insertAt position node)
    have hle : p.draft.fresh + 1 ≤ q.draft.fresh := hle
    refine ⟨by omega, fun h => ?_⟩
    have hfresh : (h.index = p.draft.fresh ∨
          p.draft.fresh + 1 ≤ h.index ∧ h.index < q.draft.fresh) ↔
        p.draft.fresh ≤ h.index ∧ h.index < q.draft.fresh := by omega
    rw [hmem h, Draft.mem_handles_insertAt, hkept, ← hfresh]
    show (h.index = p.draft.fresh ∨ _) ∨ _ ∨ p.draft.fresh + 1 ≤ h.index ∧ _ ↔ _
    rw [or_comm (b := h ∈ p.draft.handles), or_assoc, or_left_comm (a := h.index = p.draft.fresh)]
  | @keep position p q taken others left nodes labels e hperm _ ih =>
    have hkept : ({ nodes := .keep e.handle :: nodes } : Substitution).kept =
        e.handle :: ({ nodes } : Substitution).kept := rfl
    have hfirst := hrest.perm hperm
    obtain ⟨hle, hmem⟩ := ih (hfirst.restoreAt position)
    dsimp only at hle hmem
    rw [Draft.fresh_restoreAt] at hle hmem
    refine ⟨hle, fun a => ?_⟩
    rw [hmem a, Draft.mem_handles_restoreAt (hfirst.absent _ List.mem_cons_self)
      (hfirst.lt_fresh _ List.mem_cons_self), hkept, List.mem_cons, or_assoc, or_assoc,
      or_left_comm]

/-! ### Substitutions -/

/-- Initializers come one by one. -/
theorem foldl_addInitializer (tensors : List Tensor) (d : Draft) :
    tensors.foldl Draft.addInitializer d =
      Mutation.apply d (.setInitializers (d.initializers ++ tensors)) := by
  induction tensors generalizing d with
  | nil => simp [Mutation.apply]
  | cons t tensors ih => simp [ih, Mutation.apply, Draft.addInitializer]

theorem comesAfter_dropAndAdd (options : PassOptions) (s : Substitution) (dropped : List Entry)
    (p : Progress) : p.draft.ComesAfter ((dropAndAdd options s dropped).leaves p) := by
  rw [dropAndAdd, leaves_bind_of_ok run_removeConstantsOf]
  refine (Draft.ComesAfter.of_trims (Draft.trims_removePrivateConstants p.draft
    (dropped.map (·.node)) options.protectShared)).trans ?_
  show Draft.ComesAfter _ (s.initializers.foldl Draft.addInitializer _)
  rw [foldl_addInitializer]
  exact Draft.comesAfter_mutation _ _

theorem trims_bypassChain (index : Nat) (labels : List String) (taken : List Entry)
    (first last : Node) (p : Progress) :
    p.draft.Trims ((bypassChain index labels taken first last).leaves p) := by
  refine leaves_bind p.draft.Trims ?_ fun u q _ htrims => ?_
  · rw [leaves_check]
    exact .refl _
  · rw [leaves_bind_of_ok (run_draft q)]
    exact htrims.trans (Draft.trims_bypass q.draft first last)

/-- With the nodes that were taken out of an earlier draft, some of them put back. -/
theorem comesAfter_refill {taken : List Entry} (options : PassOptions) (index position : Nat)
    (labels : List String) (hafter : d.ComesAfter p.draft) (hrest : p.draft.Restorable taken)
    (htaken : ∀ h ∈ taken.map (·.handle), h ∈ d.handles)
    (hkept : ∀ h ∈ s.kept, h ∈ taken.map (·.handle)) (hnodup : s.kept.Nodup) :
    d.ComesAfter ((refill options index labels position s taken).leaves p) := by
  unfold refill
  split
  · split
    case h_1 first last _ _ =>
      refine leaves_bind d.ComesAfter ?_ fun u q _ hq => ?_
      · exact hafter.trans (.of_trims (trims_bypassChain index labels taken first.node last.node p))
      · exact hq.trans (comesAfter_dropAndAdd options s taken q)
    case h_2 => exact hafter
  · obtain ⟨r, q, hput, -⟩ := putIn_of_kept index position (p := p) hkept hnodup
    obtain ⟨hle, hmem⟩ := (putsIn_of_run hput).mem_handles hrest
    rw [leaves_bind_of_ok hput]
    have hq : d.ComesAfter q.draft := by
      refine ⟨hafter.fresh_le.trans hle, fun h hh hnot => ?_⟩
      rcases (hmem h).1 hh with hh | hh | hh
      · exact hafter.fresh_le_index h hh hnot
      · exact absurd (htaken h (hkept h hh)) hnot
      · exact hafter.fresh_le.trans hh.1
    exact hq.trans (comesAfter_dropAndAdd options s r.2 _)

theorem checkKept_of_checkSubstitution (h : d.checkSubstitution index chain s = .ok ()) :
    d.checkKept index chain [] s.kept = .ok () := by
  unfold Draft.checkSubstitution at h
  cases hkept : d.checkKept index chain [] s.kept with
  | ok u => rfl
  | error e =>
    rw [hkept] at h
    cases h

/-- A substitution is put in under old handles of its own match and under new ones, or it stops
before that. -/
theorem advances_substitute (options : PassOptions) (index : Nat) (chain : Chain)
    (s : Substitution) : (substitute options index chain s).Advances := by
  intro p
  have hrun : (substitute options index chain s).run p = _ := run_substitute
  cases hcheck : p.draft.checkSubstitution index chain s with
  | error e =>
    rw [hcheck] at hrun
    rw [leaves_of_error hrun]
    exact .refl _
  | ok u =>
    rw [hcheck] at hrun
    rw [leaves, hrun]
    obtain ⟨hkept, hnodup, -⟩ := Draft.checkKept_eq_ok_iff.1 (checkKept_of_checkSubstitution hcheck)
    refine leaves_bind p.draft.ComesAfter (.of_trims (trims_takeOut chain p))
      fun taken q htake hafter => ?_
    obtain ⟨hhandles, hmem, hrest⟩ := restorable_of_takeOut htake
    refine comesAfter_refill options index _ _ hafter hrest ?_ ?_ hnodup
    · intro h hh
      obtain ⟨e, he, rfl⟩ := List.mem_map.1 hh
      exact List.mem_map_of_mem (hmem e he)
    · rw [hhandles]
      exact hkept

/-! ### Passes -/

theorem advances_consult (hrule : rule.Mutates) (index : Nat) (chain : Chain) :
    (consult rule index chain).Advances := by
  intro p
  have hafter := hrule.comesAfter index chain p.draft
  cases hproposed : rule index chain p.draft with
  | ok s d =>
    rw [leaves_of_ok (run_consult_of_ok hproposed)]
    rwa [Rule.leaves, hproposed] at hafter
  | error e d =>
    rw [leaves_of_error (run_consult_of_error hproposed)]
    rwa [Rule.leaves, hproposed] at hafter

/-- The matches are handled one after the other, up to the first that fails. -/
theorem advances_handleMatches (options : PassOptions) (hrule : ∀ rule ∈ rule?, rule.Mutates)
    (index : Nat) (chains : List Chain) : (handleMatches options rule? index chains).Advances := by
  induction chains generalizing index with
  | nil => exact advances_pure ()
  | cons chain chains ih =>
    unfold handleMatches
    refine .bind advances_draft fun d => .bind (advances_check _) fun _ => ?_
    cases rule? with
    | none =>
      refine .bind (advances_pure _) fun s => ?_
      exact .bind (advances_substitute options index chain s) fun _ => ih (index + 1)
    | some rule =>
      refine .bind (advances_consult (hrule rule rfl) index chain) fun s => ?_
      exact .bind (advances_substitute options index chain s) fun _ => ih (index + 1)

theorem advances_removeDead : removeDead.Advances := fun p =>
  .of_trims (Draft.trims_withoutDead p.draft)

theorem advances_runPass (options : PassOptions) (pattern : Pattern)
    (hrule : ∀ rule ∈ rule?, rule.Mutates) : (runPass options pattern rule?).Advances := by
  have hend : (do
      if options.cleanupAfter then
        let removed ← removeDead
        count fun t => { t with cleanup := removed }
        note [.event (.cleanedUp removed)] : PassM Unit).Advances := by
    split
    · refine .bind advances_removeDead fun removed => ?_
      exact .bind (advances_count _) fun _ => advances_note _
    · exact advances_pure ()
  unfold runPass
  refine .bind advances_draft fun d => .bind (advances_note _) fun _ => ?_
  refine .bind (advances_check _) fun _ => ?_
  have hmatches (chains : List Chain) : (handleMatches options rule? 0 chains).Advances :=
    advances_handleMatches options hrule 0 chains
  dsimp only
  by_cases hnone : rule?.isNone
  · rw [if_pos hnone]
    refine .bind (advances_check _) fun _ => ?_
    exact .bind (advances_count _) fun _ => .bind (hmatches _) fun _ => hend
  · rw [if_neg hnone]
    exact .bind (advances_count _) fun _ => .bind (hmatches _) fun _ => hend

end

/-! ### Runs -/

namespace Draft

/-- A pass over a draft leaves what its steps leave. -/
theorem draft_runPass (d : Draft) (options : PassOptions) (pattern : Pattern)
    (rule? : Option Rule) : (d.runPass options pattern rule?).1.draft =
      (OpGraph.runPass options pattern rule?).leaves { draft := d } := by
  rw [runPass, leaves, EStateM.run]
  cases OpGraph.runPass options pattern rule? { draft := d } <;> rfl

theorem comesAfter_runPass (d : Draft) (options : PassOptions) (pattern : Pattern)
    {rule? : Option Rule} (hrule : ∀ rule ∈ rule?, rule.Mutates) :
    d.ComesAfter (d.runPass options pattern rule?).1.draft := by
  rw [draft_runPass]
  exact advances_runPass options pattern hrule { draft := d }

/-- One step of a run: a mutation, a cleanup, or a pass, which may fail, with a rule that changes
the draft by mutations. -/
inductive Step (d : Draft) : Draft → Prop
  | mutation (m : Mutation) : Step d (m.apply d)
  | cleanup : Step d d.withoutDead
  | pass (options : PassOptions) (pattern : Pattern) (rule? : Option Rule)
      (hrule : ∀ rule ∈ rule?, rule.Mutates) : Step d (d.runPass options pattern rule?).1.draft

theorem Step.comesAfter {d d' : Draft} (hstep : d.Step d') : d.ComesAfter d' := by
  cases hstep with
  | mutation m => exact d.comesAfter_mutation m
  | cleanup => exact .of_trims (trims_withoutDead d)
  | pass options pattern rule? hrule => exact d.comesAfter_runPass options pattern hrule

/-- **Handles are never reused.** Along every run that starts from a graph, whether its passes
succeed or fail, the handles of every draft are distinct and have been given out; no step takes back
that a handle was given out, and the nodes that are new after a step have handles that were given
out in this step; and a handle that was given out and has no node in a draft has none in any later
one. -/
theorem handles_never_reused {g : Graph} {drafts : List Draft}
    (hrun : (ofGraph g :: drafts).IsChain Step) :
    (∀ d ∈ ofGraph g :: drafts, d.handles.Nodup ∧ ∀ h ∈ d.handles, h.index < d.fresh) ∧
      (ofGraph g :: drafts).IsChain (fun d d' => d.fresh ≤ d'.fresh ∧
        ∀ h ∈ d'.handles, h ∉ d.handles → d.fresh ≤ h.index ∧ h.index < d'.fresh) ∧
      (ofGraph g :: drafts).Pairwise fun d d' =>
        ∀ h : Handle, h.index < d.fresh → h ∉ d.handles → h ∉ d'.handles := by
  have hlt (d : Draft) : ∀ h ∈ d.handles, h.index < d.fresh := by
    simpa [handles] using d.handle_lt_fresh
  have hafter : (ofGraph g :: drafts).IsChain ComesAfter := hrun.imp fun _ _ => Step.comesAfter
  refine ⟨fun d _ => ⟨d.handles_nodup, hlt d⟩, hafter.imp fun d d' h => ⟨h.fresh_le, ?_⟩, ?_⟩
  · exact fun a ha hnot => ⟨h.fresh_le_index a ha hnot, hlt d' a ha⟩
  · exact (List.isChain_iff_pairwise.1 hafter).imp fun h _ => h.not_mem_handles

/-- A recipe that puts a new node in the place of the first node of its match. -/
def swappingRecipe : Recipe where
  nodes := [.insert { op := .plain "Gelu" }, .keep (.inChain 1)]

/-- A recipe that adds a node and then fails. -/
def failingRecipe : Recipe where
  edits := [.add { op := .plain "Neg" }]
  failure := some "rule"

/-- A pass puts a new node in the place of one and then fails, another node is removed, and the
draft is cleaned up: neither node has come back. -/
theorem handles_never_reused_paired :
    let d := ofGraph pairedGraph
    let run := d.runPass {} pairPattern (some (Recipe.rule [swappingRecipe, failingRecipe]))
    let drafts := [run.1.draft, run.1.draft.remove ⟨2⟩, (run.1.draft.remove ⟨2⟩).withoutDead]
    (d :: drafts).IsChain Step ∧ run.2 = .error (.missingField "rule") ∧
      run.1.draft.handles = [⟨4⟩, ⟨1⟩, ⟨2⟩, ⟨3⟩, ⟨5⟩] ∧
      ⟨0⟩ ∉ (run.1.draft.remove ⟨2⟩).withoutDead.handles ∧
      ⟨2⟩ ∉ (run.1.draft.remove ⟨2⟩).withoutDead.handles := by
  intro d run drafts
  have hrun : run = _ :=
    runPass_some_of_nodup _ (by rw [findAll_pairedGraph]; decide)
  rw [findAll_pairedGraph] at hrun
  have hresult : run.2 = .error (.missingField "rule") := by rw [hrun]; rfl
  have hhandles : run.1.draft.handles = [⟨4⟩, ⟨1⟩, ⟨2⟩, ⟨3⟩, ⟨5⟩] := by rw [hrun]; decide +kernel
  have hfresh : run.1.draft.fresh = 6 := by rw [hrun]; decide +kernel
  have hchain : (d :: drafts).IsChain Step := by
    refine .cons_cons ?_ (.cons_cons (.mutation (.remove ⟨2⟩)) (.cons_cons .cleanup (.singleton _)))
    refine .pass {} pairPattern _ fun rule hrule => ?_
    obtain rfl := Option.mem_some.1 hrule
    exact Recipe.mutates_rule _
  refine ⟨hchain, hresult, hhandles, ?_⟩
  obtain ⟨-, -, hgone⟩ := handles_never_reused hchain
  -- what the pass has left is all that matters from here on
  clear hrun hchain hresult
  clear_value run
  have hlater := List.pairwise_cons.1 (List.pairwise_cons.1 hgone).2
  have hremoved := (List.pairwise_cons.1 hlater.2).1
  constructor
  · refine hlater.1 _ (by simp) ⟨0⟩ (by rw [hfresh]; decide) ?_
    rw [hhandles]
    decide
  · refine hremoved _ (List.mem_singleton_self _) ⟨2⟩ ?_ fun hmem =>
      (mem_handles_remove.1 hmem).2 rfl
    show 2 < run.1.draft.fresh
    rw [hfresh]
    decide

end Draft

end OpGraph
