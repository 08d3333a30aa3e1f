import Mathlib.Data.List.Forall2
import OpGraph.Pass.Run
import OpGraph.Proofs.Entries

/-!
# What deletions leave as it was

A deletion takes nodes and initializers out and renames tensors; it does nothing
else. A node is *rewired* where names among its inputs and outputs have become
others, none of them from or to the empty name (`Node.Rewired`), and a draft is
*trimmed* where its entries are rewired ones of a sublist and its initializers
are a sublist (`Draft.Trims`). Both relations are transitive, so that it is
enough to look at one edit at a time.
-/

namespace OpGraph

/-! ### Rewired nodes -/

theorem exists_of_forall₂_of_mem {α β : Type} {r : α → β → Prop} {l : List α} {m : List β} {b : β}
    (h : List.Forall₂ r l m) (hb : b ∈ m) : ∃ a ∈ l, r a b := by
  induction h with
  | nil => cases hb
  | cons hr _ ih =>
    rcases List.mem_cons.1 hb with rfl | hb
    · exact ⟨_, List.mem_cons_self, hr⟩
    · obtain ⟨a, ha, hr⟩ := ih hb
      exact ⟨a, List.mem_cons_of_mem _ ha, hr⟩

/-- Another name in the place of a name: an empty name stays empty, and no other becomes so. -/
def SameEmptiness (t t' : String) : Prop :=
  t' = "" ↔ t = ""

/-- A node with other names among its inputs and outputs. -/
structure Node.Rewired (n n' : Node) : Prop where
  fields : n' = { n with inputs := n'.inputs, outputs := n'.outputs }
  inputs : List.Forall₂ SameEmptiness n.inputs n'.inputs
  outputs : List.Forall₂ SameEmptiness n.outputs n'.outputs

theorem forall₂_sameEmptiness_refl (names : List String) :
    List.Forall₂ SameEmptiness names names :=
  List.forall₂_same.2 fun _ _ => Iff.rfl

theorem forall₂_sameEmptiness_trans {a b c : List String} (hab : List.Forall₂ SameEmptiness a b)
    (hbc : List.Forall₂ SameEmptiness b c) : List.Forall₂ SameEmptiness a c := by
  induction hab generalizing c with
  | nil => exact hbc
  | cons h _ ih =>
    cases hbc with
    | cons h' hbc => exact .cons (h'.trans h) (ih hbc)

theorem forall₂_renameIn (names : List String) {source target : String} (hsource : source ≠ "")
    (htarget : target ≠ "") :
    List.Forall₂ SameEmptiness names (renameIn names source target) := by
  rw [renameIn, List.forall₂_map_right_iff, List.forall₂_same]
  intro t _
  unfold SameEmptiness
  split
  · subst t
    simp [hsource, htarget]
  · exact Iff.rfl

namespace Node.Rewired

variable {n n' n'' : Node}

theorem refl (n : Node) : n.Rewired n where
  fields := by cases n; rfl
  inputs := forall₂_sameEmptiness_refl _
  outputs := forall₂_sameEmptiness_refl _

theorem trans (h : n.Rewired n') (h' : n'.Rewired n'') : n.Rewired n'' where
  fields := by
    rw [h'.fields, h.fields]
  inputs := forall₂_sameEmptiness_trans h.inputs h'.inputs
  outputs := forall₂_sameEmptiness_trans h.outputs h'.outputs

theorem op_eq (h : n.Rewired n') : n'.op = n.op := by
  rw [h.fields]

theorem isConstant_eq (h : n.Rewired n') : n'.isConstant = n.isConstant := by
  rw [isConstant, isConstant, h.op_eq]

theorem label_eq (h : n.Rewired n') : n'.label = n.label := by
  rw [h.fields]
  rfl

theorem inputs_length (h : n.Rewired n') : n'.inputs.length = n.inputs.length :=
  h.inputs.length_eq.symm

theorem outputs_length (h : n.Rewired n') : n'.outputs.length = n.outputs.length :=
  h.outputs.length_eq.symm

theorem renameInput (n : Node) {source target : String} (hsource : source ≠ "")
    (htarget : target ≠ "") : n.Rewired (n.renameInput source target) :=
  ⟨rfl, forall₂_renameIn _ hsource htarget, forall₂_sameEmptiness_refl _⟩

theorem renameOutput (n : Node) {source target : String} (hsource : source ≠ "")
    (htarget : target ≠ "") : n.Rewired (n.renameOutput source target) :=
  ⟨rfl, forall₂_sameEmptiness_refl _, forall₂_renameIn _ hsource htarget⟩

end Node.Rewired

/-- An entry comes from another one under the same handle. -/
def Entry.RewiredFrom (e' e : Entry) : Prop :=
  e'.handle = e.handle ∧ e.node.Rewired e'.node

instance : Std.Refl Entry.RewiredFrom :=
  ⟨fun e => ⟨rfl, .refl e.node⟩⟩

instance : IsTrans Entry Entry.RewiredFrom :=
  ⟨fun _ _ _ h h' => ⟨h.1.trans h'.1, h'.2.trans h.2⟩⟩

/-! ### Trimmed drafts -/

namespace Draft

/-- A draft with entries and initializers left out and with entries rewired. -/
structure Trims (d d' : Draft) : Prop where
  entries : List.SublistForall₂ Entry.RewiredFrom d'.entries d.entries
  initializers : d'.initializers.Sublist d.initializers
  frame : d'.frame = d.frame
  fresh : d'.fresh = d.fresh

variable {d d' d'' : Draft}

namespace Trims

theorem refl (d : Draft) : d.Trims d :=
  ⟨Std.Refl.refl _, List.Sublist.refl _, rfl, rfl⟩

theorem trans (h : d.Trims d') (h' : d'.Trims d'') : d.Trims d'' :=
  ⟨IsTrans.trans _ _ _ h'.entries h.entries, h'.initializers.trans h.initializers,
    h'.frame.trans h.frame, h'.fresh.trans h.fresh⟩

theorem keepEntries (d : Draft) (keep : Entry → Bool) : d.Trims (d.keepEntries keep) :=
  ⟨List.filter_sublist.sublistForall₂, List.Sublist.refl _, rfl, rfl⟩

theorem keepInitializers (d : Draft) (keep : Tensor → Bool) :
    d.Trims (d.keepInitializers keep) :=
  ⟨Std.Refl.refl _, List.filter_sublist, rfl, rfl⟩

theorem mapNodes (d : Draft) {f : Entry → Node} (h : ∀ e ∈ d.entries, e.node.Rewired (f e)) :
    d.Trims (d.mapNodes f) where
  entries := by
    refine List.sublistForall₂_iff.2 ⟨d.entries, ?_, List.Sublist.refl _⟩
    exact List.forall₂_map_left_iff.2 (List.forall₂_same.2 fun e he => ⟨rfl, h e he⟩)
  initializers := List.Sublist.refl _
  frame := rfl
  fresh := rfl

/-- What is under a handle of a trimmed draft was rewired from what was there. -/
theorem exists_node? (h : d.Trims d') {a : Handle} {n' : Node} (hn' : d'.node? a = some n') :
    ∃ n, d.node? a = some n ∧ n.Rewired n' := by
  obtain ⟨kept, hkept, hsub⟩ := List.sublistForall₂_iff.1 h.entries
  obtain ⟨e, he, hhandle, hrewired⟩ :=
    exists_of_forall₂_of_mem (List.Forall₂.flip hkept) (node?_eq_some_iff.1 hn')
  obtain rfl : a = e.handle := hhandle
  exact ⟨e.node, node?_of_mem (hsub.subset he), hrewired⟩

theorem mem_handles (h : d.Trims d') {a : Handle} (ha : a ∈ d'.handles) : a ∈ d.handles := by
  obtain ⟨e, he, rfl⟩ := List.mem_map.1 ha
  obtain ⟨n, hn, -⟩ := h.exists_node? (node?_of_mem he)
  exact mem_handles_of_node? hn

/-- A node that is left was rewired from what it was. -/
theorem exists_rewiredFrom (h : d.Trims d') {e : Entry} (he : e ∈ d.entries)
    (hleft : e.handle ∈ d'.handles) : ∃ e' ∈ d'.entries, e'.RewiredFrom e := by
  obtain ⟨e', he', heq⟩ := List.mem_map.1 hleft
  obtain ⟨n, hn, hrewired⟩ := h.exists_node? (node?_of_mem he')
  rw [heq, node?_of_mem he, Option.some.injEq] at hn
  exact ⟨e', he', heq, hn ▸ hrewired⟩

end Trims

/-- Under the handle of a rewired node is its operator. -/
theorem op_node?_of_rewiredFrom {e e' : Entry} (he' : e' ∈ d'.entries) (h : e'.RewiredFrom e) :
    (d'.node? e.handle).map (·.op) = some e.node.op := by
  obtain ⟨heq, hrewired⟩ := h
  rw [← heq, node?_of_mem he', Option.map_some, hrewired.op_eq]

theorem trims_withoutDead (d : Draft) : d.Trims d.withoutDead :=
  (Trims.keepEntries d _).trans (.keepInitializers _ _)

/-! ### Bypassing -/

@[simp] theorem handles_mapNodes (d : Draft) (f : Entry → Node) :
    (d.mapNodes f).handles = d.handles := by
  simp [mapNodes, handles]

theorem trims_redirect (d : Draft) {source target : String} (hsource : source ≠ "")
    (htarget : target ≠ "") : d.Trims (d.redirect source target) :=
  .mapNodes d fun e _ => .renameInput e.node hsource htarget

theorem trims_renameOutputs (d : Draft) {source target : String} (hsource : source ≠ "")
    (htarget : target ≠ "") : d.Trims (d.renameOutputs source target) :=
  .mapNodes d fun e _ => .renameOutput e.node hsource htarget

theorem connect_of_skip (b : Bypass) {input output : String}
    (h : input = "" ∨ output = "" ∨ input = output) : b.connect input output = b :=
  if_pos h

theorem draft_connect (b : Bypass) {input output : String}
    (h : ¬ (input = "" ∨ output = "" ∨ input = output)) :
    (b.connect input output).draft =
      if b.draft.writers input = [] then b.draft.redirect output input
      else (b.draft.renameOutputs input output).redirect input output := by
  rw [Bypass.connect, if_neg h]
  dsimp only
  split <;> rfl

theorem trims_connect (b : Bypass) (input output : String) :
    b.draft.Trims (b.connect input output).draft := by
  by_cases h : input = "" ∨ output = "" ∨ input = output
  · rw [connect_of_skip b h]
    exact .refl _
  · obtain ⟨hinput, houtput, -⟩ : input ≠ "" ∧ output ≠ "" ∧ input ≠ output := by
      simpa [not_or] using h
    rw [draft_connect b h]
    split
    · exact trims_redirect _ houtput hinput
    · exact (trims_renameOutputs _ hinput houtput).trans (trims_redirect _ hinput houtput)

theorem handles_connect (b : Bypass) (input output : String) :
    (b.connect input output).draft.handles = b.draft.handles := by
  by_cases h : input = "" ∨ output = "" ∨ input = output
  · rw [connect_of_skip b h]
  · rw [draft_connect b h]
    split <;> simp [redirect, renameOutputs]

/-- What a bypass does, it does pair by pair. -/
theorem bypass_induction {motive : Bypass → Prop} {first last : Node}
    (hstart : motive { draft := d })
    (hconnect : ∀ b, ∀ pair ∈ first.inputs.zip last.outputs, motive b →
      motive (b.connect pair.1 pair.2)) : motive (d.bypass first last) := by
  unfold bypass
  generalize first.inputs.zip last.outputs = pairs at hconnect ⊢
  generalize ({ draft := d } : Bypass) = b at hstart ⊢
  induction pairs generalizing b with
  | nil => exact hstart
  | cons pair pairs ih =>
    exact ih (fun b' p hp => hconnect b' p (List.mem_cons_of_mem _ hp)) _
      (hconnect b pair List.mem_cons_self hstart)

theorem trims_bypass (d : Draft) (first last : Node) : d.Trims (d.bypass first last).draft :=
  bypass_induction (motive := fun b => d.Trims b.draft) (.refl d)
    fun b _ _ h => h.trans (trims_connect b _ _)

theorem handles_bypass (d : Draft) (first last : Node) :
    (d.bypass first last).draft.handles = d.handles :=
  bypass_induction (motive := fun b => b.draft.handles = d.handles) rfl
    fun b _ _ h => (handles_connect b _ _).trans h

end Draft

end OpGraph
