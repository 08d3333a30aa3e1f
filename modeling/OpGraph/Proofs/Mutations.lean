import OpGraph.Proofs.RulePass

/-!
# Mutations

A draft comes after another one where all its new nodes have handles that had
not been given out before (`Draft.ComesAfter`). Mutations, the ways to change a
draft from outside of a pass, leave nodes out, change them and put new ones in:
a mutated draft comes after the one before (`Draft.comesAfter_mutation`). The
rule of recipes does no more than mutations do (`Recipe.mutates_rule`).
-/

namespace OpGraph

/-! ### Later drafts -/

/-- A draft that comes after another one: a node that is new in it has a handle which had not been
given out before. -/
structure Draft.ComesAfter (d d' : Draft) : Prop where
  fresh_le : d.fresh ≤ d'.fresh
  fresh_le_index : ∀ h ∈ d'.handles, h ∉ d.handles → d.fresh ≤ h.index

namespace Draft

variable {d d' d'' : Draft} {h : Handle}

namespace ComesAfter

theorem refl (d : Draft) : d.ComesAfter d :=
  ⟨Nat.le_refl _, fun _ hmem hnot => absurd hmem hnot⟩

theorem trans (h : d.ComesAfter d') (h' : d'.ComesAfter d'') : d.ComesAfter d'' where
  fresh_le := h.fresh_le.trans h'.fresh_le
  fresh_le_index a ha hnot := by
    by_cases hmem : a ∈ d'.handles
    · exact h.fresh_le_index a hmem hnot
    · exact h.fresh_le.trans (h'.fresh_le_index a ha hmem)

instance : IsTrans Draft ComesAfter :=
  ⟨fun _ _ _ h h' => h.trans h'⟩

/-- A handle that was given out and is gone does not come back. -/
theorem not_mem_handles (hafter : d.ComesAfter d') (hlt : h.index < d.fresh)
    (hnot : h ∉ d.handles) : h ∉ d'.handles := fun hmem =>
  absurd (hafter.fresh_le_index h hmem hnot) (Nat.not_le.2 hlt)

/-- No node has come where the handles are some of those before. -/
theorem of_subset (hfresh : d'.fresh = d.fresh) (hsub : ∀ h ∈ d'.handles, h ∈ d.handles) :
    d.ComesAfter d' :=
  ⟨hfresh.ge, fun a ha hnot => absurd (hsub a ha) hnot⟩

theorem of_trims (htrims : d.Trims d') : d.ComesAfter d' :=
  .of_subset htrims.fresh fun _ => htrims.mem_handles

theorem mapNodes (d : Draft) (f : Entry → Node) : d.ComesAfter (d.mapNodes f) :=
  .of_subset rfl fun _ => by rw [handles_mapNodes]; exact id

theorem insertAt (d : Draft) (index : Nat) (node : Node) :
    d.ComesAfter (d.insertAt index node) where
  fresh_le := Nat.le_succ _
  fresh_le_index a ha hnot := by
    obtain ⟨e, he, rfl⟩ := List.mem_map.1 ha
    rcases mem_placeAt.1 he with rfl | he
    · exact Nat.le_refl _
    · exact absurd (List.mem_map_of_mem he) hnot

end ComesAfter

end Draft

/-! ### Edits -/

/-- The ways to change a draft from outside of a pass: with new nodes, with some nodes left out,
with other nodes under the handles of old ones, with other names for tensors, and with other
initializers. -/
inductive Mutation
  | add (node : Node)
  | insertAt (index : Nat) (node : Node)
  | remove (h : Handle)
  | keepEntries (keep : Entry → Bool)
  | change (h : Handle) (f : Node → Node)
  | renameOutput (h : Handle) (source target : String)
  | redirect (source target : String)
  | setInitializers (tensors : List Tensor)

/-- Change a draft. -/
def Mutation.apply (d : Draft) : Mutation → Draft
  | add node => d.add node
  | insertAt index node => d.insertAt index node
  | remove h => d.remove h
  | keepEntries keep => d.keepEntries keep
  | change h f => d.mapNodes fun e => if e.handle = h then f e.node else e.node
  | renameOutput h source target => d.renameOutput h source target
  | redirect source target => d.redirect source target
  | setInitializers tensors => { d with initializers := tensors }

theorem Draft.comesAfter_mutation (d : Draft) (m : Mutation) : d.ComesAfter (m.apply d) := by
  cases m with
  | add node => exact .insertAt d _ node
  | insertAt index node => exact .insertAt d index node
  | remove h => exact .of_trims (.keepEntries d _)
  | keepEntries keep => exact .of_trims (.keepEntries d keep)
  | change h f => exact .mapNodes d _
  | renameOutput h source target => exact .mapNodes d _
  | redirect source target => exact .mapNodes d _
  | setInitializers tensors => exact .of_subset rfl fun _ => id

theorem Draft.comesAfter_mutations (d : Draft) (ms : List Mutation) :
    d.ComesAfter (ms.foldl Mutation.apply d) := by
  induction ms generalizing d with
  | nil => exact .refl d
  | cons m ms ih => exact (d.comesAfter_mutation m).trans (ih (m.apply d))

/-- A computation that changes a draft by mutations only, whether it fails or not. -/
def Mutating {α : Type} (x : EStateM Error Draft α) : Prop :=
  ∀ d, ∃ ms : List Mutation,
    (match x.run d with | .ok _ d' | .error _ d' => d') = ms.foldl Mutation.apply d

/-- A rule that changes the draft by mutations only. -/
def Rule.Mutates (rule : Rule) : Prop :=
  ∀ index chain, Mutating (rule index chain)

theorem Rule.Mutates.comesAfter {rule : Rule} (hrule : rule.Mutates) (index : Nat) (chain : Chain)
    (d : Draft) : d.ComesAfter (rule.leaves index chain d) := by
  obtain ⟨ms, hms⟩ := hrule index chain d
  have hleaves : rule.leaves index chain d = ms.foldl Mutation.apply d := by
    rw [← hms, leaves, EStateM.run]
    cases rule index chain d <;> rfl
  rw [hleaves]
  exact d.comesAfter_mutations ms

/-! ### Recipes -/

/-- An edit that succeeds is a mutation. -/
theorem Edit.exists_mutation {edit : Edit} {d d' : Draft} {answer : EditAnswer}
    (h : edit.apply d = .ok (answer, d')) : ∃ m : Mutation, d' = m.apply d := by
  cases edit with
  | add node =>
    cases h
    exact ⟨.add node, rfl⟩
  | insertAt index node =>
    cases h
    exact ⟨.insertAt index node, rfl⟩
  | remove a =>
    cases h
    exact ⟨.remove a, rfl⟩
  | keepOps ops =>
    cases h
    exact ⟨.keepEntries fun e => ops.contains e.node.op, rfl⟩
  | keepFrom a =>
    cases h
    exact ⟨.keepEntries fun e => a.index ≤ e.handle.index, rfl⟩
  | renameOutput a source target =>
    cases h
    exact ⟨.renameOutput a source target, rfl⟩
  | redirect source target =>
    cases h
    exact ⟨.redirect source target, rfl⟩
  | setInput a target index =>
    obtain ⟨node, -, h⟩ := Except.bind_eq_ok_iff.1 h
    obtain ⟨⟨previous, inputs⟩, -, h⟩ := Except.bind_eq_ok_iff.1 h
    cases h
    exact ⟨.change a fun _ => { node with inputs }, rfl⟩
  | setOutput a target index =>
    obtain ⟨node, -, h⟩ := Except.bind_eq_ok_iff.1 h
    obtain ⟨⟨previous, outputs⟩, -, h⟩ := Except.bind_eq_ok_iff.1 h
    cases h
    exact ⟨.change a fun _ => { node with outputs }, rfl⟩
  | addInitializer t =>
    cases h
    exact ⟨.setInitializers (d.initializers ++ [t]), rfl⟩
  | removeInitializers name =>
    cases h
    exact ⟨.setInitializers (d.initializers.filter fun t => t.name ≠ name), rfl⟩
  | keepInitializers names =>
    cases h
    exact ⟨.setInitializers (d.initializers.filter fun t => names.contains t.name), rfl⟩

namespace Recipe

/-- The edits of a recipe are mutations, up to the first that fails. -/
theorem mutating_edit (scene : Scene) (forms : List EditForm) : Mutating (edit scene forms) := by
  induction forms with
  | nil => exact fun d => ⟨[], rfl⟩
  | cons form forms ih =>
    intro d
    cases hform : form.apply scene d with
    | ok result =>
      obtain ⟨answer, d'⟩ := result
      have hrun : (edit scene (form :: forms)).run d = (edit scene forms).run d' := by
        rw [edit, EStateM.run_bind, EStateM.run_get]
        dsimp only
        rw [hform]
        rfl
      obtain ⟨edit, -, hedit⟩ := Except.bind_eq_ok_iff.1 hform
      obtain ⟨m, rfl⟩ := Edit.exists_mutation hedit
      obtain ⟨ms, hms⟩ := ih (m.apply d)
      exact ⟨m :: ms, by rw [hrun, hms, List.foldl_cons]⟩
    | error e =>
      have hrun : (edit scene (form :: forms)).run d = .error e d := by
        rw [edit, EStateM.run_bind, EStateM.run_get]
        dsimp only
        rw [hform]
        rfl
      exact ⟨[], by rw [hrun]; rfl⟩

/-- The rule of recipes changes the draft by mutations only. -/
theorem mutates_rule (recipes : List Recipe) : (rule recipes).Mutates := by
  intro index chain d
  rw [rule]
  generalize recipes[index]?.getD _ = recipe
  obtain ⟨ms, hms⟩ := mutating_edit { index, chain } recipe.edits d
  refine ⟨ms, ?_⟩
  rw [← hms, run, EStateM.run_bind]
  cases (edit { index, chain } recipe.edits).run d with
  | error e d' => rfl
  | ok u d' =>
    -- what comes after the edits does not touch the draft
    cases recipe.failure with
    | some field => rfl
    | none =>
      dsimp only
      rw [EStateM.run_bind, EStateM.run_get]
      dsimp only
      cases recipe.nodes.mapM (ReplacementForm.resolve { index, chain } d') <;> rfl

end Recipe

end OpGraph
