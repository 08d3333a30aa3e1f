import Mathlib.Data.List.Nodup
import OpGraph.Assembly
import OpGraph.Proofs.DeletionPass

/-!
# From models to drafts and back

A draft takes over the nodes and the initializers of a graph, and of its inputs
and outputs the first ones of each name (`firstPerName_eq`). Nothing else gets
lost: a graph comes back as it was unless it repeats such a name, and the second
time in any case (`Draft.toGraph_loses_repeats`). So a draft can be put back into
its model and taken out again (`Draft.frame_ofGraph_toGraph`).
-/

namespace OpGraph

/-! ### The first value of each name -/

/-- No value before a place of a list has the name of the value there. -/
def IsFirstOfName (l : List ValueInfo) (v : ValueInfo × Nat) : Prop :=
  ∀ w ∈ l.take v.2, w.name ≠ v.1.name

instance (l : List ValueInfo) : DecidablePred (IsFirstOfName l) := fun v =>
  inferInstanceAs (Decidable (∀ w ∈ l.take v.2, w.name ≠ v.1.name))

theorem isFirstOfName_cons_succ {l : List ValueInfo} {u v : ValueInfo} {i : Nat} :
    IsFirstOfName (u :: l) (v, i + 1) ↔ v.name ≠ u.name ∧ IsFirstOfName l (v, i) := by
  simp only [IsFirstOfName, List.take_succ_cons, List.forall_mem_cons, ne_eq, @eq_comm _ u.name]

/-- The values that are left of a list are the first ones of their names. -/
theorem firstPerName_eq (l : List ValueInfo) :
    firstPerName l = (l.zipIdx.filter (IsFirstOfName l)).map (·.1) := by
  induction l with
  | nil => rfl
  | cons u l ih =>
    have hfirst : IsFirstOfName (u :: l) (u, 0) := by simp [IsFirstOfName]
    rw [firstPerName, ih, List.filter_map, List.filter_filter, List.zipIdx_cons,
      List.filter_cons_of_pos (by simpa using hfirst), List.map_cons, List.zipIdx_succ,
      List.filter_map, List.map_map]
    congr 2
    refine List.filter_congr fun v _ => ?_
    simp [isFirstOfName_cons_succ]

theorem nodup_firstPerName (l : List ValueInfo) : ((firstPerName l).map (·.name)).Nodup := by
  induction l with
  | nil => exact List.nodup_nil
  | cons v l ih =>
    rw [firstPerName, List.map_cons, List.nodup_cons]
    refine ⟨?_, ih.sublist (List.filter_sublist.map _)⟩
    simp

theorem firstPerName_of_nodup {l : List ValueInfo} (h : (l.map (·.name)).Nodup) :
    firstPerName l = l := by
  induction l with
  | nil => rfl
  | cons v l ih =>
    rw [List.map_cons, List.nodup_cons] at h
    rw [firstPerName, ih h.2, List.filter_eq_self.2]
    intro w hw
    rw [decide_eq_true_eq]
    rintro heq
    exact h.1 (heq ▸ List.mem_map_of_mem hw)

theorem firstPerName_eq_self_iff {l : List ValueInfo} :
    firstPerName l = l ↔ (l.map (·.name)).Nodup :=
  ⟨fun h => h ▸ nodup_firstPerName l, firstPerName_of_nodup⟩

@[simp] theorem firstPerName_firstPerName (l : List ValueInfo) :
    firstPerName (firstPerName l) = firstPerName l :=
  firstPerName_of_nodup (nodup_firstPerName l)

/-! ### Drafts of models -/

namespace Draft

theorem ofModel_of_graph {m : Model} {g : Graph} (hg : m.graph = some g) :
    ofModel m = .ok (ofGraph g) := by
  rw [ofModel, hg]

theorem ofModel_of_none {m : Model} (hg : m.graph = none) :
    ofModel m = .error (.missingField "model.graph") := by
  rw [ofModel, hg]

/-- A draft that is put into a graph and taken out again has the frame that it had, if this came
from a graph. -/
theorem frame_ofGraph_toGraph {d : Draft} {g : Graph} (hframe : d.frame = (ofGraph g).frame) :
    (ofGraph d.toGraph).frame = d.frame := by
  simp [ofGraph, toGraph, hframe]

/-! ### Graphs that are taken out at once -/

theorem toGraph_ofGraph_eq_self_iff {g : Graph} :
    (ofGraph g).toGraph = g ↔
      (g.inputs.map (·.name)).Nodup ∧ (g.outputs.map (·.name)).Nodup := by
  rw [toGraph_ofGraph, ← firstPerName_eq_self_iff, ← firstPerName_eq_self_iff]
  constructor
  · intro heq
    exact ⟨congrArg Graph.inputs heq, congrArg Graph.outputs heq⟩
  · rintro ⟨hinputs, houtputs⟩
    rw [hinputs, houtputs]
    cases g
    rfl

/-- A graph that was loaded once loads as the same draft. -/
theorem ofGraph_toGraph_ofGraph (g : Graph) : ofGraph (ofGraph g).toGraph = ofGraph g := by
  rw [toGraph_ofGraph, ofGraph, ofGraph]
  simp only [firstPerName_firstPerName]

/-- **Loading loses nothing but repeated names.** A graph that is loaded and taken out again is the
same in all its fields, except that its inputs and its outputs are left with the first one of each
name, in order. So it is the same graph exactly where neither repeats a name, and loading it once
more changes nothing. -/
theorem toGraph_loses_repeats (g : Graph) :
    (ofGraph g).toGraph =
      { g with
        inputs := (g.inputs.zipIdx.filter (IsFirstOfName g.inputs)).map (·.1)
        outputs := (g.outputs.zipIdx.filter (IsFirstOfName g.outputs)).map (·.1) } ∧
    ((ofGraph g).toGraph = g ↔
      (g.inputs.map (·.name)).Nodup ∧ (g.outputs.map (·.name)).Nodup) ∧
    (ofGraph (ofGraph g).toGraph).toGraph = (ofGraph g).toGraph := by
  refine ⟨?_, toGraph_ofGraph_eq_self_iff, ?_⟩
  · rw [toGraph_ofGraph, firstPerName_eq, firstPerName_eq]
  · rw [ofGraph_toGraph_ofGraph]

end Draft

/-- A session on a graph, before its first act. -/
def Session.ofGraph (g : Graph) (options : PassOptions) : Session :=
  { draft := .ofGraph g, options }

namespace Model

variable {m m' : Model} {g : Graph} {p : Pattern} {rule? : Option Rule} {options : PassOptions}
  {count : Nat}

/-- The model of a pass is that of a session with the one pass. -/
theorem map_fst_runPass (p : Pattern) (rule? : Option Rule) (options : PassOptions)
    (hg : m.graph = some g) :
    (m.runPass p rule? options).map (·.1) =
      ((Session.ofGraph g options).runPass p rule?).result.map fun _ =>
        ((Session.ofGraph g options).runPass p rule?).session.draft.toModel m := by
  rw [runPass, Draft.ofModel_of_graph hg]
  show Except.map _ (discard ((Session.ofGraph g options).runPass p rule?).result >>= _) = _
  cases ((Session.ofGraph g options).runPass p rule?).result <;> rfl

/-- A pass over a model succeeds where it does in a session. -/
theorem exists_runPass_of_result (hg : m.graph = some g)
    (hok : ((Session.ofGraph g options).runPass p rule?).result = .ok count) :
    ∃ m' summary, m.runPass p rule? options = .ok (m', summary) := by
  have hmap := map_fst_runPass p rule? options hg
  rw [hok] at hmap
  cases hrun : m.runPass p rule? options with
  | ok r => exact ⟨r.1, r.2, rfl⟩
  | error e =>
    rw [hrun] at hmap
    cases hmap

theorem exists_graph_of_runPass {summary : PassSummary}
    (hok : m.runPass p rule? options = .ok (m', summary)) :
    ∃ g count, m.graph = some g ∧
      ((Session.ofGraph g options).runPass p rule?).result = .ok count ∧
      m' = ((Session.ofGraph g options).runPass p rule?).session.draft.toModel m := by
  cases hg : m.graph with
  | none =>
    rw [runPass, Draft.ofModel_of_none hg] at hok
    cases hok
  | some g =>
    have hmap := map_fst_runPass p rule? options hg
    rw [hok] at hmap
    cases hresult : ((Session.ofGraph g options).runPass p rule?).result with
    | error e =>
      rw [hresult] at hmap
      cases hmap
    | ok count =>
      rw [hresult] at hmap
      cases hmap
      exact ⟨g, count, rfl, hresult, rfl⟩

end Model

end OpGraph
