import OpGraph.Proofs.Sources

/-!
# Other names for tensors

Nodes read and write tensors under other names after a bypass, and nothing else about them has
changed (`Draft.Renames`). What gives a tensor then gives it under its other name, but for the
inputs and initializers, which keep theirs (`Renames.defines_base`, `Renames.defines_output`).
-/

namespace OpGraph

/-- An entry with other names for its tensors. -/
def Entry.rename (e : Entry) (f : String → String) : Entry :=
  ⟨e.handle, { e.node with inputs := e.node.inputs.map f, outputs := e.node.outputs.map f }⟩

namespace Entry

variable (e : Entry) (f : String → String)

@[simp] theorem rename_inputs : (e.rename f).node.inputs = e.node.inputs.map f := rfl

@[simp] theorem rename_outputs : (e.rename f).node.outputs = e.node.outputs.map f := rfl

@[simp] theorem rename_id : e.rename id = e := by
  obtain ⟨h, n⟩ := e
  cases n
  simp [rename]

theorem rename_rename (g : String → String) : (e.rename f).rename g = e.rename (g ∘ f) := by
  simp [rename]

end Entry

namespace Draft

variable {d d' d'' : Draft} {f g : String → String} {s : Source} {t x y : String}

/-- A draft whose nodes read and write tensors under other names. -/
structure Renames (d d' : Draft) (f : String → String) : Prop where
  entries : d'.entries = d.entries.map (·.rename f)
  frame : d'.frame = d.frame
  initializers : d'.initializers = d.initializers
  empty : ∀ t, f t = "" ↔ t = ""

namespace Renames

theorem refl (d : Draft) : d.Renames d id where
  entries := by simp
  frame := rfl
  initializers := rfl
  empty _ := Iff.rfl

theorem trans (h : d.Renames d' f) (h' : d'.Renames d'' g) : d.Renames d'' (g ∘ f) where
  entries := by
    rw [h'.entries, h.entries, List.map_map]
    exact List.map_congr_left fun e _ => e.rename_rename f g
  frame := h'.frame.trans h.frame
  initializers := h'.initializers.trans h.initializers
  empty t := (h'.empty (f t)).trans (h.empty t)

end Renames

/-- One name in the place of another. -/
def putFor (source target t : String) : String :=
  if t = source then target else t

theorem map_putFor_of_not_mem {names : List String} {source target : String}
    (h : source ∉ names) : names.map (putFor source target) = names := by
  calc
    names.map (putFor source target) = names.map id :=
      List.map_congr_left fun _ ht => if_neg (ne_of_mem_of_not_mem ht h)
    _ = names := List.map_id names

theorem putFor_eq_empty {source target : String} (hsource : source ≠ "") (htarget : target ≠ "")
    (t : String) : putFor source target t = "" ↔ t = "" := by
  unfold putFor
  split
  · subst t
    simp [hsource, htarget]
  · exact Iff.rfl

theorem writers_eq_nil_iff {t : String} :
    d.writers t = [] ↔ ∀ e ∈ d.entries, t ∉ e.node.outputs := by
  simp [writers, select, Node.writes]

theorem renames_redirect (hunwritten : d.writers y = []) (hx : x ≠ "") (hy : y ≠ "") :
    d.Renames (d.redirect y x) (putFor y x) where
  entries := by
    refine List.map_congr_left fun e he => ?_
    show (⟨e.handle, e.node.renameInput y x⟩ : Entry) = e.rename (putFor y x)
    rw [Entry.rename, map_putFor_of_not_mem (writers_eq_nil_iff.1 hunwritten e he)]
    rfl
  frame := rfl
  initializers := rfl
  empty := putFor_eq_empty hy hx

theorem renames_renameOutputs_redirect (hx : x ≠ "") (hy : y ≠ "") :
    d.Renames ((d.renameOutputs x y).redirect x y) (putFor x y) where
  entries := List.map_map
  frame := rfl
  initializers := rfl
  empty := putFor_eq_empty hx hy

/-! ### What gives a tensor -/

/-- Inputs and initializers do not depend on the nodes. -/
theorem Defines.of_frame_eq (h : d.Defines s t) (hs : s.handle? = none)
    (hframe : d'.frame = d.frame) (hinitializers : d'.initializers = d.initializers) :
    d'.Defines s t := by
  cases h with
  | input hi => exact .input (by rwa [isInput, hframe])
  | initializer hi => exact .initializer (by rwa [isInitializer, hinitializers])
  | sparse hi => exact .sparse (by rwa [sparseNames, hframe])
  | output => cases hs

namespace Renames

theorem defines_base (h : d.Renames d' f) (hs : s.handle? = none) :
    d'.Defines s t ↔ d.Defines s t :=
  ⟨fun hdefines => hdefines.of_frame_eq hs h.frame.symm h.initializers.symm,
    fun hdefines => hdefines.of_frame_eq hs h.frame h.initializers⟩

theorem defines_output (h : d.Renames d' f) {a : Handle} {i : Nat} :
    d'.Defines (.output a i) t ↔ ∃ u, d.Defines (.output a i) u ∧ f u = t := by
  constructor
  · intro hdefines
    cases hdefines with
    | output he' ht =>
      rw [h.entries] at he'
      obtain ⟨e, he, rfl⟩ := List.mem_map.1 he'
      rw [Entry.rename_outputs, List.getElem?_map, Option.map_eq_some_iff] at ht
      obtain ⟨u, hu, rfl⟩ := ht
      have hold : d.Defines (.output e.handle i) u := .output he hu
      exact ⟨u, hold, rfl⟩
  · rintro ⟨u, hdefines, rfl⟩
    cases hdefines with
    | @output e _ _ he hu =>
      have he' : e.rename f ∈ d'.entries := by
        rw [h.entries]
        exact List.mem_map_of_mem he
      have hslot : (e.rename f).node.outputs[i]? = some (f u) := by
        rw [Entry.rename_outputs, List.getElem?_map, hu]
        rfl
      have hnew : d'.Defines (.output (e.rename f).handle i) (f u) := .output he' hslot
      exact hnew

end Renames

end Draft

end OpGraph
