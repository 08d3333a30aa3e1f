import OpGraph.Proofs.OutputSpecs

/-!
# Named inputs and omitted tensors

A node leaves out an optional tensor by an empty name. A named input of a step stands for what an
earlier step of the match gives its variable, and the node of the step reads it. The search compares
the names and never asks whether they are empty: an output that an earlier node leaves out is taken
for any input that a later node leaves out. So a named input stands for a tensor just where no
earlier node leaves out the output that its step names (`findAll_reads_named_iff`).
-/

namespace OpGraph

namespace Visit

variable {v : Visit} {earlier : List Visit} {x : Nat} {t : String}

/-- A visit gives a variable the name that stands in its place among the outputs of the node. The
name is empty where the node leaves the output out. -/
def Gives (v : Visit) (x : Nat) (t : String) : Prop :=
  ∃ i : Nat, v.step.outputs[i]? = some (.variable x) ∧ v.node.outputs[i]? = some t

/-- A node reads a tensor that an earlier visit gives a variable. -/
def ReadsNamed (v : Visit) (earlier : List Visit) (x : Nat) : Prop :=
  ∃ w ∈ earlier, ∃ t, t ≠ "" ∧ w.Gives x t ∧ t ∈ v.node.inputs

theorem binds_iff_gives : Binds earlier x t ↔ ∃ w ∈ earlier, w.Gives x t :=
  binds_iff_exists_getElem?

/-- A node that reads what earlier visits bind reads whatever one of them gives a variable, where
they agree. -/
theorem ReadsBound.mem_inputs (h : v.ReadsBound earlier) (hagrees : Agrees earlier)
    (hx : Slot.variable x ∈ v.step.inputs) {w : Visit} (hw : w ∈ earlier) (ht : w.Gives x t) :
    t ∈ v.node.inputs := by
  obtain ⟨u, hu, hread⟩ := h x hx
  rwa [hagrees x t u (binds_iff_gives.2 ⟨w, hw, ht⟩) hu]

/-- Of the names that earlier visits give a variable, none is empty if one is not. -/
theorem ReadsBound.readsNamed_iff (h : v.ReadsBound earlier) (hagrees : Agrees earlier)
    (hx : Slot.variable x ∈ v.step.inputs) :
    v.ReadsNamed earlier x ↔ ∀ w ∈ earlier, ¬ w.Gives x "" := by
  constructor
  · rintro ⟨w, hw, t, hne, ht, -⟩ w' hw' hempty
    have hbinds : Binds earlier x t := binds_iff_gives.2 ⟨w, hw, ht⟩
    exact hne (hagrees x t "" hbinds (binds_iff_gives.2 ⟨w', hw', hempty⟩))
  · intro hgiven
    obtain ⟨t, hbinds, hread⟩ := h x hx
    obtain ⟨w, hw, ht⟩ := binds_iff_gives.1 hbinds
    refine ⟨w, hw, t, fun hempty => hgiven w hw ?_, ht, hread⟩
    rwa [hempty] at ht

end Visit

/-- The visits before one of a walk agree. -/
theorem Draft.Walks.agrees_before {d : Draft} {before after : List Visit} {v : Visit}
    {hops : List Hop} (h : d.Walks [] (before ++ v :: after) hops) : Agrees before :=
  fun x t u ht hu => h.agrees x t u ht.dropLast hu.dropLast

namespace Pattern

variable {text : String} {p : Pattern}

/-- **Named inputs.** In every match, a variable that an input of a step names is given a name by an
earlier visit, and the node of the step has all names that earlier visits give it among its inputs.
They are the name of a tensor just where no earlier node leaves out the output that its step gives
the variable; otherwise the node leaves out an input as well. -/
theorem findAll_reads_named_iff (hp : parse text = .ok p) (d : Draft) (cap : Nat) :
    ∀ chain ∈ p.findAll d cap,
      let visits := p.visits d chain
      visits.map (·.step) = p.steps ∧ visits.map (·.handle) = chain ∧
      (∀ v ∈ visits, d.node? v.handle = some v.node) ∧
      ∀ before v after, visits = before ++ v :: after →
        ∀ x, Slot.variable x ∈ v.step.inputs →
          (∃ w ∈ before, ∃ t, w.Gives x t) ∧
          (∀ w ∈ before, ∀ t, w.Gives x t → t ∈ v.node.inputs) ∧
          (v.ReadsNamed before x ↔ ∀ w ∈ before, ¬ w.Gives x "") := by
  intro chain hchain
  rw [findAll_eq] at hchain
  obtain ⟨anchor, -, hmatch⟩ := List.mem_filterMap.1 hchain
  obtain ⟨walk, hops, hwalk, rfl⟩ := (parse_bounded hp).exists_isWalk hmatch
  dsimp only
  rw [hwalk.visits_eq]
  refine ⟨hwalk.steps, rfl, hwalk.walks.present, ?_⟩
  rintro before v after rfl x hx
  have hagrees : Agrees before := hwalk.walks.agrees_before
  have hreads : v.ReadsBound before := hwalk.walks.inputs before v after rfl
  refine ⟨?_, fun w hw t ht => hreads.mem_inputs hagrees hx hw ht, hreads.readsNamed_iff hagrees hx⟩
  obtain ⟨t, hbinds, -⟩ := hreads x hx
  obtain ⟨w, hw, ht⟩ := Visit.binds_iff_gives.1 hbinds
  exact ⟨w, hw, t, ht⟩

/-- On the path through the fork, the second node reads a tensor of the first one. -/
theorem findAll_reads_named_forked :
    let d := Draft.ofGraph forkedGraph
    parse "Relu(?, r)\nNeg(r, n)\n?(n, ?)" = .ok forkedPath ∧
      ∃ before v after, forkedPath.visits d [⟨0⟩, ⟨2⟩, ⟨3⟩] = before ++ v :: after ∧
        v.handle = ⟨2⟩ ∧ Slot.variable 0 ∈ v.step.inputs ∧ v.ReadsNamed before 0 := by
  intro d
  have hparse : parse "Relu(?, r)\nNeg(r, n)\n?(n, ?)" = .ok forkedPath := by
    decide +kernel
  have hfound : [⟨0⟩, ⟨2⟩, ⟨3⟩] ∈ forkedPath.findAll d defaultMaxStates := by
    rw [findAll_eq, matchAt_eq_searchFrom]
    decide +kernel
  obtain ⟨-, -, -, hinputs⟩ := findAll_reads_named_iff hparse d defaultMaxStates _ hfound
  refine ⟨hparse, [_], _, [_], rfl, rfl, by decide, ?_⟩
  obtain ⟨-, -, hiff⟩ := hinputs [_] _ [_] rfl 0 (by decide)
  refine hiff.2 fun w hw => ?_
  -- the first node has a name at its only output
  obtain rfl := List.mem_singleton.1 hw
  rintro ⟨_ | i, hslot, hout⟩
  · exact absurd hout (by decide)
  · simp at hslot

/-- A node that leaves out its first output, and a reader of its second one that leaves out an input
of its own. -/
def omittingGraph : Graph where
  nodes :=
    [{ op := "LSTM", inputs := ["x"], outputs := ["", "h"] },
      { op := "Clip", inputs := ["h", "", "top"], outputs := ["y"] }]
  inputs := [{ name := "x" }, { name := "top" }]
  outputs := [{ name := "y" }]

/-- The pattern of a first output that is clipped. -/
def clippedState : Pattern where
  steps :=
    [{ ops := .oneOf ["LSTM"], inputs := [.any], outputs := [.variable 0], line := "LSTM(?,s)" },
      { ops := .oneOf ["Clip"], inputs := [.variable 0], outputs := [.any], line := "Clip(s,?)" }]
  names := ["s"]

/-- A match where a named input stands for no tensor: the first node leaves out the output that the
pattern names, and the second one leaves out an input. -/
theorem findAll_omitted :
    let d := Draft.ofGraph omittingGraph
    parse "LSTM(?, s)\nClip(s, ?)" = .ok clippedState ∧
      [⟨0⟩, ⟨1⟩] ∈ clippedState.findAll d defaultMaxStates ∧
      ∃ before v after, clippedState.visits d [⟨0⟩, ⟨1⟩] = before ++ v :: after ∧
        Slot.variable 0 ∈ v.step.inputs ∧ ¬ v.ReadsNamed before 0 := by
  intro d
  refine ⟨by decide +kernel, ?_, [_], _, [], rfl, by decide, ?_⟩
  · rw [findAll_eq, matchAt_eq_searchFrom]
    decide +kernel
  · rintro ⟨w, hw, t, hne, ⟨_ | i, hslot, hout⟩, -⟩ <;> obtain rfl := List.mem_singleton.1 hw
    · exact hne (Option.some.inj hout).symm
    · simp at hslot

end Pattern

end OpGraph
