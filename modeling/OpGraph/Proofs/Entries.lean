import Mathlib.Data.List.Nodup
import OpGraph.Draft.Query

/-!
# Nodes and their handles

A handle names at most one node of a draft, so that looking it up and going
through the entries say the same. So do the handles that a draft selects
(`mem_select`).
-/

namespace OpGraph.Draft

variable {d : Draft}

/-- Entries under one handle are the same. -/
theorem eq_of_handle_eq {e e' : Entry} (he : e ∈ d.entries) (he' : e' ∈ d.entries)
    (h : e.handle = e'.handle) : e = e' :=
  List.inj_on_of_nodup_map d.handles_nodup he he' h

theorem node?_eq_some_iff {h : Handle} {n : Node} :
    d.node? h = some n ↔ (⟨h, n⟩ : Entry) ∈ d.entries := by
  unfold node?
  rw [Option.map_eq_some_iff]
  constructor
  · rintro ⟨e, he, rfl⟩
    have hhandle := List.find?_some he
    rw [decide_eq_true_eq] at hhandle
    subst hhandle
    exact List.mem_of_find?_eq_some he
  · intro hmem
    cases hfind : d.entries.find? fun e => e.handle = h with
    | none => simpa using List.find?_eq_none.1 hfind _ hmem
    | some e =>
      have hhandle := List.find?_some hfind
      rw [decide_eq_true_eq] at hhandle
      exact ⟨e, rfl, by rw [eq_of_handle_eq (List.mem_of_find?_eq_some hfind) hmem hhandle]⟩

theorem node?_of_mem {e : Entry} (he : e ∈ d.entries) : d.node? e.handle = some e.node :=
  node?_eq_some_iff.2 he

theorem mem_handles_of_node? {h : Handle} {n : Node} (hn : d.node? h = some n) : h ∈ d.handles :=
  List.mem_map_of_mem (node?_eq_some_iff.1 hn)

theorem node?_eq_none_iff {h : Handle} : d.node? h = none ↔ h ∉ d.handles := by
  simp [node?, handles]

theorem mem_select {test : Node → Bool} {h : Handle} :
    h ∈ d.select test ↔ ∃ n, d.node? h = some n ∧ test n := by
  simp only [select, List.mem_map, List.mem_filter, node?_eq_some_iff]
  constructor
  · rintro ⟨e, ⟨he, htest⟩, rfl⟩
    exact ⟨e.node, he, htest⟩
  · rintro ⟨n, he, htest⟩
    exact ⟨⟨h, n⟩, ⟨he, htest⟩, rfl⟩

theorem length_select (d : Draft) (test : Node → Bool) :
    (d.select test).length = d.nodes.countP test := by
  rw [select, nodes, List.length_map, List.countP_map, List.countP_eq_length_filter]
  rfl

end OpGraph.Draft
