import Mathlib.Data.List.Induction
import OpGraph.Proofs.Entries

/-!
# The consumers of all tensors

The map of consumers is gathered in one pass over the nodes, where a node that
reads a tensor several times is held back only by being the last one noted. It
comes to the same as a search for each tensor alone: the map has an entry for
every tensor with a name that some node reads, and the entry is what
`Draft.consumers` gives (`consumerMap_eq_consumers`).

The step is a node (`getElem?_noteInputs`), and the invariant of the pass is that
only nodes are noted that have been passed (`getElem?_gather`).
-/

namespace OpGraph.Draft

variable {d : Draft} {map : Std.HashMap String (List Handle)} {h : Handle} {t u : String}

/-! ### One node -/

/-- The consumers of a tensor with one more noted. -/
def notedWith (map : Std.HashMap String (List Handle)) (h : Handle) (t : String) : List Handle :=
  if (map.getD t []).getLast? = some h then map.getD t [] else map.getD t [] ++ [h]

theorem getLast?_notedWith : (notedWith map h t).getLast? = some h := by
  unfold notedWith
  split
  · assumption
  · exact List.getLast?_concat

theorem notedWith_of_not_mem (hh : h ∉ map.getD t []) :
    notedWith map h t = map.getD t [] ++ [h] := by
  unfold notedWith
  rw [if_neg]
  exact fun hlast => hh (List.mem_of_getLast? hlast)

theorem getElem?_noteConsumer :
    (noteConsumer h map t)[u]? = if t = u then some (notedWith map h u) else map[u]? := by
  unfold noteConsumer notedWith
  by_cases hlast : (map.getD t []).getLast? = some h
  · simp only [hlast, if_true]
    split
    · next heq =>
      subst heq
      -- an entry with a last node is there
      rw [if_pos hlast]
      rw [Std.HashMap.getD_eq_getD_getElem?] at hlast ⊢
      cases hentry : map[t]? with
      | none => simp [hentry] at hlast
      | some hs => rfl
    · rfl
  · simp only [hlast, if_false]
    rw [Std.HashMap.getElem?_insert]
    by_cases heq : t = u
    · subst heq
      simp [hlast]
    · simp [heq]

/-- Noting a consumer a second time changes nothing. -/
theorem notedWith_noteConsumer : notedWith (noteConsumer h map t) h u = notedWith map h u := by
  by_cases heq : t = u
  · subst heq
    have hnoted : (noteConsumer h map t).getD t [] = notedWith map h t := by
      rw [Std.HashMap.getD_eq_getD_getElem?, getElem?_noteConsumer, if_pos rfl, Option.getD_some]
    rw [notedWith, hnoted, if_pos getLast?_notedWith]
  · have hnoted : (noteConsumer h map t).getD u [] = map.getD u [] := by
      rw [Std.HashMap.getD_eq_getD_getElem?, getElem?_noteConsumer, if_neg heq,
        Std.HashMap.getD_eq_getD_getElem?]
    rw [notedWith, hnoted, notedWith]

theorem getElem?_foldl_noteConsumer (tensors : List String) :
    (tensors.foldl (noteConsumer h) map)[u]? =
      if u ∈ tensors then some (notedWith map h u) else map[u]? := by
  induction tensors generalizing map with
  | nil => rw [List.foldl_nil, if_neg List.not_mem_nil]
  | cons t tensors ih =>
    rw [List.foldl_cons, ih, notedWith_noteConsumer, getElem?_noteConsumer]
    by_cases hmem : u ∈ tensors
    · rw [if_pos hmem, if_pos (List.mem_cons_of_mem t hmem)]
    · by_cases heq : t = u
      · rw [if_neg hmem, if_pos heq, if_pos (heq ▸ List.mem_cons_self)]
      · rw [if_neg hmem, if_neg heq, if_neg]
        exact fun h => (List.mem_cons.1 h).elim (fun h => heq h.symm) hmem

/-- A node is noted once for each tensor that it reads, at whatever places it reads it. -/
theorem getElem?_noteInputs (e : Entry) :
    (noteInputs map e)[t]? =
      if t ≠ "" ∧ t ∈ e.node.inputs then some (notedWith map e.handle t) else map[t]? := by
  rw [noteInputs, getElem?_foldl_noteConsumer]
  simp only [List.mem_filter, decide_eq_true_eq, and_comm]

/-! ### All nodes -/

/-- The entries among some that read a tensor. -/
def readersAmong (es : List Entry) (t : String) : List Handle :=
  (es.filter fun e => e.node.reads t).map (·.handle)

theorem readersAmong_concat (es : List Entry) (e : Entry) (t : String) :
    readersAmong (es ++ [e]) t =
      readersAmong es t ++ if t ∈ e.node.inputs then [e.handle] else [] := by
  by_cases hread : t ∈ e.node.inputs <;>
    simp [readersAmong, List.filter_append, Node.reads, hread]

/-- The entries of the map once some nodes have been passed. -/
theorem getElem?_gather (es : List Entry) (hnodup : (es.map (·.handle)).Nodup) (t : String) :
    (es.foldl noteInputs ∅)[t]? =
      if t = "" ∨ readersAmong es t = [] then none else some (readersAmong es t) := by
  induction es using List.reverseRecOn with
  | nil => simp [readersAmong]
  | append_singleton es e ih =>
    rw [List.map_append, List.map_singleton, List.nodup_append] at hnodup
    obtain ⟨hes, -, hne⟩ := hnodup
    -- handles are distinct, so a node is the last one noted only where it has just been noted
    have hnew : e.handle ∉ readersAmong es t := fun hmem => by
      obtain ⟨e', he', heq⟩ := List.mem_map.1 hmem
      exact hne _ (List.mem_map_of_mem (List.mem_filter.1 he').1) _ (List.mem_singleton_self _) heq
    rw [List.foldl_append, List.foldl_cons, List.foldl_nil, getElem?_noteInputs,
      readersAmong_concat]
    by_cases hempty : t = ""
    · rw [if_neg (fun h => h.1 hempty), ih hes, if_pos (.inl hempty), if_pos (.inl hempty)]
    · have hgetD : (es.foldl noteInputs ∅).getD t [] = readersAmong es t := by
        rw [Std.HashMap.getD_eq_getD_getElem?, ih hes]
        by_cases hnone : readersAmong es t = [] <;> simp [hempty, hnone]
      by_cases hread : t ∈ e.node.inputs
      · rw [if_pos ⟨hempty, hread⟩, if_pos hread, notedWith_of_not_mem (hgetD ▸ hnew), hgetD,
          if_neg]
        simp [hempty]
      · rw [if_neg (fun h => hread h.2), if_neg hread, List.append_nil, ih hes]

theorem consumers_eq_readersAmong (d : Draft) (t : String) :
    d.consumers t = readersAmong (d.entries.filter fun e => !e.node.isConstant) t := by
  rw [consumers, select, readersAmong, List.filter_filter]
  simp only [Bool.and_comm]

/-- The entry of a tensor with a name that some node reads is the list of its consumers. -/
theorem getElem?_consumerMap (d : Draft) (t : String) :
    d.consumerMap[t]? =
      if t = "" ∨ d.consumers t = [] then none else some (d.consumers t) := by
  have hnodup : ((d.entries.filter fun e => !e.node.isConstant).map (·.handle)).Nodup :=
    d.handles_nodup.sublist (List.filter_sublist.map _)
  rw [consumerMap, getElem?_gather _ hnodup, consumers_eq_readersAmong]

theorem getD_consumerMap (d : Draft) (t : String) :
    d.consumerMap.getD t [] = if t = "" then [] else d.consumers t := by
  rw [Std.HashMap.getD_eq_getD_getElem?, getElem?_consumerMap]
  by_cases ht : t = ""
  · simp [ht]
  · by_cases hc : d.consumers t = [] <;> simp [ht, hc]

theorem mem_consumers :
    h ∈ d.consumers t ↔ ∃ n, d.node? h = some n ∧ n.isConstant = false ∧ t ∈ n.inputs := by
  simp only [consumers, mem_select, Bool.and_eq_true, Bool.not_eq_true', Node.reads,
    List.contains_iff_mem]

/-- A tensor has consumers where some node reads it that is not a constant. -/
theorem consumers_eq_nil_iff :
    d.consumers t = [] ↔ ¬ ∃ n ∈ d.nodes, n.isConstant = false ∧ t ∈ n.inputs := by
  simp [consumers, select, nodes, Node.reads]

/-- **The map agrees with the search for one tensor.** There is an entry just for the tensors with a
name that some node reads which is not a constant. The entry is what the search for the tensor alone
gives: all these nodes in their order, each once, however often and at whatever places it reads the
tensor. -/
theorem consumerMap_eq_consumers (d : Draft) (t : String) :
    (t ∈ d.consumerMap ↔ t ≠ "" ∧ ∃ n ∈ d.nodes, n.isConstant = false ∧ t ∈ n.inputs) ∧
    d.consumerMap[t]? = (if t ∈ d.consumerMap then some (d.consumers t) else none) ∧
    (∀ h, h ∈ d.consumers t ↔ ∃ n, d.node? h = some n ∧ n.isConstant = false ∧ t ∈ n.inputs) ∧
    (d.consumers t).Nodup ∧ (d.consumers t).Sublist d.handles := by
  have hmem : t ∈ d.consumerMap ↔ ¬ (t = "" ∨ d.consumers t = []) := by
    rw [Std.HashMap.mem_iff_isSome_getElem?, getElem?_consumerMap]
    split <;> simp [*]
  have hsublist : (d.consumers t).Sublist d.handles := List.filter_sublist.map _
  refine ⟨?_, ?_, fun h => mem_consumers, d.handles_nodup.sublist hsublist, hsublist⟩
  · rw [hmem, not_or, consumers_eq_nil_iff, not_not]
  · rw [getElem?_consumerMap, if_congr hmem rfl rfl, ite_not]

-- a node is noted once for a tensor that it reads before and behind another one
example :
    let d := ofGraph { nodes :=
      [{ op := "Sum", inputs := ["x", "y", "x"] }, { op := "Constant", inputs := ["x"] },
        { op := "Add", inputs := ["", "x"] }] }
    d.consumerMap["x"]? = some [⟨0⟩, ⟨2⟩] := by
  intro d
  rw [getElem?_consumerMap]
  decide

end OpGraph.Draft
