import OpGraph.Proofs.Bindings
import OpGraph.Proofs.Consumers
import OpGraph.Proofs.Entries

/-!
# Walks

A walk visits a node for each step of a pattern and hops from each node to one
that reads an output of it. Which walks there are is said without the search:
every step takes its node, the outputs of all steps but the last bind their
variables without a conflict, and every node reads what the steps before it have
bound to its inputs. The hops from one node have an order, by the place of the
output and then by the place of the reader (`Draft.hops`); it orders walks
lexicographically.
-/

namespace OpGraph

/-- A way from a node to a reader of it: the place of an output among the outputs of the node, and
the place of the reader among the nodes of the draft. -/
abbrev Hop := Nat × Nat

/-- The order of hops: by the output, then by the reader. -/
abbrev Hop.Before : Hop → Hop → Prop :=
  Prod.Lex (· < ·) (· < ·)

namespace Draft

/-- A hop leads from a node to the handle of another one that reads the output of the hop. -/
def Leads (d : Draft) (node : Node) (hop : Hop) (h : Handle) : Prop :=
  ∃ t n, node.outputs[hop.1]? = some t ∧ t ≠ "" ∧ d.entries[hop.2]? = some ⟨h, n⟩ ∧
    n.isConstant = false ∧ t ∈ n.inputs

/-- The hops from a node, each with the handle that it leads to, in order. -/
def hops (d : Draft) (node : Node) : List (Hop × Handle) :=
  node.outputs.zipIdx.flatMap fun o =>
    if o.1 = "" then []
    else
      (d.entries.zipIdx.filter fun e => !e.1.node.isConstant && e.1.node.reads o.1).map fun e =>
        ((o.2, e.2), e.1.handle)

variable {d : Draft}

theorem mem_hops {node : Node} {hop : Hop} {h : Handle} :
    (hop, h) ∈ d.hops node ↔ d.Leads node hop h := by
  obtain ⟨i, q⟩ := hop
  simp only [hops, List.mem_flatMap, List.mem_zipIdx_iff_getElem?, Prod.exists]
  constructor
  · rintro ⟨t, j, ht, hmem⟩
    split at hmem
    · simp at hmem
    · obtain ⟨⟨e, r⟩, he, heq⟩ := List.mem_map.1 hmem
      obtain ⟨he, hread⟩ := List.mem_filter.1 he
      cases heq
      rw [List.mem_zipIdx_iff_getElem?] at he
      rw [Bool.and_eq_true, Bool.not_eq_true', Node.reads, List.contains_iff_mem] at hread
      exact ⟨t, e.node, ht, ‹_›, he, hread.1, hread.2⟩
  · rintro ⟨t, n, ht, hne, he, hconst, hread⟩
    refine ⟨t, i, ht, ?_⟩
    rw [if_neg hne, List.mem_map]
    refine ⟨(⟨h, n⟩, q), List.mem_filter.2 ⟨List.mem_zipIdx_iff_getElem?.2 he, ?_⟩, rfl⟩
    simp [hconst, Node.reads, hread]

theorem zipIdx_sorted (l : List α) : l.zipIdx.Pairwise fun a b => a.2 < b.2 := by
  have h : (l.zipIdx.map (·.2)).Pairwise (· < ·) := by
    rw [List.zipIdx_map_snd]
    exact List.pairwise_lt_range'
  exact List.pairwise_map.1 h

theorem hops_sorted (d : Draft) (node : Node) :
    (d.hops node).Pairwise fun a b => Hop.Before a.1 b.1 := by
  unfold hops
  rw [List.pairwise_flatMap]
  constructor
  · rintro ⟨t, i⟩ -
    dsimp only
    split
    · exact .nil
    · refine List.pairwise_map.2 (((zipIdx_sorted d.entries).filter _).imp ?_)
      exact fun h => Prod.Lex.right _ h
  · refine (zipIdx_sorted node.outputs).imp fun {a b} hlt x hx y hy => ?_
    split at hx
    · simp at hx
    split at hy
    · simp at hy
    obtain ⟨e, -, rfl⟩ := List.mem_map.1 hx
    obtain ⟨e', -, rfl⟩ := List.mem_map.1 hy
    exact Prod.Lex.left _ _ hlt

/-- The search comes by the hops in this order. -/
theorem map_hops (d : Draft) (node : Node) :
    (d.hops node).map (·.2) = node.outputs.flatMap fun o => d.consumerMap.getD o [] := by
  have hconsumers : ∀ t, d.consumers t =
      (d.entries.zipIdx.filter fun e => !e.1.node.isConstant && e.1.node.reads t).map
        (·.1.handle) := by
    intro t
    conv_lhs =>
      rw [consumers, select, ← List.zipIdx_map_fst 0 d.entries, List.filter_map, List.map_map]
    rfl
  conv_rhs => rw [← List.zipIdx_map_fst 0 node.outputs, List.flatMap_map]
  rw [hops, List.map_flatMap]
  refine List.flatMap_congr fun o _ => ?_
  rw [getD_consumerMap]
  split
  · rfl
  · rw [hconsumers, List.map_map]
    rfl

/-- A walk that goes on from earlier visits, by the given hops. -/
structure Walks (d : Draft) (earlier walk : List Visit) (hops : List Hop) : Prop where
  present : ∀ v ∈ walk, d.node? v.handle = some v.node
  movable : ∀ v ∈ walk, v.node.isConstant = false
  accepts : ∀ v ∈ walk, v.step.ops.accepts v.node.op
  outputs : ∀ v ∈ walk.dropLast, SlotsMet v.step.outputs v.node.outputs
  agrees : Agrees (earlier ++ walk.dropLast)
  inputs : ∀ before v after, walk = before ++ v :: after → v.ReadsBound (earlier ++ before)
  length : walk.length = hops.length + 1
  leads : ∀ (k : Nat) v w hop, walk[k]? = some v → walk[k + 1]? = some w → hops[k]? = some hop →
    d.Leads v.node hop w.handle

theorem Walks.agrees_earlier {earlier walk : List Visit} {hops : List Hop}
    (h : d.Walks earlier walk hops) : Agrees earlier := by
  rintro x t u ⟨v, hv, ht⟩ ⟨w, hw, hu⟩
  exact h.agrees x t u ⟨v, List.mem_append_left _ hv, ht⟩ ⟨w, List.mem_append_left _ hw, hu⟩

/-- One visit alone. -/
theorem walks_singleton {earlier : List Visit} {v : Visit} {hops : List Hop} :
    d.Walks earlier [v] hops ↔ hops = [] ∧ d.node? v.handle = some v.node ∧
      v.node.isConstant = false ∧ v.step.ops.accepts v.node.op ∧ v.ReadsBound earlier ∧
      Agrees earlier := by
  constructor
  · intro h
    refine ⟨List.length_eq_zero_iff.1 (by simpa using h.length), ?_⟩
    refine ⟨h.present v (by simp), h.movable v (by simp), h.accepts v (by simp), ?_, ?_⟩
    · simpa using h.inputs [] v [] rfl
    · simpa using h.agrees
  · rintro ⟨rfl, hpresent, hmovable, haccepts, hinputs, hagrees⟩
    refine ⟨by simpa, by simpa, by simpa, by simp, by simpa, ?_, rfl, by simp⟩
    intro before u after heq
    obtain ⟨rfl, rfl, rfl⟩ : before = [] ∧ u = v ∧ after = [] := by
      cases before <;> simp_all
    simpa using hinputs

/-- One visit, a hop, and a walk that goes on from there. -/
theorem walks_cons {earlier rest : List Visit} {v w : Visit} {hops : List Hop} :
    d.Walks earlier (v :: w :: rest) hops ↔ ∃ hop hops', hops = hop :: hops' ∧
      d.node? v.handle = some v.node ∧ v.node.isConstant = false ∧
      v.step.ops.accepts v.node.op ∧ v.ReadsBound earlier ∧
      SlotsMet v.step.outputs v.node.outputs ∧ d.Leads v.node hop w.handle ∧
      d.Walks (earlier ++ [v]) (w :: rest) hops' := by
  constructor
  · intro h
    obtain ⟨hop, hops', rfl⟩ : ∃ hop hops', hops = hop :: hops' := by
      cases hops with
      | nil => simpa using h.length
      | cons hop hops' => exact ⟨hop, hops', rfl⟩
    refine ⟨hop, hops', rfl, h.present v (by simp), h.movable v (by simp), h.accepts v (by simp),
      ?_, h.outputs v (by simp), h.leads 0 v w hop rfl rfl rfl, ?_⟩
    · simpa using h.inputs [] v _ rfl
    -- the rest is a walk after one visit more
    · constructor
      · exact fun u hu => h.present u (List.mem_cons_of_mem _ hu)
      · exact fun u hu => h.movable u (List.mem_cons_of_mem _ hu)
      · exact fun u hu => h.accepts u (List.mem_cons_of_mem _ hu)
      · exact fun u hu => h.outputs u (by simpa using .inr hu)
      · simpa using h.agrees
      · intro before u after heq
        simpa using h.inputs (v :: before) u after (by rw [heq, List.cons_append])
      · simpa using h.length
      · exact fun k u u' hop hu hu' hhop => h.leads (k + 1) u u' hop hu hu' hhop
  · rintro ⟨hop, hops', rfl, hpresent, hmovable, haccepts, hinputs, houtputs, hleads, h⟩
    constructor
    · exact List.forall_mem_cons.2 ⟨hpresent, h.present⟩
    · exact List.forall_mem_cons.2 ⟨hmovable, h.movable⟩
    · exact List.forall_mem_cons.2 ⟨haccepts, h.accepts⟩
    · exact List.forall_mem_cons.2 ⟨houtputs, h.outputs⟩
    · simpa using h.agrees
    · intro before u after heq
      cases before with
      | nil =>
        cases heq
        simpa using hinputs
      | cons b before =>
        obtain ⟨rfl, hrest⟩ := List.cons.inj heq
        simpa using h.inputs before u after hrest
    · simpa using h.length
    -- the first hop is the given one, the others are those of the rest
    · rintro (_ | k) u u' hop' hu hu' hhop
      · cases hu
        cases hu'
        cases hhop
        exact hleads
      · exact h.leads k u u' hop' hu hu' hhop

end Draft

/-- A walk for all steps of a pattern that starts from an anchor. -/
structure Pattern.IsWalk (p : Pattern) (d : Draft) (anchor : Handle) (walk : List Visit)
    (hops : List Hop) : Prop where
  steps : walk.map (·.step) = p.steps
  anchor : walk.head?.map (·.handle) = some anchor
  walks : d.Walks [] walk hops

end OpGraph
