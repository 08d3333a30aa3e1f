import OpGraph.Proofs.Dataflow
import OpGraph.Proofs.Trimming

/-!
# Private constants

The constants behind nodes that are gone are removed tensor by tensor, and each time it is asked
again whether something still needs the tensor. Whatever the answers are, the constants and
initializers of some of these tensors are gone in the end, and where shared tensors are protected,
nothing that is left needs one of them (`Draft.exists_purge`). Constants that read nothing need no
tensor, so that the answers are those of the draft at the start: the removal takes away the private
tensors, all at once (`Draft.removePrivateConstants_exact`).
-/

namespace OpGraph

/-- What is left and what has gone make up the whole. -/
theorem length_filter_not_add_countP {α : Type} (p : α → Prop) [DecidablePred p] (l : List α) :
    (l.filter fun a => ¬ p a).length + l.countP (fun a => p a) = l.length := by
  rw [List.countP_eq_length_filter, Nat.add_comm]
  simpa using (List.length_eq_length_filter_add (l := l) fun a => decide (p a)).symm

namespace Draft

variable {d : Draft} {dropped : List Node} {protectShared : Bool} {t : String}
  {tensors tensors' : List String}

/-! ### Several tensors at once -/

/-- The draft without the constants that write some tensors, and without the initializers of these
names. -/
def purge (d : Draft) (tensors : List String) : Draft :=
  (d.keepEntries fun e =>
    ¬ (e.node.isConstant ∧ ∃ t ∈ e.node.outputs, t ∈ tensors)).keepInitializers
      fun i => i.name ∉ tensors

theorem purge_nil (d : Draft) : d.purge [] = d := by
  ext1 <;> simp [purge, keepEntries, keepInitializers]

theorem purge_purge (d : Draft) (tensors tensors' : List String) :
    (d.purge tensors).purge tensors' = d.purge (tensors ++ tensors') := by
  ext1
  · rfl
  · simp only [purge, keepEntries, keepInitializers, List.filter_filter]
    refine List.filter_congr fun e _ => ?_
    rw [← Bool.decide_and, decide_eq_decide]
    simp only [List.mem_append, and_or_left, exists_or, not_or]
    exact and_comm
  · rfl
  · simp only [purge, keepEntries, keepInitializers, List.filter_filter]
    exact List.filter_congr fun i _ => by simp [Bool.and_comm]

/-- Neither the order of the tensors counts nor how often they come. -/
theorem purge_congr (h : ∀ t, t ∈ tensors ↔ t ∈ tensors') : d.purge tensors = d.purge tensors' := by
  simp only [purge, h]

theorem purge_singleton (d : Draft) (t : String) :
    (d.removeConstants t).removeInitializers t = d.purge [t] := by
  ext1 <;> simp [purge, removeConstants, removeInitializers, keepEntries, keepInitializers,
    Node.writes]

/-! ### What is needed -/

theorem mem_tensorsRead : t ∈ tensorsRead dropped ↔ t ≠ "" ∧ ∃ n ∈ dropped, t ∈ n.inputs := by
  simp [tensorsRead, and_comm]

theorem isShared_iff : d.isShared t ↔ (∃ n ∈ d.nodes, t ∈ n.inputs) ∨ d.isOutput t := by
  simp [isShared, Node.reads]

/-- What is not needed is not needed later. -/
theorem isShared_of_purge (h : (d.purge tensors).isShared t) : d.isShared t := by
  refine isShared_iff.2 ((isShared_iff.1 h).imp_left ?_)
  rintro ⟨n, hn, ht⟩
  obtain ⟨e, he, rfl⟩ := mem_nodes.1 hn
  exact ⟨e.node, node_mem_nodes (List.mem_filter.1 he).1, ht⟩

/-! ### Tensor by tensor -/

/-- What a removal of constants does, it does tensor by tensor. -/
theorem removePrivateConstants_induction {motive : ConstantRemoval → Prop}
    (hstart : motive { draft := d })
    (hdrop : ∀ r, ∀ t ∈ tensorsRead dropped, motive r → motive (r.drop protectShared t)) :
    motive (d.removePrivateConstants dropped protectShared) := by
  unfold removePrivateConstants
  generalize tensorsRead dropped = tensors at hdrop ⊢
  generalize ({ draft := d } : ConstantRemoval) = r at hstart ⊢
  induction tensors generalizing r with
  | nil => exact hstart
  | cons t tensors ih =>
    exact ih (fun r' u hu => hdrop r' u (List.mem_cons_of_mem _ hu)) _
      (hdrop r t List.mem_cons_self hstart)

theorem draft_drop (r : ConstantRemoval) (protectShared : Bool) (t : String) :
    (r.drop protectShared t).draft =
      if protectShared && r.draft.isShared t then r.draft else r.draft.purge [t] := by
  unfold ConstantRemoval.drop
  dsimp only
  split
  · split <;> rfl
  · exact purge_singleton _ _

/-- What a removal takes away are constants and initializers of tensors that were read, and where
shared tensors are protected, nothing that is left needs them. -/
theorem exists_purge (d : Draft) (dropped : List Node) (protectShared : Bool) :
    ∃ tensors ⊆ tensorsRead dropped,
      (d.removePrivateConstants dropped protectShared).draft = d.purge tensors ∧
        (protectShared → ∀ t ∈ tensors, ¬ (d.purge tensors).isShared t) := by
  refine removePrivateConstants_induction
    (motive := fun r => ∃ tensors ⊆ tensorsRead dropped, r.draft = d.purge tensors ∧
      (protectShared → ∀ t ∈ tensors, ¬ (d.purge tensors).isShared t))
    ⟨[], List.nil_subset _, d.purge_nil.symm, by simp⟩ ?_
  rintro r t ht ⟨tensors, hsub, hr, hunshared⟩
  rw [draft_drop]
  split
  · exact ⟨tensors, hsub, hr, hunshared⟩
  · rename_i hshared
    refine ⟨tensors ++ [t], List.append_subset.2 ⟨hsub, by simpa using ht⟩, ?_, fun hprotect => ?_⟩
    · rw [hr, purge_purge]
    · rw [hprotect, Bool.true_and, hr] at hshared
      rw [← purge_purge]
      refine List.forall_mem_append.2 ⟨fun u hu h => ?_, ?_⟩
      · exact hunshared hprotect u hu (isShared_of_purge h)
      · simpa using fun h => hshared (isShared_of_purge h)

theorem trims_removePrivateConstants (d : Draft) (dropped : List Node) (protectShared : Bool) :
    d.Trims (d.removePrivateConstants dropped protectShared).draft := by
  obtain ⟨tensors, -, hdraft, -⟩ := d.exists_purge dropped protectShared
  rw [hdraft]
  exact (Trims.keepEntries _ _).trans (.keepInitializers _ _)

/-- Only constants are removed. -/
theorem mem_entries_removePrivateConstants {e : Entry} (he : e ∈ d.entries)
    (hconst : e.node.isConstant = false) (dropped : List Node) (protectShared : Bool) :
    e ∈ (d.removePrivateConstants dropped protectShared).draft.entries := by
  obtain ⟨tensors, -, hdraft, -⟩ := d.exists_purge dropped protectShared
  rw [hdraft]
  exact List.mem_filter.2 ⟨he, by simp [hconst]⟩

/-- A removal of constants remarks on the ones that it keeps. -/
theorem remarks_removePrivateConstants (d : Draft) (dropped : List Node) (protectShared : Bool) :
    ∀ r ∈ (d.removePrivateConstants dropped protectShared).remarks, ∃ t, r = .constantKept t := by
  refine removePrivateConstants_induction
    (motive := fun c => ∀ r ∈ c.remarks, ∃ t, r = .constantKept t) (by simp) fun c t _ hc => ?_
  unfold ConstantRemoval.drop
  dsimp only
  split
  · split
    · exact List.forall_mem_append.2 ⟨hc, by simp⟩
    · exact hc
  · exact hc

/-- A removal of constants counts what it removes. -/
theorem length_removePrivateConstants (d : Draft) (dropped : List Node) (protectShared : Bool) :
    let r := d.removePrivateConstants dropped protectShared
    r.draft.entries.length + r.constants = d.entries.length ∧
      r.draft.initializers.length + r.initializers = d.initializers.length := by
  refine removePrivateConstants_induction
    (motive := fun r => r.draft.entries.length + r.constants = d.entries.length ∧
      r.draft.initializers.length + r.initializers = d.initializers.length) ⟨rfl, rfl⟩ ?_
  rintro r t - ⟨hentries, hinitializers⟩
  unfold ConstantRemoval.drop
  dsimp only
  split
  · split <;> exact ⟨hentries, hinitializers⟩
  · have hnodes := List.length_eq_length_filter_add (l := r.draft.entries)
      fun e => e.node.isConstant && e.node.writes t
    have htensors := List.length_eq_length_filter_add (l := r.draft.initializers)
      fun u => decide (u.name = t)
    simp only [constantsWriting, select, initializersNamed, removeInitializers, keepInitializers,
      removeConstants, keepEntries, List.length_map, ne_eq, decide_not] at hnodes htensors ⊢
    omega

/-! ### Constants that read nothing -/

/-- A constant that reads nothing does not need a tensor. -/
theorem isShared_purge (hconstants : ∀ n ∈ d.nodes, n.isConstant → n.inputs = [])
    (tensors : List String) : (d.purge tensors).isShared t = d.isShared t := by
  rw [Bool.eq_iff_iff]
  refine ⟨isShared_of_purge, fun h => isShared_iff.2 ((isShared_iff.1 h).imp_left ?_)⟩
  rintro ⟨n, hn, ht⟩
  obtain ⟨e, he, rfl⟩ := mem_nodes.1 hn
  have hconst : e.node.isConstant = false := by
    by_contra h
    rw [hconstants e.node hn (by simpa using h)] at ht
    cases ht
  exact ⟨e.node, node_mem_nodes (List.mem_filter.2 ⟨he, by simp [hconst]⟩), ht⟩

theorem draft_foldl_drop {r : ConstantRemoval}
    (hconstants : ∀ n ∈ r.draft.nodes, n.isConstant → n.inputs = []) (tensors : List String) :
    (tensors.foldl (ConstantRemoval.drop protectShared) r).draft =
      r.draft.purge (tensors.filter fun t => !(protectShared && r.draft.isShared t)) := by
  induction tensors generalizing r with
  | nil => exact r.draft.purge_nil.symm
  | cons t tensors ih =>
    have hdrop := draft_drop r protectShared t
    rw [List.foldl_cons]
    cases hkept : protectShared && r.draft.isShared t with
    | true =>
      rw [hkept, if_pos rfl] at hdrop
      rw [ih (by rwa [hdrop]), hdrop, List.filter_cons_of_neg (by simp [hkept])]
    | false =>
      rw [hkept, if_neg Bool.false_ne_true] at hdrop
      have hleft : ∀ n ∈ (r.draft.purge [t]).nodes, n ∈ r.draft.nodes := by
        intro n hn
        obtain ⟨e, he, rfl⟩ := mem_nodes.1 hn
        exact node_mem_nodes (List.mem_filter.1 he).1
      rw [ih (by rw [hdrop]; exact fun n hn => hconstants n (hleft n hn)), hdrop, purge_purge,
        List.filter_cons_of_pos (by simp [hkept])]
      simp only [isShared_purge hconstants, List.singleton_append]

/-- A tensor that goes with nodes that are gone: some of them has read it and, where shared tensors
are protected, no node reads it and it is no output of the graph. -/
def IsPrivate (d : Draft) (dropped : List Node) (protectShared : Bool) (t : String) : Prop :=
  t ≠ "" ∧ (∃ n ∈ dropped, t ∈ n.inputs) ∧
    (protectShared = true → (∀ n ∈ d.nodes, t ∉ n.inputs) ∧ ¬ d.isOutput t)

instance : DecidablePred (d.IsPrivate dropped protectShared) :=
  fun _ => inferInstanceAs (Decidable (_ ∧ _ ∧ _))

/-- The private tensors among those that were read. -/
theorem mem_privateTensors :
    t ∈ (tensorsRead dropped).filter (fun t => !(protectShared && d.isShared t)) ↔
      d.IsPrivate dropped protectShared t := by
  rw [List.mem_filter, mem_tensorsRead, IsPrivate, and_assoc]
  refine and_congr_right fun _ => and_congr_right fun _ => ?_
  cases protectShared with
  | false => simp
  | true =>
    have hshared := not_congr (d.isShared_iff (t := t))
    simp only [Bool.not_eq_true, not_or, not_exists, not_and] at hshared
    simp [hshared]

/-- **Exactly the private constants are removed.** Where constants read nothing, a removal leaves
the draft without the constants that write a private tensor and without the initializers of the name
of one, all others in their order, and counts what has gone. It depends on the nodes that are gone
only through the tensors that these have read. -/
theorem removePrivateConstants_exact (hconstants : ∀ n ∈ d.nodes, n.isConstant → n.inputs = [])
    (dropped : List Node) (protectShared : Bool) :
    let r := d.removePrivateConstants dropped protectShared
    r.draft.entries = d.entries.filter (fun e =>
        ¬ (e.node.isConstant ∧ ∃ t ∈ e.node.outputs, d.IsPrivate dropped protectShared t)) ∧
      r.draft.initializers =
        d.initializers.filter (fun i => ¬ d.IsPrivate dropped protectShared i.name) ∧
      r.draft.frame = d.frame ∧ r.draft.fresh = d.fresh ∧
      r.constants = d.entries.countP (fun e =>
        e.node.isConstant ∧ ∃ t ∈ e.node.outputs, d.IsPrivate dropped protectShared t) ∧
      r.initializers =
        d.initializers.countP (fun i => d.IsPrivate dropped protectShared i.name) ∧
      ∀ dropped' : List Node, (∀ t, t ≠ "" →
          ((∃ n ∈ dropped', t ∈ n.inputs) ↔ ∃ n ∈ dropped, t ∈ n.inputs)) →
        let r' := d.removePrivateConstants dropped' protectShared
        r'.draft = r.draft ∧ r'.constants = r.constants ∧ r'.initializers = r.initializers := by
  intro r
  have hdraft (dropped : List Node) : (d.removePrivateConstants dropped protectShared).draft =
      d.purge ((tensorsRead dropped).filter fun t => !(protectShared && d.isShared t)) :=
    draft_foldl_drop (r := { draft := d }) hconstants _
  have hentries : r.draft.entries = d.entries.filter (fun e =>
      ¬ (e.node.isConstant ∧ ∃ t ∈ e.node.outputs, d.IsPrivate dropped protectShared t)) := by
    rw [hdraft]
    exact List.filter_congr fun e _ => by simp only [mem_privateTensors]
  have hinitializers : r.draft.initializers =
      d.initializers.filter (fun i => ¬ d.IsPrivate dropped protectShared i.name) := by
    rw [hdraft]
    exact List.filter_congr fun i _ => by simp only [mem_privateTensors]
  obtain ⟨hnodes, htensors⟩ := d.length_removePrivateConstants dropped protectShared
  refine ⟨hentries, hinitializers, ?_, ?_, ?_, ?_, fun dropped' hsame => ?_⟩
  · rw [hdraft]
    rfl
  · rw [hdraft]
    rfl
  · rw [hentries] at hnodes
    exact Nat.add_left_cancel (hnodes.trans (length_filter_not_add_countP _ _).symm)
  · rw [hinitializers] at htensors
    exact Nat.add_left_cancel (htensors.trans (length_filter_not_add_countP _ _).symm)
  -- the same tensors are private, so that the same is left and the same number has gone
  · obtain ⟨hnodes', htensors'⟩ := d.length_removePrivateConstants dropped' protectShared
    have hleft : (d.removePrivateConstants dropped' protectShared).draft = r.draft := by
      rw [hdraft, hdraft]
      refine purge_congr fun t => ?_
      rw [mem_privateTensors, mem_privateTensors]
      exact and_congr_right fun hne => and_congr_left fun _ => hsame t hne
    rw [hleft] at hnodes' htensors'
    exact ⟨hleft, Nat.add_left_cancel (hnodes'.trans hnodes.symm),
      Nat.add_left_cancel (htensors'.trans htensors.symm)⟩

/-- Of three constants and three initializers that fed two nodes, one constant is still read, one is
an output of the graph and one initializer is still read: the others go, the two initializers of one
name both. -/
theorem removePrivateConstants_exact_mixed :
    let mul : Node := { op := "Mul", inputs := ["x", "k", "w", "k"], outputs := ["m"] }
    let sub : Node := { op := "Sub", inputs := ["m", "k", "s", "o", "v"], outputs := ["z"] }
    let d := ofGraph
      { nodes :=
          [{ op := constantOp, outputs := ["k"] }, { op := constantOp, outputs := ["s"] },
            { op := constantOp, outputs := ["o"] },
            { op := "Add", inputs := ["x", "s", "v"], outputs := ["y"] }]
        initializers := [{ name := "w" }, { name := "v" }, { name := "w" }]
        inputs := [{ name := "x" }]
        outputs := [{ name := "y" }, { name := "o" }] }
    let r := d.removePrivateConstants [mul, sub] true
    (∀ n ∈ d.nodes, n.isConstant → n.inputs = []) ∧ r.draft.handles = [⟨1⟩, ⟨2⟩, ⟨3⟩] ∧
      r.draft.initializers.map (·.name) = ["v"] ∧ r.constants = 1 ∧ r.initializers = 2 ∧
      (d.removePrivateConstants [sub, mul, sub] true).draft = r.draft := by
  intro mul sub d r
  have hconstants : ∀ n ∈ d.nodes, n.isConstant → n.inputs = [] := by decide
  obtain ⟨hentries, hinitializers, -, -, hremoved, hdropped, hsame⟩ :=
    removePrivateConstants_exact hconstants [mul, sub] true
  refine ⟨hconstants, ?_, ?_, ?_, ?_, (hsame [sub, mul, sub] fun t _ => ?_).1⟩
  · rw [handles, hentries]
    decide
  · rw [hinitializers]
    decide
  · rw [hremoved]
    decide
  · rw [hdropped]
    decide
  · simp [or_comm]

end Draft

end OpGraph
