import OpGraph.Proofs.ReadBack

/-!
# Round trips

A model that is written and read again is the same model, but for the negative zeros of the
attributes that hold a number: such a number counts as the default and is left out, so it comes back
as zero (`Model.settle`). It is read at all only where its messages are nested no deeper than the
limit (`Model.decode?_encode`).
-/

namespace OpGraph

/-- The number that comes back for a number that is left out at zero. -/
def Single.settle (x : Single) : Single :=
  if x.bits = 0x80000000 then ⟨0⟩ else x

mutual

/-- An attribute without negative zero, also in the graphs that it holds. -/
def Attribute.settle (a : Attribute) : Attribute :=
  { a with
    single := a.single.settle
    graph := a.graph.attach.map fun g => g.1.settle
    graphs := a.graphs.map fun g => g.settle }
termination_by sizeOf a
decreasing_by
  · obtain ⟨g, hg⟩ := g
    have hsize : sizeOf a.graph = 1 + sizeOf g := by
      rw [hg]
      rfl
    cases a
    simp at *
    omega
  · have := List.sizeOf_lt_of_mem ‹_›
    cases a
    simp at *
    omega

/-- A node with settled attributes. -/
def Node.settle (n : Node) : Node :=
  { n with attributes := n.attributes.map fun a => a.settle }
termination_by sizeOf n
decreasing_by
  have := List.sizeOf_lt_of_mem ‹_›
  cases n
  simp at *
  omega

/-- A graph with settled nodes. -/
def Graph.settle (g : Graph) : Graph :=
  { g with nodes := g.nodes.map fun n => n.settle }
termination_by sizeOf g
decreasing_by
  have := List.sizeOf_lt_of_mem ‹_›
  cases g
  simp at *
  omega

end

/-- A training step with settled graphs. -/
def Training.settle (t : Training) : Training :=
  { t with
    initialization := t.initialization.map fun g => g.settle
    algorithm := t.algorithm.map fun g => g.settle }

/-- An operator with settled nodes and defaults. -/
def LocalFunction.settle (f : LocalFunction) : LocalFunction :=
  { f with
    nodes := f.nodes.map fun n => n.settle
    defaults := f.defaults.map fun a => a.settle }

/-- A model without negative zero in an attribute that holds a number. -/
def Model.settle (m : Model) : Model :=
  { m with
    graph := m.graph.map fun g => g.settle
    training := m.training.map fun t => t.settle
    functions := m.functions.map fun f => f.settle }

/-! ### Settled records -/

/-- The value that comes back for a message of a kind. -/
def MessageKind.settle : (k : MessageKind) → k.Value → k.Value
  | .nodeAttribute, (a : Attribute) => a.settle
  | .node, (n : Node) => n.settle
  | .graph, (g : Graph) => g.settle
  | .training, (t : Training) => t.settle
  | .localFunction, (f : LocalFunction) => f.settle
  | .model, (m : Model) => m.settle
  | _, v => v

/-- The value that comes back for an alternative. -/
def Alternative.settle : (a : Alternative) → a.Value → a.Value
  | scalar _, v => v
  | message k, m => k.settle m

/-- The value that comes back for a choice. -/
def Choice.settle : (alternatives : List (Nat × Alternative)) →
    Choice alternatives → Choice alternatives
  | (_, a) :: _, .inl v => .inl (a.settle v)
  | _ :: rest, .inr v => .inr (settle rest v)

/-- The value that comes back for a field. -/
def FieldType.settle : (t : FieldType) → t.Value → t.Value
  | single k, v => k.settle v
  | repeated _ _, vs => vs
  | message k, m => m.map fun x => k.settle x
  | messages k, ms => ms.map fun x => k.settle x
  | choice alternatives, v => v.map fun x => Choice.settle alternatives x

/-- The fields that come back for the fields of a record. -/
def Record.settle : (specs : List FieldSpec) → Record specs → Record specs
  | [], _ => ()
  | spec :: rest, (v, r) => (spec.type.settle v, settle rest r)

theorem Attribute.settle_eq (a : Attribute) :
    a.settle = { a with
      single := a.single.settle
      graph := a.graph.map fun g => g.settle
      graphs := a.graphs.map fun g => g.settle } := by
  rw [Attribute.settle]
  cases a with
  | mk name single int string tensor graph => cases graph <;> rfl

theorem ScalarKind.settle_single (x : Single) : ScalarKind.single.settle x = x.settle := by
  obtain ⟨bits⟩ := x
  simp only [settle, isDefault, Single.isZero, Single.settle, default, Bool.or_eq_true, beq_iff_eq]
  by_cases h : bits = 0
  · subst h
    rfl
  · simp [h]

/-- Other values than numbers are left out only where they are the default. -/
theorem ScalarKind.settle_of_ne {k : ScalarKind} (hs : k ≠ .single) (hd : k ≠ .double)
    (v : k.Value) : k.settle v = v := by
  cases k <;> simp_all [settle, isDefault, default]

/-- Settling a message settles its fields. -/
theorem Record.ofMessage_settle (k : MessageKind) (v : k.Value) :
    ofMessage k (k.settle v) = settle k.schema (ofMessage k v) := by
  cases k
  -- the recursive kinds are unfolded once, so that the messages in them stay settled
  case' nodeAttribute => rw [MessageKind.settle, Attribute.settle_eq]
  case' node => rw [MessageKind.settle, Node.settle]
  case' graph => rw [MessageKind.settle, Graph.settle]
  case' dimension => obtain ⟨_ | _ | _, _⟩ := v
  case' shardCount => obtain ⟨_ | _ | _, _⟩ := v
  case' valueType => obtain ⟨_ | _ | _ | _ | _ | _ | _, _⟩ := v
  all_goals
    simp [ofMessage, settle, MessageKind.schema, MessageKind.settle, FieldType.settle,
      ScalarKind.settle_of_ne, ScalarKind.settle_single, Choice.settle, Alternative.settle,
      Training.settle, LocalFunction.settle, Model.settle]

/-! ### Reading back to a limit -/

/-- A message comes back settled where it is within a limit, and does not come back elsewhere. -/
def Rereader.SettlesWithin (f : Rereader) (P : Message → Prop) [DecidablePred P] (c : Message) :
    Prop :=
  f c.kind c.value = if P c then some (c.kind.settle c.value) else none

section Limit

variable {f : Rereader} {P : Message → Prop} [DecidablePred P]

theorem bind_if_bind_if {α β γ : Type} {p q : Prop} {_ : Decidable p} {_ : Decidable q}
    {_ : Decidable (p ∧ q)} (a : α) (b : β) (g : α → β → γ) :
    ((if p then some a else none) >>= fun x => (if q then some b else none) >>= fun y =>
      pure (g x y)) = if p ∧ q then some (g a b) else none := by
  by_cases hp : p <;> by_cases hq : q <;> simp [hp, hq]

theorem Alternative.reread_eq {a : Alternative} {v : a.Value}
    (hf : ∀ c ∈ a.children v, f.SettlesWithin P c) :
    a.reread f v = if ∀ c ∈ a.children v, P c then some (a.settle v) else none := by
  cases a with
  | scalar k => simp [reread, children, settle]
  | message k =>
    rw [reread, hf ⟨k, v⟩ List.mem_cons_self]
    simp [children, settle]

theorem Choice.reread_eq {alternatives : List (Nat × Alternative)} {v : Choice alternatives}
    (hf : ∀ c ∈ children alternatives v, f.SettlesWithin P c) :
    reread f alternatives v =
      if ∀ c ∈ children alternatives v, P c then some (settle alternatives v) else none := by
  induction alternatives with
  | nil => exact v.elim
  | cons alternative rest ih =>
    cases v with
    | inl v =>
      change (alternative.2.reread f v).map Sum.inl = _
      rw [Alternative.reread_eq hf, Option.map_if]
      rfl
    | inr v =>
      change (reread f rest v).map Sum.inr = _
      rw [ih hf, Option.map_if]
      rfl

theorem mapM_reread_eq {k : MessageKind} {ms : List k.Value}
    (hf : ∀ c ∈ (FieldType.messages k).children ms, f.SettlesWithin P c) :
    ms.mapM (f k) =
      if ∀ c ∈ (FieldType.messages k).children ms, P c then
        some ((FieldType.messages k).settle ms) else none := by
  induction ms with
  | nil => simp [FieldType.children, FieldType.settle]
  | cons m ms ih =>
    obtain ⟨hm, hms⟩ := List.forall_mem_cons.1 hf
    rw [List.mapM_cons, hm, ih hms]
    simp only [FieldType.children, FieldType.settle, List.map_cons, List.forall_mem_cons]
    exact bind_if_bind_if _ _ _

theorem FieldType.reread_eq {t : FieldType} {v : t.Value}
    (hf : ∀ c ∈ t.children v, f.SettlesWithin P c) :
    t.reread f v = if ∀ c ∈ t.children v, P c then some (t.settle v) else none := by
  cases t with
  | single k => simp [reread, children, settle]
  | repeated k packed => simp [reread, children, settle]
  | message k =>
    cases v with
    | none => simp [reread, children, settle]
    | some m =>
      rw [reread, hf ⟨k, m⟩ List.mem_cons_self, Option.map_if]
      simp [children, settle]
  | messages k => exact mapM_reread_eq hf
  | choice alternatives =>
    cases v with
    | none => simp [reread, children, settle]
    | some v =>
      rw [reread, Choice.reread_eq hf, Option.map_if]
      rfl

/-- A record comes back settled where all messages in it are within the limit. -/
theorem Record.reread_eq {specs : List FieldSpec} {r : Record specs}
    (hf : ∀ c ∈ children specs r, f.SettlesWithin P c) :
    reread f specs r =
      if ∀ c ∈ children specs r, P c then some (settle specs r) else none := by
  induction specs with
  | nil => simp [reread, children, settle]
  | cons spec rest ih =>
    obtain ⟨v, r⟩ := r
    rw [reread, FieldType.reread_eq fun c hc => hf c (List.mem_append_left _ hc),
      ih fun c hc => hf c (List.mem_append_right _ hc)]
    simp only [children, settle, List.forall_mem_append]
    exact bind_if_bind_if _ _ _

end Limit

/-- How deep messages are nested in a model. -/
def Model.depth (m : Model) : Nat :=
  Outline.heightAll (Message.outline ⟨.model, m⟩)

/-- A message comes back settled where the messages in it do, and only there. -/
theorem MessageKind.decodeWith_limit {inner : Reader} {depth : Nat} {m : Message}
    (hsize : m.encode.length < UInt64.size)
    (hinner : ∀ c ∈ m.children,
      inner.onOutlines.SettlesWithin (Outline.heightAll ·.outline < depth) c) :
    decodeWith inner depth m.kind (m.outline.map Outline.field) =
      if Outline.heightAll m.outline ≤ depth then some (m.kind.settle m.value) else none := by
  have hlimit : Outline.heightAll m.outline ≤ depth ↔
      ∀ c ∈ Record.children m.kind.schema (Record.ofMessage m.kind m.value),
        Outline.heightAll c.outline < depth := Message.heightAll_outline_le_iff
  rw [decodeWith_outline hsize, Record.reread_eq hinner, Option.map_if,
    ← Record.ofMessage_settle, Record.toMessage_ofMessage]
  simp only [hlimit]

/-- What a message writes comes back settled where its messages are nested no deeper than the
reader goes. -/
theorem MessageKind.decodeAt_outline {depth : Nat} {m : Message}
    (hsize : m.encode.length < UInt64.size) :
    decodeAt depth m.kind (m.outline.map Outline.field) =
      if Outline.heightAll m.outline ≤ depth then some (m.kind.settle m.value) else none := by
  induction depth generalizing m with
  | zero => exact decodeWith_limit hsize fun c hc => rfl
  | succ depth ih =>
    refine decodeWith_limit hsize fun c hc => ?_
    simp only [Rereader.SettlesWithin, Nat.lt_succ_iff]
    exact ih (Nat.lt_of_le_of_lt (Message.length_encode_le hc) hsize)

/-- A model is read from its binary form as its fields are. -/
theorem Model.decode?_eq_decodeAt {m : Model} (hsize : m.encode.length < UInt64.size) :
    decode? m.encode =
      MessageKind.decodeAt maxDepth .model ((Message.outline ⟨.model, m⟩).map Outline.field) := by
  have hread : Message.Readable ⟨.model, m⟩ := Message.readable hsize
  rw [decode?, encode, hread]
  rfl

/-- **What is read back.** A model is read back from its binary form where its messages are nested
at most a hundred deep, and then it is the same but for negative zeros. The bytes are ones that
can be counted in 64 bits, as the lengths in them are. -/
theorem Model.decode?_encode {m : Model} (hsize : m.encode.length < UInt64.size) :
    decode? m.encode = if m.depth ≤ 100 then some m.settle else none := by
  rw [decode?_eq_decodeAt hsize]
  exact MessageKind.decodeAt_outline (m := ⟨.model, m⟩) hsize

/-- A model with a number in an attribute of a subgraph. -/
def Model.nesting (x : Single) : Model :=
  { graph := some { nodes := [{ attributes := [
      { graph := some { nodes := [{ attributes := [{ name := "f", single := x }] }] } }] }] } }

theorem Model.decode?_encode_negativeZero :
    (nesting ⟨0x80000000⟩).encode.length < UInt64.size ∧
      decode? (nesting ⟨0x80000000⟩).encode = some (nesting ⟨0⟩) := by
  have hsize : (nesting ⟨0x80000000⟩).encode.length < UInt64.size := by decide +kernel
  have hdepth : (nesting ⟨0x80000000⟩).depth ≤ 100 := by decide +kernel
  have hsettle : (nesting ⟨0x80000000⟩).settle = nesting ⟨0⟩ := by cbv
  exact ⟨hsize, by rw [decode?_encode hsize, if_pos hdepth, hsettle]⟩

end OpGraph
