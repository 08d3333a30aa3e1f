import OpGraph.Model.Schema
import OpGraph.Wire.Field

/-!
# Outlines

The outline of a message is the tree of fields that it writes: in the order of
the schema, without the single values that are left at their default.
`Message.outline` draws it, `Outline.encode` writes it down, `Outline.height`
counts how deep its messages are nested, and `Outline.alike` compares two
outlines with numbers compared as numbers.
-/

namespace OpGraph

/-- A field that a message writes. -/
inductive Outline
  | value (number : Nat) (payload : Payload)
  | packed (number : Nat) (payloads : List Payload)
  | message (number : Nat) (fields : List Outline)

namespace Outline

/-- The bytes of a field whose content is a run of bytes. -/
def encodeRun (number : Nat) (content : List UInt8) : List UInt8 :=
  encodeKey number WireType.bytes.code ++ (Payload.bytes content).encode

mutual

/-- The bytes of a field. -/
def encode : Outline → List UInt8
  | value n p => encodeKey n p.wireType.code ++ p.encode
  | packed n ps => encodeRun n (ps.flatMap Payload.encode)
  | message n fields => encodeRun n (encodeAll fields)

/-- The bytes of a run of fields. -/
def encodeAll : List Outline → List UInt8
  | [] => []
  | f :: fields => f.encode ++ encodeAll fields

end

mutual

/-- How deep messages are nested in a field, a message field itself included. -/
def height : Outline → Nat
  | value .. | packed .. => 0
  | message _ fields => heightAll fields + 1

/-- How deep messages are nested in a run of fields. -/
def heightAll : List Outline → Nat
  | [] => 0
  | f :: fields => max f.height (heightAll fields)

end

end Outline

/-- Equality of payloads, with payloads of fixed size compared as floating-point numbers. -/
def Payload.alike : Payload → Payload → Bool
  | .fixed32 x, .fixed32 y => Single.alike ⟨x⟩ ⟨y⟩
  | .fixed64 x, .fixed64 y => Double.alike ⟨x⟩ ⟨y⟩
  | p, q => p == q

/-- Equality of runs of payloads, place by place. -/
def Payload.alikeAll : List Payload → List Payload → Bool
  | [], [] => true
  | p :: ps, q :: qs => p.alike q && alikeAll ps qs
  | _, _ => false

namespace Outline

mutual

/-- Equality of fields, with numbers compared as numbers. -/
def alike : Outline → Outline → Bool
  | value m p, value n q => m == n && p.alike q
  | packed m ps, packed n qs => m == n && Payload.alikeAll ps qs
  | message m fields, message n others => m == n && alikeAll fields others
  | _, _ => false

/-- Equality of runs of fields, place by place. -/
def alikeAll : List Outline → List Outline → Bool
  | [], [] => true
  | f :: fields, g :: others => f.alike g && alikeAll fields others
  | _, _ => false

end

end Outline

/-- A message of any kind. -/
structure Message where
  kind : MessageKind
  value : kind.Value

/-- The messages in a value of an alternative. -/
def Alternative.children : (a : Alternative) → a.Value → List Message
  | scalar _, _ => []
  | message k, m => [⟨k, m⟩]

/-- The messages in a choice. -/
def Choice.children : (alternatives : List (Nat × Alternative)) → Choice alternatives → List Message
  | (_, a) :: _, .inl v => a.children v
  | _ :: rest, .inr v => children rest v

/-- The messages in a field. -/
def FieldType.children : (t : FieldType) → t.Value → List Message
  | single _, _ => []
  | repeated _ _, _ => []
  | message _, none => []
  | message k, some m => [⟨k, m⟩]
  | messages k, ms => ms.map fun m => ⟨k, m⟩
  | choice _, none => []
  | choice alternatives, some v => Choice.children alternatives v

/-- The messages in the fields of a record. -/
def Record.children : (specs : List FieldSpec) → Record specs → List Message
  | [], _ => []
  | spec :: rest, (v, r) => spec.type.children v ++ children rest r

/-- The messages that stand in a message. -/
def Message.children (m : Message) : List Message :=
  Record.children m.kind.schema (Record.ofMessage m.kind m.value)

/-- The size of a message, which exceeds the size of each message in it. -/
noncomputable def Message.weight : Message → Nat
  | ⟨.property, (p : Property)⟩ => sizeOf p
  | ⟨.segment, (s : Segment)⟩ => sizeOf s
  | ⟨.tensor, (t : Tensor)⟩ => sizeOf t
  | ⟨.sparseTensor, (t : SparseTensor)⟩ => sizeOf t
  | ⟨.dimension, (d : Dimension)⟩ => sizeOf d
  | ⟨.shape, (s : Shape)⟩ => sizeOf s
  | ⟨.tensorType, (t : TensorType)⟩ => sizeOf t
  | ⟨.sequenceType, (t : Option ValueType)⟩ => sizeOf t
  | ⟨.mapType, (t : Int32 × Option ValueType)⟩ => sizeOf t
  | ⟨.customType, (t : String × String)⟩ => sizeOf t
  | ⟨.optionalType, (t : Option ValueType)⟩ => sizeOf t
  | ⟨.valueType, (t : ValueType)⟩ => sizeOf t
  | ⟨.valueInfo, (v : ValueInfo)⟩ => sizeOf v
  | ⟨.deviceGroup, (g : DeviceGroup)⟩ => sizeOf g
  | ⟨.shardCount, (s : ShardCount)⟩ => sizeOf s
  | ⟨.shardedAxis, (a : ShardedAxis)⟩ => sizeOf a
  | ⟨.sharding, (s : Sharding)⟩ => sizeOf s
  | ⟨.placement, (p : Placement)⟩ => sizeOf p
  | ⟨.nodeAttribute, (a : Attribute)⟩ => sizeOf a
  | ⟨.node, (n : Node)⟩ => sizeOf n
  | ⟨.quantization, (a : Quantization)⟩ => sizeOf a
  | ⟨.graph, (g : Graph)⟩ => sizeOf g
  | ⟨.operatorSet, (s : OperatorSet)⟩ => sizeOf s
  | ⟨.training, (t : Training)⟩ => sizeOf t
  | ⟨.localFunction, (f : LocalFunction)⟩ => sizeOf f
  | ⟨.deviceConfiguration, (c : DeviceConfiguration)⟩ => sizeOf c
  | ⟨.model, (m : Model)⟩ => sizeOf m

/-- The size of an alternative, with a message in it at its weight. -/
noncomputable def Alternative.size : (a : Alternative) → a.Value → Nat
  | scalar _, _ => 0
  | message k, m => Message.weight ⟨k, m⟩

/-- The size of a choice, with a message in it at its weight. -/
noncomputable def Choice.size : (alternatives : List (Nat × Alternative)) → Choice alternatives → Nat
  | (_, a) :: _, .inl v => a.size v
  | _ :: rest, .inr v => size rest v

/-- The size of a field, with the messages in it at their weights. -/
noncomputable def FieldType.size : (t : FieldType) → t.Value → Nat
  | single _, _ => 0
  | repeated _ _, _ => 0
  | message k, v => sizeOf (v.map fun m => Message.weight ⟨k, m⟩)
  | messages k, ms => sizeOf (ms.map fun m => Message.weight ⟨k, m⟩)
  | choice alternatives, v => sizeOf (v.map (Choice.size alternatives))

/-- The size of a record, with the messages in it at their weights. -/
noncomputable def Record.size : (specs : List FieldSpec) → Record specs → Nat
  | [], _ => 0
  | spec :: rest, (v, r) => spec.type.size v + size rest r

section

variable {c : Message}

theorem Alternative.weight_le_of_mem_children {a : Alternative} {v : a.Value}
    (h : c ∈ a.children v) : c.weight ≤ a.size v := by
  cases a with
  | scalar k => cases h
  | message k =>
    obtain rfl := List.mem_singleton.1 h
    exact Nat.le_refl _

theorem Choice.weight_le_of_mem_children {alternatives : List (Nat × Alternative)}
    {v : Choice alternatives} (h : c ∈ children alternatives v) :
    c.weight ≤ size alternatives v := by
  induction alternatives with
  | nil => cases v
  | cons alternative rest ih =>
    cases v with
    | inl v => exact Alternative.weight_le_of_mem_children h
    | inr v => exact ih h

/-- A message in a field is smaller than the field. -/
theorem FieldType.weight_lt_of_mem_children {t : FieldType} {v : t.Value} (h : c ∈ t.children v) :
    c.weight < t.size v := by
  cases t with
  | single k => cases h
  | repeated k packed => cases h
  | message k =>
    cases v with
    | none => cases h
    | some m =>
      obtain rfl := List.mem_singleton.1 h
      simp [size]
  | messages k =>
    obtain ⟨m, hm, rfl⟩ := List.mem_map.1 h
    have hmem := List.mem_map_of_mem (f := fun m => Message.weight ⟨k, m⟩) hm
    exact List.sizeOf_lt_of_mem hmem
  | choice alternatives =>
    cases v with
    | none => cases h
    | some v =>
      have := Choice.weight_le_of_mem_children h
      simp [size]
      omega

theorem Record.weight_lt_of_mem_children {specs : List FieldSpec} {r : Record specs}
    (h : c ∈ children specs r) : c.weight < size specs r := by
  induction specs with
  | nil => cases h
  | cons spec rest ih =>
    rcases List.mem_append.1 h with h | h
    · exact Nat.lt_add_right _ (FieldType.weight_lt_of_mem_children h)
    · exact Nat.lt_add_left _ (ih h)

end

theorem sizeOf_list_map {α : Type} [SizeOf α] (l : List α) : sizeOf (l.map sizeOf) = sizeOf l := by
  induction l with
  | nil => rfl
  | cons a l ih => simp [ih]

theorem sizeOf_option_map {α : Type} [SizeOf α] (a : Option α) :
    sizeOf (a.map sizeOf) = sizeOf a := by
  cases a <;> simp

/-- A message is as large as its fields together, or larger. -/
theorem Message.size_le_weight (m : Message) :
    Record.size m.kind.schema (Record.ofMessage m.kind m.value) ≤ m.weight := by
  obtain ⟨k, v⟩ := m
  cases k
  all_goals
    simp only [MessageKind.schema, Record.ofMessage, Record.size, FieldType.size, weight,
      sizeOf_list_map, sizeOf_option_map]
  case property | segment | customType | deviceGroup | operatorSet | deviceConfiguration =>
    exact Nat.zero_le _
  case sequenceType | optionalType => exact Nat.le_refl _
  -- how large a choice is depends on the alternative that it holds
  case dimension | shardCount =>
    obtain ⟨_ | _ | _, _⟩ := v
    all_goals
      simp [Choice.size, Alternative.size]
      omega
  case valueType =>
    obtain ⟨_ | _ | _ | _ | _ | _ | _, _⟩ := v
    all_goals
      simp [Choice.size, Alternative.size, weight]
      omega
  all_goals
    cases v
    simp <;> omega

/-- A message is larger than the messages in it. -/
theorem Message.weight_lt_of_mem_children {m c : Message} (h : c ∈ m.children) :
    c.weight < m.weight :=
  Nat.lt_of_lt_of_le (Record.weight_lt_of_mem_children h) m.size_le_weight

/-- The field that an alternative writes, given the outlines of the messages in it. -/
def Alternative.outline (number : Nat) : (a : Alternative) → (v : a.Value) →
    ((c : Message) → c ∈ a.children v → List Outline) → Outline
  | scalar k, v, _ => .value number (k.toPayload v)
  | message k, m, draw => .message number (draw ⟨k, m⟩ (by simp [children]))

/-- The field that a choice writes, under the number of its alternative. -/
def Choice.outline : (alternatives : List (Nat × Alternative)) → (v : Choice alternatives) →
    ((c : Message) → c ∈ children alternatives v → List Outline) → Outline
  | (n, a) :: _, .inl v, draw => a.outline n v draw
  | _ :: rest, .inr v, draw => outline rest v draw

/-- The fields that one field of a schema writes, given the outlines of the messages in it. -/
def FieldType.outline (number : Nat) : (t : FieldType) → (v : t.Value) →
    ((c : Message) → c ∈ t.children v → List Outline) → List Outline
  | single k, v, _ => if k.isDefault v then [] else [.value number (k.toPayload v)]
  | repeated k packed, vs, _ =>
    if packed then
      if vs.isEmpty then [] else [.packed number (vs.map k.toPayload)]
    else vs.map fun v => .value number (k.toPayload v)
  | message _, none, _ => []
  | message k, some m, draw => [.message number (draw ⟨k, m⟩ (by simp [children]))]
  | messages k, ms, draw =>
    ms.attach.map fun m =>
      .message number (draw ⟨k, m.1⟩ (by simpa [children] using m.2))
  | choice _, none, _ => []
  | choice alternatives, some v, draw => [Choice.outline alternatives v draw]

/-- The fields that a record writes, given the outlines of the messages in it. -/
def Record.outline : (specs : List FieldSpec) → (r : Record specs) →
    ((c : Message) → c ∈ children specs r → List Outline) → List Outline
  | [], _, _ => []
  | spec :: rest, (v, r), draw =>
    spec.type.outline spec.number v (fun c h => draw c (List.mem_append_left _ h)) ++
      outline rest r fun c h => draw c (List.mem_append_right _ h)

/-- The outline of a message. -/
def Message.outline (m : Message) : List Outline :=
  Record.outline m.kind.schema (Record.ofMessage m.kind m.value) fun c _ => c.outline
termination_by m.weight
decreasing_by exact weight_lt_of_mem_children ‹_›

/-- Equality of messages, with numbers compared as numbers. -/
def Message.alike (m n : Message) : Bool :=
  Outline.alikeAll m.outline n.outline

end OpGraph
