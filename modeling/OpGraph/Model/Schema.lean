import OpGraph.Model.Basic

/-!
# The schema

Every kind of message with its fields, in the order of their numbers. A field of
alternatives holds at most one of them and stands at its lowest number.
`Record.ofMessage` and `Record.toMessage` take a message apart into its fields
and put it together again; `toMessage_ofMessage` says that nothing is lost.
-/

namespace OpGraph

/-- The kinds of messages. -/
inductive MessageKind
  | property
  | segment
  | tensor
  | sparseTensor
  | dimension
  | shape
  | tensorType
  | sequenceType
  | mapType
  | customType
  | optionalType
  | valueType
  | valueInfo
  | deviceGroup
  | shardCount
  | shardedAxis
  | sharding
  | placement
  | nodeAttribute
  | node
  | quantization
  | graph
  | operatorSet
  | training
  | localFunction
  | deviceConfiguration
  | model
deriving DecidableEq

/-- What one alternative of a field holds. -/
inductive Alternative
  | scalar (kind : ScalarKind)
  | message (kind : MessageKind)

/-- What a field holds: one or many values, one message or none, many messages, or at most one of
several alternatives with numbers of their own. -/
inductive FieldType
  | single (kind : ScalarKind)
  | repeated (kind : ScalarKind) (packed : Bool)
  | message (kind : MessageKind)
  | messages (kind : MessageKind)
  | choice (alternatives : List (Nat × Alternative))

/-- A field of a schema. The number of a choice is not used. -/
structure FieldSpec where
  number : Nat
  type : FieldType

/-- The fields of each kind of message. -/
def MessageKind.schema : MessageKind → List FieldSpec
  | property => [⟨1, .single .string⟩, ⟨2, .single .string⟩]
  | segment => [⟨1, .single .int64⟩, ⟨2, .single .int64⟩]
  | tensor =>
    [⟨1, .repeated .int64 false⟩, ⟨2, .single .int32⟩, ⟨3, .message segment⟩,
      ⟨4, .repeated .single true⟩, ⟨5, .repeated .int32 true⟩, ⟨6, .repeated .bytes false⟩,
      ⟨7, .repeated .int64 true⟩, ⟨8, .single .string⟩, ⟨9, .single .bytes⟩,
      ⟨10, .repeated .double true⟩, ⟨11, .repeated .uint64 true⟩, ⟨12, .single .string⟩,
      ⟨13, .messages property⟩, ⟨14, .single .int32⟩, ⟨16, .messages property⟩]
  | sparseTensor => [⟨1, .message tensor⟩, ⟨2, .message tensor⟩, ⟨3, .repeated .int64 false⟩]
  | dimension =>
    [⟨1, .choice [(1, .scalar .int64), (2, .scalar .string)]⟩, ⟨3, .single .string⟩]
  | shape => [⟨1, .messages dimension⟩]
  | tensorType => [⟨1, .single .int32⟩, ⟨2, .message shape⟩]
  | sequenceType => [⟨1, .message valueType⟩]
  | mapType => [⟨1, .single .int32⟩, ⟨2, .message valueType⟩]
  | customType => [⟨1, .single .string⟩, ⟨2, .single .string⟩]
  | optionalType => [⟨1, .message valueType⟩]
  | valueType =>
    [⟨1, .choice [(1, .message tensorType), (4, .message sequenceType), (5, .message mapType),
        (7, .message customType), (8, .message tensorType), (9, .message optionalType)]⟩,
      ⟨6, .single .string⟩]
  | valueInfo =>
    [⟨1, .single .string⟩, ⟨2, .message valueType⟩, ⟨3, .single .string⟩, ⟨4, .messages property⟩]
  | deviceGroup => [⟨1, .single .int64⟩, ⟨2, .repeated .int64 false⟩]
  | shardCount =>
    [⟨1, .choice [(1, .scalar .int64), (2, .scalar .string)]⟩, ⟨3, .single .int64⟩]
  | shardedAxis => [⟨1, .single .int64⟩, ⟨2, .messages shardCount⟩]
  | sharding =>
    [⟨1, .single .string⟩, ⟨2, .repeated .int64 false⟩, ⟨3, .messages deviceGroup⟩,
      ⟨4, .messages shardedAxis⟩]
  | placement => [⟨1, .single .string⟩, ⟨2, .messages sharding⟩, ⟨3, .single .int32⟩]
  | nodeAttribute =>
    [⟨1, .single .string⟩, ⟨2, .single .single⟩, ⟨3, .single .int64⟩, ⟨4, .single .bytes⟩,
      ⟨5, .message tensor⟩, ⟨6, .message graph⟩, ⟨7, .repeated .single false⟩,
      ⟨8, .repeated .int64 false⟩, ⟨9, .repeated .bytes false⟩, ⟨10, .messages tensor⟩,
      ⟨11, .messages graph⟩, ⟨13, .single .string⟩, ⟨14, .message valueType⟩,
      ⟨15, .messages valueType⟩, ⟨20, .single .int32⟩, ⟨21, .single .string⟩,
      ⟨22, .message sparseTensor⟩, ⟨23, .messages sparseTensor⟩]
  | node =>
    [⟨1, .repeated .string false⟩, ⟨2, .repeated .string false⟩, ⟨3, .single .string⟩,
      ⟨4, .single .string⟩, ⟨5, .messages nodeAttribute⟩, ⟨6, .single .string⟩, ⟨7, .single .string⟩,
      ⟨8, .single .string⟩, ⟨9, .messages property⟩, ⟨10, .messages placement⟩]
  | quantization => [⟨1, .single .string⟩, ⟨2, .messages property⟩]
  | graph =>
    [⟨1, .messages node⟩, ⟨2, .single .string⟩, ⟨5, .messages tensor⟩, ⟨10, .single .string⟩,
      ⟨11, .messages valueInfo⟩, ⟨12, .messages valueInfo⟩, ⟨13, .messages valueInfo⟩,
      ⟨14, .messages quantization⟩, ⟨15, .messages sparseTensor⟩, ⟨16, .messages property⟩]
  | operatorSet => [⟨1, .single .string⟩, ⟨2, .single .int64⟩]
  | training =>
    [⟨1, .message graph⟩, ⟨2, .message graph⟩, ⟨3, .messages property⟩, ⟨4, .messages property⟩]
  | localFunction =>
    [⟨1, .single .string⟩, ⟨4, .repeated .string false⟩, ⟨5, .repeated .string false⟩,
      ⟨6, .repeated .string false⟩, ⟨7, .messages node⟩, ⟨8, .single .string⟩,
      ⟨9, .messages operatorSet⟩, ⟨10, .single .string⟩, ⟨11, .messages nodeAttribute⟩,
      ⟨12, .messages valueInfo⟩, ⟨13, .single .string⟩, ⟨14, .messages property⟩]
  | deviceConfiguration =>
    [⟨1, .single .string⟩, ⟨2, .single .int32⟩, ⟨3, .repeated .string false⟩]
  | model =>
    [⟨1, .single .int64⟩, ⟨2, .single .string⟩, ⟨3, .single .string⟩, ⟨4, .single .string⟩,
      ⟨5, .single .int64⟩, ⟨6, .single .string⟩, ⟨7, .message graph⟩, ⟨8, .messages operatorSet⟩,
      ⟨14, .messages property⟩, ⟨20, .messages training⟩, ⟨25, .messages localFunction⟩,
      ⟨26, .messages deviceConfiguration⟩]

/-- The messages of a kind. -/
abbrev MessageKind.Value : MessageKind → Type
  | property => Property
  | segment => Segment
  | tensor => Tensor
  | sparseTensor => SparseTensor
  | dimension => Dimension
  | shape => Shape
  | tensorType => TensorType
  | sequenceType => Option ValueType
  | mapType => Int32 × Option ValueType
  | customType => String × String
  | optionalType => Option ValueType
  | valueType => ValueType
  | valueInfo => ValueInfo
  | deviceGroup => DeviceGroup
  | shardCount => ShardCount
  | shardedAxis => ShardedAxis
  | sharding => Sharding
  | placement => Placement
  | nodeAttribute => Attribute
  | node => Node
  | quantization => Quantization
  | graph => Graph
  | operatorSet => OperatorSet
  | training => Training
  | localFunction => LocalFunction
  | deviceConfiguration => DeviceConfiguration
  | model => Model

/-- The values of an alternative. -/
abbrev Alternative.Value : Alternative → Type
  | scalar k => k.Value
  | message k => k.Value

/-- A value of one of several alternatives. -/
abbrev Choice : List (Nat × Alternative) → Type
  | [] => Empty
  | (_, a) :: rest => a.Value ⊕ Choice rest

/-- The values of a field. -/
abbrev FieldType.Value : FieldType → Type
  | single k => k.Value
  | repeated k _ => List k.Value
  | message k => Option k.Value
  | messages k => List k.Value
  | choice alternatives => Option (Choice alternatives)

/-- The values of all fields of a schema. -/
abbrev Record : List FieldSpec → Type
  | [] => Unit
  | spec :: rest => spec.type.Value × Record rest

namespace Record

/-- The fields of a message. -/
def ofMessage : (k : MessageKind) → k.Value → Record k.schema
  | .property, (p : Property) => (p.key, p.value, ())
  | .segment, (s : Segment) => (s.first, s.stop, ())
  | .tensor, (t : Tensor) =>
    (t.dims, t.dataType, t.segment, t.singles, t.int32s, t.strings, t.int64s, t.name, t.raw,
      t.doubles, t.uint64s, t.doc, t.external, t.location, t.metadata, ())
  | .sparseTensor, (t : SparseTensor) => (t.values, t.indices, t.dims, ())
  | .dimension, (d : Dimension) =>
    (d.extent.map fun
      | .fixed n => .inl n
      | .symbolic s => .inr (.inl s), d.denotation, ())
  | .shape, (s : Shape) => (s.dims, ())
  | .tensorType, (t : TensorType) => (t.element, t.shape, ())
  | .sequenceType, (t : Option ValueType) => (t, ())
  | .mapType, ((key, value) : Int32 × Option ValueType) => (key, value, ())
  | .customType, ((domain, name) : String × String) => (domain, name, ())
  | .optionalType, (t : Option ValueType) => (t, ())
  | .valueType, (t : ValueType) =>
    (t.form.map fun
      | .tensor t => .inl t
      | .sequence e => .inr (.inl e)
      | .map k v => .inr (.inr (.inl (k, v)))
      | .custom d n => .inr (.inr (.inr (.inl (d, n))))
      | .sparseTensor t => .inr (.inr (.inr (.inr (.inl t))))
      | .optional e => .inr (.inr (.inr (.inr (.inr (.inl e))))), t.denotation, ())
  | .valueInfo, (v : ValueInfo) => (v.name, v.type, v.doc, v.metadata, ())
  | .deviceGroup, (g : DeviceGroup) => (g.index, g.devices, ())
  | .shardCount, (s : ShardCount) =>
    (s.extent.map fun
      | .fixed n => .inl n
      | .symbolic s => .inr (.inl s), s.count, ())
  | .shardedAxis, (a : ShardedAxis) => (a.axis, a.cuts, ())
  | .sharding, (s : Sharding) => (s.tensor, s.devices, s.groups, s.axes, ())
  | .placement, (p : Placement) => (p.configuration, p.shardings, p.stage, ())
  | .nodeAttribute, (a : Attribute) =>
    (a.name, a.single, a.int, a.string, a.tensor, a.graph, a.singles, a.ints, a.strings,
      a.tensors, a.graphs, a.doc, a.type, a.types, a.kind, a.reference, a.sparseTensor,
      a.sparseTensors, ())
  | .node, (n : Node) =>
    (n.inputs, n.outputs, n.name, n.op, n.attributes, n.doc, n.domain, n.overload, n.metadata,
      n.placements, ())
  | .quantization, (a : Quantization) => (a.tensor, a.parameters, ())
  | .graph, (g : Graph) =>
    (g.nodes, g.name, g.initializers, g.doc, g.inputs, g.outputs, g.values, g.quantizations,
      g.sparseInitializers, g.metadata, ())
  | .operatorSet, (s : OperatorSet) => (s.domain, s.version, ())
  | .training, (t : Training) =>
    (t.initialization, t.algorithm, t.initializationBindings, t.updateBindings, ())
  | .localFunction, (f : LocalFunction) =>
    (f.name, f.inputs, f.outputs, f.attributes, f.nodes, f.doc, f.operatorSets, f.domain,
      f.defaults, f.values, f.overload, f.metadata, ())
  | .deviceConfiguration, (c : DeviceConfiguration) => (c.name, c.count, c.devices, ())
  | .model, (m : Model) =>
    (m.irVersion, m.producerName, m.producerVersion, m.domain, m.modelVersion, m.doc, m.graph,
      m.operatorSets, m.metadata, m.training, m.functions, m.configurations, ())

/-- The message with the given fields. -/
def toMessage : (k : MessageKind) → Record k.schema → k.Value
  | .property, (key, value, ()) => Property.mk key value
  | .segment, (first, stop, ()) => Segment.mk first stop
  | .tensor, (dims, dataType, segment, singles, int32s, strings, int64s, name, raw, doubles,
      uint64s, doc, external, location, metadata, ()) =>
    Tensor.mk dims dataType segment singles int32s strings int64s name raw doubles uint64s doc
      external location metadata
  | .sparseTensor, (values, indices, dims, ()) => SparseTensor.mk values indices dims
  | .dimension, (extent, denotation, ()) =>
    Dimension.mk (extent.map fun
      | .inl n => .fixed n
      | .inr (.inl s) => .symbolic s) denotation
  | .shape, (dims, ()) => Shape.mk dims
  | .tensorType, (element, shape, ()) => TensorType.mk element shape
  | .sequenceType, (t, ()) => t
  | .mapType, (key, value, ()) => (key, value)
  | .customType, (domain, name, ()) => (domain, name)
  | .optionalType, (t, ()) => t
  | .valueType, (form, denotation, ()) =>
    ValueType.mk (form.map fun
      | .inl t => .tensor t
      | .inr (.inl e) => .sequence e
      | .inr (.inr (.inl (k, v))) => .map k v
      | .inr (.inr (.inr (.inl (d, n)))) => .custom d n
      | .inr (.inr (.inr (.inr (.inl t)))) => .sparseTensor t
      | .inr (.inr (.inr (.inr (.inr (.inl e))))) => .optional e) denotation
  | .valueInfo, (name, type, doc, metadata, ()) => ValueInfo.mk name type doc metadata
  | .deviceGroup, (index, devices, ()) => DeviceGroup.mk index devices
  | .shardCount, (extent, count, ()) =>
    ShardCount.mk (extent.map fun
      | .inl n => .fixed n
      | .inr (.inl s) => .symbolic s) count
  | .shardedAxis, (axis, cuts, ()) => ShardedAxis.mk axis cuts
  | .sharding, (tensor, devices, groups, axes, ()) => Sharding.mk tensor devices groups axes
  | .placement, (configuration, shardings, stage, ()) => Placement.mk configuration shardings stage
  | .nodeAttribute, (name, single, int, string, tensor, graph, singles, ints, strings, tensors, graphs,
      doc, type, types, kind, reference, sparseTensor, sparseTensors, ()) =>
    Attribute.mk name single int string tensor graph singles ints strings tensors graphs doc type
      types kind reference sparseTensor sparseTensors
  | .node, (inputs, outputs, name, op, attributes, doc, domain, overload, metadata, placements, ()) =>
    Node.mk inputs outputs name op attributes doc domain overload metadata placements
  | .quantization, (tensor, parameters, ()) => Quantization.mk tensor parameters
  | .graph, (nodes, name, initializers, doc, inputs, outputs, values, quantizations,
      sparseInitializers, metadata, ()) =>
    Graph.mk nodes name initializers doc inputs outputs values quantizations sparseInitializers
      metadata
  | .operatorSet, (domain, version, ()) => OperatorSet.mk domain version
  | .training, (initialization, algorithm, initializationBindings, updateBindings, ()) =>
    Training.mk initialization algorithm initializationBindings updateBindings
  | .localFunction, (name, inputs, outputs, attributes, nodes, doc, operatorSets, domain, defaults,
      values, overload, metadata, ()) =>
    LocalFunction.mk name inputs outputs attributes nodes doc operatorSets domain defaults values
      overload metadata
  | .deviceConfiguration, (name, count, devices, ()) => DeviceConfiguration.mk name count devices
  | .model, (irVersion, producerName, producerVersion, domain, modelVersion, doc, graph,
      operatorSets, metadata, training, functions, configurations, ()) =>
    Model.mk irVersion producerName producerVersion domain modelVersion doc graph operatorSets
      metadata training functions configurations

/-- A message is made of its fields. -/
@[simp] theorem toMessage_ofMessage (k : MessageKind) (m : k.Value) :
    toMessage k (ofMessage k m) = m := by
  cases k
  case dimension => obtain ⟨_ | _ | _, _⟩ := m <;> rfl
  case shardCount => obtain ⟨_ | _ | _, _⟩ := m <;> rfl
  case valueType => obtain ⟨_ | _ | _, _⟩ := m <;> rfl
  all_goals cases m <;> rfl

/-- A message has the fields it is made of. -/
@[simp] theorem ofMessage_toMessage (k : MessageKind) (r : Record k.schema) :
    ofMessage k (toMessage k r) = r := by
  cases k
  case dimension => obtain ⟨_ | _ | _ | ⟨⟨⟩⟩, _, _⟩ := r <;> rfl
  case shardCount => obtain ⟨_ | _ | _ | ⟨⟨⟩⟩, _, _⟩ := r <;> rfl
  case valueType => obtain ⟨_ | _ | _ | _ | _ | _ | _ | ⟨⟨⟩⟩, _, _⟩ := r <;> rfl
  all_goals rfl

end Record

end OpGraph
