import OpGraph.Wire.Scalar

/-!
# Models

A model is a graph of operator nodes with its tensors, types and metadata. Nodes
read and write tensors by name; an empty name stands for an optional tensor that
is left out. An attribute of a node may hold graphs of its own.
-/

namespace OpGraph

/-- A named piece of metadata. -/
structure Property where
  key : String := ""
  value : String := ""

/-- The part of a larger tensor that a tensor holds. -/
structure Segment where
  first : Int64 := 0
  stop : Int64 := 0

/-- A tensor with its data in one of several layouts. -/
structure Tensor where
  dims : List Int64 := []
  dataType : Int32 := 0
  segment : Option Segment := none
  singles : List Single := []
  int32s : List Int32 := []
  strings : List (List UInt8) := []
  int64s : List Int64 := []
  name : String := ""
  raw : List UInt8 := []
  doubles : List Double := []
  uint64s : List UInt64 := []
  doc : String := ""
  external : List Property := []
  location : Int32 := 0
  metadata : List Property := []

/-- A tensor given by its values that are not zero and their places. -/
structure SparseTensor where
  values : Option Tensor := none
  indices : Option Tensor := none
  dims : List Int64 := []

/-- A length that is fixed, or known by a symbol only. -/
inductive Extent
  | fixed (size : Int64)
  | symbolic (name : String)

/-- One dimension of a shape. -/
structure Dimension where
  extent : Option Extent := none
  denotation : String := ""

/-- The shape of a tensor. -/
structure Shape where
  dims : List Dimension := []

/-- The element type and the shape of a tensor. -/
structure TensorType where
  element : Int32 := 0
  shape : Option Shape := none

mutual

/-- The type of a value, with a note on its meaning. -/
structure ValueType where
  form : Option TypeForm := none
  denotation : String := ""

/-- The ways to form a type. -/
inductive TypeForm
  | tensor (type : TensorType)
  | sequence (element : Option ValueType)
  | map (key : Int32) (value : Option ValueType)
  | custom (domain name : String)
  | sparseTensor (type : TensorType)
  | optional (element : Option ValueType)

end

/-- A named value: an input, an output or an intermediate tensor of a graph. -/
structure ValueInfo where
  name : String := ""
  type : Option ValueType := none
  doc : String := ""
  metadata : List Property := []

/-- The devices behind one index of a sharding. -/
structure DeviceGroup where
  index : Int64 := 0
  devices : List Int64 := []

/-- One cut of an axis into shards. -/
structure ShardCount where
  extent : Option Extent := none
  count : Int64 := 0

/-- The cuts of one axis. -/
structure ShardedAxis where
  axis : Int64 := 0
  cuts : List ShardCount := []

/-- How one tensor is spread over devices. -/
structure Sharding where
  tensor : String := ""
  devices : List Int64 := []
  groups : List DeviceGroup := []
  axes : List ShardedAxis := []

/-- Where a node runs. -/
structure Placement where
  configuration : String := ""
  shardings : List Sharding := []
  stage : Int32 := 0

/-- The quantization parameters of a tensor. -/
structure Quantization where
  tensor : String := ""
  parameters : List Property := []

mutual

/-- A named value that configures a node. The field `kind` says which of the others holds it. -/
structure Attribute where
  name : String := ""
  single : Single := {}
  int : Int64 := 0
  string : List UInt8 := []
  tensor : Option Tensor := none
  graph : Option Graph := none
  singles : List Single := []
  ints : List Int64 := []
  strings : List (List UInt8) := []
  tensors : List Tensor := []
  graphs : List Graph := []
  doc : String := ""
  type : Option ValueType := none
  types : List ValueType := []
  kind : Int32 := 0
  reference : String := ""
  sparseTensor : Option SparseTensor := none
  sparseTensors : List SparseTensor := []

/-- One application of an operator. -/
structure Node where
  inputs : List String := []
  outputs : List String := []
  name : String := ""
  op : String := ""
  attributes : List Attribute := []
  doc : String := ""
  domain : String := ""
  overload : String := ""
  metadata : List Property := []
  placements : List Placement := []

/-- Nodes, the constants they start from and the values they exchange. -/
structure Graph where
  nodes : List Node := []
  name : String := ""
  initializers : List Tensor := []
  doc : String := ""
  inputs : List ValueInfo := []
  outputs : List ValueInfo := []
  values : List ValueInfo := []
  quantizations : List Quantization := []
  sparseInitializers : List SparseTensor := []
  metadata : List Property := []

end

/-- The operators that a model uses from one domain. -/
structure OperatorSet where
  domain : String := ""
  version : Int64 := 0

/-- The graphs that train a model, and the tensors they set. -/
structure Training where
  initialization : Option Graph := none
  algorithm : Option Graph := none
  initializationBindings : List Property := []
  updateBindings : List Property := []

/-- An operator that is defined by nodes. -/
structure LocalFunction where
  name : String := ""
  inputs : List String := []
  outputs : List String := []
  attributes : List String := []
  nodes : List Node := []
  doc : String := ""
  operatorSets : List OperatorSet := []
  domain : String := ""
  defaults : List Attribute := []
  values : List ValueInfo := []
  overload : String := ""
  metadata : List Property := []

/-- The devices that a model can be spread over. -/
structure DeviceConfiguration where
  name : String := ""
  count : Int32 := 0
  devices : List String := []

/-- A graph with all that travels with it. -/
structure Model where
  irVersion : Int64 := 0
  producerName : String := ""
  producerVersion : String := ""
  domain : String := ""
  modelVersion : Int64 := 0
  doc : String := ""
  graph : Option Graph := none
  operatorSets : List OperatorSet := []
  metadata : List Property := []
  training : List Training := []
  functions : List LocalFunction := []
  configurations : List DeviceConfiguration := []

instance : Inhabited Node := ⟨{}⟩
instance : Inhabited Graph := ⟨{}⟩
instance : Inhabited Model := ⟨{}⟩

end OpGraph
