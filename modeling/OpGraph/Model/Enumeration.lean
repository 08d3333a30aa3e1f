import OpGraph.Model.Basic

/-!
# Enumerations

The meanings of the numbers that say what an attribute holds, what the elements
of a tensor are, and where its data lies. A model may hold any number; one
without a meaning is kept as it is.
-/

namespace OpGraph

/-- What an attribute holds. -/
inductive AttributeKind
  | undefined
  | single
  | int
  | string
  | tensor
  | graph
  | singles
  | ints
  | strings
  | tensors
  | graphs
  | sparseTensor
  | sparseTensors
  | type
  | types
deriving DecidableEq

namespace AttributeKind

/-- The kinds in the order of their numbers, from zero. -/
def all : List AttributeKind :=
  [undefined, single, int, string, tensor, graph, singles, ints, strings, tensors, graphs,
    sparseTensor, sparseTensors, type, types]

/-- The name of a kind. -/
def name : AttributeKind → String
  | undefined => "Undefined"
  | single => "Float"
  | int => "Int"
  | string => "String"
  | tensor => "Tensor"
  | graph => "Graph"
  | singles => "Floats"
  | ints => "Ints"
  | strings => "Strings"
  | tensors => "Tensors"
  | graphs => "Graphs"
  | sparseTensor => "SparseTensor"
  | sparseTensors => "SparseTensors"
  | type => "TypeProto"
  | types => "TypeProtos"

/-- The kind of a number. -/
def ofCode? (code : Int32) : Option AttributeKind :=
  if code < 0 then none else all[code.toInt.toNat]?

end AttributeKind

/-- The types of the elements of a tensor. -/
inductive DataType
  | undefined
  | float32
  | uint8
  | int8
  | uint16
  | int16
  | int32
  | int64
  | string
  | bool
  | float16
  | float64
  | uint32
  | uint64
  | complex64
  | complex128
  | bfloat16
  | float8e4m3fn
  | float8e4m3fnuz
  | float8e5m2
  | float8e5m2fnuz
  | uint4
  | int4
  | float4e2m1
  | float8e8m0
deriving DecidableEq

namespace DataType

/-- The types in the order of their numbers, from zero. -/
def all : List DataType :=
  [undefined, float32, uint8, int8, uint16, int16, int32, int64, string, bool, float16, float64,
    uint32, uint64, complex64, complex128, bfloat16, float8e4m3fn, float8e4m3fnuz, float8e5m2,
    float8e5m2fnuz, uint4, int4, float4e2m1, float8e8m0]

/-- The name of a type. -/
def name : DataType → String
  | undefined => "Undefined"
  | float32 => "Float"
  | uint8 => "Uint8"
  | int8 => "Int8"
  | uint16 => "Uint16"
  | int16 => "Int16"
  | int32 => "Int32"
  | int64 => "Int64"
  | string => "String"
  | bool => "Bool"
  | float16 => "Float16"
  | float64 => "Double"
  | uint32 => "Uint32"
  | uint64 => "Uint64"
  | complex64 => "Complex64"
  | complex128 => "Complex128"
  | bfloat16 => "Bfloat16"
  | float8e4m3fn => "Float8e4m3fn"
  | float8e4m3fnuz => "Float8e4m3fnuz"
  | float8e5m2 => "Float8e5m2"
  | float8e5m2fnuz => "Float8e5m2fnuz"
  | uint4 => "Uint4"
  | int4 => "Int4"
  | float4e2m1 => "Float4e2m1"
  | float8e8m0 => "Float8e8m0"

/-- The type of a number. -/
def ofCode? (code : Int32) : Option DataType :=
  if code < 0 then none else all[code.toInt.toNat]?

end DataType

/-- Where the data of a tensor lies. -/
inductive DataLocation
  | inline
  | external
deriving DecidableEq

namespace DataLocation

/-- The places in the order of their numbers, from zero. -/
def all : List DataLocation :=
  [inline, external]

/-- The name of a place. -/
def name : DataLocation → String
  | inline => "Default"
  | external => "External"

/-- The place of a number. -/
def ofCode? (code : Int32) : Option DataLocation :=
  if code < 0 then none else all[code.toInt.toNat]?

end DataLocation

/-- What an attribute says it holds. A number without a meaning counts as undefined. -/
def Attribute.holds (a : Attribute) : AttributeKind :=
  (AttributeKind.ofCode? a.kind).getD .undefined

/-- Where a tensor says its data lies. A number without a meaning counts as inside the model. -/
def Tensor.place (t : Tensor) : DataLocation :=
  (DataLocation.ofCode? t.location).getD .inline

end OpGraph
