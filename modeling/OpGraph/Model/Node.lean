import OpGraph.Model.Basic

/-!
# Nodes

Questions to a node, and the renaming of the tensors it reads and writes.
-/

namespace OpGraph

/-- The operator of a node that yields a tensor it carries. -/
def constantOp : String := "Constant"

/-- An attribute that holds an integer. -/
def Attribute.ofInt (name : String) (value : Int64) : Attribute :=
  { name, int := value, kind := 2 }

/-- An attribute that holds a tensor. -/
def Attribute.ofTensor (name : String) (value : Tensor) : Attribute :=
  { name, tensor := some value, kind := 4 }

/-- Put a name in the place of each occurrence of another. -/
def renameIn (names : List String) (source target : String) : List String :=
  names.map fun n => if n = source then target else n

namespace Node

/-- Whether a node only yields a tensor that it carries. -/
def isConstant (n : Node) : Bool :=
  n.op == constantOp

/-- The name and the operator of a node, as messages show them. -/
def label (n : Node) : String :=
  s!"{n.name}({n.op})"

/-- Whether a node reads a tensor. -/
def reads (n : Node) (tensor : String) : Bool :=
  n.inputs.contains tensor

/-- Whether a node writes a tensor. -/
def writes (n : Node) (tensor : String) : Bool :=
  n.outputs.contains tensor

/-- The first attribute of a name. -/
def attribute? (n : Node) (name : String) : Option Attribute :=
  n.attributes.find? fun a => a.name == name

/-- The integer of an attribute, or the given one where the attribute is missing. -/
def intAttribute (n : Node) (name : String) (otherwise : Int64) : Int64 :=
  ((n.attribute? name).map (·.int)).getD otherwise

/-- Read another tensor wherever the first one is read. -/
def renameInput (n : Node) (source target : String) : Node :=
  { n with inputs := renameIn n.inputs source target }

/-- Write another tensor wherever the first one is written. -/
def renameOutput (n : Node) (source target : String) : Node :=
  { n with outputs := renameIn n.outputs source target }

/-- A node that yields a tensor. -/
def ofConstant (output : String) (tensor : Tensor) (name : String) : Node :=
  { op := constantOp, outputs := [output], name, attributes := [.ofTensor "value" tensor] }

end Node

end OpGraph
