import OpGraph.Model.Basic

/-!
# Tensors and named values

The tensors and named values that are made most often, and what can be read off
them.
-/

namespace OpGraph

/-- A tensor of single-precision numbers. -/
def Tensor.ofSingles (name : String) (dims : List Int64) (values : List Single) : Tensor :=
  { name, dims, dataType := 1, singles := values }

/-- The number of elements of a tensor: the product of its dimensions, where a negative one counts
as zero. -/
def Tensor.elementCount (t : Tensor) : Nat :=
  (t.dims.map fun d => d.toInt.toNat).foldl (· * ·) 1

/-- A dimension of a fixed size. -/
def Dimension.ofSize (size : Int64) : Dimension :=
  { extent := some (.fixed size) }

/-- The size of a dimension, minus one where it is not fixed. -/
def Dimension.size (d : Dimension) : Int64 :=
  match d.extent with
  | some (.fixed size) => size
  | _ => -1

namespace ValueInfo

/-- A named tensor of a given element type and shape. -/
def ofShape (name : String) (element : Int32) (dims : List Int64) : ValueInfo :=
  let shape : Shape := { dims := dims.map .ofSize }
  { name, type := some { form := some (.tensor { element, shape := some shape }) } }

/-- The sizes of a value that is known to be a tensor of some shape. -/
def shape? (v : ValueInfo) : Option (List Int64) :=
  match v.type.bind (·.form) with
  | some (.tensor t) => t.shape.map fun s => s.dims.map Dimension.size
  | _ => none

@[simp] theorem shape?_ofShape (name : String) (element : Int32) (dims : List Int64) :
    (ofShape name element dims).shape? = some dims := by
  simp [shape?, ofShape, Function.comp_def, Dimension.size, Dimension.ofSize]

end ValueInfo

end OpGraph
