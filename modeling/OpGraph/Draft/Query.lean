import OpGraph.Error
import Std.Data.HashMap

/-!
# Questions to a draft

Where nodes stand, which nodes read and write a tensor, and whether a tensor has
a source. Constant nodes are left out of `producer?` and `consumers`, so that a
search never walks through them. `Draft.consumerMap` holds the consumers of all
tensors at once.
-/

namespace OpGraph.Draft

/-- The node under a handle. -/
def node? (d : Draft) (h : Handle) : Option Node :=
  (d.entries.find? fun e => e.handle = h).map (·.node)

/-- Whether a handle has a node. -/
def has (d : Draft) (h : Handle) : Bool :=
  d.entries.any fun e => e.handle = h

/-- The place of a handle among the nodes. -/
def position? (d : Draft) (h : Handle) : Option Nat :=
  d.entries.findIdx? fun e => e.handle = h

/-- The node under a handle, or the error that there is none. -/
def require (d : Draft) (h : Handle) : Except Error Node :=
  match d.node? h with
  | some node => .ok node
  | none => .error (.nodeNotFound (.absent h))

/-- The label of a node, or its handle where there is none. -/
def label (d : Draft) (h : Handle) : String :=
  ((d.node? h).map Node.label).getD h.display

/-- The handles of the nodes with a property, in order. -/
def select (d : Draft) (p : Node → Bool) : List Handle :=
  (d.entries.filter fun e => p e.node).map (·.handle)

/-- The first node with a name. -/
def named? (d : Draft) (name : String) : Option Handle :=
  (d.entries.find? fun e => e.node.name = name).map (·.handle)

/-- The nodes of an operator. -/
def withOp (d : Draft) (op : String) : List Handle :=
  d.select fun n => n.op == op

/-- The first node that writes a tensor and is not a constant. -/
def producer? (d : Draft) (tensor : String) : Option Handle :=
  (d.entries.find? fun e => !e.node.isConstant && e.node.writes tensor).map (·.handle)

/-- The nodes that read a tensor and are not constants. -/
def consumers (d : Draft) (tensor : String) : List Handle :=
  d.select fun n => !n.isConstant && n.reads tensor

/-- The constants that write a tensor. -/
def constantsWriting (d : Draft) (tensor : String) : List Handle :=
  d.select fun n => n.isConstant && n.writes tensor

/-- The nodes that write a tensor, constant or not. -/
def writers (d : Draft) (tensor : String) : List Handle :=
  d.select fun n => n.writes tensor

/-- The number of nodes that read a tensor, constant or not. -/
def readerCount (d : Draft) (tensor : String) : Nat :=
  d.nodes.countP fun n => n.reads tensor

/-- The number of places where nodes read a tensor. -/
def edgeCount (d : Draft) (tensor : String) : Nat :=
  (d.nodes.flatMap (·.inputs)).count tensor

/-- The initializers of a name. -/
def initializersNamed (d : Draft) (name : String) : List Tensor :=
  d.initializers.filter fun t => t.name = name

/-- Whether a tensor is an input of the graph. -/
def isInput (d : Draft) (tensor : String) : Bool :=
  d.frame.inputs.any fun v => v.name = tensor

/-- Whether a tensor is an output of the graph. -/
def isOutput (d : Draft) (tensor : String) : Bool :=
  d.frame.outputs.any fun v => v.name = tensor

/-- Whether a tensor is an initializer. -/
def isInitializer (d : Draft) (tensor : String) : Bool :=
  d.initializers.any fun t => t.name = tensor

/-- The names of the sparse initializers that have values. -/
def sparseNames (d : Draft) : List String :=
  d.frame.sparseInitializers.filterMap fun s => s.values.map (·.name)

/-- Whether a tensor has a source: the graph's inputs, an initializer or a node. -/
def isDefined (d : Draft) (tensor : String) : Bool :=
  d.isInput tensor || d.isInitializer tensor || d.sparseNames.contains tensor ||
    d.nodes.any fun n => n.writes tensor

/-- Whether all that a node reads has a source. -/
def resolves (d : Draft) (node : Node) : Bool :=
  node.inputs.all fun i => i = "" || d.isDefined i

/-- The tensors that are read and have no source, each once, in the order of their first reading. -/
def dangling (d : Draft) : List String :=
  ((d.nodes.flatMap (·.inputs)).filter fun i => i ≠ "" && !d.isDefined i).eraseDups

/-- Note a node as a consumer of a tensor, behind those noted before. A node that is noted last
already is not noted again. -/
def noteConsumer (h : Handle) (map : Std.HashMap String (List Handle)) (tensor : String) :
    Std.HashMap String (List Handle) :=
  let noted := map.getD tensor []
  if noted.getLast? = some h then map else map.insert tensor (noted ++ [h])

/-- Note a node as a consumer of everything that it reads, input by input. -/
def noteInputs (map : Std.HashMap String (List Handle)) (e : Entry) :
    Std.HashMap String (List Handle) :=
  (e.node.inputs.filter (· ≠ "")).foldl (noteConsumer e.handle) map

/-- The consumers of every tensor that has some, gathered node by node. -/
def consumerMap (d : Draft) : Std.HashMap String (List Handle) :=
  (d.entries.filter fun e => !e.node.isConstant).foldl noteInputs ∅

end OpGraph.Draft
