import OpGraph.Draft.Query
import OpGraph.Pattern.Basic

/-!
# Searching for chains

A pattern is searched for from every node that is not a constant, the anchor of
the chain. The search goes depth first along the readers of each node's outputs
and keeps apart what each branch has bound; the first chain that satisfies all
steps is the match of its anchor. A limit on the states it looks at makes the
search give up on an anchor, never change its match.
-/

namespace OpGraph

/-- The nodes of a match, in the order of the steps. -/
abbrev Chain := List Handle

/-- The labels of the nodes of a chain. -/
def Chain.describe (d : Draft) (chain : Chain) : String :=
  String.intercalate ", " (chain.map d.label)

/-- The tensor names that the variables of a pattern are bound to. -/
abbrev Bindings := List (Option String)

namespace Bindings

/-- The tensor of a variable, if it is bound. -/
def get? (b : Bindings) (index : Nat) : Option String :=
  (b[index]?).join

/-- Bind a variable, or check that it is bound to the same tensor. -/
def bind? (b : Bindings) (index : Nat) (tensor : String) : Option Bindings :=
  match b[index]? with
  | none => none
  | some none => some (b.set index (some tensor))
  | some (some bound) => if bound = tensor then some b else none

end Bindings

namespace PatternStep

/-- Whether a node reads the tensors of all variables among the inputs of a step. -/
def inputsSatisfied (step : PatternStep) (node : Node) (b : Bindings) : Bool :=
  step.inputs.all fun
    | .any => true
    | .variable i => ((b.get? i).map node.reads).getD false

/-- Bind the variables among outputs to the tensors at the same places. -/
def bindSlots : List Slot → List String → Bindings → Option Bindings
  | [], _, b => some b
  | .any :: slots, outputs, b => bindSlots slots outputs.tail b
  | .variable _ :: _, [], _ => none
  | .variable i :: slots, o :: outputs, b => (b.bind? i o).bind (bindSlots slots outputs)

/-- Bind the variables among the outputs of a step to the outputs of a node. -/
def bindOutputs (step : PatternStep) (node : Node) (b : Bindings) : Option Bindings :=
  bindSlots step.outputs node.outputs b

end PatternStep

/-- A place that the search has reached: a chain up to a node, the step that the node has to take
and the ones after it, and what is bound so far. -/
structure SearchState where
  earlier : Chain
  handle : Handle
  step : PatternStep
  later : List PatternStep
  bindings : Bindings

namespace SearchState

/-- The chain up to the node of a state. -/
def chain (s : SearchState) : Chain :=
  s.earlier ++ [s.handle]

/-- What a state leads to: a match, or the states after it. -/
inductive Expansion
  | found (chain : Chain)
  | next (states : List SearchState)

/-- Look at a state. The states after it come in the order of the outputs, and for one output in
the order of its readers. -/
def expand (d : Draft) (consumers : String → List Handle) (s : SearchState) : Expansion :=
  match d.node? s.handle with
  | none => .next []
  | some node =>
    if s.step.ops.accepts node.op && s.step.inputsSatisfied node s.bindings then
      match s.later with
      | [] => .found s.chain
      | step :: later =>
        match s.step.bindOutputs node s.bindings with
        | none => .next []
        | some bindings =>
          .next (node.outputs.flatMap fun o =>
            (consumers o).map fun h => { earlier := s.chain, handle := h, step, later, bindings })
    else .next []

end SearchState

/-- How the search from an anchor ends. -/
inductive SearchOutcome
  | found (chain : Chain)
  | exhausted
  | abandoned

/-- The chain that a search has found. -/
def SearchOutcome.chain? : SearchOutcome → Option Chain
  | found chain => some chain
  | exhausted | abandoned => none

/-- Look at the states of a stack, the top one first, as long as the budget lasts. -/
def SearchState.search (d : Draft) (consumers : String → List Handle) :
    Nat → List SearchState → SearchOutcome
  | _, [] => .exhausted
  | 0, _ :: _ => .abandoned
  | budget + 1, s :: stack =>
    match s.expand d consumers with
    | .found chain => .found chain
    | .next states => search d consumers budget (states ++ stack)

/-- The number of states that a search looks at for one anchor, where nothing else is said. -/
def defaultMaxStates : Nat := 100000

namespace Pattern

/-- Search for a chain from an anchor, with the consumers of tensors given. A search looks at one
state at least. -/
def searchFrom (p : Pattern) (d : Draft) (consumers : String → List Handle) (maxStates : Nat)
    (anchor : Handle) : SearchOutcome :=
  match p.steps, d.node? anchor with
  | step :: later, some node =>
    if node.isConstant then .exhausted
    else
      SearchState.search d consumers (max maxStates 1)
        [{ earlier := [], handle := anchor, step, later,
           bindings := p.names.map fun _ => none }]
  | _, _ => .exhausted

/-- Search for a chain from an anchor. -/
def searchAt (p : Pattern) (d : Draft) (maxStates : Nat) (anchor : Handle) : SearchOutcome :=
  let map := d.consumerMap
  p.searchFrom d (fun tensor => map.getD tensor []) maxStates anchor

/-- Search for a chain from every node that is not a constant, in order. -/
def outcomes (p : Pattern) (d : Draft) (maxStates : Nat) : List (Handle × SearchOutcome) :=
  let map := d.consumerMap
  (d.select fun n => !n.isConstant).map fun anchor =>
    (anchor, p.searchFrom d (fun tensor => map.getD tensor []) maxStates anchor)

/-- The match of an anchor, if there is one. -/
def matchAt (p : Pattern) (d : Draft) (maxStates : Nat) (anchor : Handle) : Option Chain :=
  (p.searchAt d maxStates anchor).chain?

/-- The chains among the outcomes of searches. -/
def chainsOf (outcomes : List (Handle × SearchOutcome)) : List Chain :=
  outcomes.filterMap fun o => o.2.chain?

/-- The anchors that searches gave up on. -/
def abandonedOf (outcomes : List (Handle × SearchOutcome)) : List Handle :=
  outcomes.filterMap fun
    | (anchor, .abandoned) => some anchor
    | _ => none

/-- All matches of a pattern, in the order of their anchors. -/
def findAll (p : Pattern) (d : Draft) (maxStates : Nat) : List Chain :=
  chainsOf (p.outcomes d maxStates)

/-- The line under and over a listing. -/
def rule : String :=
  String.ofList (List.replicate 69 '=')

/-- The text that lists the matches of a pattern. -/
def listing (p : Pattern) (d : Draft) (chains : List Chain) : String :=
  let found := chains.zipIdx.map fun (chain, i) => s!"\tSubgraph{i}: {chain.describe d}"
  String.intercalate "\n"
    ([rule, s!"Found {chains.length} subgraphs:"] ++ found ++ ["Pattern is:"] ++
      p.lines.map ("\t" ++ ·) ++ [rule])

end Pattern

end OpGraph
