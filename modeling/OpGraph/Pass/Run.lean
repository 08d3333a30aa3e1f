import OpGraph.Pass.Bypass
import OpGraph.Pass.Options
import OpGraph.Pass.PrivateConstants
import OpGraph.Pass.Substitution

/-!
# Running a pass

A pass searches the draft once for a pattern and then handles the matches in
order: without a rule each chain is deleted and bypassed, with one it is
replaced by the substitution that the rule chooses. Matches must not share a
node. What was done before a failure stays done.
-/

namespace OpGraph

/-- The state of a pass. -/
structure Progress where
  draft : Draft
  tally : Tally := {}
  journal : Journal := []

/-- A step of a pass. Where it fails, the state is what it had come to. -/
abbrev PassM := EStateM Error Progress

namespace PassM

/-- The draft as it stands. -/
def draft : PassM Draft := do
  return (← get).draft

/-- Go on with another draft. -/
def setDraft (d : Draft) : PassM Unit :=
  modify fun p => { p with draft := d }

/-- Count something. -/
def count (f : Tally → Tally) : PassM Unit :=
  modify fun p => { p with tally := f p.tally }

/-- Write notices into the journal. -/
def note (notices : List Notice) : PassM Unit :=
  modify fun p => { p with journal := p.journal ++ notices }

/-- Fail where a check fails. -/
def check (e : Except Error α) : PassM α :=
  match e with
  | .ok a => pure a
  | .error e => throw e

end PassM

open PassM

/-- Fail where two chains share a node, or one has a node twice. The nodes so far come with the
index of their chain. -/
def Draft.checkOverlaps (d : Draft) : List (Handle × Nat) → List (Handle × Nat) → Except Error Unit
  | _, [] => .ok ()
  | owners, (h, index) :: rest =>
    match owners.find? fun o => o.1 = h with
    | some (_, first) => .error (.overlappingMatches first index (d.label h))
    | none => checkOverlaps d ((h, index) :: owners) rest

/-- Fail unless all nodes of a chain are in the draft. -/
def Draft.checkPresent (d : Draft) : Chain → Except Error Unit
  | [] => .ok ()
  | h :: chain => do
    discard (d.require h)
    checkPresent d chain

/-- Fail unless each of several chains can be bypassed. -/
def Draft.checkArities (d : Draft) : List Chain → Except Error Unit
  | [] => .ok ()
  | chain :: chains => do
    d.checkChainArity chain
    checkArities d chains

/-- The nodes of chains, each with the index of its chain. -/
def indexedNodes (chains : List Chain) : List (Handle × Nat) :=
  chains.zipIdx.flatMap fun (chain, index) => chain.map fun h => (h, index)

/-- Fail unless all nodes that a substitution keeps are nodes of the match, each once. -/
def Draft.checkKept (d : Draft) (index : Nat) (chain : Chain) :
    List Handle → List Handle → Except Error Unit
  | _, [] => .ok ()
  | earlier, h :: rest =>
    if h ∉ chain then .error (.nodeNotFound (.foreign (d.label h) index))
    else if h ∈ earlier then .error (.nodeNotFound (.keptTwice (d.label h) index))
    else checkKept d index chain (h :: earlier) rest

/-- Take the nodes of a chain out of the draft, one by one. -/
def takeOut : Chain → PassM (List Entry)
  | [] => pure []
  | h :: chain => do
    let d ← draft
    match d.node? h with
    | none => throw (.nodeNotFound (.absent h))
    | some node =>
      setDraft (d.remove h)
      return ⟨h, node⟩ :: (← takeOut chain)

/-- A list without the element at a place. The last element moves to that place. -/
def swapErase (l : List α) (index : Nat) : List α :=
  match l.getLast? with
  | some last => (l.set index last).dropLast
  | none => l

/-- Put the nodes of a substitution into the draft from a position on. Gives their labels and the
nodes of the match that are left. -/
def putIn (index : Nat) : Nat → List Entry → List Replacement → PassM (List String × List Entry)
  | _, taken, [] => pure ([], taken)
  | position, taken, .keep h :: rest => do
    match taken.findIdx? fun e => e.handle = h with
    | none => throw (.nodeNotFound (.keptTwice h.display index))
    | some slot =>
      match taken[slot]? with
      | none => throw (.nodeNotFound (.keptTwice h.display index))
      | some e =>
        setDraft ((← draft).restoreAt position e)
        let (labels, left) ← putIn index (position + 1) (swapErase taken slot) rest
        return (e.node.label :: labels, left)
  | position, taken, .insert node :: rest => do
    setDraft ((← draft).insertAt position node)
    count fun t => { t with nodesInserted := t.nodesInserted + 1 }
    let (labels, left) ← putIn index (position + 1) taken rest
    return (node.label :: labels, left)

/-- The lowest position of a node of a chain, or the end of the draft. -/
def Draft.lowestPosition (d : Draft) (chain : Chain) : Nat :=
  (chain.filterMap d.position?).min?.getD d.entries.length

/-- Bypass a chain that has been taken out, given its first and its last node. -/
def bypassChain (index : Nat) (labels : List String) (taken : List Entry) (first last : Node) :
    PassM Unit := do
  check (checkArity first last (joinLabels labels))
  let b := (← draft).bypass first last
  setDraft b.draft
  note (b.remarks.map .remark)
  count fun t =>
    { t with deletions := t.deletions + 1, nodesRemoved := t.nodesRemoved + taken.length }
  note [.event (.deleted index labels)]

/-- Remove the constants that only fed nodes which are gone. -/
def removeConstantsOf (options : PassOptions) (dropped : List Entry) : PassM Unit := do
  let r := (← draft).removePrivateConstants (dropped.map (·.node)) options.protectShared
  setDraft r.draft
  note (r.remarks.map .remark)
  count fun t =>
    { t with
      constantsRemoved := t.constantsRemoved + r.constants
      initializersRemoved := t.initializersRemoved + r.initializers }

/-- The end of a substitution: constants go with the nodes that are dropped, and initializers
come. -/
def dropAndAdd (options : PassOptions) (s : Substitution) (dropped : List Entry) : PassM Unit := do
  removeConstantsOf options dropped
  modify fun p =>
    { p with
      draft := s.initializers.foldl Draft.addInitializer p.draft
      tally :=
        { p.tally with
          initializersAdded := p.tally.initializersAdded + s.initializers.length } }

/-- What is left to do for a match whose nodes have been taken out. Where there is nothing to bypass
and nothing to put in, it stops, and the initializers of the substitution do not come either. -/
def refill (options : PassOptions) (index : Nat) (labels : List String) (position : Nat)
    (s : Substitution) (taken : List Entry) : PassM Unit :=
  if s.nodes.isEmpty then
    match taken.head?, taken.getLast? with
    | some first, some last => do
      bypassChain index labels taken first.node last.node
      dropAndAdd options s taken
    | _, _ => pure ()
  else do
    let (inserted, left) ← putIn index position taken s.nodes
    count fun t =>
      { t with
        replacements := t.replacements + 1
        nodesRemoved := t.nodesRemoved + left.length }
    note [.event (.replaced index labels inserted)]
    dropAndAdd options s left

/-- Put a substitution in the place of a match. -/
def substitute (options : PassOptions) (index : Nat) (chain : Chain) (s : Substitution) :
    PassM Unit := do
  let d ← draft
  check (d.checkKept index chain [] s.kept)
  if s.nodes.isEmpty then check (d.checkChainArity chain)
  let taken ← takeOut chain
  refill options index (chain.map d.label) (d.lowestPosition chain) s taken

/-- Ask a rule for its substitution. -/
def consult (rule : Rule) (index : Nat) (chain : Chain) : PassM Substitution := do
  note [.consulted index chain]
  let p ← get
  match rule index chain p.draft with
  | .ok s d =>
    setDraft d
    note [.proposed s.nodes.length]
    return s
  | .error e d =>
    setDraft d
    throw e

/-- Handle the matches from an index on. -/
def handleMatches (options : PassOptions) (rule? : Option Rule) :
    Nat → List Chain → PassM Unit
  | _, [] => pure ()
  | index, chain :: chains => do
    check ((← draft).checkPresent chain)
    let s ← match rule? with
      | some rule => consult rule index chain
      | none => pure {}
    substitute options index chain s
    handleMatches options rule? (index + 1) chains

/-- Remove what is dead, and remark on it. -/
def removeDead : PassM CleanupCount := do
  let d ← draft
  let rest := d.withoutDead
  let removed := d.cleanupCount rest
  setDraft rest
  note [.remark (.cleanupFinished removed)]
  return removed

/-- A pass over the draft. -/
def runPass (options : PassOptions) (p : Pattern) (rule? : Option Rule) : PassM Unit := do
  let d ← draft
  let outcomes := p.outcomes d options.maxStates
  note ((searchRemarks d options.maxStates outcomes).map .remark)
  let chains := Pattern.chainsOf outcomes
  check (d.checkOverlaps [] (indexedNodes chains))
  if rule?.isNone then check (d.checkArities chains)
  count fun t => { t with matched := chains.length }
  handleMatches options rule? 0 chains
  if options.cleanupAfter then
    let removed ← removeDead
    count fun t => { t with cleanup := removed }
    note [.event (.cleanedUp removed)]

/-- A pass over a draft: what it comes to, and whether it failed on the way. -/
def Draft.runPass (d : Draft) (options : PassOptions) (p : Pattern) (rule? : Option Rule) :
    Progress × Except Error Unit :=
  match OpGraph.runPass options p rule? { draft := d } with
  | .ok () progress => (progress, .ok ())
  | .error e progress => (progress, .error e)

end OpGraph
