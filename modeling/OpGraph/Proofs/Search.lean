import OpGraph.Proofs.PatternForm
import OpGraph.Proofs.Walks

/-!
# The search finds the first walk

The search looks at states from a stack. What it makes of one state does not
depend on the states below it, given enough budget (`Gives`): either it finds a
chain, or it goes on with the states below. By induction on the steps that are
left, the chain is that of the lexicographically first walk from the state, and
there is none where the search goes on (`exists_gives`). With enough budget the
match of an anchor is then the first walk from it (`matchAt_eq_first_walk`).
-/

namespace OpGraph

/-! ### First walks -/

/-- A chain that some hops lead along is the first one: no other hops that lead along a chain come
before these. Without a chain, no hops lead along one. -/
def IsFirst (leads : List Hop → Chain → Prop) : Option Chain → Prop
  | some chain => ∃ hops, leads hops chain ∧
      ∀ hops' chain', leads hops' chain' → ¬ List.Lex Hop.Before hops' hops
  | none => ∀ hops chain, ¬ leads hops chain

theorem IsFirst.congr {leads leads' : List Hop → Chain → Prop} {best : Option Chain}
    (h : IsFirst leads best) (heq : ∀ hops chain, leads hops chain ↔ leads' hops chain) :
    IsFirst leads' best := by
  obtain rfl : leads = leads' := funext fun hops => funext fun chain => propext (heq hops chain)
  exact h

theorem Hop.Before.irrefl (hop : Hop) : ¬ Hop.Before hop hop := by
  intro h
  rcases Prod.lex_def.1 h with h | ⟨-, h⟩ <;> exact Nat.lt_irrefl _ h

theorem Hop.Before.asymm {a b : Hop} (h : Hop.Before a b) : ¬ Hop.Before b a := by
  intro h'
  rcases Prod.lex_def.1 h with h | ⟨heq, h⟩ <;> rcases Prod.lex_def.1 h' with h' | ⟨heq', h'⟩ <;>
    omega

/-- Where hops come in order, the first chain that one of them leads on to is the first one of
all. -/
theorem isFirst_findSome? {ways : List (Hop × Handle)} {r : Handle → List Hop → Chain → Prop}
    {best : Handle → Option Chain} (hsorted : ways.Pairwise fun a b => Hop.Before a.1 b.1)
    (hbest : ∀ way ∈ ways, IsFirst (r way.2) (best way.2)) :
    IsFirst (fun hops chain => ∃ hop h hops', (hop, h) ∈ ways ∧ hops = hop :: hops' ∧
      r h hops' chain) (ways.findSome? fun way => best way.2) := by
  induction ways with
  | nil =>
    rintro hops chain ⟨hop, h, hops', hmem, -⟩
    exact absurd hmem List.not_mem_nil
  | cons way ways ih =>
    obtain ⟨hway, hsorted⟩ := List.pairwise_cons.1 hsorted
    have ih := ih hsorted fun w hw => hbest w (List.mem_cons_of_mem _ hw)
    have hfirst := hbest way List.mem_cons_self
    rw [List.findSome?_cons]
    cases hb : best way.2 with
    | some chain =>
      rw [hb] at hfirst
      obtain ⟨hops, hlead, hmin⟩ := hfirst
      refine ⟨way.1 :: hops, ⟨way.1, way.2, hops, List.mem_cons_self, rfl, hlead⟩, ?_⟩
      rintro _ chain' ⟨hop, h, hops', hmem, rfl, hlead'⟩ hlex
      -- an earlier walk would start with the same hop, or with an earlier one
      rcases List.mem_cons.1 hmem with rfl | hmem
      · cases hlex with
        | rel hrel => exact Hop.Before.irrefl _ hrel
        | cons hlex => exact hmin _ _ hlead' hlex
      · have hbefore : Hop.Before way.1 hop := hway _ hmem
        cases hlex with
        | rel hrel => exact hbefore.asymm hrel
        | cons => exact Hop.Before.irrefl _ hbefore
    | none =>
      rw [hb] at hfirst
      refine ih.congr fun hops chain => ?_
      constructor
      · rintro ⟨hop, h, hops', hmem, hrest⟩
        exact ⟨hop, h, hops', List.mem_cons_of_mem _ hmem, hrest⟩
      · rintro ⟨hop, h, hops', hmem, rfl, hlead⟩
        rcases List.mem_cons.1 hmem with rfl | hmem
        · exact absurd hlead (hfirst _ _)
        · exact ⟨hop, h, hops', hmem, rfl, hlead⟩

namespace SearchState

/-! ### What the search makes of states -/

/-- With enough budget, the search makes a chain of some states on top of its stack, or drops
them. -/
def Gives (d : Draft) (consumers : String → List Handle) (states : List SearchState)
    (best : Option Chain) : Prop :=
  ∃ n, ∀ budget stack, search d consumers (n + budget) (states ++ stack) =
    match best with
    | some chain => .found chain
    | none => search d consumers budget stack

section Gives

variable {d : Draft} {consumers : String → List Handle} {s : SearchState}

theorem gives_nil : Gives d consumers [] none :=
  ⟨0, fun budget stack => by simp⟩

theorem gives_of_found {chain : Chain} (h : s.expand d consumers = .found chain) :
    Gives d consumers [s] (some chain) := by
  refine ⟨1, fun budget stack => ?_⟩
  rw [Nat.add_comm, List.singleton_append, search, h]

theorem gives_of_next {states : List SearchState} {best : Option Chain}
    (h : s.expand d consumers = .next states) (hstates : Gives d consumers states best) :
    Gives d consumers [s] best := by
  obtain ⟨n, hn⟩ := hstates
  refine ⟨n + 1, fun budget stack => ?_⟩
  rw [Nat.add_right_comm, List.singleton_append, search, h]
  exact hn budget stack

theorem gives_cons {states : List SearchState} {first rest : Option Chain}
    (hs : Gives d consumers [s] first) (hstates : Gives d consumers states rest) :
    Gives d consumers (s :: states) (first.or rest) := by
  obtain ⟨n, hn⟩ := hs
  obtain ⟨m, hm⟩ := hstates
  refine ⟨n + m, fun budget stack => ?_⟩
  rw [Nat.add_assoc, ← List.singleton_append, List.append_assoc, hn]
  cases first with
  | some chain => rfl
  | none => exact hm budget stack

theorem gives_map {ways : List α} {next : α → SearchState} {best : α → Option Chain}
    (h : ∀ way ∈ ways, Gives d consumers [next way] (best way)) :
    Gives d consumers (ways.map next) (ways.findSome? best) := by
  induction ways with
  | nil => exact gives_nil
  | cons way ways ih =>
    have hcons := gives_cons (h way List.mem_cons_self)
      (ih fun w hw => h w (List.mem_cons_of_mem _ hw))
    rw [List.findSome?_cons]
    cases hb : best way <;> simpa [hb] using hcons

end Gives

/-! ### Walks from a state -/

/-- A state stands after some visits: it has their handles and what they bind, its node can be
moved to, and the steps that are left bind variables there are. -/
structure Stands (s : SearchState) (d : Draft) (n : Nat) (earlier : List Visit) : Prop where
  handles : s.earlier = earlier.map (·.handle)
  holds : s.bindings.Holds n earlier
  movable : ∀ node, d.node? s.handle = some node → node.isConstant = false
  bounded : ∀ step ∈ s.step :: s.later, ∀ x, Slot.variable x ∈ step.outputs → x < n

/-- Hops lead from a state along a walk for the steps that are left, to a whole chain. -/
def Reaches (d : Draft) (earlier : List Visit) (s : SearchState) (hops : List Hop)
    (chain : Chain) : Prop :=
  ∃ walk, walk.map (·.step) = s.step :: s.later ∧ walk.head?.map (·.handle) = some s.handle ∧
    d.Walks earlier walk hops ∧ chain = s.earlier ++ walk.map (·.handle)

/-- The node of a state can take the step of the state. -/
def Takes (s : SearchState) (d : Draft) (node : Node) : Prop :=
  d.node? s.handle = some node ∧ s.step.ops.accepts node.op ∧
    s.step.inputsSatisfied node s.bindings

section Walks

variable {d : Draft} {n : Nat} {earlier : List Visit} {s : SearchState} {hops : List Hop}
  {chain : Chain}

/-- The visit of the node of a state. -/
theorem Stands.takes_iff (hs : s.Stands d n earlier) {node : Node} :
    s.Takes d node ↔ d.node? s.handle = some node ∧ node.isConstant = false ∧
      s.step.ops.accepts node.op ∧ Visit.ReadsBound ⟨s.step, s.handle, node⟩ earlier := by
  have hinputs : s.step.inputsSatisfied node s.bindings ↔
      Visit.ReadsBound ⟨s.step, s.handle, node⟩ earlier :=
    hs.holds.inputsSatisfied_iff (v := ⟨s.step, s.handle, node⟩)
  rw [Takes, hinputs]
  constructor
  · rintro ⟨hnode, haccepts, hreads⟩
    exact ⟨hnode, hs.movable node hnode, haccepts, hreads⟩
  · rintro ⟨hnode, -, haccepts, hreads⟩
    exact ⟨hnode, haccepts, hreads⟩

/-- At the last step a walk ends with the node of the state. -/
theorem Stands.reaches_iff_of_last (hs : s.Stands d n earlier) (hlater : s.later = []) :
    Reaches d earlier s hops chain ↔ (∃ node, s.Takes d node) ∧ hops = [] ∧ chain = s.chain := by
  simp only [hs.takes_iff]
  constructor
  · rintro ⟨walk, hsteps, hhead, hwalks, rfl⟩
    -- the walk has a visit of this node and at least one after it
    rw [hlater] at hsteps
    obtain ⟨⟨step, h, node⟩, rfl, rfl⟩ := List.map_eq_singleton_iff.1 hsteps
    obtain rfl : h = s.handle := by simpa using hhead
    obtain ⟨rfl, hnode, hmovable, haccepts, hreads, -⟩ := Draft.walks_singleton.1 hwalks
    exact ⟨⟨node, hnode, hmovable, haccepts, hreads⟩, rfl, rfl⟩
  · rintro ⟨⟨node, hnode, hmovable, haccepts, hreads⟩, rfl, rfl⟩
    exact ⟨[⟨s.step, s.handle, node⟩], by simp [hlater], rfl, Draft.walks_singleton.2
      ⟨rfl, hnode, hmovable, haccepts, hreads, hs.holds.agrees⟩, rfl⟩

/-- The state after a hop. -/
def after (s : SearchState) (step : PatternStep) (later : List PatternStep) (b : Bindings)
    (h : Handle) : SearchState :=
  { earlier := s.chain, handle := h, step, later, bindings := b }

theorem chain_after (s : SearchState) (step : PatternStep) (later : List PatternStep) (b : Bindings)
    (h : Handle) : (s.after step later b h).chain = s.chain ++ [h] :=
  rfl

/-- Before the last step a walk goes on with a hop. -/
theorem Stands.reaches_iff_of_cons (hs : s.Stands d n earlier) {step : PatternStep}
    {later : List PatternStep} (hlater : s.later = step :: later) :
    Reaches d earlier s hops chain ↔ ∃ node b, s.Takes d node ∧
      s.step.bindOutputs node s.bindings = some b ∧
      ∃ hop h hops', (hop, h) ∈ d.hops node ∧ hops = hop :: hops' ∧
        Reaches d (earlier ++ [⟨s.step, s.handle, node⟩]) (s.after step later b h) hops'
          chain := by
  have hbound : ∀ x, Slot.variable x ∈ s.step.outputs → x < n :=
    hs.bounded s.step List.mem_cons_self
  simp only [hs.takes_iff]
  constructor
  · rintro ⟨walk, hsteps, hhead, hwalks, rfl⟩
    -- the walk has a visit of this node and at least one after it
    rw [hlater] at hsteps
    obtain ⟨⟨_, h, node⟩, visits, rfl, rfl, hvisits⟩ := List.map_eq_cons_iff.1 hsteps
    obtain ⟨w, rest, rfl, -, -⟩ := List.map_eq_cons_iff.1 hvisits
    obtain rfl : h = s.handle := by simpa using hhead
    obtain ⟨hop, hops', rfl, hnode, hmovable, haccepts, hreads, hmet, hleads, hrest⟩ :=
      Draft.walks_cons.1 hwalks
    obtain ⟨b, hb⟩ := (hs.holds.exists_bindOutputs_iff (v := ⟨s.step, s.handle, node⟩) hbound).2
      ⟨hmet, hrest.agrees_earlier⟩
    refine ⟨node, b, ⟨hnode, hmovable, haccepts, hreads⟩, hb, hop, w.handle, hops',
      Draft.mem_hops.2 hleads, rfl, w :: rest, hvisits, rfl, hrest, ?_⟩
    simp [after, SearchState.chain]
  · rintro ⟨node, b, ⟨hnode, hmovable, haccepts, hreads⟩, hb, hop, h, hops', hhop, rfl, walk,
      hsteps, hhead, hwalks, rfl⟩
    obtain ⟨w, rest, rfl, -, -⟩ := List.map_eq_cons_iff.1 hsteps
    obtain ⟨hmet, -⟩ :=
      (hs.holds.exists_bindOutputs_iff (v := ⟨s.step, s.handle, node⟩) hbound).1 ⟨b, hb⟩
    obtain rfl : w.handle = h := by simpa [SearchState.after] using hhead
    refine ⟨⟨s.step, s.handle, node⟩ :: w :: rest, ?_, rfl, Draft.walks_cons.2 ⟨hop, hops', rfl,
      hnode, hmovable, haccepts, hreads, hmet, Draft.mem_hops.1 hhop, hwalks⟩, ?_⟩
    · rw [List.map_cons, hsteps, hlater]
      rfl
    · simp [after, SearchState.chain]

/-- The state after a hop stands after one visit more. -/
theorem Stands.after (hs : s.Stands d n earlier) {step : PatternStep} {later : List PatternStep}
    (hlater : s.later = step :: later) {node : Node} {b : Bindings}
    (hb : s.step.bindOutputs node s.bindings = some b) {hop : Hop} {h : Handle}
    (hhop : (hop, h) ∈ d.hops node) :
    (s.after step later b h).Stands d n (earlier ++ [⟨s.step, s.handle, node⟩]) where
  handles := by simp [SearchState.after, SearchState.chain, hs.handles]
  holds := ((hs.holds.bindOutputs_eq_some_iff (v := ⟨s.step, s.handle, node⟩)
    (hs.bounded s.step List.mem_cons_self)).1 hb).2
  movable m hm := by
    obtain ⟨t, m', -, -, hentry, hconst, -⟩ := Draft.mem_hops.1 hhop
    have hnode : d.node? h = some m' := Draft.node?_of_mem (List.mem_of_getElem? hentry)
    obtain rfl : m' = m := Option.some.inj (hnode.symm.trans hm)
    exact hconst
  bounded u hu := hs.bounded u (List.mem_cons_of_mem _ (hlater ▸ hu))

/-- The consumers that a search is given. -/
abbrev consumersOf (d : Draft) (t : String) : List Handle :=
  d.consumerMap.getD t []

/-- How the search looks at a state whose node cannot take the step. -/
theorem expand_of_not_takes (h : ∀ node, ¬ s.Takes d node) :
    s.expand d (consumersOf d) = .next [] := by
  unfold expand
  cases hnode : d.node? s.handle with
  | none => rfl
  | some node =>
    have hno : ¬ (s.step.ops.accepts node.op && s.step.inputsSatisfied node s.bindings) = true := by
      rw [Bool.and_eq_true]
      exact fun hand => h node ⟨hnode, hand⟩
    simp only [if_neg hno]

theorem Takes.expand_of_last {node : Node} (h : s.Takes d node) (hlater : s.later = []) :
    s.expand d (consumersOf d) = .found s.chain := by
  obtain ⟨hnode, haccepts, hinputs⟩ := h
  simp [expand, hnode, haccepts, hinputs, hlater]

theorem Takes.expand_of_cons {node : Node} (h : s.Takes d node) {step : PatternStep}
    {later : List PatternStep} (hlater : s.later = step :: later) :
    s.expand d (consumersOf d) =
      match s.step.bindOutputs node s.bindings with
      | none => .next []
      | some b => .next ((d.hops node).map fun way => s.after step later b way.2) := by
  obtain ⟨hnode, haccepts, hinputs⟩ := h
  simp only [expand, hnode, haccepts, hinputs, hlater, Bool.and_self, if_true]
  cases s.step.bindOutputs node s.bindings with
  | none => rfl
  | some b =>
    have hmap : (d.hops node).map (fun way => s.after step later b way.2) =
        ((d.hops node).map (·.2)).map (s.after step later b) := by
      rw [List.map_map]
      rfl
    dsimp only
    rw [hmap, Draft.map_hops, List.map_flatMap]
    rfl

/-- Before the last step the search goes on only where the outputs of the node can be bound. -/
theorem expand_of_not_bindOutputs {step : PatternStep} {later : List PatternStep}
    (hlater : s.later = step :: later)
    (h : ¬ ∃ node b, s.Takes d node ∧ s.step.bindOutputs node s.bindings = some b) :
    s.expand d (consumersOf d) = .next [] := by
  by_cases hnode : ∃ node, s.Takes d node
  · obtain ⟨node, hnode⟩ := hnode
    rw [hnode.expand_of_cons hlater]
    cases hb : s.step.bindOutputs node s.bindings with
    | none => rfl
    | some b => exact absurd ⟨node, b, hnode, hb⟩ h
  · exact expand_of_not_takes (not_exists.1 hnode)

/-- The search finds the first walk from a state, or goes on where there is none: by induction on
the steps that are left. -/
theorem Stands.exists_gives (hs : s.Stands d n earlier) :
    ∃ best, Gives d (consumersOf d) [s] best ∧ IsFirst (Reaches d earlier s) best := by
  induction hlater : s.later generalizing s earlier with
  | nil =>
    by_cases htakes : ∃ node, s.Takes d node
    · obtain ⟨node, hnode⟩ := htakes
      refine ⟨some s.chain, gives_of_found (hnode.expand_of_last hlater), [], ?_, ?_⟩
      · exact (hs.reaches_iff_of_last hlater).2 ⟨⟨node, hnode⟩, rfl, rfl⟩
      · exact fun hops' _ _ => List.not_lex_nil
    · refine ⟨none, gives_of_next (expand_of_not_takes (not_exists.1 htakes)) gives_nil, ?_⟩
      exact fun hops chain hreach => htakes ((hs.reaches_iff_of_last hlater).1 hreach).1
  | cons step later ih =>
    by_cases htakes : ∃ node b, s.Takes d node ∧ s.step.bindOutputs node s.bindings = some b
    · obtain ⟨node, b, hnode, hb⟩ := htakes
      -- each consumer has its own best chain, and the first of these is the best of all
      have hnext : ∀ h : Handle, ∃ best, h ∈ (d.hops node).map (·.2) →
          Gives d (consumersOf d) [s.after step later b h] best ∧
            IsFirst (Reaches d (earlier ++ [⟨s.step, s.handle, node⟩])
              (s.after step later b h)) best := by
        intro h
        by_cases hmem : h ∈ (d.hops node).map (·.2)
        · obtain ⟨⟨hop, _⟩, hhop, rfl⟩ := List.mem_map.1 hmem
          obtain ⟨best, hbest⟩ := ih (hs.after hlater hb hhop) rfl
          exact ⟨best, fun _ => hbest⟩
        · exact ⟨none, fun h => absurd h hmem⟩
      choose best hbest using hnext
      have hexpand := hnode.expand_of_cons hlater
      rw [hb] at hexpand
      refine ⟨(d.hops node).findSome? fun way => best way.2, gives_of_next hexpand ?_, ?_⟩
      · exact gives_map fun way hway => (hbest way.2 (List.mem_map_of_mem hway)).1
      · have hfirst := isFirst_findSome?
          (r := fun h => Reaches d (earlier ++ [⟨s.step, s.handle, node⟩])
            (s.after step later b h)) (d.hops_sorted node)
          fun way hway => (hbest way.2 (List.mem_map_of_mem hway)).2
        refine hfirst.congr fun hops chain => ?_
        rw [hs.reaches_iff_of_cons hlater]
        constructor
        · intro h
          exact ⟨node, b, hnode, hb, h⟩
        · rintro ⟨node', b', hnode', hb', h⟩
          obtain rfl : node = node' := Option.some.inj (hnode.1.symm.trans hnode'.1)
          obtain rfl : b = b' := Option.some.inj (hb.symm.trans hb')
          exact h
    · refine ⟨none, gives_of_next (expand_of_not_bindOutputs hlater htakes) gives_nil, ?_⟩
      intro hops chain hreach
      obtain ⟨node, b, hnode, hb, -⟩ := (hs.reaches_iff_of_cons hlater).1 hreach
      exact htakes ⟨node, b, hnode, hb⟩

end Walks

end SearchState

namespace Pattern

/-! ### Matches -/

/-- The chains of the walks from an anchor, each with the hops of its walk. -/
def Matches (p : Pattern) (d : Draft) (anchor : Handle) (hops : List Hop) (chain : Chain) : Prop :=
  ∃ walk, p.IsWalk d anchor walk hops ∧ walk.map (·.handle) = chain

variable {p : Pattern} {d : Draft} {anchor : Handle}

/-- A walk starts with a step of the pattern, at a node that is there and is no constant. -/
theorem Matches.exists_cons {hops : List Hop} {chain : Chain}
    (h : p.Matches d anchor hops chain) :
    ∃ step later node, p.steps = step :: later ∧ d.node? anchor = some node ∧
      node.isConstant = false := by
  obtain ⟨walk, ⟨hsteps, hanchor, hwalks⟩, -⟩ := h
  cases walk with
  | nil => simp at hanchor
  | cons v rest =>
    obtain rfl : v.handle = anchor := by simpa using hanchor
    exact ⟨v.step, rest.map (·.step), v.node, by rw [← hsteps, List.map_cons],
      hwalks.present v List.mem_cons_self,
      hwalks.movable v List.mem_cons_self⟩

/-- The state that the search for a chain starts from. -/
def start (p : Pattern) (step : PatternStep) (later : List PatternStep) (anchor : Handle) :
    SearchState :=
  { earlier := [], handle := anchor, step, later, bindings := p.names.map fun _ => none }

theorem start_stands {step : PatternStep} {later : List PatternStep} (hp : p.Bounded)
    (hsteps : p.steps = step :: later) {node : Node} (hnode : d.node? anchor = some node)
    (hmovable : node.isConstant = false) :
    (p.start step later anchor).Stands d p.names.length [] where
  handles := rfl
  holds := by
    rw [start, List.map_const']
    exact .nil _
  movable m hm := by
    obtain rfl : node = m := Option.some.inj (hnode.symm.trans hm)
    exact hmovable
  bounded u hu := hp u (hsteps ▸ hu)

theorem matches_iff_reaches {step : PatternStep} {later : List PatternStep}
    (hsteps : p.steps = step :: later) {hops : List Hop} {chain : Chain} :
    SearchState.Reaches d [] (p.start step later anchor) hops chain ↔
      p.Matches d anchor hops chain := by
  constructor
  · rintro ⟨walk, hwalk, hhead, hwalks, rfl⟩
    exact ⟨walk, ⟨hwalk.trans hsteps.symm, hhead, hwalks⟩, by simp [start]⟩
  · rintro ⟨walk, ⟨hwalk, hhead, hwalks⟩, rfl⟩
    exact ⟨walk, hwalk.trans hsteps, hhead, hwalks, by simp [start]⟩

/-- The stack that the search from an anchor starts with: one state, if the pattern has a step and
the anchor a node that is no constant. -/
def firstStates (p : Pattern) (d : Draft) (anchor : Handle) : List SearchState :=
  match p.steps, d.node? anchor with
  | step :: later, some node => if node.isConstant then [] else [p.start step later anchor]
  | _, _ => []

theorem mem_firstStates {s : SearchState} :
    s ∈ p.firstStates d anchor ↔ ∃ step later node, p.steps = step :: later ∧
      d.node? anchor = some node ∧ node.isConstant = false ∧ s = p.start step later anchor := by
  unfold firstStates
  cases p.steps with
  | nil => simp
  | cons step later =>
    cases d.node? anchor with
    | none => simp
    | some node => cases hconst : node.isConstant <;> simp [hconst]

theorem firstStates_of_cons {step : PatternStep} {later : List PatternStep}
    (hsteps : p.steps = step :: later) {node : Node} (hnode : d.node? anchor = some node)
    (hmovable : node.isConstant = false) :
    p.firstStates d anchor = [p.start step later anchor] := by
  simp [firstStates, hsteps, hnode, hmovable]

theorem firstStates_eq_nil (h : ¬ ∃ step later node, p.steps = step :: later ∧
    d.node? anchor = some node ∧ node.isConstant = false) : p.firstStates d anchor = [] := by
  refine List.eq_nil_iff_forall_not_mem.2 fun s hs => h ?_
  obtain ⟨step, later, node, hsteps, hnode, hmovable, -⟩ := mem_firstStates.1 hs
  exact ⟨step, later, node, hsteps, hnode, hmovable⟩

theorem searchAt_eq (p : Pattern) (d : Draft) (cap : Nat) (anchor : Handle) :
    p.searchAt d cap anchor = SearchState.search d (SearchState.consumersOf d) (max cap 1)
      (p.firstStates d anchor) := by
  unfold searchAt searchFrom firstStates
  cases p.steps with
  | nil => simp [SearchState.search]
  | cons step later =>
    cases d.node? anchor with
    | none => simp [SearchState.search]
    | some node => cases hconst : node.isConstant <;> simp [hconst, SearchState.search, start]

theorem matchAt_eq (p : Pattern) (d : Draft) (cap : Nat) (anchor : Handle) :
    p.matchAt d cap anchor = (SearchState.search d (SearchState.consumersOf d) (max cap 1)
      (p.firstStates d anchor)).chain? := by
  rw [matchAt, searchAt_eq]

/-- There is no match where there is nothing to start from. -/
theorem matchAt_eq_none (h : ¬ ∃ step later node, p.steps = step :: later ∧
    d.node? anchor = some node ∧ node.isConstant = false) (cap : Nat) :
    p.matchAt d cap anchor = none := by
  rw [matchAt_eq, firstStates_eq_nil h, SearchState.search, SearchOutcome.chain?]

/-- With enough states, the match of an anchor is its first one. -/
theorem Bounded.exists_matchAt (hp : p.Bounded) (d : Draft) (anchor : Handle) :
    ∃ N best, (∀ cap, N ≤ cap → p.matchAt d cap anchor = best) ∧
      IsFirst (p.Matches d anchor) best := by
  by_cases hstart : ∃ step later node, p.steps = step :: later ∧ d.node? anchor = some node ∧
      node.isConstant = false
  · obtain ⟨step, later, node, hsteps, hnode, hmovable⟩ := hstart
    obtain ⟨best, ⟨n, hn⟩, hfirst⟩ := (start_stands hp hsteps hnode hmovable).exists_gives
    refine ⟨n, best, fun cap hcap => ?_,
      hfirst.congr fun hops chain => matches_iff_reaches hsteps⟩
    have hsearch := hn (max cap 1 - n) []
    rw [Nat.add_sub_cancel' (by omega), List.append_nil] at hsearch
    rw [matchAt_eq, firstStates_of_cons hsteps hnode hmovable, hsearch]
    cases best with
    | some chain => rfl
    | none => simp [SearchState.search, SearchOutcome.chain?]
  · exact ⟨0, none, fun cap _ => matchAt_eq_none hstart cap,
      fun hops chain h => hstart h.exists_cons⟩

theorem exists_bound (f : Handle → Nat) (hs : List Handle) : ∃ M, ∀ h ∈ hs, f h ≤ M := by
  induction hs with
  | nil => exact ⟨0, by simp⟩
  | cons h hs ih =>
    obtain ⟨M, hM⟩ := ih
    refine ⟨max (f h) M, fun h' hh' => ?_⟩
    rcases List.mem_cons.1 hh' with rfl | hh'
    · exact Nat.le_max_left _ _
    · exact Nat.le_trans (hM h' hh') (Nat.le_max_right _ _)

/-- One number of states is enough for all anchors of a draft. -/
theorem Bounded.exists_enough (hp : p.Bounded) (d : Draft) :
    ∃ N, ∀ cap, N ≤ cap → ∀ anchor, IsFirst (p.Matches d anchor) (p.matchAt d cap anchor) := by
  choose N best hbest hfirst using hp.exists_matchAt d
  obtain ⟨M, hM⟩ := exists_bound N d.handles
  refine ⟨M, fun cap hcap anchor => ?_⟩
  -- an anchor without a node has no match, with any number of states
  by_cases hmem : anchor ∈ d.handles
  · rw [hbest anchor cap (Nat.le_trans (hM anchor hmem) hcap)]
    exact hfirst anchor
  · have hnode : d.node? anchor = none := Draft.node?_eq_none_iff.2 hmem
    have hstart : ¬ ∃ step later node, p.steps = step :: later ∧ d.node? anchor = some node ∧
        node.isConstant = false := by simp [hnode]
    rw [matchAt_eq_none hstart]
    exact fun hops chain h => hstart h.exists_cons

/-- All matches are those of the single anchors, in the order of the nodes. -/
theorem findAll_eq (p : Pattern) (d : Draft) (cap : Nat) :
    p.findAll d cap = d.handles.filterMap (p.matchAt d cap) := by
  have hentry : ∀ e ∈ d.entries, p.matchAt d cap e.handle =
      if e.node.isConstant then none else p.matchAt d cap e.handle := by
    intro e he
    split
    · rename_i hconst
      have hnode : d.node? e.handle = some e.node := Draft.node?_of_mem he
      exact matchAt_eq_none (by simp [hnode, hconst]) cap
    · rfl
  have hfindAll : p.findAll d cap =
      (d.select fun n => !n.isConstant).filterMap (p.matchAt d cap) := by
    rw [findAll, chainsOf, outcomes, List.filterMap_map]
    rfl
  rw [hfindAll, Draft.select, Draft.handles, List.filterMap_map, List.filterMap_map]
  -- leaving constants out before or after makes no difference: none of them has a match
  generalize d.entries = es at hentry ⊢
  induction es with
  | nil => rfl
  | cons e es ih =>
    have he := hentry e List.mem_cons_self
    have ih := ih fun e' he' => hentry e' (List.mem_cons_of_mem _ he')
    cases hconst : e.node.isConstant with
    | true =>
      rw [hconst, if_pos rfl] at he
      rw [List.filter_cons_of_neg (by simp [hconst]), ih,
        List.filterMap_cons_none (by simpa using he)]
    | false =>
      rw [List.filter_cons_of_pos (by simp [hconst]), List.filterMap_cons, List.filterMap_cons, ih]

/-- A match is found as well without the table of all consumers. -/
theorem matchAt_eq_searchFrom (p : Pattern) (d : Draft) (cap : Nat) :
    p.matchAt d cap = fun anchor =>
      (p.searchFrom d (fun t => if t = "" then [] else d.consumers t) cap anchor).chain? := by
  funext anchor
  simp only [matchAt, searchAt, Draft.getD_consumerMap]

/-- **The search is exact.** For a pattern that was read, and with enough states, an anchor has a
match exactly where there is a walk from it; the match is the chain of the first walk; and all
matches are those of the anchors, in the order of the nodes. -/
theorem matchAt_eq_first_walk {text : String} {p : Pattern} (hp : Pattern.parse text = .ok p)
    (d : Draft) :
    ∃ N, ∀ cap, N ≤ cap →
      (∀ anchor, (p.matchAt d cap anchor).isSome ↔ ∃ walk hops, p.IsWalk d anchor walk hops) ∧
      (∀ anchor chain, p.matchAt d cap anchor = some chain →
        ∃ walk hops, p.IsWalk d anchor walk hops ∧ walk.map (·.handle) = chain ∧
          ∀ walk' hops', p.IsWalk d anchor walk' hops' → ¬ List.Lex Hop.Before hops' hops) ∧
      p.findAll d cap = d.handles.filterMap (p.matchAt d cap) := by
  obtain ⟨N, hN⟩ := (parse_bounded hp).exists_enough d
  refine ⟨N, fun cap hcap => ⟨fun anchor => ?_, fun anchor chain hmatch => ?_,
    p.findAll_eq d cap⟩⟩
  · have hfirst := hN cap hcap anchor
    cases hmatch : p.matchAt d cap anchor with
    | none =>
      rw [hmatch] at hfirst
      simp only [Option.isSome_none, Bool.false_eq_true, false_iff, not_exists]
      exact fun walk hops hwalk => hfirst hops _ ⟨walk, hwalk, rfl⟩
    | some chain =>
      rw [hmatch] at hfirst
      obtain ⟨hops, ⟨walk, hwalk, -⟩, -⟩ := hfirst
      exact ⟨fun _ => ⟨walk, hops, hwalk⟩, fun _ => rfl⟩
  · have hfirst := hN cap hcap anchor
    rw [hmatch] at hfirst
    obtain ⟨hops, ⟨walk, hwalk, hchain⟩, hmin⟩ := hfirst
    exact ⟨walk, hops, hwalk, hchain, fun walk' hops' h => hmin hops' _ ⟨walk', h, rfl⟩⟩

/-- A tensor with two readers, of which only the second one has a reader of its own. -/
def forkedGraph : Graph where
  nodes :=
    [{ op := "Relu", inputs := ["x"], outputs := ["r"] },
      { op := "Neg", inputs := ["r"], outputs := ["a"] },
      { op := "Neg", inputs := ["r"], outputs := ["b"] },
      { op := "Abs", inputs := ["b"], outputs := ["y"] }]
  inputs := [{ name := "x" }]
  outputs := [{ name := "a" }, { name := "y" }]

/-- The pattern of a path through the fork. -/
def forkedPath : Pattern where
  steps :=
    [{ ops := .oneOf ["Relu"], inputs := [.any], outputs := [.variable 0], line := "Relu(?,r)" },
      { ops := .oneOf ["Neg"], inputs := [.variable 0], outputs := [.variable 1],
        line := "Neg(r,n)" },
      { ops := .any, inputs := [.variable 1], outputs := [.any], line := "?(n,?)" }]
  names := ["r", "n"]

theorem matchAt_forked :
    Pattern.parse "Relu(?, r)\nNeg(r, n)\n?(n, ?)" = .ok forkedPath ∧
      ∃ N, ∀ cap, N ≤ cap → ∀ anchor,
        (forkedPath.matchAt (.ofGraph forkedGraph) cap anchor).isSome ↔
          ∃ walk hops, forkedPath.IsWalk (.ofGraph forkedGraph) anchor walk hops := by
  have hparse : Pattern.parse "Relu(?, r)\nNeg(r, n)\n?(n, ?)" = .ok forkedPath := by
    decide +kernel
  obtain ⟨N, hN⟩ := matchAt_eq_first_walk hparse (.ofGraph forkedGraph)
  exact ⟨hparse, N, fun cap hcap => (hN cap hcap).1⟩

-- the search comes back from the first reader
example : forkedPath.matchAt (.ofGraph forkedGraph) 4 ⟨0⟩ = some [⟨0⟩, ⟨2⟩, ⟨3⟩] := by
  rw [matchAt_eq_searchFrom]
  decide

end Pattern

end OpGraph
