import OpGraph.Proofs.DeletionPass
import OpGraph.Proofs.Sources

/-!
# Overlapping matches

The check for overlaps goes through the nodes of all matches and stops at the first one that it has
met before (`Draft.checkOverlaps_eq_error_iff`). On an acyclic graph the nodes of a match are all
different, since their ranks go up, so that the node was met in an earlier match. What the check
reports is then fixed by the matches alone: the second match is the first one that shares a node
with an earlier one, the node is the first one that it shares, and the first match is the only
earlier one that has it (`Pattern.findAll_overlaps_reported`).
-/

namespace OpGraph

variable {d : Draft} {chains : List Chain} {first second i j : Nat} {h : Handle}

/-! ### The check -/

/-- The check for overlaps fails where a node stands before, and no other one before it does. -/
theorem Draft.checkOverlaps_eq_error_iff {pairs : List (Handle × Nat)} {e : Error} :
    d.checkOverlaps [] pairs = .error e ↔
      ∃ before first second h after, pairs = before ++ (h, second) :: after ∧
        (before.map (·.1)).Nodup ∧ (h, first) ∈ before ∧
        e = .overlappingMatches first second (d.label h) := by
  constructor
  · intro herror
    have hrepeat : ¬ (pairs.map (·.1)).Nodup := by
      intro hnodup
      rw [checkOverlaps_eq_ok hnodup] at herror
      cases herror
    obtain ⟨before, first, second, h, after, hsplit, hnodup, hmem, herror'⟩ :=
      d.exists_checkOverlaps_eq_error hrepeat
    cases herror'.symm.trans herror
    exact ⟨before, first, second, h, after, hsplit, hnodup, hmem, rfl⟩
  · rintro ⟨before, first, second, h, after, rfl, hnodup, hmem, rfl⟩
    exact checkOverlaps_eq_error hnodup hmem

/-! ### The nodes of chains -/

/-- An element of joined lists has the lists before its own and a part of its own before it. -/
theorem flatMap_eq_append_cons_iff {α β : Type} {f : α → List β} {l : List α} {before after : List β}
    {x : β} : l.flatMap f = before ++ x :: after ↔
      ∃ l₁ a l₂ b₁ b₂, l = l₁ ++ a :: l₂ ∧ f a = b₁ ++ x :: b₂ ∧ before = l₁.flatMap f ++ b₁ ∧
        after = b₂ ++ l₂.flatMap f := by
  constructor
  · intro h
    induction l generalizing before with
    | nil => simp at h
    | cons a l ih =>
      -- the element is in the first list, or in one of the others
      have hrest : ∀ before', before = f a ++ before' → l.flatMap f = before' ++ x :: after →
          ∃ l₁ a' l₂ b₁ b₂, a :: l = l₁ ++ a' :: l₂ ∧ f a' = b₁ ++ x :: b₂ ∧
            before = l₁.flatMap f ++ b₁ ∧ after = b₂ ++ l₂.flatMap f := by
        rintro before' rfl hlater
        obtain ⟨l₁, a', l₂, b₁, b₂, rfl, ha', rfl, rfl⟩ := ih hlater
        exact ⟨a :: l₁, a', l₂, b₁, b₂, rfl, ha', by simp, rfl⟩
      rw [List.flatMap_cons, List.append_eq_append_iff] at h
      rcases h with ⟨before', hbefore, hlater⟩ | ⟨rest, ha, hrest'⟩
      · exact hrest before' hbefore hlater
      · rcases List.cons_eq_append_iff.1 hrest' with ⟨rfl, hlater⟩ | ⟨b₂, rfl, rfl⟩
        · exact hrest [] (by simpa using ha.symm) hlater
        · exact ⟨[], a, l, before, b₂, rfl, ha, rfl, rfl⟩
  · rintro ⟨l₁, a, l₂, b₁, b₂, rfl, ha, rfl, rfl⟩
    simp [ha]

/-- Before a node of a chain come the chains before its own and the nodes before it. -/
theorem exists_indexedNodes_eq_iff {before : List (Handle × Nat)} :
    (∃ after, indexedNodes chains = before ++ (h, second) :: after) ↔
      ∃ c₁ c₂, chains[second]? = some (c₁ ++ h :: c₂) ∧
        before = indexedNodes (chains.take second) ++ c₁.map fun a => (a, second) := by
  constructor
  · rintro ⟨after, hsplit⟩
    obtain ⟨l₁, ⟨c, k⟩, l₂, b₁, b₂, hchains, hc, rfl, -⟩ := flatMap_eq_append_cons_iff.1 hsplit
    obtain ⟨earlier, rest, rfl, rfl, hrest⟩ := List.zipIdx_eq_append_iff.1 hchains
    obtain ⟨c', later, rfl, hpair, -⟩ := List.zipIdx_eq_cons_iff.1 hrest.symm
    obtain ⟨c₁, c', rfl, rfl, hc'⟩ := List.map_eq_append_iff.1 hc
    obtain ⟨a, c₂, rfl, ha, -⟩ := List.map_eq_cons_iff.1 hc'
    obtain ⟨rfl, rfl⟩ : a = h ∧ k = second := by simpa using ha
    obtain ⟨rfl, rfl⟩ : c₁ ++ a :: c₂ = _ ∧ k = earlier.length := by simpa using hpair
    exact ⟨c₁, c₂, by simp, by simp [indexedNodes]⟩
  · rintro ⟨c₁, c₂, hchain, rfl⟩
    obtain ⟨hlt, hget⟩ := List.getElem?_eq_some_iff.1 hchain
    have hchains : chains = chains.take second ++ (c₁ ++ h :: c₂) :: chains.drop (second + 1) := by
      rw [← hget, List.getElem_cons_drop, List.take_append_drop]
    refine ⟨_, flatMap_eq_append_cons_iff.2 ⟨(chains.take second).zipIdx, (c₁ ++ h :: c₂, second),
      (chains.drop (second + 1)).zipIdx (second + 1), c₁.map fun a => (a, second),
      c₂.map fun a => (a, second), ?_, by simp, rfl, rfl⟩⟩
    conv_lhs => rw [hchains, List.zipIdx_append, List.zipIdx_cons]
    rw [List.length_take_of_le hlt.le, Nat.zero_add]

/-- The chain at an index has a node. -/
def HasAt (chains : List Chain) (index : Nat) (h : Handle) : Prop :=
  ∃ chain, chains[index]? = some chain ∧ h ∈ chain

/-- No chain before an index has a node. -/
def IsNewAt (chains : List Chain) (index : Nat) (h : Handle) : Prop :=
  ∀ i < index, ¬ HasAt chains i h

theorem mem_indexedNodes_iff_hasAt : (h, i) ∈ indexedNodes chains ↔ HasAt chains i h :=
  mem_indexedNodes

theorem hasAt_take : HasAt (chains.take second) i h ↔ i < second ∧ HasAt chains i h := by
  unfold HasAt
  rw [List.getElem?_take]
  split <;> simp [*]

theorem isNewAt_take (hle : i ≤ second) : IsNewAt (chains.take second) i h ↔ IsNewAt chains i h :=
  forall₂_congr fun j hj => by rw [hasAt_take, and_iff_right (Nat.lt_of_lt_of_le hj hle)]

theorem not_mem_flatten_take : h ∉ (chains.take second).flatten ↔ IsNewAt chains second h := by
  rw [← map_indexedNodes, List.mem_map]
  constructor
  · intro hnot i hi hat
    exact hnot ⟨(h, i), mem_indexedNodes_iff_hasAt.2 (hasAt_take.2 ⟨hi, hat⟩), rfl⟩
  · rintro hnew ⟨⟨a, i⟩, hmem, rfl⟩
    obtain ⟨hi, hat⟩ := hasAt_take.1 (mem_indexedNodes_iff_hasAt.1 hmem)
    exact hnew i hi hat

theorem pairwise_disjoint_iff :
    chains.Pairwise List.Disjoint ↔ ∀ j a, HasAt chains j a → IsNewAt chains j a := by
  rw [List.pairwise_iff_getElem]
  constructor
  · rintro hdisjoint j a ⟨c', hc', ha'⟩ i hij ⟨c, hc, ha⟩
    obtain ⟨hi, rfl⟩ := List.getElem?_eq_some_iff.1 hc
    obtain ⟨hj, rfl⟩ := List.getElem?_eq_some_iff.1 hc'
    exact hdisjoint i j hi hj hij ha ha'
  · intro hnew i j hi hj hij a ha ha'
    exact hnew j a ⟨_, List.getElem?_eq_getElem hj, ha'⟩ i hij ⟨_, List.getElem?_eq_getElem hi, ha⟩

/-! ### The first overlap -/

/-- What there is to report of overlapping chains. No chain before the second one shares a node with
an earlier one; the node is the first one of the second chain that an earlier one has; and of the
chains before the second exactly the first one has it. -/
structure IsFirstOverlap (chains : List Chain) (first second : Nat) (h : Handle) : Prop where
  lt : first < second
  least : ∀ j < second, ∀ a, HasAt chains j a → IsNewAt chains j a
  node : ∃ before after, chains[second]? = some (before ++ h :: after) ∧
    ∀ a ∈ before, IsNewAt chains second a
  owner : ∀ i < second, HasAt chains i h ↔ i = first

theorem IsFirstOverlap.hasAt_first (ho : IsFirstOverlap chains first second h) :
    HasAt chains first h :=
  (ho.owner first ho.lt).2 rfl

theorem IsFirstOverlap.hasAt_second (ho : IsFirstOverlap chains first second h) :
    HasAt chains second h := by
  obtain ⟨before, after, hchain, -⟩ := ho.node
  exact ⟨_, hchain, by simp⟩

section

variable (hnodup : ∀ c ∈ chains, c.Nodup)

include hnodup

/-- Up to a node no node is met twice where no chain before its own shares a node with an earlier
one, and neither does the part of its own chain before it. -/
theorem nodup_flatten_take_append_iff {before after : Chain}
    (hchain : chains[second]? = some (before ++ h :: after)) :
    ((chains.take second).flatten ++ before).Nodup ↔
      (∀ j < second, ∀ a, HasAt chains j a → IsNewAt chains j a) ∧
        ∀ a ∈ before, IsNewAt chains second a := by
  have hbefore : before.Nodup :=
    (hnodup _ (List.mem_of_getElem? hchain)).sublist (List.sublist_append_left _ _)
  have htake : ∀ c ∈ chains.take second, c.Nodup := fun c hc => hnodup c (List.mem_of_mem_take hc)
  have hearlier : (chains.take second).Pairwise List.Disjoint ↔
      ∀ j < second, ∀ a, HasAt chains j a → IsNewAt chains j a := by
    simp only [pairwise_disjoint_iff, hasAt_take, and_imp]
    constructor
    · exact fun h j hj a ha => (isNewAt_take hj.le).1 (h j a hj ha)
    · exact fun h j a hj ha => (isNewAt_take hj.le).2 (h j hj a ha)
  have hown : List.Disjoint (chains.take second).flatten before ↔
      ∀ a ∈ before, IsNewAt chains second a := by
    simp only [← not_mem_flatten_take]
    exact ⟨fun h a ha ha' => h ha' ha, fun h a ha' ha => h a ha ha'⟩
  rw [List.nodup_append', List.nodup_flatten, hearlier, hown, and_iff_right htake,
    and_iff_right hbefore]

/-- Of chains that repeat no node in themselves the check for overlaps reports the first overlap. -/
theorem Draft.checkOverlaps_indexedNodes_eq_error_iff (d : Draft) {e : Error} :
    d.checkOverlaps [] (indexedNodes chains) = .error e ↔
      ∃ first second h, IsFirstOverlap chains first second h ∧
        e = .overlappingMatches first second (d.label h) := by
  rw [checkOverlaps_eq_error_iff]
  constructor
  · rintro ⟨before, first, second, h, after, hsplit, hmet, hfirst, rfl⟩
    obtain ⟨c₁, c₂, hchain, rfl⟩ := exists_indexedNodes_eq_iff.1 ⟨after, hsplit⟩
    have hwhole := hnodup _ (List.mem_of_getElem? hchain)
    simp only [List.map_append, map_indexedNodes, List.map_map, Function.comp_def,
      List.map_id'] at hmet
    obtain ⟨hleast, hown⟩ := (nodup_flatten_take_append_iff hnodup hchain).1 hmet
    -- the node does not stand before itself in its own chain, so that an earlier one has it
    have hnot : h ∉ c₁ := fun hmem => (List.nodup_append'.1 hwhole).2.2 hmem List.mem_cons_self
    have hat : HasAt (chains.take second) first h := by
      rcases List.mem_append.1 hfirst with hmem | hmem
      · exact mem_indexedNodes_iff_hasAt.1 hmem
      · obtain ⟨a, ha, heq⟩ := List.mem_map.1 hmem
        exact absurd ((Prod.mk.inj heq).1 ▸ ha) hnot
    obtain ⟨hlt, hat⟩ := hasAt_take.1 hat
    refine ⟨first, second, h, ⟨hlt, hleast, ⟨c₁, c₂, hchain, hown⟩, fun i hi => ⟨?_, ?_⟩⟩, rfl⟩
    · intro hat'
      rcases Nat.lt_trichotomy i first with hi' | heq | hi'
      · exact absurd hat' (hleast first hlt h hat i hi')
      · exact heq
      · exact absurd hat (hleast i hi h hat' first hi')
    · rintro rfl
      exact hat
  · rintro ⟨first, second, h, ho, rfl⟩
    obtain ⟨c₁, c₂, hchain, hown⟩ := ho.node
    obtain ⟨after, hsplit⟩ := exists_indexedNodes_eq_iff.2 ⟨c₁, c₂, hchain, rfl⟩
    have hmet := (nodup_flatten_take_append_iff hnodup hchain).2 ⟨ho.least, hown⟩
    refine ⟨_, first, second, h, after, hsplit, ?_, ?_, rfl⟩
    · simpa [map_indexedNodes, Function.comp_def] using hmet
    · have hat := hasAt_take.2 ⟨ho.lt, ho.hasAt_first⟩
      exact List.mem_append_left _ (mem_indexedNodes_iff_hasAt.2 hat)

/-- The check fails where two chains share a node. -/
theorem Draft.exists_checkOverlaps_eq_error_iff (d : Draft) :
    (∃ e, d.checkOverlaps [] (indexedNodes chains) = .error e) ↔
      ∃ i j h, i ≠ j ∧ HasAt chains i h ∧ HasAt chains j h := by
  constructor
  · rintro ⟨e, herror⟩
    obtain ⟨first, second, h, ho, -⟩ :=
      (d.checkOverlaps_indexedNodes_eq_error_iff hnodup).1 herror
    exact ⟨first, second, h, ho.lt.ne, ho.hasAt_first, ho.hasAt_second⟩
  · rintro ⟨i, j, h, hne, hi, hj⟩
    have hshared : ¬ chains.flatten.Nodup := by
      intro hflat
      have hnew := pairwise_disjoint_iff.1 (List.nodup_flatten.1 hflat).2
      rcases Nat.lt_or_gt_of_ne hne with hlt | hlt
      · exact hnew j h hj i hlt hi
      · exact hnew i h hi j hlt hj
    rw [← map_indexedNodes] at hshared
    obtain ⟨_, _, _, _, _, -, -, -, herror⟩ := d.exists_checkOverlaps_eq_error hshared
    exact ⟨_, herror⟩

end

namespace Pattern

/-- On an acyclic draft the nodes of a match are all different. -/
theorem nodup_of_mem_findAll {p : Pattern} {cap : Nat} {chain : Chain} (hacyclic : d.Acyclic)
    (hchain : chain ∈ p.findAll d cap) : chain.Nodup := by
  obtain ⟨rank, hranked⟩ := hacyclic
  refine (Draft.rising_of_mem_findAll hranked hchain).imp ?_
  rintro a b hlt rfl
  exact Nat.lt_irrefl _ hlt

/-- **Overlaps are reported exactly.** On an acyclic draft, whatever the pattern and the limit on
states, no match has a node twice. The check for overlaps fails just where two matches share a node,
and then it reports the first overlap. -/
theorem findAll_overlaps_reported (p : Pattern) (hacyclic : d.Acyclic) (cap : Nat) :
    let chains := p.findAll d cap
    (∀ c ∈ chains, c.Nodup) ∧
    ((∃ e, d.checkOverlaps [] (indexedNodes chains) = .error e) ↔
      ∃ i j h, i ≠ j ∧ HasAt chains i h ∧ HasAt chains j h) ∧
    ∀ e, d.checkOverlaps [] (indexedNodes chains) = .error e ↔
      ∃ first second h, IsFirstOverlap chains first second h ∧
        e = .overlappingMatches first second (d.label h) := by
  intro chains
  have hnodup : ∀ c ∈ chains, c.Nodup := fun c hc => nodup_of_mem_findAll hacyclic hc
  exact ⟨hnodup, d.exists_checkOverlaps_eq_error_iff hnodup,
    fun e => d.checkOverlaps_indexedNodes_eq_error_iff hnodup⟩

/-- A graph where two of three convolutions feed one sum. -/
def summedGraph : Graph where
  nodes :=
    [{ op := "Conv", inputs := ["x"], outputs := ["a"] },
      { op := "Conv", inputs := ["x"], outputs := ["b"] },
      { op := "Conv", inputs := ["x"], outputs := ["c"] },
      { op := "Neg", inputs := ["b"], outputs := ["y"] },
      { op := "Add", inputs := ["a", "c"], outputs := ["z"], name := "sum" }]
  inputs := [{ name := "x" }]
  outputs := [{ name := "y" }, { name := "z" }]

/-- The pattern of a convolution and a node that reads it. -/
def convolvedPair : Pattern where
  steps :=
    [{ ops := .oneOf ["Conv"], inputs := [.any], outputs := [.variable 0], line := "Conv(?,t)" },
      { ops := .any, inputs := [.variable 0], outputs := [.any], line := "?(t,?)" }]
  names := ["t"]

theorem findAll_overlaps_reported_summed :
    let d := Draft.ofGraph summedGraph
    let chains := convolvedPair.findAll d defaultMaxStates
    d.Acyclic ∧ chains = [[⟨0⟩, ⟨4⟩], [⟨1⟩, ⟨3⟩], [⟨2⟩, ⟨4⟩]] ∧
      d.checkOverlaps [] (indexedNodes chains) = .error (.overlappingMatches 0 2 "sum(Add)") ∧
      ∃ first second h, IsFirstOverlap chains first second h ∧
        Error.overlappingMatches 0 2 "sum(Add)" = .overlappingMatches first second (d.label h) := by
  intro d chains
  have hacyclic : d.Acyclic := ⟨Handle.index, by unfold Draft.Ranked; decide⟩
  have hfind : chains = [[⟨0⟩, ⟨4⟩], [⟨1⟩, ⟨3⟩], [⟨2⟩, ⟨4⟩]] := by
    show convolvedPair.findAll d defaultMaxStates = _
    rw [findAll_eq, matchAt_eq_searchFrom]
    decide +kernel
  have herror : d.checkOverlaps [] (indexedNodes chains) =
      .error (.overlappingMatches 0 2 "sum(Add)") := by
    rw [hfind]
    decide +kernel
  obtain ⟨-, -, hreported⟩ := findAll_overlaps_reported convolvedPair hacyclic defaultMaxStates
  exact ⟨hacyclic, hfind, herror, (hreported _).1 herror⟩

end Pattern

end OpGraph
