import OpGraph.Proofs.DeletionPass
import OpGraph.Proofs.Joining

/-!
# Chains contracted into wires

After the deletion of a chain every tensor comes from what it came from before,
with the chain taken for a wire (`Joins.contracted`), and the chains that are
left can be contracted in their turn (`Joins.contractible`). So after a pass the
sources of all tensors are what they were, with all chains taken for wires, and
of the nodes outside the chains only constants that feed nothing are missing
(`Session.delete_contracts`).
-/

namespace OpGraph

namespace Draft

variable {d d' : Draft} {rank : Handle → Nat} {chain : Chain} {chains : List Chain} {x y : String}
  {f : String → String}

namespace Joins

variable {s : Source} {t u : String}

/-! ### What nodes read -/

/-- What a node reads after a deletion, it read before under another name. -/
theorem exists_input (hj : d.Joins d' chain x y f) {e' : Entry} (he' : e' ∈ d'.entries)
    (hu : u ∈ e'.node.inputs) :
    ∃ e ∈ d.entries, e.handle = e'.handle ∧ e.handle ∉ chain ∧ ∃ t ∈ e.node.inputs, f t = u := by
  obtain ⟨e, he, hnot, rfl⟩ := hj.entries e' he'
  exact ⟨e, he, rfl, hnot, List.mem_map.1 hu⟩

theorem exists_output (hj : d.Joins d' chain x y f) {e' : Entry} (he' : e' ∈ d'.entries)
    (hu : u ∈ e'.node.outputs) :
    ∃ e ∈ d.entries, e.handle = e'.handle ∧ e.handle ∉ chain ∧ ∃ t ∈ e.node.outputs, f t = u := by
  obtain ⟨e, he, hnot, rfl⟩ := hj.entries e' he'
  exact ⟨e, he, rfl, hnot, List.mem_map.1 hu⟩

theorem ne_empty (hj : d.Joins d' chain x y f) (hne : f t ≠ "") : t ≠ "" := by
  rintro rfl
  exact hne ((hj.empty "").2 rfl)

/-- Tensors with one name after a deletion had one name before, or they are the ends of the
chain. -/
theorem eq_or_ends (hj : d.Joins d' chain x y f) (ht : t ≠ y) (heq : f t = f u) :
    t = u ∨ t = x ∧ u = y := by
  by_cases hu : u = y
  · subst hu
    exact .inr ⟨hj.injective t x ht hj.ends_ne (heq.trans hj.joined.symm), rfl⟩
  · exact .inl (hj.injective t u ht hu heq)

/-! ### Where tensors come from -/

section

variable (hj : d.Joins d' chain x y f) (hc : d.Contractible rank (chain :: chains))

include hj hc

theorem ne_output (hs : d.Defines s t) (hout : ∀ h ∈ chain, s.handle? ≠ some h) : t ≠ y := by
  rintro rfl
  obtain ⟨h, hh, hsource⟩ :=
    hc.source_mem List.mem_cons_self (by simp [hj.output]) hj.output_ne hs
  exact hout h hh hsource

theorem ne_output_of_mem {e : Entry} (he : e ∈ d.entries) (hnot : e.handle ∉ chain)
    (ht : t ∈ e.node.outputs) : t ≠ y := by
  obtain ⟨i, hi⟩ := exists_defines_of_mem he ht
  refine hj.ne_output hc hi fun h hh hsource => hnot ?_
  cases hsource
  exact hh

/-- What gives a tensor after a deletion gave it before, under another name. -/
theorem exists_defines (hs : d'.Defines s u) (hne : u ≠ "") :
    ∃ t, d.Defines s t ∧ t ≠ "" ∧ t ≠ y ∧ f t = u := by
  -- an input or an initializer keeps its name
  have hbase : ∀ s, d.Defines s u → s.handle? = none →
      ∃ t, d.Defines s t ∧ t ≠ "" ∧ t ≠ y ∧ f t = u := fun s hold hsource =>
    ⟨u, hold, hne, hj.ne_output hc hold (by simp [hsource]), hj.fixed u hne s hold hsource⟩
  cases hs with
  | input h => exact hbase _ (.input (by rwa [isInput, ← hj.frame])) rfl
  | initializer h =>
    rw [isInitializer_iff, List.mem_map] at h
    obtain ⟨i, hi, rfl⟩ := h
    exact hbase _ (.initializer (isInitializer_iff.2 (List.mem_map_of_mem (hj.initializers hi)))) rfl
  | sparse h => exact hbase _ (.sparse (by rwa [sparseNames, ← hj.frame])) rfl
  | @output _ i _ he' hu =>
    obtain ⟨e, he, hnot, rfl⟩ := hj.entries _ he'
    rw [Entry.rename_outputs, List.getElem?_map, Option.map_eq_some_iff] at hu
    obtain ⟨t, ht, rfl⟩ := hu
    have hold : d.Defines (.output e.handle i) t := .output he ht
    exact ⟨t, hold, hj.ne_empty hne,
      hj.ne_output_of_mem hc he hnot (List.mem_of_getElem? ht), rfl⟩

/-- What gives a tensor and is not in the chain gives it after the deletion, if it is read then. -/
theorem defines (hs : d.Defines s t) (hne : t ≠ "") (hout : ∀ h ∈ chain, s.handle? ≠ some h)
    (hread : d'.IsRead (f t)) : d'.Defines s (f t) := by
  cases hs with
  | input h =>
    rw [hj.fixed t hne _ (.input h) rfl]
    exact .input (by rwa [isInput, hj.frame])
  | initializer h =>
    rw [hj.fixed t hne _ (.initializer h) rfl] at hread ⊢
    obtain ⟨i, hi, rfl⟩ := List.mem_map.1 (isInitializer_iff.1 h)
    rcases hj.kept_initializers i hi with hkept | hunread
    · exact .initializer (isInitializer_iff.2 (List.mem_map_of_mem hkept))
    · exact absurd hread hunread
  | sparse h =>
    rw [hj.fixed t hne _ (.sparse h) rfl]
    exact .sparse (by rwa [sparseNames, hj.frame])
  | @output e i _ he ht =>
    have hnot : e.handle ∉ chain := fun hin => hout _ hin rfl
    rcases hj.kept e he hnot with hkept | ⟨hconst, u, hu, hunread⟩
    · have hslot : (e.rename f).node.outputs[i]? = some (f t) := by
        rw [Entry.rename_outputs, List.getElem?_map, ht]
        rfl
      have hnew : d'.Defines (.output (e.rename f).handle i) (f t) := .output hkept hslot
      exact hnew
    -- a constant has one output only, so it is the one that is read
    · obtain ⟨o, ho⟩ := List.length_eq_one_iff.1 (hc.constants e he hconst)
      have htmem := List.mem_of_getElem? ht
      rw [ho, List.mem_singleton] at hu htmem
      exact absurd (hu ▸ htmem ▸ hread) hunread

/-- A deletion gives no tensor a second source. -/
theorem singleSource : d'.SingleSource := by
  intro u hne s s' hs hs'
  obtain ⟨t, ht, htne, hty, rfl⟩ := hj.exists_defines hc hs hne
  obtain ⟨t', ht', -, hty', heq⟩ := hj.exists_defines hc hs' hne
  obtain rfl := hj.injective t' t hty' hty heq
  exact hc.single t' htne s s' ht ht'

/-- A deletion keeps all ranks. -/
theorem ranked : d'.Ranked rank := by
  intro e₁' he₁' e₂' he₂' u hu hne hu'
  obtain ⟨e₁, he₁, heq₁, hnot, t, ht, rfl⟩ := hj.exists_output he₁' hu
  obtain ⟨e₂, he₂, heq₂, -, t', ht', heq⟩ := hj.exists_input he₂' hu'
  have htne := hj.ne_empty hne
  rw [← heq₁, ← heq₂]
  rcases hj.eq_or_ends (hj.ne_output_of_mem hc he₁ hnot ht) heq.symm with rfl | ⟨rfl, rfl⟩
  · exact hc.ranked e₁ he₁ e₂ he₂ t ht htne ht'
  -- from the writer of the chain's input to a reader of its output, past the chain
  · have hchain : chain ∈ chain :: chains := List.mem_cons_self
    have hpresent : ∀ h ∈ chain, h ∈ d.handles := fun _ => hc.mem_handles hchain
    obtain ⟨first, hfirst, hhead, hfirstNode⟩ :=
      exists_first (hc.deletable.ne_nil chain hchain) hpresent
    obtain ⟨last, hlast, hlast', hlastNode⟩ :=
      exists_last (hc.deletable.ne_nil chain hchain) hpresent
    calc rank e₁.handle < rank first.handle :=
          hc.ranked e₁ he₁ first hfirst t ht htne (by simp [← hfirstNode, hj.input])
      _ ≤ rank last.handle := hc.rank_head_le hchain hhead (List.mem_of_getLast? hlast')
      _ < rank e₂.handle :=
          hc.ranked last hlast e₂ he₂ t' (by simp [← hlastNode, hj.output]) hj.output_ne ht'

/-! ### The other chains -/

/-- The nodes of the other chains stay. -/
theorem mem_entries_of_mem {other : Chain} (hother : other ∈ chains) {e : Entry}
    (he : e ∈ d.entries) (hmem : e.handle ∈ other) : e.rename f ∈ d'.entries := by
  rcases hj.kept e he (hc.deletable.not_mem hother hmem) with hkept | ⟨hconst, -⟩
  · exact hkept
  · obtain ⟨n, hn, hnonconst⟩ :=
      hc.deletable.movable other (List.mem_cons_of_mem _ hother) _ hmem
    rw [node?_of_mem he, Option.some.injEq] at hn
    rw [← hn, hconst] at hnonconst
    cases hnonconst

theorem inputs_firstNode {other : Chain} (hother : other ∈ chains) :
    (d'.firstNode other).inputs = (d.firstNode other).inputs.map f := by
  have hmem := List.mem_cons_of_mem chain hother
  obtain ⟨e, he, hhead, hnode⟩ :=
    exists_first (hc.deletable.ne_nil other hmem) fun _ => hc.mem_handles hmem
  rw [hnode, firstNode_eq (hj.mem_entries_of_mem hc hother he (List.mem_of_head? hhead)) hhead,
    Entry.rename_inputs]

theorem outputs_lastNode {other : Chain} (hother : other ∈ chains) :
    (d'.lastNode other).outputs = (d.lastNode other).outputs.map f := by
  have hmem := List.mem_cons_of_mem chain hother
  obtain ⟨e, he, hlast, hnode⟩ :=
    exists_last (hc.deletable.ne_nil other hmem) fun _ => hc.mem_handles hmem
  rw [hnode, lastNode_eq (hj.mem_entries_of_mem hc hother he (List.mem_of_getLast? hlast)) hlast,
    Entry.rename_outputs]

/-- The other chains are still wires. -/
theorem isWire {other : Chain} (hother : other ∈ chains) : d'.IsWire other where
  input := by
    obtain ⟨a, hne, ha⟩ := (hc.wire other (List.mem_cons_of_mem _ hother)).input
    refine ⟨f a, fun h => hne ((hj.empty a).1 h), ?_⟩
    rw [hj.inputs_firstNode hc hother, ha, List.map_singleton]
  output := by
    obtain ⟨b, hne, hb⟩ := (hc.wire other (List.mem_cons_of_mem _ hother)).output
    refine ⟨f b, fun h => hne ((hj.empty b).1 h), ?_⟩
    rw [hj.outputs_lastNode hc hother, hb, List.map_singleton]
  inner e₁' he₁' hh u hu hne e₂' he₂' hu' := by
    obtain ⟨e₁, he₁, heq₁, hnot, t, ht, rfl⟩ := hj.exists_output he₁' hu
    obtain ⟨e₂, he₂, heq₂, -, t', ht', heq⟩ := hj.exists_input he₂' hu'
    have hinner := (hc.wire other (List.mem_cons_of_mem _ hother)).inner e₁ he₁ (heq₁ ▸ hh) t ht
      (hj.ne_empty hne)
    rw [← heq₂]
    rcases hj.eq_or_ends (hj.ne_output_of_mem hc he₁ hnot ht) heq.symm with rfl | ⟨rfl, rfl⟩
    · exact hinner e₂ he₂ ht'
    -- the first node of the chain reads what it is to read, and is in no other chain
    · have hchain : chain ∈ chain :: chains := List.mem_cons_self
      obtain ⟨first, hfirst, hhead, hnode⟩ :=
        exists_first (hc.deletable.ne_nil chain hchain) fun _ => hc.mem_handles hchain
      have hmem := hinner first hfirst (by simp [← hnode, hj.input])
      exact absurd (List.mem_of_head? hhead) (hc.deletable.not_mem hother hmem)

/-- The chains after one that is deleted can be contracted in their turn. -/
theorem contractible (hdeletable : d'.Deletable chains) : d'.Contractible rank chains where
  ranked := hj.ranked hc
  single := hj.singleSource hc
  constants e' he' hconst := by
    obtain ⟨e, he, -, rfl⟩ := hj.entries e' he'
    rw [Entry.rename_outputs, List.length_map]
    exact hc.constants e he hconst
  deletable := hdeletable
  rising c hmem := hc.rising c (List.mem_cons_of_mem _ hmem)
  wire c hmem := hj.isWire hc hmem

/-- What is read after a deletion comes from what it came from before. -/
theorem contracted (hs : d.Contracted (chain :: chains) t s) (hne : t ≠ "")
    (hread : d'.IsRead (f t)) : d'.Contracted chains (f t) s := by
  induction hs with
  | outside hs hout =>
    rw [List.flatten_cons] at hout
    exact .outside (hj.defines hc hs hne (fun h hh => hout h (List.mem_append_left _ hh)) hread)
      fun h hh => hout h (List.mem_append_right _ hh)
  | @through c a b s hmem ha hb _ ih =>
    rcases List.mem_cons.1 hmem with rfl | hother
    -- the chain itself: its ends have one name now
    · obtain rfl : a = x := by simpa [hj.input] using ha
      obtain rfl : b = y := by simpa [hj.output] using hb
      rw [← hj.joined] at hread ⊢
      refine ih (hj.ne_empty ?_) hread
      rw [hj.joined]
      exact fun h => hj.output_ne ((hj.empty b).1 h)
    · obtain ⟨first, hfirst, hhead, hnode⟩ :=
        exists_first (hc.deletable.ne_nil c hmem) fun _ => hc.mem_handles hmem
      obtain ⟨a', hane, ha'⟩ := (hc.wire c hmem).input
      obtain rfl : a = a' := by simpa [ha'] using ha
      have hfirst' := hj.mem_entries_of_mem hc hother hfirst (List.mem_of_head? hhead)
      have hread' : d'.IsRead (f a) :=
        ⟨_, hfirst', List.mem_map_of_mem (f := f) (hnode ▸ ha)⟩
      refine .through hother ?_ ?_ (ih hane hread')
      · rw [hj.inputs_firstNode hc hother]
        exact List.mem_map_of_mem ha
      · rw [hj.outputs_lastNode hc hother]
        exact List.mem_map_of_mem hb

end

end Joins

/-! ### All chains of a pass -/

/-- A tensor has the sources that an earlier one had, where chains are taken for wires. -/
def Carries (d d' : Draft) (chains : List Chain) (t t' : String) : Prop :=
  SameEmptiness t t' ∧ (t ≠ "" → ∀ s, d.Contracted chains t s → d'.Defines s t')

theorem carries_nil (d : Draft) (t : String) : d.Carries d [] t t := by
  refine ⟨Iff.rfl, fun _ s hs => ?_⟩
  cases hs with
  | outside hs => exact hs
  | through hmem => simp at hmem

/-- A tensor has one source, the one source of an earlier tensor where chains are taken for
wires. -/
def SameSource (d d' : Draft) (chains : List Chain) (t t' : String) : Prop :=
  (t' = "" ↔ t = "") ∧
    (t ≠ "" → ∃ source, (∀ s, d'.Defines s t' ↔ s = source) ∧
      ∀ s, d.Contracted chains t s ↔ s = source)

theorem Carries.sameSource {t t' : String} (h : d.Carries d' chains t t') (hsingle : d'.SingleSource)
    (hexists : t ≠ "" → ∃ s, d.Contracted chains t s) : d.SameSource d' chains t t' := by
  obtain ⟨hempty, hsources⟩ := h
  refine ⟨hempty, fun hne => ?_⟩
  obtain ⟨source, hcontracted⟩ := hexists hne
  have hdefines := hsources hne source hcontracted
  have hunique : ∀ s, d'.Defines s t' → s = source := fun s hs =>
    hsingle t' (fun h => hne (hempty.1 h)) s source hs hdefines
  refine ⟨source, fun s => ⟨hunique s, ?_⟩, fun s => ⟨fun hs => hunique s (hsources hne s hs), ?_⟩⟩
  · rintro rfl
    exact hdefines
  · rintro rfl
    exact hcontracted

/-- A node feeds another one, directly or through chains that are taken for wires. -/
def FeedsThrough (d : Draft) (chains : List Chain) (a : Handle) (e : Entry) : Prop :=
  ∃ t ∈ e.node.inputs, t ≠ "" ∧ ∃ i, d.Contracted chains t (.output a i)

/-- After the deletion of chains, everything that is read has the sources it had before. -/
theorem carries_deleteChains {options : PassOptions} (hprotect : options.protectShared = true)
    {p : Progress} (index : Nat) (hc : p.draft.Contractible rank chains) :
    (p.deleteChains options index chains).draft.Contractible rank [] ∧
      ∀ e' ∈ (p.deleteChains options index chains).draft.entries,
        ∃ e ∈ p.draft.entries, e.handle = e'.handle ∧
          List.Forall₂ (p.draft.Carries (p.deleteChains options index chains).draft chains)
            e.node.inputs e'.node.inputs := by
  induction chains generalizing p index with
  | nil => exact ⟨hc, fun e he => ⟨e, he, rfl, List.forall₂_same.2 fun t _ => carries_nil _ t⟩⟩
  | cons chain chains ih =>
    obtain ⟨x, hxne, hx⟩ := (hc.wire chain List.mem_cons_self).input
    obtain ⟨y, hyne, hy⟩ := (hc.wire chain List.mem_cons_self).output
    obtain ⟨f, hj⟩ := joins_deleteChain hc List.mem_cons_self hx hy hxne hyne
    have hnext : (p.deleteChain options index chain).draft =
        p.draft.deleteChain true chain := by
      rw [← hprotect]
      rfl
    have hdeletable := hc.deletable.next true
    rw [← hnext] at hj hdeletable
    -- what holds of the chains that are left holds of all, by one renaming more
    obtain ⟨hfinal, hcarries⟩ := ih (index + 1) (hj.contractible hc hdeletable)
    refine ⟨hfinal, fun e' he' => ?_⟩
    obtain ⟨e₁, he₁, heq, hinputs⟩ := hcarries e' he'
    obtain ⟨e, he, -, rfl⟩ := hj.entries e₁ he₁
    refine ⟨e, he, heq, ?_⟩
    rw [Entry.rename_inputs, List.forall₂_map_left_iff] at hinputs
    have hread : ∀ t ∈ e.node.inputs, (p.deleteChain options index chain).draft.IsRead (f t) :=
      fun t ht => ⟨_, he₁, List.mem_map_of_mem ht⟩
    refine ((List.forall₂_and_left _ _).2 ⟨hread, hinputs⟩).imp ?_
    rintro t t' ⟨hread, hempty, hsources⟩
    refine ⟨hempty.trans (hj.empty t), fun hne s hs => ?_⟩
    exact hsources (fun h => hne ((hj.empty t).1 h)) s (hj.contracted hc hs hne hread)

/-- After the deletion of chains, everything that is read comes from one source, the one it came
from before. -/
theorem sameSource_deleteChains {options : PassOptions} (hprotect : options.protectShared = true)
    {p : Progress} (index : Nat) (hc : p.draft.Contractible rank chains)
    (hdangling : p.draft.dangling = []) :
    ∀ e' ∈ (p.deleteChains options index chains).draft.entries,
      ∃ e ∈ p.draft.entries, e.handle = e'.handle ∧
        List.Forall₂ (p.draft.SameSource (p.deleteChains options index chains).draft chains)
          e.node.inputs e'.node.inputs := by
  obtain ⟨hfinal, hcarries⟩ := carries_deleteChains hprotect index hc
  intro e' he'
  obtain ⟨e, he, heq, hinputs⟩ := hcarries e' he'
  -- a node that is left is in none of the chains, so what it reads has a source outside
  have hout : ∀ chain ∈ chains, e.handle ∈ chain → chain.head? = some e.handle := by
    intro chain hchain hmem
    have hgone : e.handle ∉ (p.deleteChains options index chains).draft.handles :=
      not_mem_handles_deleteChains hchain hmem
    rw [heq] at hgone
    exact absurd (List.mem_map_of_mem he') hgone
  have hexists : ∀ t ∈ e.node.inputs, t ≠ "" → ∃ source, p.draft.Contracted chains t source :=
    fun t ht hne => hc.exists_contracted hdangling he hout ht hne
  refine ⟨e, he, heq, ((List.forall₂_and_left _ _).2 ⟨hexists, hinputs⟩).imp ?_⟩
  rintro t t' ⟨hsource, htt'⟩
  exact htt'.sameSource hfinal.single hsource

section

variable (hslots : ∀ e' ∈ d'.entries, ∃ e ∈ d.entries, e.handle = e'.handle ∧
  List.Forall₂ (d.SameSource d' chains) e.node.inputs e'.node.inputs)

include hslots

/-- Nothing dangles where all that is read has kept its source. -/
theorem dangling_eq_nil_of_sameSource : d'.dangling = [] := by
  refine dangling_eq_nil_iff.2 fun n hn t' ht' hne => ?_
  obtain ⟨e', he', rfl⟩ := mem_nodes.1 hn
  obtain ⟨e, -, -, hinputs⟩ := hslots e' he'
  obtain ⟨t, -, hempty, hsource⟩ := exists_of_forall₂_of_mem hinputs ht'
  obtain ⟨source, hdefines, -⟩ := hsource fun h => hne (hempty.2 h)
  exact isDefined_iff_defines.2 ⟨source, (hdefines source).2 rfl⟩

/-- What feeds a node that is left is there to feed it. -/
theorem FeedsThrough.mem_handles {a : Handle} {e : Entry} (h : d.FeedsThrough chains a e)
    (he : e ∈ d.entries) (hleft : e.handle ∈ d'.handles) : a ∈ d'.handles := by
  obtain ⟨t, ht, hne, i, hfed⟩ := h
  obtain ⟨e', he', heq'⟩ := List.mem_map.1 hleft
  obtain ⟨o, ho, heq, hinputs⟩ := hslots e' he'
  -- what the node was before is under its handle
  have hsame : o.node = e.node := by
    rw [← Option.some.injEq, ← node?_of_mem ho, heq, heq', node?_of_mem he]
  rw [hsame] at hinputs
  obtain ⟨t', -, -, hsource⟩ := exists_of_forall₂_of_mem (List.Forall₂.flip hinputs) ht
  obtain ⟨source, hdefines, hcontracted⟩ := hsource hne
  obtain rfl := (hcontracted _).1 hfed
  cases (hdefines _).2 rfl with
  | output ho _ => exact List.mem_map_of_mem ho

end

theorem isBalanced_of_isWire (hwire : d.IsWire chain) : d.isBalanced chain := by
  obtain ⟨x, -, hx⟩ := hwire.input
  obtain ⟨y, -, hy⟩ := hwire.output
  simp [isBalanced, hx, hy]

end Draft

/-- **A pass that deletes wires contracts them.** Nothing dangles after it, and what a node reads then
comes from one source, the one it came from before with every chain taken for a wire. All nodes
outside the chains are left, but for constants that feed none of the nodes that are left. -/
theorem Session.delete_contracts {s : Session} {p : Pattern} (hacyclic : s.draft.Acyclic)
    (hsingle : s.draft.SingleSource) (hdangling : s.draft.dangling = [])
    (hconstants : ∀ e ∈ s.draft.entries, e.node.isConstant → e.node.outputs.length = 1)
    (hprotect : s.options.protectShared = true) (hcleanup : s.options.cleanupAfter = false)
    (hwire : ∀ chain ∈ s.findAll p, s.draft.IsWire chain)
    {count : Nat} (hok : (s.delete p).result = .ok count) :
    let after := (s.delete p).session.draft
    after.dangling = [] ∧
      (∀ e' ∈ after.entries, ∃ e ∈ s.draft.entries, e.handle = e'.handle ∧
        List.Forall₂ (s.draft.SameSource after (s.findAll p)) e.node.inputs e'.node.inputs) ∧
      ∀ e ∈ s.draft.entries, (∀ chain ∈ s.findAll p, e.handle ∉ chain) →
        (∃ e' ∈ after.entries, e'.RewiredFrom e) ∨
          e.node.isConstant ∧ ∀ o ∈ s.draft.entries, o.handle ∈ after.handles →
            ¬ s.draft.FeedsThrough (s.findAll p) e.handle o := by
  intro after
  obtain ⟨rank, hranked⟩ := hacyclic
  have hc : s.draft.Contractible rank (s.findAll p) :=
    { ranked := hranked
      single := hsingle
      constants := hconstants
      deletable := Session.deletable_of_delete hok
      rising := fun chain hchain => Draft.rising_of_mem_findAll hranked hchain
      wire := hwire }
  have hafter : after =
      ((s.draft.checked s.options p).deleteChains s.options 0 (s.findAll p)).draft := by
    have hdraft := (Session.delete_eq_cleared hok).1
    rw [Draft.cleared, Progress.finish_of_not_cleanup hcleanup] at hdraft
    exact hdraft
  have hslots := Draft.sameSource_deleteChains hprotect (p := s.draft.checked s.options p) 0 hc
    hdangling
  rw [← hafter] at hslots
  refine ⟨Draft.dangling_eq_nil_of_sameSource hslots, hslots, fun e he hnot => ?_⟩
  by_cases hleft : e.handle ∈ after.handles
  · exact .inl ((Session.trims_delete hok).exists_rewiredFrom he hleft)
  -- a node that has gone was spent, and it feeds nothing, since what feeds is left
  · have hgone : e.handle ∉
        (s.draft.deleteChains s.options.protectShared (s.findAll p)).handles := by
      rwa [hafter, draft_deleteChains] at hleft
    have hspent := (Draft.mem_handles_deleteChains s.options.protectShared
      (List.mem_map_of_mem he) hnot).resolve_left hgone
    refine .inr ⟨hspent.isConstant he, fun o ho hoLeft hfeeds => hleft ?_⟩
    exact hfeeds.mem_handles hslots ho hoLeft

/-- A graph with two wires in a row, the first of which shares its input with another node. -/
def wiredGraph : Graph where
  nodes :=
    [{ op := "Conv", inputs := ["x", "w"], outputs := ["a"] },
      { op := "Relu", inputs := ["a"], outputs := ["b"] },
      { op := "Neg", inputs := ["b"], outputs := ["c"] },
      { op := "Relu", inputs := ["c"], outputs := ["d"] },
      { op := "Neg", inputs := ["d"], outputs := ["e"] },
      { op := "Add", inputs := ["e", "a"], outputs := ["y"] }]
  initializers := [{ name := "w" }]
  inputs := [{ name := "x" }]
  outputs := [{ name := "y" }]

/-- The pattern of a wire in the graph. -/
def wiredPattern : Pattern where
  steps :=
    [{ ops := .oneOf ["Relu"], inputs := [.any], outputs := [.variable 0], line := "Relu(?,r)" },
      { ops := .oneOf ["Neg"], inputs := [.variable 0], outputs := [.any], line := "Neg(r,?)" }]
  names := ["r"]

/-- A session on the graph with the default options. -/
def wired : Session :=
  { draft := .ofGraph wiredGraph }

theorem Session.delete_contracts_wired :
    wired.draft.Acyclic ∧ wired.draft.SingleSource ∧ wired.draft.dangling = [] ∧
      wired.findAll wiredPattern = [[⟨1⟩, ⟨2⟩], [⟨3⟩, ⟨4⟩]] ∧
      (∀ chain ∈ wired.findAll wiredPattern, wired.draft.IsWire chain) ∧
      (wired.delete wiredPattern).result = .ok 2 ∧
      wired.draft.Contracted (wired.findAll wiredPattern) "e" (.output ⟨0⟩ 0) ∧
      (wired.delete wiredPattern).session.draft.dangling = [] ∧
      (∀ e' ∈ (wired.delete wiredPattern).session.draft.entries,
        ∃ e ∈ wired.draft.entries, e.handle = e'.handle ∧
          List.Forall₂ (wired.draft.SameSource (wired.delete wiredPattern).session.draft
            (wired.findAll wiredPattern)) e.node.inputs e'.node.inputs) ∧
      ((wired.delete wiredPattern).session.draft.node? ⟨0⟩).map (·.op) = some "Conv" ∧
      ((wired.delete wiredPattern).session.draft.node? ⟨5⟩).map (·.op) = some "Add" := by
  have hacyclic : wired.draft.Acyclic := ⟨Handle.index, by unfold Draft.Ranked; decide⟩
  have hsingle : wired.draft.SingleSource := by decide
  have hdangling : wired.draft.dangling = [] := by decide
  have hfind : wired.findAll wiredPattern = [[⟨1⟩, ⟨2⟩], [⟨3⟩, ⟨4⟩]] := by
    rw [Session.findAll, Pattern.findAll_eq, Pattern.matchAt_eq_searchFrom]
    decide +kernel
  have hwire : ∀ chain ∈ wired.findAll wiredPattern, wired.draft.IsWire chain := by
    rw [hfind]
    simp only [List.mem_cons, List.not_mem_nil, or_false, forall_eq_or_imp, forall_eq]
    exact ⟨⟨⟨"a", by decide, by decide⟩, ⟨"c", by decide, by decide⟩, by decide⟩,
      ⟨⟨"c", by decide, by decide⟩, ⟨"e", by decide, by decide⟩, by decide⟩⟩
  have hok : (wired.delete wiredPattern).result = .ok 2 := by
    rw [(Session.delete_of_balanced _ _).2, hfind]
    · rfl
    · rw [hfind]
      decide
    · exact fun chain hchain => Draft.isBalanced_of_isWire (hwire chain hchain)
  have hcontracted : wired.draft.Contracted (wired.findAll wiredPattern) "e" (.output ⟨0⟩ 0) := by
    rw [hfind]
    -- through the second wire, through the first one, and from the node before it
    refine .through (x := "c") (List.mem_cons_of_mem _ List.mem_cons_self) (by decide) (by decide) ?_
    refine .through (x := "a") List.mem_cons_self (by decide) (by decide) ?_
    exact .outside (Draft.mem_definitions.1 (by decide)) (by decide)
  obtain ⟨hclean, hslots, hkept⟩ := Session.delete_contracts hacyclic hsingle hdangling (by decide)
    rfl rfl hwire hok
  -- the nodes outside the wires are no constants, so that they are left
  have hleft : ∀ h op, (∃ e ∈ wired.draft.entries,
        e.handle = h ∧ e.node.op = op ∧ e.node.isConstant = false) →
      (∀ chain ∈ wired.findAll wiredPattern, h ∉ chain) →
        ((wired.delete wiredPattern).session.draft.node? h).map (·.op) = some op := by
    rintro h op ⟨e, he, rfl, rfl, hconst⟩ hout
    rcases hkept e he hout with ⟨e', he', hrewired⟩ | ⟨hconst', -⟩
    · exact Draft.op_node?_of_rewiredFrom he' hrewired
    · cases hconst.symm.trans hconst'
  rw [hfind] at hleft
  exact ⟨hacyclic, hsingle, hdangling, hfind, hwire, hok, hcontracted, hclean, hslots,
    hleft ⟨0⟩ "Conv" (by decide) (by decide), hleft ⟨5⟩ "Add" (by decide) (by decide)⟩

end OpGraph
