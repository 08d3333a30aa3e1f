import OpGraph.Proofs.Renaming

/-!
# Sources across a bypass

A bypass goes through pairs, each of an input and an output of the chain that was taken out. It
renames tensors and does nothing else (`Draft.Renames`). A tensor that stands opposite an output
becomes its source, where a node writes it just for the first such output (`heir?`): after that
output has taken over the name, nothing writes the input any more. So a bypass gives each output the
source of its input, or leaves it without one (`renames_connectAll`); an input that a node writes
loses its own name (`defines_connectAll`), and an output of the graph that comes to nothing is
remarked on (`mem_remarks_connectAll`).
-/

namespace OpGraph

namespace Draft

variable {d d' d'' : Draft} {f g : String → String} {s : Source} {t x y : String}

/-! ### One pair -/

/-- The draft where an input has taken the place of an output. -/
def connected (d : Draft) (x y : String) : Draft :=
  if d.writers x = [] then d.redirect y x else (d.renameOutputs x y).redirect x y

theorem isOutput_connected : (d.connected x y).isOutput t = d.isOutput t := by
  unfold connected
  split <;> rfl

/-- Where no node writes a tensor, its sources are not at nodes. -/
theorem Defines.handle?_eq_none (h : d.Defines s t) (hwriters : d.writers t = []) :
    s.handle? = none := by
  cases h with
  | input | initializer | sparse => rfl
  | output he ht => exact absurd (List.mem_of_getElem? ht) (writers_eq_nil_iff.1 hwriters _ he)

/-- Where a node writes a tensor, that is the only source. -/
theorem SingleSource.handle?_ne_none (hsingle : d.SingleSource) (hne : t ≠ "")
    (hwriters : d.writers t ≠ []) (h : d.Defines s t) : s.handle? ≠ none := by
  rw [Ne, writers_eq_nil_iff] at hwriters
  push Not at hwriters
  obtain ⟨e, he, ht⟩ := hwriters
  simp [hsingle.handle_eq he ht hne h]

theorem writers_eq_nil_of_undefined (hundefined : ∀ s, ¬ d.Defines s y) : d.writers y = [] := by
  refine writers_eq_nil_iff.2 fun e he hmem => ?_
  obtain ⟨i, hi⟩ := exists_defines_of_mem he hmem
  exact hundefined _ hi

section

variable (hx : x ≠ "") (hy : y ≠ "") (hxy : x ≠ y) (hundefined : ∀ s, ¬ d.Defines s y)

include hx hy hxy hundefined

/-- The input loses its name to the output where a node writes it. -/
theorem defines_connected :
    (d.connected x y).Defines s t ↔
      d.Defines s t ∧ (t = x → s.handle? = none) ∨ t = y ∧ d.Defines s x ∧ s.handle? ≠ none := by
  by_cases hwriters : d.writers x = []
  · rw [connected, if_pos hwriters]
    have hrenames : d.Renames (d.redirect y x) (putFor y x) :=
      renames_redirect (writers_eq_nil_of_undefined hundefined) hx hy
    have hbase : t = x → d.Defines s t → s.handle? = none := by
      rintro rfl h
      exact h.handle?_eq_none hwriters
    have hkept : (d.redirect y x).Defines s t ↔ d.Defines s t := by
      cases hs : s.handle? with
      | none => exact hrenames.defines_base hs
      | some a =>
        cases s with
        | input | initializer | sparse => cases hs
        | output a i =>
          rw [hrenames.defines_output]
          constructor
          · rintro ⟨u, hu, rfl⟩
            rwa [putFor, if_neg]
            rintro rfl
            exact hundefined _ hu
          · refine fun h => ⟨t, h, if_neg ?_⟩
            rintro rfl
            exact hundefined _ h
    rw [hkept]
    constructor
    · exact fun h => .inl ⟨h, fun heq => hbase heq h⟩
    · rintro (⟨h, -⟩ | ⟨-, h, hs⟩)
      · exact h
      · exact absurd (h.handle?_eq_none hwriters) hs
  · rw [connected, if_neg hwriters]
    have hrenames : d.Renames ((d.renameOutputs x y).redirect x y) (putFor x y) :=
      renames_renameOutputs_redirect hx hy
    cases hs : s.handle? with
    | none => simp [hrenames.defines_base hs]
    | some a =>
      cases s with
      | input | initializer | sparse => cases hs
      | output a i =>
        rw [hrenames.defines_output]
        constructor
        · rintro ⟨u, hu, rfl⟩
          by_cases hux : u = x
          · subst hux
            exact .inr ⟨if_pos rfl, hu, by simp⟩
          · rw [putFor, if_neg hux]
            exact .inl ⟨hu, fun heq => absurd heq hux⟩
        · rintro (⟨h, hne⟩ | ⟨rfl, h, -⟩)
          · refine ⟨t, h, if_neg fun heq => ?_⟩
            simpa using hne heq
          · exact ⟨x, h, if_pos rfl⟩

/-- A connection renames the input and the output, so that they have one source. -/
theorem renames_connected (hsingle : d.SingleSource) :
    ∃ g, d.Renames (d.connected x y) g ∧ (∀ t, t ≠ x → t ≠ y → g t = t) ∧
      (g x = x ∨ g x = y) ∧ (g y = x ∨ g y = y) ∧
      ∀ t s, (d.connected x y).Defines s (g t) ↔ d.Defines s t ∨ t = y ∧ d.Defines s x := by
  by_cases hwriters : d.writers x = []
  · refine ⟨putFor y x, ?_, fun t _ hty => if_neg hty, .inl (if_neg hxy), .inl (if_pos rfl), ?_⟩
    · rw [connected, if_pos hwriters]
      exact renames_redirect (writers_eq_nil_of_undefined hundefined) hx hy
    · intro t s
      rw [defines_connected hx hy hxy hundefined]
      by_cases hty : t = y
      · subst hty
        rw [putFor, if_pos rfl]
        constructor
        · rintro (⟨h, -⟩ | ⟨heq, -⟩)
          · exact .inr ⟨rfl, h⟩
          · exact absurd heq hxy
        · rintro (h | ⟨-, h⟩)
          · exact absurd h (hundefined s)
          · exact .inl ⟨h, fun _ => h.handle?_eq_none hwriters⟩
      · rw [putFor, if_neg hty]
        simp only [hty, false_and, or_false]
        refine ⟨And.left, fun h => ⟨h, ?_⟩⟩
        rintro rfl
        exact h.handle?_eq_none hwriters
  · refine ⟨putFor x y, ?_, fun t htx _ => if_neg htx, .inr (if_pos rfl),
      .inr (if_neg (Ne.symm hxy)), ?_⟩
    · rw [connected, if_neg hwriters]
      exact renames_renameOutputs_redirect hx hy
    · intro t s
      have hnode : d.Defines s x → s.handle? ≠ none := hsingle.handle?_ne_none hx hwriters
      have hy' : (d.connected x y).Defines s y ↔ d.Defines s x := by
        rw [defines_connected hx hy hxy hundefined]
        constructor
        · rintro (⟨h, -⟩ | ⟨-, h, -⟩)
          · exact absurd h (hundefined s)
          · exact h
        · exact fun h => .inr ⟨rfl, h, hnode h⟩
      by_cases htx : t = x
      · subst htx
        rw [putFor, if_pos rfl, hy']
        simp [hxy]
      · rw [putFor, if_neg htx]
        by_cases hty : t = y
        · subst hty
          simp [hy', hundefined]
        · rw [defines_connected hx hy hxy hundefined]
          simp [htx, hty]

end

/-! ### All pairs -/

/-- The name that a tensor goes on under when the outputs of a chain take over from its inputs: the
first output with a name that stands opposite it. -/
def heir? (pairs : List (String × String)) (t : String) : Option String :=
  (pairs.find? fun p => p.1 = t ∧ p.2 ≠ "").map (·.2)

variable {pairs : List (String × String)}

theorem heir?_cons {z : String} : heir? ((x, y) :: pairs) z =
    if x = z ∧ y ≠ "" then some y else heir? pairs z := by
  by_cases h : x = z ∧ y ≠ "" <;> simp [heir?, h]

theorem heir?_cons_of_unnamed {z : String} (h : x = "" ∨ y = "") (hz : z ≠ "") :
    heir? ((x, y) :: pairs) z = heir? pairs z := by
  rw [heir?_cons, if_neg]
  rintro ⟨rfl, hy⟩
  exact h.elim hz hy

theorem heir?_cons_of_ne {z : String} (h : x ≠ z) : heir? ((x, y) :: pairs) z = heir? pairs z := by
  rw [heir?_cons, if_neg fun heq => h heq.1]

theorem heir?_cons_self (hy : y ≠ "") : heir? ((x, y) :: pairs) x = some y := by
  rw [heir?_cons, if_pos ⟨rfl, hy⟩]

/-- The heir of a tensor is the output at the first place where one with a name stands opposite. -/
theorem heir?_eq_some_iff : heir? pairs x = some y ↔
    y ≠ "" ∧ ∃ j : Nat, pairs[j]? = some (x, y) ∧
      ∀ i < j, ∀ z, pairs[i]? = some (x, z) → z = "" := by
  unfold heir?
  rw [Option.map_eq_some_iff]
  constructor
  · rintro ⟨⟨a, b⟩, hfind, rfl⟩
    obtain ⟨hab, j, hj, hget, hfirst⟩ := List.find?_eq_some_iff_getElem.1 hfind
    obtain ⟨rfl, hb⟩ : a = x ∧ b ≠ "" := by simpa using hab
    refine ⟨hb, j, List.getElem?_eq_some_iff.2 ⟨hj, hget⟩, fun i hi z hz => ?_⟩
    obtain ⟨hlt, heq⟩ := List.getElem?_eq_some_iff.1 hz
    simpa [heq] using hfirst i hi
  · rintro ⟨hy, j, hget, hfirst⟩
    obtain ⟨hj, heq⟩ := List.getElem?_eq_some_iff.1 hget
    refine ⟨(x, y), List.find?_eq_some_iff_getElem.2 ⟨by simp [hy], j, hj, heq, ?_⟩, rfl⟩
    intro i hi
    by_contra hnot
    have hlt : i < pairs.length := hi.trans hj
    obtain ⟨hx, hne⟩ : pairs[i].1 = x ∧ pairs[i].2 ≠ "" := by simpa using hnot
    refine hne (hfirst i hi _ (List.getElem?_eq_some_iff.2 ⟨hlt, ?_⟩))
    rw [← hx]

theorem mem_of_heir? (h : heir? pairs x = some y) : (x, y) ∈ pairs := by
  obtain ⟨-, j, hj, -⟩ := heir?_eq_some_iff.1 h
  exact List.mem_of_getElem? hj

/-- A source comes to feed the readers of an output: it gives an input that stands opposite, and
where it is at a node, no other output has taken over from that input. -/
def Receives (d : Draft) (pairs : List (String × String)) (s : Source) (t : String) : Prop :=
  ∃ x, x ≠ "" ∧ t ≠ "" ∧ (x, t) ∈ pairs ∧ d.Defines s x ∧
    (s.handle? = none ∨ heir? pairs x = some t)

theorem not_receives_nil : ¬ d.Receives [] s t := by
  rintro ⟨_, -, -, hmem, -⟩
  cases hmem

/-- A pair without two names does nothing. -/
theorem receives_cons_of_unnamed (h : x = "" ∨ y = "") :
    d.Receives ((x, y) :: pairs) s t ↔ d.Receives pairs s t := by
  refine exists_congr fun z => and_congr_right fun hz => and_congr_right fun ht => ?_
  rw [heir?_cons_of_unnamed h hz, List.mem_cons, or_iff_right]
  rintro heq
  cases heq
  exact h.elim hz ht

/-- Pairs whose outputs nothing writes, as they are when a chain has been taken out. -/
structure Awaits (d : Draft) (pairs : List (String × String)) : Prop where
  single : d.SingleSource
  undefined : ∀ p ∈ pairs, p.2 ≠ "" → ∀ s, ¬ d.Defines s p.2
  distinct : pairs.Pairwise fun p q => p.2 ≠ "" → p.2 ≠ q.2
  apart : ∀ p ∈ pairs, ∀ q ∈ pairs, p.1 ≠ "" → p.1 ≠ q.2

namespace Awaits

theorem tail {p : String × String} (h : d.Awaits (p :: pairs)) : d.Awaits pairs where
  single := h.single
  undefined q hq := h.undefined q (List.mem_cons_of_mem _ hq)
  distinct := (List.pairwise_cons.1 h.distinct).2
  apart q hq r hr := h.apart q (List.mem_cons_of_mem _ hq) r (List.mem_cons_of_mem _ hr)

section

variable (h : d.Awaits ((x, y) :: pairs)) (hx : x ≠ "")

include h hx

theorem ne : x ≠ y :=
  h.apart _ List.mem_cons_self _ List.mem_cons_self hx

variable (hy : y ≠ "")

include hy

/-- Neither the input nor the output of a pair stands on the other side of a later one. -/
theorem of_mem {z u : String} (hmem : (z, u) ∈ pairs) (hz : z ≠ "") : z ≠ y ∧ u ≠ x ∧ u ≠ y :=
  ⟨h.apart _ (List.mem_cons_of_mem _ hmem) _ List.mem_cons_self hz,
    (h.apart _ List.mem_cons_self _ (List.mem_cons_of_mem _ hmem) hx).symm,
    ((List.pairwise_cons.1 h.distinct).1 _ hmem hy).symm⟩

theorem not_receives (d' : Draft) (ht : t = x ∨ t = y) : ¬ d'.Receives pairs s t := by
  rintro ⟨z, hz, -, hmem, -⟩
  obtain ⟨-, htx, hty⟩ := h.of_mem hx hy hmem hz
  exact ht.elim htx hty

theorem heir?_output : heir? pairs y = none := by
  cases hheir : heir? pairs y with
  | none => rfl
  | some u => exact absurd rfl (h.of_mem hx hy (mem_of_heir? hheir) hy).1

theorem defines_connected : (d.connected x y).Defines s t ↔
    d.Defines s t ∧ (t = x → s.handle? = none) ∨ t = y ∧ d.Defines s x ∧ s.handle? ≠ none :=
  Draft.defines_connected hx hy (h.ne hx) (h.undefined _ List.mem_cons_self hy)

/-- The outputs that are left still have no source. -/
theorem connected : (d.connected x y).Awaits pairs where
  single u hne s s' hs hs' := by
    have hy' := h.undefined _ List.mem_cons_self hy
    rw [h.defines_connected hx hy] at hs hs'
    rcases hs with ⟨hs, -⟩ | ⟨rfl, hs, -⟩ <;> rcases hs' with ⟨hs', -⟩ | ⟨heq, hs', -⟩
    · exact h.single u hne s s' hs hs'
    · exact absurd (heq ▸ hs) (hy' s)
    · exact absurd hs' (hy' s')
    · exact h.single x hx s s' hs hs'
  undefined q hq hne s hs := by
    rw [h.defines_connected hx hy] at hs
    rcases hs with ⟨hs, -⟩ | ⟨heq, -⟩
    · exact h.undefined q (List.mem_cons_of_mem _ hq) hne s hs
    · exact (List.pairwise_cons.1 h.distinct).1 q hq hy heq.symm
  distinct := h.tail.distinct
  apart := h.tail.apart

/-- What a first pair does is done before the pairs after it. -/
theorem receives_cons : d.Receives ((x, y) :: pairs) s t ↔
    t = y ∧ d.Defines s x ∨ (d.connected x y).Receives pairs s t := by
  constructor
  · rintro ⟨z, hz, ht, hmem, hs, hheir⟩
    rcases List.mem_cons.1 hmem with heq | hmem
    · cases heq
      exact .inl ⟨rfl, hs⟩
    · obtain ⟨hzy, -, hty⟩ := h.of_mem hx hy hmem hz
      have hbase : z = x → s.handle? = none := by
        rintro rfl
        rw [heir?_cons_self hy] at hheir
        exact hheir.resolve_right fun heq => hty (Option.some.inj heq).symm
      refine .inr ⟨z, hz, ht, hmem, (h.defines_connected hx hy).2 (.inl ⟨hs, hbase⟩), ?_⟩
      by_cases hzx : z = x
      · exact .inl (hbase hzx)
      · rwa [heir?_cons_of_ne (Ne.symm hzx)] at hheir
  · rintro (⟨rfl, hs⟩ | ⟨z, hz, ht, hmem, hs, hheir⟩)
    · exact ⟨x, hx, hy, List.mem_cons_self, hs, .inr (heir?_cons_self hy)⟩
    · obtain ⟨hzy, -, -⟩ := h.of_mem hx hy hmem hz
      obtain ⟨hs, hbase⟩ := ((h.defines_connected hx hy).1 hs).resolve_right fun heq => hzy heq.1
      refine ⟨z, hz, ht, List.mem_cons_of_mem _ hmem, hs, ?_⟩
      by_cases hzx : z = x
      · exact .inl (hbase hzx)
      · rwa [heir?_cons_of_ne (Ne.symm hzx)]

/-- What keeps its name across the first pair and the ones after it, and the first output. -/
theorem kept_cons :
    (d.connected x y).Defines s t ∧ (s.handle? ≠ none → heir? pairs t = none) ↔
      d.Defines s t ∧ (s.handle? ≠ none → heir? ((x, y) :: pairs) t = none) ∨
        t = y ∧ d.Defines s x ∧ s.handle? ≠ none := by
  have hxy := h.ne hx
  have hundefined := h.undefined _ List.mem_cons_self hy
  rw [h.defines_connected hx hy]
  rcases eq_or_ne t y with rfl | hty
  · simp [hundefined, h.heir?_output hx hy]
  · rcases eq_or_ne t x with rfl | htx
    · rw [heir?_cons_self hy]
      simp +contextual [hxy]
    · rw [heir?_cons_of_ne (Ne.symm htx)]
      simp [hty, htx]

end

end Awaits

end Draft

namespace Bypass

/-- A bypass that goes through pairs. -/
def connectAll (b : Bypass) (pairs : List (String × String)) : Bypass :=
  pairs.foldl (fun b (input, output) => b.connect input output) b

variable {b : Bypass} {pairs : List (String × String)} {s : Source} {t x y : String}

theorem connectAll_cons :
    b.connectAll ((x, y) :: pairs) = (b.connect x y).connectAll pairs :=
  rfl

theorem connect_of_unnamed (h : x = "" ∨ y = "") : b.connect x y = b :=
  if_pos (h.elim .inl fun hy => .inr (.inl hy))

theorem draft_connect_of_named (hx : x ≠ "") (hy : y ≠ "") (hxy : x ≠ y) :
    (b.connect x y).draft = b.draft.connected x y :=
  Draft.draft_connect b (by simp [hx, hy, hxy])

/-- What has a source by its own name after a bypass: what had one, unless the source was at a node
and an output took over, and the outputs that took over. -/
theorem defines_connectAll (h : b.draft.Awaits pairs) (hne : t ≠ "") :
    (b.connectAll pairs).draft.Defines s t ↔
      b.draft.Defines s t ∧ (s.handle? ≠ none → Draft.heir? pairs t = none) ∨
        b.draft.Receives pairs s t ∧ s.handle? ≠ none := by
  induction pairs generalizing b with
  | nil => simp [connectAll, Draft.heir?, Draft.not_receives_nil]
  | cons p pairs ih =>
    obtain ⟨x, y⟩ := p
    rw [connectAll_cons]
    by_cases hnamed : x = "" ∨ y = ""
    · rw [connect_of_unnamed hnamed, ih h.tail, Draft.heir?_cons_of_unnamed hnamed hne,
        Draft.receives_cons_of_unnamed hnamed]
    · obtain ⟨hx, hy⟩ := not_or.1 hnamed
      have hdraft := draft_connect_of_named (b := b) hx hy (h.ne hx)
      rw [ih (hdraft ▸ h.connected hx hy), hdraft, h.kept_cons hx hy, h.receives_cons hx hy,
        or_and_right, or_assoc, and_assoc]

/-- A bypass renames tensors, so that each output is fed by the source that it receives. -/
theorem renames_connectAll (h : b.draft.Awaits pairs) :
    ∃ f, b.draft.Renames (b.connectAll pairs).draft f ∧
      ∀ t s, (b.connectAll pairs).draft.Defines s (f t) ↔
        b.draft.Defines s t ∨ b.draft.Receives pairs s t := by
  induction pairs generalizing b with
  | nil => exact ⟨id, .refl _, fun t s => (or_iff_left Draft.not_receives_nil).symm⟩
  | cons p pairs ih =>
    obtain ⟨x, y⟩ := p
    rw [connectAll_cons]
    by_cases hnamed : x = "" ∨ y = ""
    · rw [connect_of_unnamed hnamed]
      obtain ⟨f, hf, hdefines⟩ := ih h.tail
      exact ⟨f, hf, fun t s => by rw [hdefines, Draft.receives_cons_of_unnamed hnamed]⟩
    · obtain ⟨hx, hy⟩ := not_or.1 hnamed
      have hdraft := draft_connect_of_named (b := b) hx hy (h.ne hx)
      obtain ⟨g, hg, hfixed, hgx, hgy, hfirst⟩ := Draft.renames_connected hx hy (h.ne hx)
        (h.undefined _ List.mem_cons_self hy) h.single
      obtain ⟨f, hf, hrest⟩ := ih (hdraft ▸ h.connected hx hy)
      rw [hdraft] at hf hrest
      refine ⟨f ∘ g, hg.trans hf, fun t s => ?_⟩
      -- the later pairs do not have the ends of this one among their outputs
      have hsame : (b.draft.connected x y).Receives pairs s (g t) ↔
          (b.draft.connected x y).Receives pairs s t := by
        by_cases ht : t = x ∨ t = y
        · have hgt : g t = x ∨ g t = y := by
            rcases ht with rfl | rfl
            · exact hgx
            · exact hgy
          exact iff_of_false (h.not_receives hx hy _ hgt) (h.not_receives hx hy _ ht)
        · rw [hfixed t (fun hx => ht (.inl hx)) fun hy => ht (.inr hy)]
      rw [Function.comp_apply, hrest, hfirst, hsame, h.receives_cons hx hy, or_assoc]

theorem mem_remarks_connect {u v : String} (hx : x ≠ "") (hy : y ≠ "") (hxy : x ≠ y) :
    .outputLost u v ∈ (b.connect x y).remarks ↔
      .outputLost u v ∈ b.remarks ∨
        u = x ∧ v = y ∧ b.draft.writers x = [] ∧ b.draft.isOutput y := by
  rw [Bypass.connect, if_neg (by simp [hx, hy, hxy])]
  dsimp only
  split
  · rename_i hwriters
    rw [List.mem_append]
    refine or_congr Iff.rfl ?_
    split <;> simp_all
  · rename_i hwriters
    rw [List.mem_append]
    refine or_congr Iff.rfl ?_
    split <;> simp [hwriters]

/-- The output of a first pair comes to nothing where no node writes the input. -/
theorem writers_eq_nil_iff_of_cons (h : b.draft.Awaits ((x, y) :: pairs)) (hx : x ≠ "")
    (hy : y ≠ "") :
    b.draft.writers x = [] ↔
      ∀ s, ¬ (b.connectAll ((x, y) :: pairs)).draft.Defines s y := by
  have hdefines : ∀ s, (b.connectAll ((x, y) :: pairs)).draft.Defines s y ↔
      b.draft.Defines s x ∧ s.handle? ≠ none := by
    intro s
    rw [defines_connectAll h hy, h.receives_cons hx hy,
      or_iff_left (h.not_receives hx hy _ (.inr rfl))]
    simp [h.undefined _ List.mem_cons_self hy]
  constructor
  · intro hwriters s hs
    obtain ⟨hs, hnode⟩ := (hdefines s).1 hs
    exact hnode (hs.handle?_eq_none hwriters)
  · intro hnone
    refine Draft.writers_eq_nil_iff.2 fun e he hmem => ?_
    obtain ⟨i, hi⟩ := Draft.exists_defines_of_mem he hmem
    exact hnone _ ((hdefines _).2 ⟨hi, nofun⟩)

/-- A bypass gives no tensor a second source. -/
theorem singleSource_connectAll (h : b.draft.Awaits pairs) :
    (b.connectAll pairs).draft.SingleSource := by
  induction pairs generalizing b with
  | nil => exact h.single
  | cons p pairs ih =>
    obtain ⟨x, y⟩ := p
    rw [connectAll_cons]
    by_cases hnamed : x = "" ∨ y = ""
    · rw [connect_of_unnamed hnamed]
      exact ih h.tail
    · obtain ⟨hx, hy⟩ := not_or.1 hnamed
      exact ih (draft_connect_of_named (b := b) hx hy (h.ne hx) ▸ h.connected hx hy)

/-- An output of the graph is remarked on where it stands opposite an input and comes to nothing. -/
theorem mem_remarks_connectAll {u v : String} (h : b.draft.Awaits pairs) :
    .outputLost u v ∈ (b.connectAll pairs).remarks ↔
      .outputLost u v ∈ b.remarks ∨
        u ≠ "" ∧ v ≠ "" ∧ (u, v) ∈ pairs ∧ b.draft.isOutput v ∧
          ∀ s, ¬ (b.connectAll pairs).draft.Defines s v := by
  induction pairs generalizing b with
  | nil => simp [connectAll]
  | cons p pairs ih =>
    obtain ⟨x, y⟩ := p
    by_cases hnamed : x = "" ∨ y = ""
    · rw [connectAll_cons, connect_of_unnamed hnamed, ih h.tail]
      refine or_congr Iff.rfl (and_congr_right fun hu => and_congr_right fun hv => ?_)
      rw [List.mem_cons, or_iff_right]
      rintro heq
      cases heq
      exact hnamed.elim hu hv
    · obtain ⟨hx, hy⟩ := not_or.1 hnamed
      have hdraft := draft_connect_of_named (b := b) hx hy (h.ne hx)
      have hlost := writers_eq_nil_iff_of_cons h hx hy
      rw [connectAll_cons] at hlost ⊢
      rw [ih (hdraft ▸ h.connected hx hy), mem_remarks_connect hx hy (h.ne hx), hdraft,
        Draft.isOutput_connected, or_assoc, hlost]
      refine or_congr Iff.rfl ?_
      constructor
      · rintro (⟨rfl, rfl, hnone, hout⟩ | ⟨hu, hv, hmem, hrest⟩)
        · exact ⟨hx, hy, List.mem_cons_self, hout, hnone⟩
        · exact ⟨hu, hv, List.mem_cons_of_mem _ hmem, hrest⟩
      · rintro ⟨hu, hv, hmem, hout, hnone⟩
        rcases List.mem_cons.1 hmem with heq | hmem
        · cases heq
          exact .inl ⟨rfl, rfl, hnone, hout⟩
        · exact .inr ⟨hu, hv, hmem, hout, hnone⟩

end Bypass

end OpGraph
