import OpGraph.Pipeline
import OpGraph.Proofs.Loading
import OpGraph.Proofs.Renumbering

/-!
# Pipelines and sessions

A pipeline of deletions and cleanups puts the graph of a model together and
takes it apart again before every pass, so that its nodes get new handles each
time; a session does all of it on one draft. The two come to the same model, or
fail with the same error at the same pass (`Pipeline.run_eq_session`): a model
of the pipeline stands for the session whose draft is its graph under other
handles (`Session.Stands`), and each pass keeps this up (`Session.Stands.act`).
-/

namespace OpGraph

/-! ### Computations that end alike -/

/-- Two computations end alike: with the same error, or with related results. -/
inductive EndAlike {α β : Type} (r : α → β → Prop) : Except Error α → Except Error β → Prop
  | ok {a : α} {b : β} (h : r a b) : EndAlike r (.ok a) (.ok b)
  | error (e : Error) : EndAlike r (.error e) (.error e)

namespace EndAlike

variable {α β α' β' γ δ : Type} {r : α → β → Prop} {r' : α' → β' → Prop} {x : Except Error α}
  {y : Except Error β}

theorem bind (h : EndAlike r x y) {f : α → Except Error α'} {g : β → Except Error β'}
    (hfg : ∀ a b, r a b → EndAlike r' (f a) (g b)) : EndAlike r' (x >>= f) (y >>= g) := by
  cases h with
  | ok h => exact hfg _ _ h
  | error e => exact .error e

theorem mono {r' : α → β → Prop} (h : EndAlike r x y) (hr : ∀ a b, r a b → r' a b) :
    EndAlike r' x y := by
  cases h with
  | ok h => exact .ok (hr _ _ h)
  | error e => exact .error e

theorem map_right {δ : Type} {r' : α → δ → Prop} (h : EndAlike r x y) {g : β → δ}
    (hg : ∀ a b, r a b → r' a (g b)) : EndAlike r' x (y.map g) := by
  cases h with
  | ok h => exact .ok (hg _ _ h)
  | error e => exact .error e

theorem eq_map {g : α → β} (h : EndAlike r x y) (hr : ∀ a b, r a b → b = g a) : y = x.map g := by
  cases h with
  | ok h => exact congrArg Except.ok (hr _ _ h)
  | error e => rfl

theorem isOk_iff (h : EndAlike r x y) : (∃ a, x = .ok a) ↔ ∃ b, y = .ok b := by
  cases h <;> simp

theorem error_iff (h : EndAlike r x y) {e : Error} : x = .error e ↔ y = .error e := by
  cases h <;> simp

/-- Where single steps keep a relation, so do all steps together. -/
theorem foldlM {step : α → γ → Except Error α} {step' : β → δ → Except Error β} {g : γ → δ}
    (hstep : ∀ a b c, r a b → EndAlike r (step a c) (step' b (g c))) {a : α} {b : β}
    (cs : List γ) (h : r a b) : EndAlike r (cs.foldlM step a) ((cs.map g).foldlM step' b) := by
  induction cs generalizing a b with
  | nil => exact .ok h
  | cons c cs ih =>
    rw [List.map_cons, List.foldlM_cons, List.foldlM_cons]
    exact (hstep a b c h).bind fun _ _ h' => ih h'

end EndAlike

/-- The first of some steps that fails is the one at an index, with an error. -/
def FailsAt {α β : Type} (step : α → β → Except Error α) (start : α) (steps : List β) (index : Nat)
    (e : Error) : Prop :=
  (∃ a, (steps.take index).foldlM step start = .ok a) ∧
    (steps.take (index + 1)).foldlM step start = .error e

/-! ### Sessions under other handles -/

/-- What can be done to a session, and to a model, again and again. -/
inductive Act
  | delete (pattern : Pattern)
  | cleanup

namespace Session

/-- Do something to a session, or fail. -/
def act (s : Session) : Act → Except Error Session
  | .delete p => (s.delete p).result.map fun _ => (s.delete p).session
  | .cleanup => .ok s.cleanup.session

variable {s t : Session} {p : Pattern} {q : Progress}

theorem act_delete_of_error {e : Error}
    (h : s.draft.runPass s.options p none = (q, .error e)) : s.act (.delete p) = .error e := by
  rw [act, delete, runPass, h]
  rfl

theorem act_delete_of_ok (h : s.draft.runPass s.options p none = (q, .ok ())) :
    s.act (.delete p) = .ok { s with draft := q.draft, tally := s.tally.add q.tally } := by
  rw [act, delete, runPass, h]
  rfl

/-- A session of another one's kind: with its options and with a draft that has the frame of its
draft. -/
structure Continues (s s' : Session) : Prop where
  options : s'.options = s.options
  frame : s'.draft.frame = s.draft.frame

/-- Sessions with the same draft under other handles go on alike. -/
theorem endAlike_act {f : Handle → Handle} (hren : s.draft.Renumbers f t.draft)
    (hoptions : t.options = s.options) (a : Act) :
    EndAlike (fun s' t' => s'.draft.Renumbers f t'.draft ∧ s.Continues s') (s.act a) (t.act a) := by
  cases a with
  | cleanup => exact .ok ⟨hren.withoutDead, ⟨rfl, rfl⟩⟩
  | delete p =>
    rcases hren.runPass_none s.options p with
      ⟨e, q, q', hrun, hrun'⟩ | ⟨q, q', hrun, hrun', htrims, hren'⟩
    · rw [act_delete_of_error hrun, act_delete_of_error (hoptions ▸ hrun')]
      exact .error e
    · rw [act_delete_of_ok hrun, act_delete_of_ok (hoptions ▸ hrun')]
      exact .ok ⟨hren', rfl, htrims.frame⟩

end Session

/-! ### Models and sessions -/

/-- The pass over models that does what is done to a session. -/
def Act.modelPass (options : PassOptions) : Act → ModelPass
  | delete p => .substitute options p none
  | cleanup => .removeDead

/-- A pass over a model is a session that does one thing. -/
theorem ModelPass.apply_eq_act {m : Model} {g : Graph} (hg : m.graph = some g)
    (options : PassOptions) (a : Act) :
    ModelPass.apply m (a.modelPass options) =
      ((Session.ofGraph g options).act a).map fun s => s.draft.toModel m := by
  cases a with
  | delete p =>
    show (m.runPass p none options).map _ = ((Session.ofGraph g options).act (.delete p)).map _
    rw [Model.map_fst_runPass _ _ _ hg, Session.act, Session.delete]
    cases ((Session.ofGraph g options).runPass p none).result <;> rfl
  | cleanup =>
    show (Draft.ofModel m).map _ = _
    rw [Draft.ofModel_of_graph hg]
    rfl

theorem ModelPass.apply_of_none {m : Model} (hg : m.graph = none) (options : PassOptions)
    (a : Act) : ModelPass.apply m (a.modelPass options) = .error (.missingField "model.graph") := by
  cases a with
  | delete p =>
    show (m.runPass p none options).map _ = _
    rw [Model.runPass, Draft.ofModel_of_none hg]
    rfl
  | cleanup =>
    show (Draft.ofModel m).map _ = _
    rw [Draft.ofModel_of_none hg]
    rfl

/-- A model stands for a session that comes from another model: only its graph is another one, and
this is the session's draft, under other handles. -/
structure Session.Stands (original : Model) (options : PassOptions) (s : Session) (m : Model) :
    Prop where
  options_eq : s.options = options
  model_eq : m = { original with graph := m.graph }
  graph_eq : ∃ g f, m.graph = some g ∧ s.draft.Renumbers f (.ofGraph g)

namespace Session.Stands

variable {original m : Model} {options : PassOptions} {s : Session} {g : Graph}

/-- A model stands for the session that it starts. -/
theorem ofGraph (options : PassOptions) (hg : original.graph = some g) :
    Stands original options (Session.ofGraph g options) original :=
  ⟨rfl, rfl, g, id, hg, .refl _⟩

/-- The model that is built from a session stands for it. -/
theorem toModel (hoptions : s.options = options)
    (hframe : s.draft.frame = (Draft.ofGraph g).frame) :
    Stands original options s (s.draft.toModel original) :=
  ⟨hoptions, rfl, _, _, rfl, .ofGraph_toGraph hframe⟩

/-- What is done to a session and what its pass does to the model end alike: the model is then the
one that is built from the session. -/
theorem act (hstands : Stands original options s m) (a : Act) :
    EndAlike (fun s' m' => Stands original options s' m' ∧ m' = s'.draft.toModel original)
      (s.act a) (ModelPass.apply m (a.modelPass options)) := by
  obtain ⟨hoptions, hmodel, g, f, hg, hren⟩ := hstands
  rw [ModelPass.apply_eq_act hg]
  refine (endAlike_act hren hoptions.symm a).map_right fun s' t' h => ?_
  obtain ⟨hren', hcontinues⟩ := h
  have hbuilt : t'.draft.toModel m = s'.draft.toModel original := by
    rw [hmodel, Draft.toModel, hren'.toGraph]
    rfl
  rw [hbuilt]
  refine ⟨toModel (g := g) (hcontinues.options.trans hoptions) ?_, rfl⟩
  rw [hcontinues.frame, hren.frame]

/-- All that is done to a session ends like all the passes over the model. -/
theorem foldlM (hstands : Stands original options s m) (acts : List Act) :
    EndAlike (Stands original options) (acts.foldlM Session.act s)
      ((acts.map (Act.modelPass options)).foldlM ModelPass.apply m) :=
  EndAlike.foldlM (fun _ _ a h => (h.act a).mono fun _ _ h => h.1) acts hstands

/-- Where something is done, the model is in the end the one that is built from the session. -/
theorem foldlM_of_ne_nil (hstands : Stands original options s m) {acts : List Act}
    (hne : acts ≠ []) :
    (acts.map (Act.modelPass options)).foldlM ModelPass.apply m =
      (acts.foldlM Session.act s).map fun s' => s'.draft.toModel original := by
  obtain ⟨a, acts, rfl⟩ := List.exists_cons_of_ne_nil hne
  rw [List.map_cons, List.foldlM_cons, List.foldlM_cons]
  exact ((hstands.act a).bind fun s' m' h =>
    EndAlike.foldlM (fun _ _ a h => h.1.act a) acts h).eq_map fun _ _ h => h.2

/-- The first pass that fails is at the place of what fails first in the session. -/
theorem failsAt_iff (hstands : Stands original options s m) (acts : List Act) (index : Nat)
    (e : Error) :
    FailsAt ModelPass.apply m (acts.map (Act.modelPass options)) index e ↔
      FailsAt Session.act s acts index e := by
  unfold FailsAt
  rw [← List.map_take, ← List.map_take, (hstands.foldlM (acts.take index)).isOk_iff,
    (hstands.foldlM (acts.take (index + 1))).error_iff]

end Session.Stands

/-- **A pipeline is one session.** Deletions and cleanups one after the other, each on the model
that the one before it has put together, come to the model that is built from a single session in
which the same is done, or both fail: with the same error, and at the same pass. -/
theorem Pipeline.run_eq_session (m : Model) (options : PassOptions) {acts : List Act}
    (hne : acts ≠ []) :
    let passes : Pipeline := acts.map (Act.modelPass options)
    passes.run m = (do
      let d ← Draft.ofModel m
      let s ← acts.foldlM Session.act { draft := d, options }
      return s.draft.toModel m) ∧
    (∀ e, Draft.ofModel m = .error e → FailsAt ModelPass.apply m passes 0 e) ∧
    ∀ d, Draft.ofModel m = .ok d → ∀ index e,
      (FailsAt ModelPass.apply m passes index e ↔
        FailsAt Session.act { draft := d, options } acts index e) := by
  intro passes
  cases hg : m.graph with
  | none =>
    have hload := Draft.ofModel_of_none hg
    obtain ⟨a, acts, rfl⟩ := List.exists_cons_of_ne_nil hne
    have hfirst : ModelPass.apply m (a.modelPass options) = .error (.missingField "model.graph") :=
      ModelPass.apply_of_none hg options a
    rw [hload]
    refine ⟨?_, ?_, by simp⟩
    · show (a.modelPass options :: acts.map _).foldlM ModelPass.apply m = _
      rw [List.foldlM_cons, hfirst]
      rfl
    · rintro e ⟨⟩
      refine ⟨⟨m, rfl⟩, ?_⟩
      show [a.modelPass options].foldlM ModelPass.apply m = _
      rw [List.foldlM_cons, hfirst]
      rfl
  | some g =>
    have hload := Draft.ofModel_of_graph hg
    have hstands := Session.Stands.ofGraph options hg
    rw [hload]
    refine ⟨?_, by simp, ?_⟩
    · show passes.foldlM ModelPass.apply m =
        (acts.foldlM Session.act (Session.ofGraph g options) >>= fun s => pure (s.draft.toModel m))
      rw [hstands.foldlM_of_ne_nil hne]
      cases acts.foldlM Session.act (Session.ofGraph g options) <;> rfl
    · rintro d ⟨⟩
      exact hstands.failsAt_iff acts

/-- A node with one output before one with two. -/
def splitGraph : Graph where
  nodes :=
    [{ op := "Relu", inputs := ["x"], outputs := ["a"], name := "first" },
      { op := "Split", inputs := ["a"], outputs := ["p", "q"], name := "second" }]
  inputs := [{ name := "x" }]
  outputs := [{ name := "p" }, { name := "q" }]

/-- The pattern of a single node. -/
def nodePattern (op : String) : Pattern where
  steps := [{ ops := .oneOf [op], inputs := [.any], outputs := [.any], line := op ++ "(?,?)" }]

/-- The second node of a graph cannot be bypassed once the first one is gone, neither under its own
handle nor under the new one that the pipeline gives it. -/
theorem Pipeline.run_eq_session_split :
    let m : Model := { graph := some splitGraph }
    let acts : List Act := [.delete (nodePattern "Relu"), .delete (nodePattern "Split")]
    let passes : Pipeline := acts.map (Act.modelPass {})
    acts ≠ [] ∧ Draft.ofModel m = .ok (.ofGraph splitGraph) ∧
      passes.run m = .error (.arityMismatch "second(Split)" 1 2) ∧
      FailsAt Session.act { draft := .ofGraph splitGraph, options := {} } acts 1
        (.arityMismatch "second(Split)" 1 2) ∧
      FailsAt ModelPass.apply m passes 1 (.arityMismatch "second(Split)" 1 2) := by
  intro m acts passes
  have hne : acts ≠ [] := List.cons_ne_nil _ _
  let d := Draft.ofGraph splitGraph
  have hfirst : (nodePattern "Relu").findAll d ({} : PassOptions).maxStates = [[⟨0⟩]] := by
    rw [Pattern.findAll_eq, Pattern.matchAt_eq_searchFrom]
    decide +kernel
  have hsecond : (nodePattern "Split").findAll (d.deleteChains true [[⟨0⟩]])
      ({} : PassOptions).maxStates = [[⟨1⟩]] := by
    rw [Pattern.findAll_eq, Pattern.matchAt_eq_searchFrom]
    decide +kernel
  have herror : (d.deleteChains true [[⟨0⟩]]).arityError [⟨1⟩] =
      .arityMismatch "second(Split)" 1 2 := by
    decide +kernel
  -- the session goes on with the second node under its old handle
  obtain ⟨s, hs, hdraft, hoptions⟩ : ∃ s, Session.act { draft := d, options := {} }
      (.delete (nodePattern "Relu")) = .ok s ∧ s.draft = d.deleteChains true [[⟨0⟩]] ∧
        s.options = {} := by
    refine ⟨_, Session.act_delete_of_ok (Draft.runPass_none_of_balanced ?_ ?_), ?_, rfl⟩
    · rw [hfirst]
      decide
    · rw [hfirst]
      decide
    · rw [Draft.draft_cleared, hfirst]
      rfl
  have hfail : s.act (.delete (nodePattern "Split")) =
      .error (.arityMismatch "second(Split)" 1 2) := by
    rw [← herror, ← hdraft]
    refine Session.act_delete_of_error (Draft.runPass_none_of_find? ?_ ?_)
    · rw [hdraft, hoptions, hsecond]
      decide
    · rw [hdraft, hoptions, hsecond]
      decide +kernel
  have hsession : FailsAt Session.act { draft := d, options := {} } acts 1
      (.arityMismatch "second(Split)" 1 2) := by
    refine ⟨⟨s, ?_⟩, ?_⟩
    · show [_].foldlM Session.act _ = _
      rw [List.foldlM_cons, hs]
      rfl
    · show [_, _].foldlM Session.act _ = _
      rw [List.foldlM_cons, hs]
      show [_].foldlM Session.act s = _
      rw [List.foldlM_cons, hfail]
      rfl
  have hload : Draft.ofModel m = .ok d := rfl
  obtain ⟨hrun, -, hfails⟩ := Pipeline.run_eq_session m {} hne
  have hall : acts.foldlM Session.act { draft := d, options := {} } = .error _ := hsession.2
  simp only [hload, bind, Except.bind, hall] at hrun
  exact ⟨hne, hload, hrun, hsession, (hfails d hload 1 _).2 hsession⟩

end OpGraph
