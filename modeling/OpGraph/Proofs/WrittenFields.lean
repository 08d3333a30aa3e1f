import OpGraph.Model.Codec

/-!
# Written fields

Every field of an outline is written as a key and a payload, and what is written is read back as
these fields (`Outline.readAll_encodeAll`). The message fields of the outline of a message hold the
outlines of the messages in it, in order (`Message.flatMap_contents_outline`), so the size and the
height of an outline bound those of the messages inside.
-/

namespace OpGraph

namespace Outline

variable {o : Outline} {os fs : List Outline} {n : Nat}

/-- The number of a field. -/
def number : Outline → Nat
  | value n _ | packed n _ | message n _ => n

/-- The payload that a field is written as. -/
def payload : Outline → Payload
  | value _ p => p
  | packed _ ps => .bytes (ps.flatMap Payload.encode)
  | message _ fields => .bytes (encodeAll fields)

/-- The field that is read where a field is written. -/
def field (o : Outline) : Field :=
  .value o.number o.payload

@[simp] theorem number_field (o : Outline) : o.field.number = o.number :=
  rfl

theorem encode_eq (o : Outline) :
    o.encode = encodeKey o.number o.payload.wireType.code ++ o.payload.encode := by
  cases o <;> rfl

/-- Written fields are read back, where their numbers are ones of fields and their bytes can be
counted in 64 bits. -/
theorem readAll_encodeAll (hnumber : ∀ o ∈ os, 0 < o.number ∧ o.number ≤ Field.maxNumber)
    (hsize : (encodeAll os).length < UInt64.size) :
    Field.readAll (encodeAll os) = some (os.map field) := by
  induction os with
  | nil => exact Field.readAll_nil
  | cons o os ih =>
    obtain ⟨ho, hos⟩ := List.forall_mem_cons.1 hnumber
    rw [encodeAll, encode_eq, List.append_assoc] at hsize ⊢
    simp only [List.length_append] at hsize
    rw [Field.readAll_append_value o.payload _ ho.1 ho.2, ih hos (by omega)]
    · rfl
    · intro content hcontent
      rw [hcontent, Payload.encode, List.length_append] at hsize
      omega

/-! ### Messages in fields -/

/-- The fields that a message field holds. -/
def contents : Outline → List (List Outline)
  | value .. | packed .. => []
  | message _ fields => [fields]

theorem heightAll_le_iff : heightAll os ≤ n ↔ ∀ fs ∈ os.flatMap contents, heightAll fs < n := by
  induction os with
  | nil => simp [heightAll]
  | cons o os ih =>
    rw [heightAll, Nat.max_le, ih, List.flatMap_cons, List.forall_mem_append]
    refine and_congr_left' ?_
    cases o with
    | value | packed => simp [height, contents]
    | message number fields =>
      rw [height, contents, List.forall_mem_singleton, Nat.succ_le_iff]

/-- A message field is longer than what it holds. -/
theorem length_encodeAll_le (h : fs ∈ os.flatMap contents) :
    (encodeAll fs).length ≤ (encodeAll os).length := by
  induction os with
  | nil => simp at h
  | cons o os ih =>
    rw [encodeAll, List.length_append]
    rw [List.flatMap_cons, List.mem_append] at h
    rcases h with h | h
    · cases o with
      | value | packed => simp [contents] at h
      | message number fields =>
        rw [contents, List.mem_singleton] at h
        subst h
        simp only [encode, encodeRun, Payload.encode, List.length_append]
        omega
    · have := ih h
      omega

end Outline

/-! ### Messages in records -/

theorem Alternative.contents_outline (number : Nat) (a : Alternative) (v : a.Value) :
    (a.outline number v fun c _ => c.outline).contents = (a.children v).map Message.outline := by
  cases a <;> rfl

theorem Choice.contents_outline (alternatives : List (Nat × Alternative))
    (v : Choice alternatives) :
    (Choice.outline alternatives v fun c _ => c.outline).contents =
      (Choice.children alternatives v).map Message.outline := by
  induction alternatives with
  | nil => exact v.elim
  | cons alternative rest ih =>
    cases v with
    | inl v => exact alternative.2.contents_outline alternative.1 v
    | inr v => exact ih v

theorem FieldType.outline_messages (number : Nat) (k : MessageKind) (ms : List k.Value) :
    ((messages k).outline number ms fun c _ => c.outline) =
      ms.map fun m => .message number (Message.outline ⟨k, m⟩) :=
  List.attach_map_val (f := fun m => Outline.message number (Message.outline ⟨k, m⟩))

theorem FieldType.flatMap_contents_outline (number : Nat) (t : FieldType) (v : t.Value) :
    (t.outline number v fun c _ => c.outline).flatMap Outline.contents =
      (t.children v).map Message.outline := by
  cases t with
  | single k =>
    rw [outline]
    split <;> rfl
  | repeated k packed =>
    have hvalues : ∀ vs : List k.Value,
        (vs.map fun v => Outline.value number (k.toPayload v)).flatMap Outline.contents = [] := by
      intro vs
      simp [List.flatMap_map, Outline.contents]
    rw [outline]
    split
    · split <;> rfl
    · exact hvalues v
  | message k => cases v <;> rfl
  | messages k =>
    rw [outline_messages, List.flatMap_map]
    simp only [children, Outline.contents, List.map_map, ← List.map_eq_flatMap]
    rfl
  | choice alternatives =>
    cases v with
    | none => rfl
    | some v =>
      rw [outline, List.flatMap_singleton]
      exact Choice.contents_outline alternatives v

theorem Record.flatMap_contents_outline (specs : List FieldSpec) (r : Record specs) :
    (Record.outline specs r fun c _ => c.outline).flatMap Outline.contents =
      (Record.children specs r).map Message.outline := by
  induction specs with
  | nil => rfl
  | cons spec rest ih =>
    rw [outline, children, List.flatMap_append, List.map_append,
      FieldType.flatMap_contents_outline, ih]

namespace Message

variable {m c : Message} {n : Nat}

/-- The message fields of the outline of a message hold the outlines of the messages in it. -/
theorem flatMap_contents_outline (m : Message) :
    m.outline.flatMap Outline.contents = m.children.map outline := by
  rw [outline]
  exact Record.flatMap_contents_outline _ _

theorem heightAll_outline_le_iff :
    Outline.heightAll m.outline ≤ n ↔ ∀ c ∈ m.children, Outline.heightAll c.outline < n := by
  rw [Outline.heightAll_le_iff, flatMap_contents_outline, List.forall_mem_map]

theorem length_encode_le (h : c ∈ m.children) : c.encode.length ≤ m.encode.length := by
  refine Outline.length_encodeAll_le ?_
  rw [flatMap_contents_outline]
  exact List.mem_map_of_mem h

end Message

/-! ### The schemas -/

/-- Strings and bytes are not packed. -/
def FieldType.Packable : FieldType → Prop
  | repeated k packed => packed → k.wireType ≠ .bytes
  | _ => True

instance : (t : FieldType) → Decidable t.Packable
  | .repeated k packed => inferInstanceAs (Decidable (packed = true → k.wireType ≠ .bytes))
  | .single _ | .message _ | .messages _ | .choice _ => inferInstanceAs (Decidable True)

/-- The numbers of a schema are distinct numbers of fields. -/
structure SchemaValid (specs : List FieldSpec) : Prop where
  packable : ∀ spec ∈ specs, spec.type.Packable
  distinct : (specs.flatMap (·.numbers)).Nodup
  range : ∀ n ∈ specs.flatMap (·.numbers), 0 < n ∧ n ≤ Field.maxNumber

theorem MessageKind.schemaValid (k : MessageKind) : SchemaValid k.schema := by
  cases k <;> exact ⟨by decide, by decide, by decide⟩

theorem Choice.number_outline (alternatives : List (Nat × Alternative))
    (v : Choice alternatives) :
    (Choice.outline alternatives v fun c _ => c.outline).number ∈ alternatives.map (·.1) := by
  induction alternatives with
  | nil => exact v.elim
  | cons alternative rest ih =>
    obtain ⟨n, a⟩ := alternative
    cases v with
    | inl v => cases a <;> exact List.mem_cons_self
    | inr v => exact List.mem_cons_of_mem _ (ih v)

/-- A field writes under its own numbers. -/
theorem FieldSpec.number_mem_of_mem_outline {spec : FieldSpec} {v : spec.type.Value} {o : Outline}
    (h : o ∈ spec.type.outline spec.number v fun c _ => c.outline) : o.number ∈ spec.numbers := by
  obtain ⟨number, t⟩ := spec
  cases t with
  | single k => simp_all [FieldType.outline, numbers, Outline.number]
  | repeated k packed =>
    have hself : number ∈ (FieldSpec.mk number (.repeated k packed)).numbers := List.mem_cons_self
    dsimp only [FieldType.outline] at h
    split at h
    · split at h
      · exact absurd h List.not_mem_nil
      · rw [List.mem_singleton.1 h]
        exact hself
    · obtain ⟨x, -, rfl⟩ := List.mem_map.1 h
      exact hself
  | message k => cases v <;> simp_all [FieldType.outline, numbers, Outline.number]
  | messages k =>
    obtain ⟨m, -, rfl⟩ := List.mem_map.1 h
    exact List.mem_cons_self
  | choice alternatives =>
    cases v with
    | none => exact absurd h List.not_mem_nil
    | some v =>
      rw [FieldType.outline, List.mem_singleton] at h
      rw [h]
      exact Choice.number_outline alternatives v

theorem Record.number_mem_of_mem_outline {specs : List FieldSpec} {r : Record specs} {o : Outline}
    (h : o ∈ Record.outline specs r fun c _ => c.outline) :
    o.number ∈ specs.flatMap (·.numbers) := by
  induction specs with
  | nil => exact absurd h List.not_mem_nil
  | cons spec rest ih =>
    rw [List.flatMap_cons]
    rcases List.mem_append.1 h with h | h
    · exact List.mem_append_left _ (FieldSpec.number_mem_of_mem_outline h)
    · exact List.mem_append_right _ (ih h)

namespace Message

theorem number_mem_of_mem_outline {m : Message} {o : Outline} (h : o ∈ m.outline) :
    o.number ∈ m.kind.schema.flatMap (·.numbers) := by
  rw [outline] at h
  exact Record.number_mem_of_mem_outline h

/-- What a message writes is read back as its fields. -/
def Readable (m : Message) : Prop :=
  Field.readAll m.encode = some (m.outline.map Outline.field)

theorem readable {m : Message} (hsize : m.encode.length < UInt64.size) : m.Readable :=
  Outline.readAll_encodeAll (fun _ ho => m.kind.schemaValid.range _ (number_mem_of_mem_outline ho))
    hsize

end Message

end OpGraph
