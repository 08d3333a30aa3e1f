import OpGraph.Proofs.WrittenFields

/-!
# Reading back what is written

Reading the fields that a message writes gives the fields of the message again, up to single values
that count as their default, and reads every message in it from what that message writes
(`MessageKind.decodeWith_outline`). So what is read back is decided message by message
(`Record.reread`), whatever the reader for the messages inside.
-/

namespace OpGraph

/-- A way to read back the messages in a message. -/
abbrev Rereader := (k : MessageKind) → k.Value → Option k.Value

/-- What is read back of a single value: a value that is not written is the default. -/
def ScalarKind.settle (k : ScalarKind) (v : k.Value) : k.Value :=
  if k.isDefault v then k.default else v

/-- What is read back of an alternative. -/
def Alternative.reread (f : Rereader) : (a : Alternative) → a.Value → Option a.Value
  | scalar _, v => some v
  | message k, m => f k m

/-- What is read back of a choice. -/
def Choice.reread (f : Rereader) : (alternatives : List (Nat × Alternative)) →
    Choice alternatives → Option (Choice alternatives)
  | (_, a) :: _, .inl v => (a.reread f v).map .inl
  | _ :: rest, .inr v => (reread f rest v).map .inr

/-- What is read back of a field. -/
def FieldType.reread (f : Rereader) : (t : FieldType) → t.Value → Option t.Value
  | single k, v => some (k.settle v)
  | repeated _ _, vs => some vs
  | message _, none => some none
  | message k, some m => (f k m).map some
  | messages k, ms => ms.mapM (f k)
  | choice _, none => some none
  | choice alternatives, some v => (Choice.reread f alternatives v).map some

/-- What is read back of a record. -/
def Record.reread (f : Rereader) : (specs : List FieldSpec) → Record specs → Option (Record specs)
  | [], _ => some ()
  | spec :: rest, (v, r) => do
    return (← spec.type.reread f v, ← reread f rest r)

/-! ### Fields -/

theorem mapM_congr {α β : Type} {f g : α → Option β} {l : List α} (h : ∀ a ∈ l, f a = g a) :
    l.mapM f = l.mapM g := by
  induction l with
  | nil => rfl
  | cons a l ih =>
    obtain ⟨ha, hl⟩ := List.forall_mem_cons.1 h
    rw [List.mapM_cons, List.mapM_cons, ha, ih hl]

/-- The reader that reads every message from the fields that it writes. -/
def Reader.onOutlines (inner : Reader) : Rereader :=
  fun k m => inner k ((Message.outline ⟨k, m⟩).map Outline.field)

section Fields

variable {inner : Reader} {number : Nat} {fields : List Field} {os : List Outline}
  {ns : List Nat}

namespace Field

theorem filter_written_self (h : ∀ o ∈ os, o.number ∈ ns) :
    ((os.map Outline.field).filter fun f => ns.contains f.number) = os.map Outline.field :=
  List.filter_eq_self.2 <| List.forall_mem_map.2 fun o ho => List.contains_iff_mem.2 (h o ho)

theorem filter_written_nil (h : ∀ o ∈ os, o.number ∉ ns) :
    ((os.map Outline.field).filter fun f => ns.contains f.number) = [] :=
  List.filter_eq_nil_iff.2 <| List.forall_mem_map.2 fun o ho hmem =>
    h o ho (List.contains_iff_mem.1 hmem)

theorem filter_filter_contains {all : List Nat} (h : ∀ n ∈ ns, n ∈ all) :
    ((fields.filter fun f => all.contains f.number).filter fun f => ns.contains f.number) =
      fields.filter fun f => ns.contains f.number := by
  rw [List.filter_filter]
  refine List.filter_congr fun f _ => ?_
  rw [Bool.eq_iff_iff, Bool.and_eq_true, List.contains_iff_mem, List.contains_iff_mem]
  exact and_iff_left_of_imp (h f.number)

theorem payloads_of_filter
    (h : (fields.filter fun f => [number].contains f.number) = os.map Outline.field) :
    payloads number fields = some (os.map Outline.payload) := by
  have hfilter : (fields.filter fun f => f.number == number) = os.map Outline.field := by
    rw [← h]
    refine List.filter_congr fun f _ => ?_
    rw [Bool.eq_iff_iff, beq_iff_eq, List.contains_iff_mem, List.mem_singleton]
  rw [payloads, hfilter, List.mapM_map]
  exact List.mapM_pure

theorem payloads_field (o : Outline) : payloads o.number [o.field] = some [o.payload] := by
  simp [payloads, Outline.field, Field.number, payload?]

/-- A message that can be read back is read from its payload. -/
theorem nested_encode {c : Message} (h : c.Readable) :
    nested [.bytes c.encode] = some (c.outline.map Outline.field) := by
  rw [Message.Readable] at h
  simp [nested, Payload.content?, h]

end Field

/-! ### Choices -/

theorem Alternative.decode_outline {a : Alternative} {v : a.Value}
    (hread : ∀ c ∈ a.children v, c.Readable) :
    a.decode inner [(a.outline number v fun c _ => c.outline).payload] =
      a.reread inner.onOutlines v := by
  cases a with
  | scalar k => simp [decode, reread, outline, Outline.payload]
  | message k =>
    have h := Field.nested_encode (hread ⟨k, v⟩ List.mem_cons_self)
    change (Field.nested [.bytes (Message.encode ⟨k, v⟩)]).bind (inner k) = _
    rw [h]
    rfl

/-- A choice is read from the one field that it writes. -/
theorem Choice.decodeRun_outline {alternatives : List (Nat × Alternative)}
    {v : Choice alternatives} (hnodup : (alternatives.map (·.1)).Nodup)
    (hread : ∀ c ∈ children alternatives v, c.Readable) :
    decodeRun inner alternatives [(Choice.outline alternatives v fun c _ => c.outline).field] =
      reread inner.onOutlines alternatives v := by
  induction alternatives with
  | nil => exact v.elim
  | cons alternative rest ih =>
    obtain ⟨n, a⟩ := alternative
    obtain ⟨hn, hrest⟩ := List.nodup_cons.1 hnodup
    cases v with
    | inl v =>
      let o := a.outline n v fun c _ => c.outline
      have hnumber : o.number = n := by
        cases a <;> rfl
      have hall : [o.field].all fun f => f.number == n := by
        simp [hnumber]
      have hpayloads : Field.payloads n [o.field] = some [o.payload] := by
        rw [← hnumber]
        exact Field.payloads_field o
      change decodeRun inner ((n, a) :: rest) [o.field] = (a.reread inner.onOutlines v).map .inl
      rw [decodeRun, if_pos hall, hpayloads, Option.bind_some, Alternative.decode_outline hread]
    | inr v =>
      let o := Choice.outline rest v fun c _ => c.outline
      have hnumber : o.number ≠ n := fun heq => hn (heq ▸ Choice.number_outline rest v)
      change decodeRun inner ((n, a) :: rest) [o.field] = (reread inner.onOutlines rest v).map .inr
      rw [decodeRun, if_neg (by simpa using hnumber), ih hrest hread]

theorem FieldType.decode_choice {alternatives : List (Nat × Alternative)}
    {v : Option (Choice alternatives)} (hnodup : (alternatives.map (·.1)).Nodup)
    (hread : ∀ c ∈ (choice alternatives).children v, c.Readable)
    (hown : (fields.filter fun f => (alternatives.map (·.1)).contains f.number) =
      ((choice alternatives).outline number v fun c _ => c.outline).map Outline.field) :
    (choice alternatives).decode inner number fields =
      (choice alternatives).reread inner.onOutlines v := by
  have hfilter : (fields.filter fun f => alternatives.any fun a => a.1 == f.number) =
      ((choice alternatives).outline number v fun c _ => c.outline).map Outline.field := by
    rw [← hown]
    refine List.filter_congr fun f _ => ?_
    rw [Bool.eq_iff_iff]
    simp
  rw [decode, Choice.decode, hfilter]
  cases v with
  | none => rfl
  | some v =>
    rw [reread, ← Choice.decodeRun_outline hnodup hread]
    change (List.mapM (Choice.decodeRun inner alternatives)
      [[(Choice.outline alternatives v fun c _ => c.outline).field]]).map List.getLast? = _
    cases hrun : Choice.decodeRun inner alternatives
        [(Choice.outline alternatives v fun c _ => c.outline).field] <;> simp [hrun]

/-! ### Other fields -/

theorem FieldType.decode_single {k : ScalarKind} {v : k.Value}
    (h : Field.payloads number fields = some
      (((single k).outline number v fun c _ => c.outline).map Outline.payload)) :
    (single k).decode inner number fields = some (k.settle v) := by
  rw [decode, h]
  simp only [outline, ScalarKind.settle]
  split <;> simp [Outline.payload]

theorem ScalarKind.readRepeated_toPayload (k : ScalarKind) (v : k.Value) :
    k.readRepeated (k.toPayload v) = some [v] := by
  have h := k.ofPayload_toPayload v
  cases k <;> simp_all [readRepeated, toPayload, wireType]

/-- Repeated values come back whether they are packed or not. -/
theorem FieldType.decode_repeated {k : ScalarKind} {packed : Bool} {vs : List k.Value}
    (hpackable : (repeated k packed).Packable)
    (h : Field.payloads number fields = some
      (((repeated k packed).outline number vs fun c _ => c.outline).map Outline.payload)) :
    (repeated k packed).decode inner number fields = some vs := by
  rw [decode, h]
  simp only [outline]
  split
  · rename_i hpacked
    split
    · rename_i hempty
      rw [List.isEmpty_iff.1 hempty]
      rfl
    · have hrun := k.readPacked_encode (hpackable hpacked) vs
      simp [Outline.payload, ScalarKind.readRepeated, hpackable hpacked, hrun]
  · have hvalues : (vs.map k.toPayload).mapM k.readRepeated = some (vs.map fun v => [v]) := by
      rw [List.mapM_map]
      exact (congrArg (List.mapM · vs) (funext k.readRepeated_toPayload)).trans List.mapM_pure
    simp [Outline.payload, List.map_map, Function.comp_def, hvalues, ← List.flatMap_def,
      List.flatMap_singleton']

theorem FieldType.decode_message {k : MessageKind} {v : Option k.Value}
    (hread : ∀ c ∈ (message k).children v, c.Readable)
    (h : Field.payloads number fields = some
      (((message k).outline number v fun c _ => c.outline).map Outline.payload)) :
    (message k).decode inner number fields = (message k).reread inner.onOutlines v := by
  rw [decode, h]
  cases v with
  | none => rfl
  | some m =>
    have hnested := Field.nested_encode (hread ⟨k, m⟩ List.mem_cons_self)
    change (do return some (← inner k (← Field.nested [.bytes (Message.encode ⟨k, m⟩)]))) = _
    rw [hnested, reread, Option.map_eq_bind]
    rfl

theorem FieldType.decode_messages {k : MessageKind} {ms : List k.Value}
    (hread : ∀ c ∈ (messages k).children ms, c.Readable)
    (h : Field.payloads number fields = some
      (((messages k).outline number ms fun c _ => c.outline).map Outline.payload)) :
    (messages k).decode inner number fields = (messages k).reread inner.onOutlines ms := by
  have hcontents : ((messages k).outline number ms fun c _ => c.outline).map Outline.payload =
      ms.map fun m => .bytes (Message.encode ⟨k, m⟩) := by
    rw [outline_messages, List.map_map]
    rfl
  rw [decode, h, hcontents]
  change ((ms.map fun m => Payload.bytes (Message.encode ⟨k, m⟩)).mapM fun p =>
    (Field.nested [p]).bind (inner k)) = ms.mapM (inner.onOutlines k)
  rw [List.mapM_map]
  refine mapM_congr fun m hm => ?_
  have hnested := Field.nested_encode (hread ⟨k, m⟩ (List.mem_map_of_mem hm))
  simp [hnested, Reader.onOutlines]

/-! ### Records and messages -/

/-- A field of a schema is read back from its own fields in what is written. -/
theorem FieldSpec.decode_outline {spec : FieldSpec} {v : spec.type.Value}
    (hpackable : spec.type.Packable) (hnodup : spec.numbers.Nodup)
    (hread : ∀ c ∈ spec.type.children v, c.Readable)
    (hown : (fields.filter fun f => spec.numbers.contains f.number) =
      (spec.type.outline spec.number v fun c _ => c.outline).map Outline.field) :
    spec.type.decode inner spec.number fields = spec.type.reread inner.onOutlines v := by
  obtain ⟨number, t⟩ := spec
  cases t with
  | single k => exact FieldType.decode_single (Field.payloads_of_filter hown)
  | repeated k packed => exact FieldType.decode_repeated hpackable (Field.payloads_of_filter hown)
  | message k => exact FieldType.decode_message hread (Field.payloads_of_filter hown)
  | messages k => exact FieldType.decode_messages hread (Field.payloads_of_filter hown)
  | choice alternatives => exact FieldType.decode_choice hnodup hread hown

/-- What a record writes is read back field by field. -/
theorem Record.decode_outline {specs : List FieldSpec} {r : Record specs}
    (hpackable : ∀ spec ∈ specs, spec.type.Packable) (hnodup : (specs.flatMap (·.numbers)).Nodup)
    (hread : ∀ c ∈ children specs r, c.Readable)
    (hown : (fields.filter fun f => (specs.flatMap (·.numbers)).contains f.number) =
      (Record.outline specs r fun c _ => c.outline).map Outline.field) :
    decode inner specs fields = reread inner.onOutlines specs r := by
  induction specs with
  | nil => rfl
  | cons spec rest ih =>
    obtain ⟨v, r⟩ := r
    obtain ⟨hspec, hpackable⟩ := List.forall_mem_cons.1 hpackable
    rw [List.flatMap_cons] at hnodup hown
    obtain ⟨hnodup', hrest, hdisjoint⟩ := List.nodup_append.1 hnodup
    rw [outline, List.map_append] at hown
    have hhere : (fields.filter fun f => spec.numbers.contains f.number) =
        (spec.type.outline spec.number v fun c _ => c.outline).map Outline.field := by
      rw [← Field.filter_filter_contains fun n hn => List.mem_append_left _ hn, hown,
        List.filter_append, Field.filter_written_self fun o ho => spec.number_mem_of_mem_outline ho,
        Field.filter_written_nil, List.append_nil]
      exact fun o ho hmem => hdisjoint _ hmem _ (number_mem_of_mem_outline ho) rfl
    have hlater : (fields.filter fun f => (rest.flatMap (·.numbers)).contains f.number) =
        (Record.outline rest r fun c _ => c.outline).map Outline.field := by
      rw [← Field.filter_filter_contains fun n hn => List.mem_append_right _ hn, hown,
        List.filter_append, Field.filter_written_nil,
        Field.filter_written_self fun o ho => number_mem_of_mem_outline ho, List.nil_append]
      exact fun o ho hmem => hdisjoint _ (FieldSpec.number_mem_of_mem_outline ho) _ hmem rfl
    rw [decode, reread,
      spec.decode_outline hspec hnodup' (fun c hc => hread c (List.mem_append_left _ hc)) hhere,
      ih hpackable hrest (fun c hc => hread c (List.mem_append_right _ hc)) hlater]

end Fields

/-- What a message writes is read back as a message with what is read back of its fields. -/
theorem MessageKind.decodeWith_outline {inner : Reader} {depth : Nat} {m : Message}
    (hsize : m.encode.length < UInt64.size) :
    decodeWith inner depth m.kind (m.outline.map Outline.field) =
      (Record.reread inner.onOutlines m.kind.schema (Record.ofMessage m.kind m.value)).map
        (Record.toMessage m.kind) := by
  have hvalid := m.kind.schemaValid
  have hmem : ∀ o ∈ m.outline, o.number ∈ m.kind.schema.flatMap (·.numbers) :=
    fun o ho => m.number_mem_of_mem_outline ho
  have hknown : (m.outline.map Outline.field).all fun f =>
      m.kind.knows f.number || f.height ≤ depth := by
    rw [List.all_eq_true, List.forall_mem_map]
    intro o ho
    obtain ⟨spec, hspec, hn⟩ := List.mem_flatMap.1 (hmem o ho)
    rw [Bool.or_eq_true]
    exact .inl (List.any_eq_true.2 ⟨spec, hspec, List.contains_iff_mem.2 hn⟩)
  have hread : ∀ c ∈ Record.children m.kind.schema (Record.ofMessage m.kind m.value),
      c.Readable := fun c hc =>
    Message.readable (Nat.lt_of_le_of_lt (Message.length_encode_le hc) hsize)
  rw [decodeWith, if_pos hknown, Record.decode_outline hvalid.packable hvalid.distinct hread]
  rw [Field.filter_written_self hmem, Message.outline]

end OpGraph
