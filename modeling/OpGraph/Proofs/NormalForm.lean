import Mathlib.Data.List.Defs
import OpGraph.Proofs.RoundTrip

/-!
# The normal form of binary models

Whatever bytes a model is read from, its own binary form is read again, and gives the same bytes
once more (`Model.encode_decode?_encode`). A model that is read is nested no deeper than the reader
goes (`MessageKind.heightAll_of_decodeAt`), and settling a message does not change what it writes
(`Message.outline_settle`).
-/

namespace OpGraph

/-! ### Settled messages write the same -/

/-- The message that comes back for a message. -/
def Message.settle (m : Message) : Message :=
  ⟨m.kind, m.kind.settle m.value⟩

theorem ScalarKind.isDefault_default (k : ScalarKind) : k.isDefault k.default := by
  cases k <;> rfl

theorem ScalarKind.isDefault_settle (k : ScalarKind) (v : k.Value) :
    k.isDefault (k.settle v) = k.isDefault v := by
  rw [settle]
  split
  · rename_i h
    rw [isDefault_default, h]
  · rfl

theorem Alternative.outline_settle {number : Nat} {a : Alternative} {v : a.Value}
    (h : ∀ c ∈ a.children v, c.settle.outline = c.outline) :
    (a.outline number (a.settle v) fun c _ => c.outline) =
      a.outline number v fun c _ => c.outline := by
  cases a with
  | scalar k => rfl
  | message k => exact congrArg (Outline.message number) (h ⟨k, v⟩ List.mem_cons_self)

theorem Choice.outline_settle {alternatives : List (Nat × Alternative)} {v : Choice alternatives}
    (h : ∀ c ∈ children alternatives v, c.settle.outline = c.outline) :
    (Choice.outline alternatives (settle alternatives v) fun c _ => c.outline) =
      Choice.outline alternatives v fun c _ => c.outline := by
  induction alternatives with
  | nil => exact v.elim
  | cons alternative rest ih =>
    cases v with
    | inl v => exact Alternative.outline_settle h
    | inr v => exact ih h

theorem FieldType.outline_settle {number : Nat} {t : FieldType} {v : t.Value}
    (h : ∀ c ∈ t.children v, c.settle.outline = c.outline) :
    (t.outline number (t.settle v) fun c _ => c.outline) =
      t.outline number v fun c _ => c.outline := by
  cases t with
  | single k =>
    rw [outline, outline, settle, ScalarKind.isDefault_settle]
    split
    · rfl
    · rename_i hdefault
      rw [ScalarKind.settle, if_neg hdefault]
  | repeated k packed => rfl
  | message k =>
    cases v with
    | none => rfl
    | some m => exact congrArg (fun fs => [Outline.message number fs]) (h ⟨k, m⟩ List.mem_cons_self)
  | messages k =>
    rw [outline_messages, outline_messages, settle, List.map_map]
    refine List.map_congr_left fun m hm => ?_
    exact congrArg (Outline.message number) (h ⟨k, m⟩ (List.mem_map_of_mem hm))
  | choice alternatives =>
    cases v with
    | none => rfl
    | some v => exact congrArg (fun o => [o]) (Choice.outline_settle h)

theorem Record.outline_settle {specs : List FieldSpec} {r : Record specs}
    (h : ∀ c ∈ children specs r, c.settle.outline = c.outline) :
    (Record.outline specs (settle specs r) fun c _ => c.outline) =
      Record.outline specs r fun c _ => c.outline := by
  induction specs with
  | nil => rfl
  | cons spec rest ih =>
    obtain ⟨v, r⟩ := r
    rw [outline, settle, outline,
      FieldType.outline_settle fun c hc => h c (List.mem_append_left _ hc),
      ih fun c hc => h c (List.mem_append_right _ hc)]

/-- A settled message writes the same fields. -/
theorem Message.outline_settle (m : Message) : m.settle.outline = m.outline := by
  induction hweight : m.weight using Nat.strongRecOn generalizing m with
  | _ weight ih =>
    rw [outline, outline, settle, Record.ofMessage_settle]
    exact Record.outline_settle fun c hc =>
      ih c.weight (hweight ▸ weight_lt_of_mem_children hc) c rfl

theorem Model.encode_settle (m : Model) : m.settle.encode = m.encode :=
  congrArg Outline.encodeAll (Message.outline_settle ⟨.model, m⟩)

/-! ### Models that are read are within the limit -/

theorem exists_of_mem_mapM {α β : Type} {f : α → Option β} {l : List α} {l' : List β}
    (h : l.mapM f = some l') {b : β} (hb : b ∈ l') : ∃ a ∈ l, f a = some b := by
  induction l generalizing l' with
  | nil =>
    cases h
    exact absurd hb List.not_mem_nil
  | cons a l ih =>
    rw [List.mapM_cons] at h
    obtain ⟨x, hx, h⟩ := Option.bind_eq_some_iff.1 h
    obtain ⟨xs, hxs, h⟩ := Option.bind_eq_some_iff.1 h
    cases h
    rcases List.mem_cons.1 hb with rfl | hb
    · exact ⟨a, List.mem_cons_self, hx⟩
    · obtain ⟨a', ha', hfa⟩ := ih hxs hb
      exact ⟨a', List.mem_cons_of_mem _ ha', hfa⟩

section Read

variable {inner : Reader} {c : Message}

theorem Alternative.exists_inner_of_decode {a : Alternative} {payloads : List Payload} {v : a.Value}
    (h : a.decode inner payloads = some v) (hc : c ∈ a.children v) :
    ∃ fields, inner c.kind fields = some c.value := by
  cases a with
  | scalar k => exact absurd hc List.not_mem_nil
  | message k =>
    obtain ⟨fields, -, hfields⟩ := Option.bind_eq_some_iff.1 h
    obtain rfl := List.mem_singleton.1 hc
    exact ⟨fields, hfields⟩

theorem Choice.exists_inner_of_decodeRun {alternatives : List (Nat × Alternative)}
    {run : List Field} {v : Choice alternatives}
    (h : decodeRun inner alternatives run = some v) (hc : c ∈ children alternatives v) :
    ∃ fields, inner c.kind fields = some c.value := by
  induction alternatives with
  | nil => exact v.elim
  | cons alternative rest ih =>
    obtain ⟨n, a⟩ := alternative
    rw [decodeRun] at h
    split at h
    · obtain ⟨x, hx, rfl⟩ := Option.map_eq_some_iff.1 h
      obtain ⟨payloads, -, hpayloads⟩ := Option.bind_eq_some_iff.1 hx
      exact Alternative.exists_inner_of_decode hpayloads hc
    · obtain ⟨x, hx, rfl⟩ := Option.map_eq_some_iff.1 h
      exact ih hx hc

theorem FieldType.exists_inner_of_decode {number : Nat} {t : FieldType} {fields : List Field}
    {v : t.Value} (h : t.decode inner number fields = some v) (hc : c ∈ t.children v) :
    ∃ fields, inner c.kind fields = some c.value := by
  cases t with
  | single k => exact absurd hc List.not_mem_nil
  | repeated k packed => exact absurd hc List.not_mem_nil
  | message k =>
    rw [decode] at h
    obtain ⟨payloads, -, h⟩ := Option.bind_eq_some_iff.1 h
    split at h
    · cases h
      exact absurd hc List.not_mem_nil
    · obtain ⟨nested, -, h⟩ := Option.bind_eq_some_iff.1 h
      obtain ⟨m, hm, h⟩ := Option.bind_eq_some_iff.1 h
      cases h
      obtain rfl := List.mem_singleton.1 hc
      exact ⟨nested, hm⟩
  | messages k =>
    rw [decode] at h
    obtain ⟨payloads, -, h⟩ := Option.bind_eq_some_iff.1 h
    obtain ⟨m, hm, rfl⟩ := List.mem_map.1 hc
    obtain ⟨payload, -, h⟩ := exists_of_mem_mapM h hm
    obtain ⟨nested, -, h⟩ := Option.bind_eq_some_iff.1 h
    exact ⟨nested, h⟩
  | choice alternatives =>
    obtain ⟨values, hvalues, rfl⟩ := Option.map_eq_some_iff.1 h
    cases hlast : values.getLast? with
    | none =>
      rw [hlast] at hc
      exact absurd hc List.not_mem_nil
    | some v =>
      rw [hlast] at hc
      obtain ⟨run, -, hrun⟩ := exists_of_mem_mapM hvalues (List.mem_of_getLast? hlast)
      exact Choice.exists_inner_of_decodeRun hrun hc

theorem Record.exists_inner_of_decode {specs : List FieldSpec} {fields : List Field}
    {r : Record specs} (h : decode inner specs fields = some r) (hc : c ∈ children specs r) :
    ∃ fields, inner c.kind fields = some c.value := by
  induction specs with
  | nil => exact absurd hc List.not_mem_nil
  | cons spec rest ih =>
    rw [decode] at h
    obtain ⟨v, hv, h⟩ := Option.bind_eq_some_iff.1 h
    obtain ⟨r', hr', h⟩ := Option.bind_eq_some_iff.1 h
    cases h
    rcases List.mem_append.1 hc with hc | hc
    · exact FieldType.exists_inner_of_decode hv hc
    · exact ih hr' hc

/-- Every message in a message that is read comes from the reader for messages inside. -/
theorem MessageKind.exists_inner_of_decodeWith {depth : Nat} {k : MessageKind}
    {fields : List Field} {v : k.Value} (h : decodeWith inner depth k fields = some v)
    (hc : c ∈ Message.children ⟨k, v⟩) : ∃ fields, inner c.kind fields = some c.value := by
  rw [decodeWith] at h
  split at h
  · obtain ⟨r, hr, rfl⟩ := Option.map_eq_some_iff.1 h
    rw [Message.children, Record.ofMessage_toMessage] at hc
    exact Record.exists_inner_of_decode hr hc
  · cases h

end Read

/-- A message that is read is nested no deeper than the reader goes. -/
theorem MessageKind.heightAll_of_decodeAt {depth : Nat} {k : MessageKind} {fields : List Field}
    {v : k.Value} (h : decodeAt depth k fields = some v) :
    Outline.heightAll (Message.outline ⟨k, v⟩) ≤ depth := by
  induction depth generalizing k fields with
  | zero =>
    rw [Message.heightAll_outline_le_iff]
    intro c hc
    obtain ⟨_, hnone⟩ := exists_inner_of_decodeWith h hc
    cases hnone
  | succ depth ih =>
    rw [Message.heightAll_outline_le_iff]
    intro c hc
    obtain ⟨_, hinner⟩ := exists_inner_of_decodeWith h hc
    exact Nat.lt_succ_of_le (ih hinner)

theorem Model.depth_of_decode? {content : List UInt8} {m : Model} (h : decode? content = some m) :
    m.depth ≤ 100 := by
  obtain ⟨fields, -, hfields⟩ := Option.bind_eq_some_iff.1 h
  exact MessageKind.heightAll_of_decodeAt hfields

/-- **The binary form of a model that is read is a normal form.** It is read again, and what is read
then has the same binary form. -/
theorem Model.encode_decode?_encode {content : List UInt8} {m : Model}
    (h : decode? content = some m) (hsize : m.encode.length < UInt64.size) :
    ∃ m', decode? m.encode = some m' ∧ m'.encode = m.encode := by
  refine ⟨m.settle, ?_, m.encode_settle⟩
  rw [decode?_eq_decodeAt hsize]
  exact (MessageKind.decodeAt_outline (m := ⟨.model, m⟩) hsize).trans (if_pos (depth_of_decode? h))

/-- A binary model with its graph in two parts, a number that is longer than it needs to be, and a
field that graphs do not have. -/
def Model.scattered : List UInt8 :=
  [0x3a, 0x00, 0x08, 0x81, 0x00, 0x3a, 0x05, 0x0a, 0x00, 0x98, 0x06, 0x00]

/-- The model in these bytes. -/
def Model.gathered : Model :=
  { irVersion := 1, graph := some { nodes := [{}] } }

theorem Model.encode_decode?_encode_scattered :
    decode? scattered = some gathered ∧ gathered.encode.length < UInt64.size ∧
      ∃ m', decode? gathered.encode = some m' ∧ m'.encode = gathered.encode := by
  have hread : decode? scattered = some gathered := by cbv
  have hsize : gathered.encode.length < UInt64.size := by decide +kernel
  exact ⟨hread, hsize, encode_decode?_encode hread hsize⟩

end OpGraph
