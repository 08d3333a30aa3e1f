import Mathlib.Data.List.Defs
import OpGraph.Model.Codec
import OpGraph.Proofs.WireForms

/-!
# Unknown fields

A field of a number that a kind of message does not have is passed over: it may
stand anywhere among the fields of the message, and is a value of any form or a
group with whatever fields in it. It leaves no trace in what is read, unless it is
nested too deep to be passed over at all (`Model.decode?_unknown`).
-/

namespace OpGraph

variable {inner : Reader} {front back : List Field} {f : Field}

theorem filter_append_cons_of_neg {α : Type} {test : α → Bool} {front back : List α} {a : α}
    (h : ¬ test a) : (front ++ a :: back).filter test = (front ++ back).filter test := by
  rw [List.filter_append, List.filter_cons_of_neg h, List.filter_append]

theorem Field.payloads_unknown {number : Nat} (h : f.number ≠ number) :
    payloads number (front ++ f :: back) = payloads number (front ++ back) := by
  rw [payloads, payloads, filter_append_cons_of_neg (by simpa using h)]

theorem Choice.decode_unknown {alternatives : List (Nat × Alternative)}
    (h : f.number ∉ alternatives.map (·.1)) :
    decode inner alternatives (front ++ f :: back) = decode inner alternatives (front ++ back) := by
  rw [decode, decode, filter_append_cons_of_neg]
  intro hany
  obtain ⟨a, ha, heq⟩ := List.any_eq_true.1 hany
  exact h (List.mem_map.2 ⟨a, ha, beq_iff_eq.1 heq⟩)

/-- A field of a schema is read from the fields of its own numbers. -/
theorem FieldSpec.decode_unknown {spec : FieldSpec} (h : f.number ∉ spec.numbers) :
    spec.type.decode inner spec.number (front ++ f :: back) =
      spec.type.decode inner spec.number (front ++ back) := by
  obtain ⟨number, t⟩ := spec
  cases t with
  | choice alternatives => exact Choice.decode_unknown h
  | single | repeated | message | messages =>
    have hne : f.number ≠ number := by simpa [numbers] using h
    simp only [FieldType.decode, Field.payloads_unknown hne]

theorem Record.decode_unknown {specs : List FieldSpec}
    (h : ∀ spec ∈ specs, f.number ∉ spec.numbers) :
    decode inner specs (front ++ f :: back) = decode inner specs (front ++ back) := by
  induction specs with
  | nil => rfl
  | cons spec rest ih =>
    obtain ⟨hspec, hrest⟩ := List.forall_mem_cons.1 h
    rw [decode, decode, FieldSpec.decode_unknown hspec, ih hrest]

namespace MessageKind

variable {k : MessageKind}

/-- A field that a kind does not know makes no difference where the depth allows to pass over it,
and is an error where not. -/
theorem decodeWith_unknown {depth : Nat} (h : k.knows f.number = false) :
    decodeWith inner depth k (front ++ f :: back) =
      if f.height ≤ depth then decodeWith inner depth k (front ++ back) else none := by
  have hspecs : ∀ spec ∈ k.schema, f.number ∉ spec.numbers := by
    simpa [knows] using h
  unfold decodeWith
  rw [Record.decode_unknown hspecs]
  by_cases hheight : f.height ≤ depth <;> simp [h, hheight]

theorem decodeAt_unknown (depth : Nat) (h : k.knows f.number = false) :
    decodeAt depth k (front ++ f :: back) =
      if f.height ≤ depth then decodeAt depth k (front ++ back) else none := by
  cases depth with
  | zero => exact decodeWith_unknown h
  | succ depth => exact decodeWith_unknown h

end MessageKind

/-- **Unknown fields.** Behind bytes that are read as a model there may stand, whatever follows, the
bytes of a field whose number models do not have. Where it takes no more than a hundred levels to
pass over the field, each group on the way being one and a value being one, the bytes are read as
they are without the field: as the same model, or not at all. Where it takes more they are not
read. -/
theorem Model.decode?_unknown {front unknown : List UInt8} {m : Model} {f : Field}
    (hfront : decode? front = some m) (hunknown : Field.Written [f] unknown)
    (hnumber : MessageKind.model.knows f.number = false) (back : List UInt8) :
    decode? (front ++ unknown ++ back) =
      if f.height ≤ 100 then decode? (front ++ back) else none := by
  obtain ⟨fs, hfs, -⟩ := Option.bind_eq_some_iff.1 hfront
  have hwritten := Field.readAll_eq_some_iff.1 hfs
  rw [decode?, (hwritten.append hunknown).readAll_append, decode?, hwritten.readAll_append]
  cases Field.readAll back with
  | none => simp
  | some gs =>
    rw [Option.map_some, Option.bind_some, Option.map_some, Option.bind_some, List.append_assoc]
    exact MessageKind.decodeAt_unknown maxDepth hnumber

/-- A group that models do not have. In it stand a run of bytes that could be a graph, a number that
is longer than it needs to be, an empty group and four bytes. -/
def Model.strayGroup : List UInt8 :=
  [0xa3, 0x06, 0x3a, 0x02, 0x3a, 0x00, 0x90, 0x00, 0x81, 0x80, 0x00, 0x0b, 0x0c, 0x1d, 0x04, 0x03,
    0x02, 0x01, 0xa4, 0x06]

theorem Model.decode?_unknown_strayGroup :
    decode? [0x08, 0x01] = some { irVersion := 1 } ∧
      Field.Written [.group 100 2] strayGroup ∧ MessageKind.model.knows 100 = false ∧
      decode? ([0x08, 0x01] ++ [0x3a, 0x00]) = some { irVersion := 1, graph := some {} } ∧
      decode? ([0x08, 0x01] ++ strayGroup ++ [0x3a, 0x00]) =
        some { irVersion := 1, graph := some {} } := by
  have hfront : decode? [0x08, 0x01] = some { irVersion := 1 } := by cbv
  have hread : Field.readAll strayGroup = some [.group 100 2] := by cbv
  have hgroup := Field.readAll_eq_some_iff.1 hread
  have hnumber : MessageKind.model.knows 100 = false := by decide
  have hwithout : decode? ([0x08, 0x01] ++ [0x3a, 0x00]) =
      some { irVersion := 1, graph := some {} } := by cbv
  have hwith := decode?_unknown hfront hgroup hnumber [0x3a, 0x00]
  rw [if_pos (by decide), hwithout] at hwith
  exact ⟨hfront, hgroup, hnumber, hwithout, hwith⟩

end OpGraph
