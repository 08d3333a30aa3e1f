import OpGraph.Model.Outline

/-!
# The binary form of models

A message is written as its outline and read back from the fields of its
content, in any order. The last of several values of a single field counts; the
contents of several occurrences of a single message are read as one; of a choice
the last run of one alternative counts, read as one. A repeated scalar may come
packed or not, and a field of a number that the schema does not have is passed
over. Reading fails as a whole where any part of the content is malformed or
where messages and groups are nested deeper than the limit.
-/

namespace OpGraph

/-- The content of a run of bytes. -/
def Payload.content? : Payload → Option (List UInt8)
  | .bytes content => some content
  | _ => none

/-- The payload of a field that is not a group. -/
def Field.payload? : Field → Option Payload
  | .value _ p => some p
  | .group .. => none

/-- The payloads of the fields with a number. A known number is never that of a group. -/
def Field.payloads (number : Nat) (fields : List Field) : Option (List Payload) :=
  (fields.filter fun f => f.number == number).mapM payload?

/-- The fields of the contents of several occurrences of a message, one after the other. -/
def Field.nested (payloads : List Payload) : Option (List Field) :=
  (payloads.mapM fun p : Payload => p.content?.bind readAll).map List.flatten

/-- The values in one occurrence of a repeated scalar, packed or not. -/
def ScalarKind.readRepeated (k : ScalarKind) : Payload → Option (List k.Value)
  | .bytes content =>
    if k.wireType = .bytes then (k.ofPayload (.bytes content)).map fun v => [v]
    else k.readPacked content
  | p => (k.ofPayload p).map fun v => [v]

/-- A reader for the messages inside of a message, from their fields. -/
abbrev Reader := (k : MessageKind) → List Field → Option k.Value

/-- Read a run of occurrences of one alternative. -/
def Alternative.decode (inner : Reader) : (a : Alternative) → List Payload → Option a.Value
  | scalar k, ps => (ps.mapM k.ofPayload).bind List.getLast?
  | message k, ps => (Field.nested ps).bind (inner k)

/-- Read a run of fields of one number as the alternative with that number. -/
def Choice.decodeRun (inner : Reader) :
    (alternatives : List (Nat × Alternative)) → List Field → Option (Choice alternatives)
  | [], _ => none
  | (n, a) :: rest, run =>
    if run.all fun f => f.number == n then
      ((Field.payloads n run).bind (a.decode inner)).map .inl
    else (decodeRun inner rest run).map .inr

/-- Read a choice: each run of one alternative is read, and the last one counts. -/
def Choice.decode (inner : Reader) (alternatives : List (Nat × Alternative))
    (fields : List Field) : Option (Option (Choice alternatives)) :=
  let own := fields.filter fun f => alternatives.any fun a => a.1 == f.number
  let runs := own.splitBy fun f g => f.number == g.number
  (runs.mapM (decodeRun inner alternatives)).map List.getLast?

/-- Read one field of a schema. -/
def FieldType.decode (inner : Reader) (number : Nat) :
    (t : FieldType) → List Field → Option t.Value
  | single k, fields => do
    let vs ← (← Field.payloads number fields).mapM k.ofPayload
    return vs.getLastD k.default
  | repeated k _, fields => do
    return (← (← Field.payloads number fields).mapM k.readRepeated).flatten
  | message k, fields => do
    let ps ← Field.payloads number fields
    if ps.isEmpty then return none
    else return some (← inner k (← Field.nested ps))
  | messages k, fields => do
    (← Field.payloads number fields).mapM fun p => do inner k (← Field.nested [p])
  | choice alternatives, fields => Choice.decode inner alternatives fields

/-- Read all fields of a schema. -/
def Record.decode (inner : Reader) : (specs : List FieldSpec) → List Field → Option (Record specs)
  | [], _ => some ()
  | spec :: rest, fields => do
    return (← spec.type.decode inner spec.number fields, ← decode inner rest fields)

/-- The numbers that a field of a schema answers to. -/
def FieldSpec.numbers (spec : FieldSpec) : List Nat :=
  match spec.type with
  | .choice alternatives => alternatives.map (·.1)
  | _ => [spec.number]

namespace MessageKind

/-- Whether a kind of message has a field with the number. -/
def knows (k : MessageKind) (number : Nat) : Bool :=
  k.schema.any fun spec => spec.numbers.contains number

/-- Read a message from its fields. A field that the kind does not know is passed over where the
depth that is left allows it. -/
def decodeWith (inner : Reader) (depth : Nat) (k : MessageKind) (fields : List Field) :
    Option k.Value :=
  if fields.all fun f => k.knows f.number || f.height ≤ depth then
    (Record.decode inner k.schema fields).map (Record.toMessage k)
  else none

/-- Read a message that may nest messages and groups as deep as the given number. -/
def decodeAt : Nat → Reader
  | 0 => decodeWith (fun _ _ => none) 0
  | depth + 1 => decodeWith (decodeAt depth) (depth + 1)

end MessageKind

/-- The bytes of a message. -/
def Message.encode (m : Message) : List UInt8 :=
  Outline.encodeAll m.outline

namespace Model

/-- How deep messages may be nested in a model. -/
def maxDepth : Nat := 100

/-- The binary form of a model. -/
def encode (m : Model) : List UInt8 :=
  Message.encode ⟨.model, m⟩

/-- Read a model from its binary form. -/
def decode? (content : List UInt8) : Option Model :=
  (Field.readAll content).bind (MessageKind.decodeAt maxDepth .model)

end Model

end OpGraph
