import OpGraph.Wire.Payload

/-!
# Fields

The content of a message is a run of fields. A field is a payload behind a key
that carries the field's number, or a group: fields between an opening and a
closing key of one number. Of a group only its height counts, because no known
message has one. `Field.readAll` splits a content into its fields;
`Field.readAll_append_value` says that it takes a written field off the front.
-/

namespace OpGraph

/-- A field of a message. The height of a group counts the groups and the values nested in it. -/
inductive Field
  | value (number : Nat) (payload : Payload)
  | group (number height : Nat)
deriving DecidableEq

/-- The number of a field. -/
def Field.number : Field → Nat
  | value n _ => n
  | group n _ => n

/-- The largest number of a field. -/
def Field.maxNumber : Nat := 536870911

/-- The levels of nesting it takes to pass over a field. -/
def Field.height : Field → Nat
  | value .. => 1
  | group _ h => h

/-- The bytes of a field's key. -/
def encodeKey (number code : Nat) : List UInt8 :=
  Varint.encode (8 * number + code)

/-- What a key can announce: a payload, or either end of a group. -/
inductive Mark
  | payload (wireType : WireType)
  | openGroup
  | closeGroup

/-- What the low three bits of a key announce. -/
def Mark.ofCode? : Nat → Option Mark
  | 0 => some (.payload .varint)
  | 1 => some (.payload .fixed64)
  | 2 => some (.payload .bytes)
  | 3 => some .openGroup
  | 4 => some .closeGroup
  | 5 => some (.payload .fixed32)
  | _ => none

@[simp] theorem Mark.ofCode?_code (w : WireType) : ofCode? w.code = some (.payload w) := by
  cases w <;> rfl

/-- One piece of a content: a value with its number, or either end of a group. -/
inductive Piece
  | value (number : Nat) (payload : Payload)
  | openGroup (number : Nat)
  | closeGroup (number : Nat)

namespace Piece

/-- Read one piece, and what follows it. A key has at most 32 bits and a number above zero. -/
def read (input : List UInt8) : Option (Piece × List UInt8) :=
  match Varint.decode input with
  | none => none
  | some (key, rest) =>
    if key.toNat < UInt32.size ∧ 8 ≤ key.toNat then
      let number := key.toNat / 8
      match Mark.ofCode? (key.toNat % 8) with
      | some (.payload w) => (Payload.read w rest).map fun (p, rest) => (value number p, rest)
      | some .openGroup => some (openGroup number, rest)
      | some .closeGroup => some (closeGroup number, rest)
      | none => none
    else none

/-- Reading a piece takes at least one byte. -/
theorem length_of_read {input rest : List UInt8} {piece : Piece}
    (h : read input = some (piece, rest)) : rest.length < input.length := by
  rw [read] at h
  split at h
  · simp at h
  · next key tail hkey =>
    have hlt := Varint.length_of_decode hkey
    split at h
    · split at h
      · simp only [Option.map_eq_some_iff, Prod.exists, Prod.mk.injEq] at h
        obtain ⟨p, final, hp, -, rfl⟩ := h
        have := Payload.length_of_read hp
        omega
      · simp_all
      · simp_all
      · simp at h
    · simp at h

/-- Read pieces until the input ends. -/
def readAll (input : List UInt8) : Option (List Piece) :=
  if input.isEmpty then some []
  else
    match _ : read input with
    | some (piece, rest) => (readAll rest).map (piece :: ·)
    | none => none
termination_by input.length
decreasing_by exact length_of_read ‹_›

@[simp] theorem readAll_nil : readAll [] = some [] := by
  rw [readAll]
  rfl

theorem readAll_of_read {input rest : List UInt8} {piece : Piece}
    (h : read input = some (piece, rest)) : readAll input = (readAll rest).map (piece :: ·) := by
  have hne : input.isEmpty = false := by
    have := length_of_read h
    cases input with
    | nil => simp at this
    | cons b input => rfl
  rw [readAll]
  simp only [hne, Bool.false_eq_true, if_false]
  split
  · next q tail hq =>
    rw [h, Option.some.injEq, Prod.mk.injEq] at hq
    rw [← hq.1, ← hq.2]
  · next hq => simp [h] at hq

/-- A written value is read back with its number. -/
theorem read_encode {number : Nat} (p : Payload) (rest : List UInt8) (hpos : 0 < number)
    (hnum : number ≤ Field.maxNumber) (h : ∀ content, p = .bytes content → content.length < UInt64.size) :
    read (encodeKey number p.wireType.code ++ (p.encode ++ rest)) = some (value number p, rest) := by
  have hcode : p.wireType.code < 8 := by
    cases p <;> simp [Payload.wireType, WireType.code]
  simp only [Field.maxNumber] at hnum
  have hnat : (UInt64.ofNat (8 * number + p.wireType.code)).toNat =
      8 * number + p.wireType.code := by
    simp only [UInt64.toNat_ofNat', Nat.reducePow]
    omega
  have hkey := Varint.decode_encode (UInt64.ofNat (8 * number + p.wireType.code))
    (p.encode ++ rest)
  rw [hnat] at hkey
  rw [read, encodeKey, hkey]
  simp only [hnat]
  rw [if_pos (by simp only [UInt32.size]; omega)]
  have hmod : (8 * number + p.wireType.code) % 8 = p.wireType.code := by omega
  have hdiv : (8 * number + p.wireType.code) / 8 = number := by omega
  simp only [hmod, hdiv, Mark.ofCode?_code]
  rw [Payload.read_encode p rest h]
  rfl

end Piece

/-- A group that is open: its number, and the height of what it holds so far. -/
structure OpenGroup where
  number : Nat
  height : Nat

/-- Close the groups of a run of pieces. The stack holds the open groups, innermost first; a group
closes under its own number, and none stays open. -/
def Field.ofPieces : List OpenGroup → List Piece → Option (List Field)
  | [], [] => some []
  | _ :: _, [] => none
  | stack, .openGroup n :: pieces => ofPieces (⟨n, 0⟩ :: stack) pieces
  | [], .value n p :: pieces => (ofPieces [] pieces).map (.value n p :: ·)
  | g :: stack, .value _ _ :: pieces => ofPieces ({ g with height := max g.height 1 } :: stack) pieces
  | [], .closeGroup _ :: _ => none
  | g :: stack, .closeGroup n :: pieces =>
    if g.number = n then
      match stack with
      | [] => (ofPieces [] pieces).map (.group n (g.height + 1) :: ·)
      | outer :: stack =>
        ofPieces ({ outer with height := max outer.height (g.height + 1) } :: stack) pieces
    else none

namespace Field

/-- Split the content of a message into its fields. -/
def readAll (content : List UInt8) : Option (List Field) :=
  (Piece.readAll content).bind (ofPieces [])

@[simp] theorem readAll_nil : readAll [] = some [] := by
  simp [readAll, ofPieces]

/-- A written value at the front of a content is its first field. -/
theorem readAll_append_value {number : Nat} (p : Payload) (rest : List UInt8) (hpos : 0 < number)
    (hnum : number ≤ Field.maxNumber) (h : ∀ content, p = .bytes content → content.length < UInt64.size) :
    readAll (encodeKey number p.wireType.code ++ (p.encode ++ rest)) =
      (readAll rest).map (value number p :: ·) := by
  rw [readAll, readAll, Piece.readAll_of_read (Piece.read_encode p rest hpos hnum h)]
  cases Piece.readAll rest with
  | none => rfl
  | some pieces => simp [ofPieces]

end Field

end OpGraph
