import OpGraph.Wire.Payload

/-!
# Scalars

The kinds of plain values a message holds, and how each stands in a payload.
Floating-point numbers are kept as their bits, so that nothing is lost on the
way; they are compared as numbers only by `Single.alike` and `Double.alike`.
`ScalarKind.ofPayload_toPayload` says that every scalar is read back, and
`ScalarKind.readPacked_encode` says so for a run of them.
-/

namespace OpGraph

/-- A single-precision number, by its bits. -/
structure Single where
  bits : UInt32 := 0
deriving DecidableEq, Inhabited

namespace Single

/-- Both zeros, whatever the sign. -/
def isZero (x : Single) : Bool :=
  x.bits == 0 || x.bits == 0x80000000

/-- The bits that mean "not a number". -/
def isNaN (x : Single) : Bool :=
  x.bits &&& 0x7fffffff > 0x7f800000

/-- Equality of numbers: the zeros agree, and what is not a number differs from all. -/
def alike (x y : Single) : Bool :=
  !x.isNaN && (x == y || x.isZero && y.isZero)

end Single

/-- A double-precision number, by its bits. -/
structure Double where
  bits : UInt64 := 0
deriving DecidableEq, Inhabited

namespace Double

/-- Both zeros, whatever the sign. -/
def isZero (x : Double) : Bool :=
  x.bits == 0 || x.bits == 0x8000000000000000

/-- The bits that mean "not a number". -/
def isNaN (x : Double) : Bool :=
  x.bits &&& 0x7fffffffffffffff > 0x7ff0000000000000

/-- Equality of numbers: the zeros agree, and what is not a number differs from all. -/
def alike (x y : Double) : Bool :=
  !x.isNaN && (x == y || x.isZero && y.isZero)

end Double

/-- The kinds of plain values. -/
inductive ScalarKind
  | int32
  | int64
  | uint64
  | single
  | double
  | string
  | bytes
deriving DecidableEq

namespace ScalarKind

/-- The values of a kind. -/
abbrev Value : ScalarKind → Type
  | int32 => Int32
  | int64 => Int64
  | uint64 => UInt64
  | single => Single
  | double => Double
  | string => String
  | bytes => List UInt8

/-- The value of a field that is left out. -/
def default : (k : ScalarKind) → k.Value
  | int32 => (0 : Int32)
  | int64 => (0 : Int64)
  | uint64 => (0 : UInt64)
  | single => (⟨0⟩ : Single)
  | double => (⟨0⟩ : Double)
  | string => ""
  | bytes => []

/-- A value that a single field leaves out: the default, compared as a number. -/
def isDefault : (k : ScalarKind) → k.Value → Bool
  | int32, (n : Int32) => n == 0
  | int64, (n : Int64) => n == 0
  | uint64, (n : UInt64) => n == 0
  | single, (x : Single) => x.isZero
  | double, (x : Double) => x.isZero
  | string, (s : String) => s == ""
  | bytes, (bs : List UInt8) => bs.isEmpty

/-- The form of payload a kind takes. -/
def wireType : ScalarKind → WireType
  | int32 | int64 | uint64 => .varint
  | single => .fixed32
  | double => .fixed64
  | string | bytes => .bytes

/-- The payload of a value. A negative 32-bit integer is widened with its sign. -/
def toPayload : (k : ScalarKind) → k.Value → Payload
  | int32, (n : Int32) => .varint n.toInt64.toUInt64
  | int64, (n : Int64) => .varint n.toUInt64
  | uint64, (n : UInt64) => .varint n
  | single, (x : Single) => .fixed32 x.bits
  | double, (x : Double) => .fixed64 x.bits
  | string, (s : String) => .bytes s.toUTF8.data.toList
  | bytes, (bs : List UInt8) => .bytes bs

/-- The value in a payload of the right form. A 32-bit integer takes the low bits; a string is
UTF-8. -/
def ofPayload : (k : ScalarKind) → Payload → Option k.Value
  | int32, .varint n => some (n.toUInt32.toInt32 : Int32)
  | int64, .varint n => some (n.toInt64 : Int64)
  | uint64, .varint n => some (n : UInt64)
  | single, .fixed32 n => some (⟨n⟩ : Single)
  | double, .fixed64 n => some (⟨n⟩ : Double)
  | string, .bytes bs => String.fromUTF8? ⟨bs.toArray⟩
  | bytes, .bytes bs => some (bs : List UInt8)
  | _, _ => none

@[simp] theorem wireType_toPayload (k : ScalarKind) (v : k.Value) :
    (k.toPayload v).wireType = k.wireType := by
  cases k <;> rfl

/-- Every value is read back from its payload. -/
@[simp] theorem ofPayload_toPayload (k : ScalarKind) (v : k.Value) :
    k.ofPayload (k.toPayload v) = some v := by
  cases k with
  | int32 =>
    have : (Int32.toInt64 v).toUInt64.toUInt32.toInt32 = v := by
      apply Int32.toBitVec_inj.1
      apply BitVec.eq_of_getLsbD_eq
      intro i hi
      simp [Int32.toInt64, BitVec.getLsbD_signExtend, hi]
      omega
    simp [ofPayload, toPayload, this]
  | int64 => simp [ofPayload, toPayload]
  | uint64 => rfl
  | single => rfl
  | double => rfl
  | string => exact dif_pos (String.isValidUTF8 v)
  | bytes => rfl

/-- The values of a packed run. Strings and bytes are never packed. -/
def readPacked (k : ScalarKind) (content : List UInt8) : Option (List k.Value) :=
  if k.wireType = .bytes then none
  else (Payload.readAll k.wireType content).bind fun ps => ps.mapM k.ofPayload

/-- A packed run is read back. -/
theorem readPacked_encode (k : ScalarKind) (h : k.wireType ≠ .bytes) (vs : List k.Value) :
    k.readPacked ((vs.map k.toPayload).flatMap Payload.encode) = some vs := by
  have hall := Payload.readAll_encode k.wireType (vs.map k.toPayload)
    (by simp) (by
      intro content hmem
      obtain ⟨v, -, hv⟩ := List.mem_map.1 hmem
      have := k.wireType_toPayload v
      rw [hv] at this
      exact absurd this.symm h)
  rw [readPacked, if_neg h, hall]
  simp only [Option.bind_some]
  clear hall
  induction vs with
  | nil => rfl
  | cons v vs ih => simp [ih]

end ScalarKind

end OpGraph
