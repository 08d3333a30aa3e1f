import OpGraph.Wire.Varint

/-!
# Payloads

What stands behind a field's key: a variable-length integer, four or eight bytes
in little-endian order, or a run of bytes with its length in front.
`Payload.read_encode` reads back a written payload, whatever follows it, and
`Payload.readAll_encode` a run of them.
-/

namespace OpGraph

/-- The forms a payload can take. -/
inductive WireType
  | varint
  | fixed64
  | bytes
  | fixed32
deriving DecidableEq

/-- The number that stands for a form in a key. -/
def WireType.code : WireType → Nat
  | .varint => 0
  | .fixed64 => 1
  | .bytes => 2
  | .fixed32 => 5

/-- The value behind a field's key. -/
inductive Payload
  | varint (value : UInt64)
  | fixed64 (value : UInt64)
  | bytes (content : List UInt8)
  | fixed32 (value : UInt32)
deriving DecidableEq

/-- A number in a fixed count of bytes, least significant first. -/
def littleEndian : Nat → Nat → List UInt8
  | 0, _ => []
  | count + 1, n => UInt8.ofNat n :: littleEndian count (n / 256)

/-- Read a number of a fixed count of bytes, and what follows it. -/
def readLittleEndian : Nat → List UInt8 → Option (Nat × List UInt8)
  | 0, rest => some (0, rest)
  | _ + 1, [] => none
  | count + 1, b :: rest =>
    (readLittleEndian count rest).map fun (n, rest) => (b.toNat + 256 * n, rest)

@[simp] theorem readLittleEndian_littleEndian (count n : Nat) (rest : List UInt8) :
    readLittleEndian count (littleEndian count n ++ rest) = some (n % Nat.pow 256 count, rest) := by
  induction count generalizing n with
  | zero => simp [littleEndian, readLittleEndian, Nat.mod_one]
  | succ count ih =>
    simp only [littleEndian, List.cons_append, readLittleEndian, ih, Option.map_some,
      UInt8.toNat_ofNat', Nat.reducePow, Option.some.injEq, Prod.mk.injEq, and_true]
    have hpow : Nat.pow 256 (count + 1) = 256 * Nat.pow 256 count := Nat.mul_comm _ _
    rw [hpow, Nat.mod_mul]

theorem length_of_readLittleEndian {count n : Nat} {bytes rest : List UInt8}
    (h : readLittleEndian count bytes = some (n, rest)) : rest.length + count = bytes.length := by
  induction count generalizing bytes n with
  | zero =>
    simp only [readLittleEndian, Option.some.injEq, Prod.mk.injEq] at h
    simp [h.2]
  | succ count ih =>
    cases bytes with
    | nil => simp [readLittleEndian] at h
    | cons b bytes =>
      simp only [readLittleEndian, Option.map_eq_some_iff, Prod.exists] at h
      obtain ⟨m, tail, hm, heq⟩ := h
      simp only [Prod.mk.injEq] at heq
      have := ih (heq.2 ▸ hm)
      simp only [List.length_cons]
      omega

namespace Payload

/-- The form of a payload. -/
def wireType : Payload → WireType
  | varint _ => .varint
  | fixed64 _ => .fixed64
  | bytes _ => .bytes
  | fixed32 _ => .fixed32

/-- The bytes of a payload, without the key. -/
def encode : Payload → List UInt8
  | varint n => Varint.encode n.toNat
  | fixed64 n => littleEndian 8 n.toNat
  | bytes content => Varint.encode content.length ++ content
  | fixed32 n => littleEndian 4 n.toNat

/-- Read a payload of a known form, and what follows it. -/
def read : WireType → List UInt8 → Option (Payload × List UInt8)
  | .varint, input => (Varint.decode input).map fun (n, rest) => (varint n, rest)
  | .fixed64, input => (readLittleEndian 8 input).map fun (n, rest) => (fixed64 (.ofNat n), rest)
  | .fixed32, input => (readLittleEndian 4 input).map fun (n, rest) => (fixed32 (.ofNat n), rest)
  | .bytes, input =>
    match Varint.decode input with
    | some (length, rest) =>
      if length.toNat ≤ rest.length then
        some (bytes (rest.take length.toNat), rest.drop length.toNat)
      else none
    | none => none

/-- A written payload is read back. A run of bytes is short enough for its length to be written
in 64 bits. -/
theorem read_encode (p : Payload) (rest : List UInt8)
    (h : ∀ content, p = bytes content → content.length < UInt64.size) :
    read p.wireType (p.encode ++ rest) = some (p, rest) := by
  cases p with
  | varint n => simp [read, wireType, encode]
  | fixed64 n =>
    have : n.toNat % 18446744073709551616 = n.toNat := Nat.mod_eq_of_lt n.toNat_lt
    simp [read, wireType, encode, this]
  | fixed32 n =>
    have : n.toNat % 4294967296 = n.toNat := Nat.mod_eq_of_lt n.toNat_lt
    simp [read, wireType, encode, this]
  | bytes content =>
    have hlen := h content rfl
    have hnat : (UInt64.ofNat content.length).toNat = content.length := by
      simpa using Nat.mod_eq_of_lt hlen
    have hdec := Varint.decode_encode (UInt64.ofNat content.length) (content ++ rest)
    rw [hnat] at hdec
    simp [read, wireType, encode, hdec, hnat]

/-- Reading a payload takes at least one byte. -/
theorem length_of_read {w : WireType} {input rest : List UInt8} {p : Payload}
    (h : read w input = some (p, rest)) : rest.length < input.length := by
  cases w with
  | varint =>
    simp only [read, Option.map_eq_some_iff, Prod.exists, Prod.mk.injEq] at h
    obtain ⟨n, tail, hn, -, rfl⟩ := h
    exact Varint.length_of_decode hn
  | fixed64 =>
    simp only [read, Option.map_eq_some_iff, Prod.exists, Prod.mk.injEq] at h
    obtain ⟨n, tail, hn, -, rfl⟩ := h
    have := length_of_readLittleEndian hn
    omega
  | fixed32 =>
    simp only [read, Option.map_eq_some_iff, Prod.exists, Prod.mk.injEq] at h
    obtain ⟨n, tail, hn, -, rfl⟩ := h
    have := length_of_readLittleEndian hn
    omega
  | bytes =>
    rw [read] at h
    split at h
    · next n tail hn =>
      split at h
      · simp only [Option.some.injEq, Prod.mk.injEq] at h
        have := Varint.length_of_decode hn
        rw [← h.2, List.length_drop]
        omega
      · simp at h
    · simp at h

/-- Read payloads of one form until the input ends. -/
def readAll (w : WireType) (input : List UInt8) : Option (List Payload) :=
  if input.isEmpty then some []
  else
    match _ : read w input with
    | some (p, rest) => (readAll w rest).map (p :: ·)
    | none => none
termination_by input.length
decreasing_by exact length_of_read ‹_›

@[simp] theorem readAll_nil (w : WireType) : readAll w [] = some [] := by
  rw [readAll]
  rfl

theorem readAll_of_read {w : WireType} {input rest : List UInt8} {p : Payload}
    (h : read w input = some (p, rest)) : readAll w input = (readAll w rest).map (p :: ·) := by
  have hne : input.isEmpty = false := by
    have := length_of_read h
    cases input with
    | nil => simp at this
    | cons b input => rfl
  rw [readAll]
  simp only [hne, Bool.false_eq_true, if_false]
  split
  · next q tail hq =>
    rw [h, Option.some.injEq, Prod.mk.injEq] at hq
    rw [← hq.1, ← hq.2]
  · next hq => simp [h] at hq

/-- A run of payloads of one form is read back. -/
theorem readAll_encode (w : WireType) (ps : List Payload) (hw : ∀ p ∈ ps, p.wireType = w)
    (hl : ∀ content, bytes content ∈ ps → content.length < UInt64.size) :
    readAll w (ps.flatMap encode) = some ps := by
  induction ps with
  | nil => simp
  | cons p ps ih =>
    have hp : read w (p.encode ++ ps.flatMap encode) = some (p, ps.flatMap encode) := by
      rw [← hw p (by simp)]
      exact read_encode p _ fun content hc => hl content (by simp [hc])
    rw [List.flatMap_cons, readAll_of_read hp,
      ih (fun q hq => hw q (by simp [hq])) (fun c hc => hl c (by simp [hc]))]
    rfl

end Payload

end OpGraph
