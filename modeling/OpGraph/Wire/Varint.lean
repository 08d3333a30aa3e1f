/-!
# Variable-length integers

A number is written seven bits to a byte, least significant bits first, with the
top bit set on every byte but the last. Reading takes at most ten bytes and
refuses a number of more than 64 bits; leading zero bits are allowed.
`decode_encode` reads back what was written, whatever follows it.
-/

namespace OpGraph.Varint

/-- The shortest written form of a number. -/
def encode (n : Nat) : List UInt8 :=
  if n < 128 then [UInt8.ofNat n] else UInt8.ofNat (n % 128 + 128) :: encode (n / 128)
termination_by n

/-- Read a number of at most the given number of bytes, and what follows it. -/
def decodeWithin : Nat → List UInt8 → Option (Nat × List UInt8)
  | 0, _ => none
  | _ + 1, [] => none
  | budget + 1, b :: rest =>
    if b.toNat < 128 then some (b.toNat, rest)
    else (decodeWithin budget rest).map fun (n, rest) => (b.toNat - 128 + 128 * n, rest)

/-- Read a 64-bit number and what follows it. -/
def decode (bytes : List UInt8) : Option (UInt64 × List UInt8) :=
  match decodeWithin 10 bytes with
  | some (n, rest) => if n < UInt64.size then some (UInt64.ofNat n, rest) else none
  | none => none

theorem length_of_decodeWithin {budget : Nat} {bytes rest : List UInt8} {n : Nat}
    (h : decodeWithin budget bytes = some (n, rest)) : rest.length < bytes.length := by
  induction budget generalizing bytes rest n with
  | zero => simp [decodeWithin] at h
  | succ budget ih =>
    cases bytes with
    | nil => simp [decodeWithin] at h
    | cons b bytes =>
      rw [decodeWithin] at h
      split at h
      · simp only [Option.some.injEq, Prod.mk.injEq] at h
        simp [← h.2]
      · simp only [Option.map_eq_some_iff, Prod.exists] at h
        obtain ⟨m, tail, hm, heq⟩ := h
        simp only [Prod.mk.injEq] at heq
        have := ih hm
        simp only [List.length_cons, ← heq.2]
        omega

/-- Reading a number takes at least one byte. -/
theorem length_of_decode {bytes rest : List UInt8} {n : UInt64}
    (h : decode bytes = some (n, rest)) : rest.length < bytes.length := by
  rw [decode] at h
  split at h
  · next m tail hm =>
    split at h
    · simp only [Option.some.injEq, Prod.mk.injEq] at h
      exact h.2 ▸ length_of_decodeWithin hm
    · simp at h
  · simp at h

/-- A number is read back within a number of bytes that hold its groups of seven bits. -/
theorem decodeWithin_encode {budget : Nat} (n : Nat) (rest : List UInt8)
    (h : n < Nat.pow 128 budget) (hb : 0 < budget) :
    decodeWithin budget (encode n ++ rest) = some (n, rest) := by
  induction budget generalizing n with
  | zero => omega
  | succ budget ih =>
    rw [encode]
    split
    · next hn =>
      have : (UInt8.ofNat n).toNat = n := by
        simp only [UInt8.toNat_ofNat', Nat.reducePow]
        omega
      simp [decodeWithin, this, hn]
    · next hn =>
      have hlow : (UInt8.ofNat (n % 128 + 128)).toNat = n % 128 + 128 := by
        simp only [UInt8.toNat_ofNat', Nat.reducePow]
        omega
      have hpow : Nat.pow 128 (budget + 1) = Nat.pow 128 budget * 128 := rfl
      have hdiv : n / 128 < Nat.pow 128 budget := by
        rw [hpow] at h
        exact Nat.div_lt_of_lt_mul (by rw [Nat.mul_comm]; exact h)
      have hpos : 0 < budget := by
        rcases Nat.eq_zero_or_pos budget with rfl | hpos
        · simp at h
          omega
        · exact hpos
      simp only [List.cons_append, decodeWithin, hlow, ih _ hdiv hpos]
      rw [if_neg (by omega)]
      simp only [Option.map_some, Option.some.injEq, Prod.mk.injEq, and_true]
      omega

/-- A 64-bit number is read back from its written form. -/
@[simp] theorem decode_encode (n : UInt64) (rest : List UInt8) :
    decode (encode n.toNat ++ rest) = some (n, rest) := by
  have hlt : n.toNat < UInt64.size := n.toNat_lt
  have hfits : n.toNat < Nat.pow 128 10 := Nat.lt_of_lt_of_le hlt (by decide)
  rw [decode, decodeWithin_encode n.toNat rest hfits (by decide)]
  simp only [if_pos hlt, UInt64.ofNat_toNat]

end OpGraph.Varint
