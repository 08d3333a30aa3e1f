import OpGraph.Wire.Field

/-!
# The forms of fields

Which bytes are a run of fields, without reference to how they are read. A number
may have leading zero bits as long as it takes no more than ten bytes; a field is
a payload behind its key, or a run of fields between the keys that open and close
a group (`Field.Written`). A content is read if and only if it is such a run, and
then as its fields (`Field.readAll_eq_some_iff`); and a run of fields is read as
these fields whatever bytes follow it (`Field.Written.readAll_append`).
-/

namespace OpGraph

/-! ### Numbers -/

namespace Varint

/-- The bytes of a number: seven bits each, least significant first, the top bit set on all but the
last. -/
inductive Spells : Nat → List UInt8 → Prop
  | last {b : UInt8} (h : b.toNat < 128) : Spells b.toNat [b]
  | more {b : UInt8} {n : Nat} {bytes : List UInt8} (h : 128 ≤ b.toNat) (hn : Spells n bytes) :
      Spells (b.toNat - 128 + 128 * n) (b :: bytes)

theorem Spells.decodeWithin_append {n budget : Nat} {bytes : List UInt8} (h : Spells n bytes)
    (hlength : bytes.length ≤ budget) (rest : List UInt8) :
    decodeWithin budget (bytes ++ rest) = some (n, rest) := by
  induction h generalizing budget with
  | @last b hb =>
    rw [List.length_singleton] at hlength
    obtain ⟨budget, rfl⟩ : ∃ m, budget = m + 1 := ⟨budget - 1, by omega⟩
    simp [decodeWithin, hb]
  | @more b n bytes hb _ ih =>
    rw [List.length_cons] at hlength
    obtain ⟨budget, rfl⟩ : ∃ m, budget = m + 1 := ⟨budget - 1, by omega⟩
    rw [List.cons_append, decodeWithin, if_neg (by omega), ih (by omega), Option.map_some]

theorem exists_spells {n budget : Nat} {input rest : List UInt8}
    (h : decodeWithin budget input = some (n, rest)) :
    ∃ bytes, input = bytes ++ rest ∧ Spells n bytes ∧ bytes.length ≤ budget := by
  induction budget generalizing input n with
  | zero => simp [decodeWithin] at h
  | succ budget ih =>
    cases input with
    | nil => simp [decodeWithin] at h
    | cons b input =>
      rw [decodeWithin] at h
      by_cases hb : b.toNat < 128
      · rw [if_pos hb, Option.some.injEq, Prod.mk.injEq] at h
        obtain ⟨rfl, rfl⟩ := h
        exact ⟨[b], rfl, .last hb, by simp⟩
      · rw [if_neg hb, Option.map_eq_some_iff] at h
        obtain ⟨⟨m, tail⟩, hm, heq⟩ := h
        rw [Prod.mk.injEq] at heq
        obtain ⟨rfl, rfl⟩ := heq
        obtain ⟨bytes, rfl, hbytes, hlength⟩ := ih hm
        exact ⟨b :: bytes, rfl, .more (by omega) hbytes, by simpa using hlength⟩

/-- The bytes of a 64-bit number: no more than ten. -/
structure IsForm (n : Nat) (form : List UInt8) : Prop where
  spells : Spells n form
  length_le : form.length ≤ 10
  lt : n < UInt64.size

theorem IsForm.decode_append {n : Nat} {form : List UInt8} (h : IsForm n form)
    (rest : List UInt8) : decode (form ++ rest) = some (.ofNat n, rest) := by
  simp only [decode, h.spells.decodeWithin_append h.length_le, if_pos h.lt]

theorem exists_form {n : UInt64} {input rest : List UInt8} (h : decode input = some (n, rest)) :
    ∃ form, input = form ++ rest ∧ IsForm n.toNat form := by
  unfold decode at h
  split at h
  · next m tail hm =>
    split at h
    · next hlt =>
      rw [Option.some.injEq, Prod.mk.injEq] at h
      obtain ⟨rfl, rfl⟩ := h
      obtain ⟨form, rfl, hspells, hlength⟩ := exists_spells hm
      have hnat : (UInt64.ofNat m).toNat = m := UInt64.toNat_ofNat_of_lt hlt
      exact ⟨form, rfl, hnat.symm ▸ ⟨hspells, hlength, hlt⟩⟩
    · simp at h
  · simp at h

end Varint

/-! ### Payloads -/

theorem readLittleEndian_eq_some_iff {count n : Nat} {input rest : List UInt8} :
    readLittleEndian count input = some (n, rest) ↔
      n < Nat.pow 256 count ∧ input = littleEndian count n ++ rest := by
  induction count generalizing input n with
  | zero => simp [readLittleEndian, littleEndian, eq_comm]
  | succ count ih =>
    have hpow : Nat.pow 256 (count + 1) = Nat.pow 256 count * 256 := rfl
    constructor
    · intro h
      cases input with
      | nil => simp [readLittleEndian] at h
      | cons b input =>
        rw [readLittleEndian, Option.map_eq_some_iff] at h
        obtain ⟨⟨m, tail⟩, hm, heq⟩ := h
        rw [Prod.mk.injEq] at heq
        obtain ⟨rfl, rfl⟩ := heq
        obtain ⟨hlt, rfl⟩ := ih.1 hm
        have hb := b.toNat_lt
        have hlow : UInt8.ofNat (b.toNat + 256 * m) = b := by
          rw [← UInt8.toNat_inj, UInt8.toNat_ofNat']
          omega
        have hhigh : (b.toNat + 256 * m) / 256 = m := by omega
        refine ⟨by omega, ?_⟩
        rw [littleEndian, hlow, hhigh, List.cons_append]
    · rintro ⟨hlt, rfl⟩
      rw [readLittleEndian_littleEndian, Nat.mod_eq_of_lt hlt]

namespace Payload

/-- The bytes of a payload. Numbers may have leading zero bits, also the length of a run of
bytes. -/
inductive IsForm : Payload → List UInt8 → Prop
  | varint {n : UInt64} {form : List UInt8} (h : Varint.IsForm n.toNat form) :
      IsForm (varint n) form
  | fixed64 (n : UInt64) : IsForm (fixed64 n) (littleEndian 8 n.toNat)
  | fixed32 (n : UInt32) : IsForm (fixed32 n) (littleEndian 4 n.toNat)
  | bytes {length content : List UInt8} (h : Varint.IsForm content.length length) :
      IsForm (bytes content) (length ++ content)

theorem IsForm.read_append {p : Payload} {form : List UInt8} (h : p.IsForm form)
    (rest : List UInt8) : read p.wireType (form ++ rest) = some (p, rest) := by
  cases h with
  | varint h => simp [read, wireType, h.decode_append]
  | fixed64 n =>
    have hlt : n.toNat < Nat.pow 256 8 := n.toNat_lt
    simp only [read, wireType, readLittleEndian_eq_some_iff.2 ⟨hlt, rfl⟩, Option.map_some,
      UInt64.ofNat_toNat]
  | fixed32 n =>
    have hlt : n.toNat < Nat.pow 256 4 := n.toNat_lt
    simp only [read, wireType, readLittleEndian_eq_some_iff.2 ⟨hlt, rfl⟩, Option.map_some,
      UInt32.ofNat_toNat]
  | @bytes length content h =>
    have hnat : (UInt64.ofNat content.length).toNat = content.length :=
      UInt64.toNat_ofNat_of_lt h.lt
    simp [read, wireType, List.append_assoc, h.decode_append, hnat]

theorem exists_form {w : WireType} {p : Payload} {input rest : List UInt8}
    (h : read w input = some (p, rest)) :
    p.wireType = w ∧ ∃ form, input = form ++ rest ∧ p.IsForm form := by
  cases w with
  | varint =>
    simp only [read, Option.map_eq_some_iff, Prod.exists, Prod.mk.injEq] at h
    obtain ⟨n, tail, hn, rfl, rfl⟩ := h
    obtain ⟨form, rfl, hform⟩ := Varint.exists_form hn
    exact ⟨rfl, form, rfl, .varint hform⟩
  | fixed64 =>
    simp only [read, Option.map_eq_some_iff, Prod.exists, Prod.mk.injEq] at h
    obtain ⟨n, tail, hn, rfl, rfl⟩ := h
    obtain ⟨hlt, rfl⟩ := readLittleEndian_eq_some_iff.1 hn
    have hnat : (UInt64.ofNat n).toNat = n := UInt64.toNat_ofNat_of_lt hlt
    exact ⟨rfl, _, rfl, by simpa only [hnat] using IsForm.fixed64 (.ofNat n)⟩
  | fixed32 =>
    simp only [read, Option.map_eq_some_iff, Prod.exists, Prod.mk.injEq] at h
    obtain ⟨n, tail, hn, rfl, rfl⟩ := h
    obtain ⟨hlt, rfl⟩ := readLittleEndian_eq_some_iff.1 hn
    have hnat : (UInt32.ofNat n).toNat = n := UInt32.toNat_ofNat_of_lt hlt
    exact ⟨rfl, _, rfl, by simpa only [hnat] using IsForm.fixed32 (.ofNat n)⟩
  | bytes =>
    rw [read] at h
    split at h
    · next length tail hlength =>
      split at h
      · next hle =>
        rw [Option.some.injEq, Prod.mk.injEq] at h
        obtain ⟨rfl, rfl⟩ := h
        obtain ⟨form, rfl, hform⟩ := Varint.exists_form hlength
        refine ⟨rfl, form ++ tail.take length.toNat, ?_, .bytes ?_⟩
        · rw [List.append_assoc, List.take_append_drop]
        · rwa [List.length_take_of_le hle]
      · simp at h
    · simp at h

end Payload

/-! ### Pieces -/

/-- The low three bits of a key. -/
def Mark.code : Mark → Nat
  | payload w => w.code
  | openGroup => 3
  | closeGroup => 4

theorem Mark.code_lt (m : Mark) : m.code < 8 := by
  cases m with
  | payload w => cases w <;> decide
  | openGroup | closeGroup => decide

theorem Mark.ofCode?_eq_some_iff {m : Mark} {code : Nat} : ofCode? code = some m ↔ code = m.code := by
  constructor
  · intro h
    unfold ofCode? at h
    split at h
    all_goals cases h
    all_goals rfl
  · rintro rfl
    cases m with
    | payload w => exact ofCode?_code w
    | openGroup | closeGroup => rfl

/-- The bytes of a key, which has no more than 32 bits and a number above zero. -/
structure IsKey (number : Nat) (mark : Mark) (form : List UInt8) : Prop where
  pos : 0 < number
  lt : 8 * number + mark.code < UInt32.size
  form : Varint.IsForm (8 * number + mark.code) form

namespace Piece

/-- The bytes of a piece: a payload behind its key, or the key of either end of a group. -/
inductive IsForm : Piece → List UInt8 → Prop
  | value {number : Nat} {p : Payload} {key payload : List UInt8}
      (hkey : IsKey number (.payload p.wireType) key) (hp : p.IsForm payload) :
      IsForm (value number p) (key ++ payload)
  | openGroup {number : Nat} {key : List UInt8} (hkey : IsKey number .openGroup key) :
      IsForm (openGroup number) key
  | closeGroup {number : Nat} {key : List UInt8} (hkey : IsKey number .closeGroup key) :
      IsForm (closeGroup number) key

/-- What is read behind a key. -/
def readMarked (number : Nat) (rest : List UInt8) : Mark → Option (Piece × List UInt8)
  | .payload w => (Payload.read w rest).map fun (p, rest) => (value number p, rest)
  | .openGroup => some (openGroup number, rest)
  | .closeGroup => some (closeGroup number, rest)

theorem read_append_of_isKey {number : Nat} {mark : Mark} {key : List UInt8}
    (hkey : IsKey number mark key) (rest : List UInt8) :
    read (key ++ rest) = readMarked number rest mark := by
  have hpos := hkey.pos
  have hcode := mark.code_lt
  have hnat : (UInt64.ofNat (8 * number + mark.code)).toNat = 8 * number + mark.code :=
    UInt64.toNat_ofNat_of_lt hkey.form.lt
  have hmod : (8 * number + mark.code) % 8 = mark.code := by omega
  have hdiv : (8 * number + mark.code) / 8 = number := by omega
  rw [read, hkey.form.decode_append]
  simp only [hnat, hmod, hdiv]
  rw [if_pos ⟨hkey.lt, by omega⟩, Mark.ofCode?_eq_some_iff.2 rfl]
  cases mark <;> rfl

theorem IsForm.read_append {piece : Piece} {form : List UInt8} (h : piece.IsForm form)
    (rest : List UInt8) : read (form ++ rest) = some (piece, rest) := by
  cases h with
  | value hkey hp =>
    rw [List.append_assoc, read_append_of_isKey hkey, readMarked, hp.read_append, Option.map_some]
  | openGroup hkey => exact read_append_of_isKey hkey rest
  | closeGroup hkey => exact read_append_of_isKey hkey rest

/-- A key stands where a piece is read. -/
theorem exists_isKey {piece : Piece} {input rest : List UInt8} (h : read input = some (piece, rest)) :
    ∃ number mark key tail, input = key ++ tail ∧ IsKey number mark key := by
  unfold read at h
  split at h
  · simp at h
  · next key tail hkey =>
    obtain ⟨form, rfl, hform⟩ := Varint.exists_form hkey
    split at h
    · next hbounds =>
      cases hmark : Mark.ofCode? (key.toNat % 8) with
      | none => simp [hmark] at h
      | some mark =>
        have hcode := Mark.ofCode?_eq_some_iff.1 hmark
        have hkeyNat : 8 * (key.toNat / 8) + mark.code = key.toNat := by omega
        exact ⟨key.toNat / 8, mark, form, tail, rfl, by omega, hkeyNat.symm ▸ hbounds.1,
          hkeyNat.symm ▸ hform⟩
    · simp at h

theorem exists_form {piece : Piece} {input rest : List UInt8}
    (h : read input = some (piece, rest)) : ∃ form, input = form ++ rest ∧ piece.IsForm form := by
  obtain ⟨number, mark, key, tail, rfl, hkey⟩ := exists_isKey h
  rw [read_append_of_isKey hkey] at h
  cases mark with
  | payload w =>
    rw [readMarked, Option.map_eq_some_iff] at h
    obtain ⟨⟨p, tail⟩, hp, heq⟩ := h
    cases heq
    obtain ⟨rfl, form, rfl, hform⟩ := Payload.exists_form hp
    exact ⟨key ++ form, (List.append_assoc ..).symm, .value hkey hform⟩
  | openGroup =>
    cases h
    exact ⟨key, rfl, .openGroup hkey⟩
  | closeGroup =>
    cases h
    exact ⟨key, rfl, .closeGroup hkey⟩

end Piece

/-! ### Groups -/

/-- The levels of nesting that it takes to pass over all fields of a run. -/
def Field.heightAll : List Field → Nat
  | [] => 0
  | f :: fs => max f.height (heightAll fs)

namespace OpenGroup

/-- The open groups once some fields have been read in the innermost one. -/
def after : List OpenGroup → List Field → List OpenGroup
  | [], _ => []
  | g :: stack, fs => { g with height := max g.height (Field.heightAll fs) } :: stack

/-- The fields that lie in no open group. -/
def outside : List OpenGroup → List Field → List Field
  | [], fs => fs
  | _ :: _, _ => []

variable {stack : List OpenGroup} {f : Field} {fs : List Field}

@[simp] theorem after_nil : after stack [] = stack := by
  cases stack <;> simp [after, Field.heightAll]

@[simp] theorem outside_nil : outside stack [] = [] := by
  cases stack <;> rfl

@[simp] theorem outside_after : outside (after stack [f]) fs = outside stack fs := by
  cases stack <;> rfl

theorem after_after : after (after stack [f]) fs = after stack (f :: fs) := by
  cases stack <;> simp [after, Field.heightAll, Nat.max_assoc]

theorem map_outside (fields : Option (List Field)) :
    (fields.map (outside stack fs ++ ·)).map (outside stack [f] ++ ·) =
      fields.map (outside stack (f :: fs) ++ ·) := by
  rw [Option.map_map]
  cases stack <;> rfl

end OpenGroup

namespace Field

/-- Read the fields of a content behind the keys that have opened some groups. -/
def readIn (stack : List OpenGroup) (content : List UInt8) : Option (List Field) :=
  (Piece.readAll content).bind (ofPieces stack)

open OpenGroup

variable {stack : List OpenGroup} {content rest : List UInt8} {number : Nat}

theorem readIn_nil : readIn stack [] = if stack = [] then some [] else none := by
  cases stack <;> simp [readIn, ofPieces]

theorem readIn_of_read_eq_none (h : Piece.read content = none) (hne : content ≠ []) :
    readIn stack content = none := by
  have hread : Piece.readAll content = none := by
    rw [Piece.readAll, if_neg (by simpa using hne)]
    split
    · next hsome => simp [h] at hsome
    · rfl
  rw [readIn, hread, Option.bind_none]

theorem readIn_value {p : Payload} (h : Piece.read content = some (.value number p, rest)) :
    readIn stack content =
      (readIn (after stack [.value number p]) rest).map (outside stack [.value number p] ++ ·) := by
  rw [readIn, readIn, Piece.readAll_of_read h]
  cases Piece.readAll rest <;> cases stack <;>
    simp [ofPieces, after, outside, heightAll, height]

theorem readIn_openGroup (h : Piece.read content = some (.openGroup number, rest)) :
    readIn stack content = readIn (⟨number, 0⟩ :: stack) rest := by
  rw [readIn, readIn, Piece.readAll_of_read h]
  cases Piece.readAll rest <;> cases stack <;> simp [ofPieces]

theorem readIn_closeGroup_of_nil (h : Piece.read content = some (.closeGroup number, rest)) :
    readIn [] content = none := by
  rw [readIn, Piece.readAll_of_read h]
  cases Piece.readAll rest <;> simp [ofPieces]

theorem readIn_closeGroup {g : OpenGroup}
    (h : Piece.read content = some (.closeGroup number, rest)) :
    readIn (g :: stack) content =
      if g.number = number then
        (readIn (after stack [.group number (g.height + 1)]) rest).map
          (outside stack [.group number (g.height + 1)] ++ ·)
      else none := by
  rw [readIn, readIn, Piece.readAll_of_read h]
  cases Piece.readAll rest <;> cases stack <;>
    simp [ofPieces, after, outside, heightAll, height]

/-! ### Runs of fields -/

/-- The bytes of a run of fields. A field is a value behind its key, or a group: a run of fields
between an opening and a closing key of one number. -/
inductive Written : List Field → List UInt8 → Prop
  | nil : Written [] []
  | value {number : Nat} {p : Payload} {fs : List Field} {form rest : List UInt8}
      (hform : (Piece.value number p).IsForm form) (hrest : Written fs rest) :
      Written (.value number p :: fs) (form ++ rest)
  | group {number : Nat} {inner fs : List Field} {opening content closing rest : List UInt8}
      (hopening : (Piece.openGroup number).IsForm opening) (hcontent : Written inner content)
      (hclosing : (Piece.closeGroup number).IsForm closing) (hrest : Written fs rest) :
      Written (.group number (heightAll inner + 1) :: fs) (opening ++ (content ++ (closing ++ rest)))

namespace Written

variable {f : Field} {fs gs : List Field} {front back : List UInt8}

theorem append (hfront : Written fs front) (hback : Written gs back) :
    Written (fs ++ gs) (front ++ back) := by
  induction hfront with
  | nil => exact hback
  | value hform _ ih =>
    rw [List.append_assoc]
    exact .value hform ih
  | group hopening hcontent hclosing _ _ ih =>
    rw [List.append_assoc, List.append_assoc, List.append_assoc]
    exact .group hopening hcontent hclosing ih

/-- A run of fields is read first, whatever groups are open and whatever follows it. -/
theorem readIn_append (h : Written fs front) (stack : List OpenGroup) (back : List UInt8) :
    readIn stack (front ++ back) =
      (readIn (after stack fs) back).map (outside stack fs ++ ·) := by
  induction h generalizing stack back with
  | nil => simp
  | value hform _ ih =>
    rw [List.append_assoc, readIn_value (hform.read_append _), ih, outside_after, after_after,
      map_outside]
  | group hopening _ hclosing _ ihcontent ih =>
    rw [List.append_assoc, List.append_assoc, List.append_assoc,
      readIn_openGroup (hopening.read_append _), ihcontent, after, outside]
    simp only [List.nil_append, Option.map_id']
    rw [readIn_closeGroup (hclosing.read_append _), if_pos rfl, ih, Nat.zero_max, outside_after,
      after_after, map_outside]

/-- A run of fields is read as its fields, whatever follows it. -/
theorem readAll_append (h : Written fs front) (back : List UInt8) :
    readAll (front ++ back) = (readAll back).map (fs ++ ·) :=
  h.readIn_append [] back

end Written

/-- The bytes that are left of a content while some groups are open: what is still missing of each
of them, with its closing key, and the fields behind them. -/
inductive Completes : List OpenGroup → List Field → List UInt8 → Prop
  | done {fs : List Field} {content : List UInt8} (h : Written fs content) : Completes [] fs content
  | close {g : OpenGroup} {stack : List OpenGroup} {inner fs : List Field}
      {content closing rest : List UInt8} {height : Nat} (hcontent : Written inner content)
      (hheight : height = max g.height (heightAll inner) + 1)
      (hclosing : (Piece.closeGroup g.number).IsForm closing)
      (hrest : Completes (after stack [.group g.number height]) fs rest) :
      Completes (g :: stack) (outside stack [.group g.number height] ++ fs)
        (content ++ (closing ++ rest))

/-- A field in front of what is left belongs to the innermost group. -/
theorem Completes.cons {f : Field} {fs : List Field} {form : List UInt8} (hf : Written [f] form)
    (h : Completes (after stack [f]) fs rest) :
    Completes stack (outside stack [f] ++ fs) (form ++ rest) := by
  cases stack with
  | nil =>
    cases h with
    | done h => exact .done (hf.append h)
  | cons g stack =>
    cases h with
    | @close _ _ inner fs content closing rest height hcontent hheight hclosing hrest =>
      rw [outside, List.nil_append, ← List.append_assoc]
      refine .close (hf.append hcontent) ?_ hclosing hrest
      simp [hheight, heightAll, Nat.max_assoc]

/-- What is read with some groups open is what completes them, by induction on the bytes: the first
piece is put in front of what the others complete. -/
theorem completes_of_readIn {fs : List Field} (h : readIn stack content = some fs) :
    Completes stack fs content := by
  induction hlength : content.length using Nat.strongRecOn generalizing stack content fs with
  | _ length ih =>
    subst hlength
    cases hread : Piece.read content with
    | none =>
      by_cases hnil : content = []
      · subst hnil
        rw [readIn_nil] at h
        split at h
        · next hstack =>
          cases h
          exact hstack ▸ .done .nil
        · cases h
      · rw [readIn_of_read_eq_none hread hnil] at h
        cases h
    | some result =>
      obtain ⟨piece, rest⟩ := result
      have hlt := Piece.length_of_read hread
      obtain ⟨form, rfl, hform⟩ := Piece.exists_form hread
      cases piece with
      | value number p =>
        rw [readIn_value hread, Option.map_eq_some_iff] at h
        obtain ⟨gs, hgs, rfl⟩ := h
        have hvalue : Written [.value number p] (form ++ []) := .value hform .nil
        rw [List.append_nil] at hvalue
        exact .cons hvalue (ih _ hlt hgs rfl)
      | openGroup number =>
        -- the group that opens here is the first one to be completed
        rw [readIn_openGroup hread] at h
        cases ih _ hlt h rfl with
        | @close _ _ inner gs content closing rest height hcontent hheight hclosing hrest =>
          rw [Nat.zero_max] at hheight
          subst hheight
          have hgroup := Completes.cons (.group hform hcontent hclosing .nil) hrest
          simpa only [List.append_assoc, List.append_nil, List.nil_append] using hgroup
      | closeGroup number =>
        cases stack with
        | nil =>
          rw [readIn_closeGroup_of_nil hread] at h
          cases h
        | cons g stack =>
          rw [readIn_closeGroup hread] at h
          split at h
          · next hnumber =>
            obtain ⟨gs, hgs, rfl⟩ := Option.map_eq_some_iff.1 h
            subst hnumber
            -- nothing is missing of a group that closes here
            exact .close .nil (by simp [heightAll]) hform (ih _ hlt hgs rfl)
          · cases h

/-- **What is read.** A content is read just where it is a run of fields, and then as these. -/
theorem readAll_eq_some_iff {fs : List Field} : readAll content = some fs ↔ Written fs content := by
  constructor
  · intro h
    have hcompletes : Completes [] fs content := completes_of_readIn h
    cases hcompletes with
    | done h => exact h
  · intro h
    have hread := h.readAll_append []
    rwa [List.append_nil, readAll_nil, Option.map_some, List.append_nil] at hread

end Field

end OpGraph
