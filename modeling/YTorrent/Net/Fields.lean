import YTorrent.Net.Message

/-!
# Fields of a message

What a reader of an `IncomingMessage` gets of the fields that a writer has appended
to an `OutgoingMessage`, in any order of widths.

* `extractAll_ofFields`: every field comes back as it was stored, and a 16-bit field
  is stored without its upper byte.
* `roundTrips_iff`: the field sequences that are read as they were written.
* `roundTrips_fails`: a 16-bit field with the value 256.
-/

namespace YTorrent

/-- The unsigned types with an `add` and an `extractNext` function. -/
inductive Width
  | w8
  | w16
  | w32
  | w64
  deriving DecidableEq, Repr

/-- `sizeof`. -/
def Width.bytes : Width → ℕ
  | w8 => 1
  | w16 => 2
  | w32 => 4
  | w64 => 8

/-- A field: a value of an unsigned type. -/
structure Field where
  width : Width
  value : ℕ
  value_lt : value < 2 ^ (8 * width.bytes)
  deriving DecidableEq, Repr

namespace OutgoingMessage

/-- The `add` function of the width of the field. -/
def add (out : OutgoingMessage) (x : Field) : OutgoingMessage :=
  match x.width with
  | .w8 => out.addU8 (byte x.value)
  | .w16 => out.addU16 x.value
  | .w32 => out.addU32 x.value
  | .w64 => out.addU64 x.value

/-- The message with the fields appended one after the other. -/
def ofFields (fields : List Field) : OutgoingMessage := fields.foldl add []

end OutgoingMessage

namespace IncomingMessage

/-- The `extractNext` function of the width. -/
def extract (m : IncomingMessage) : Width → ℕ × IncomingMessage
  | .w8 => m.extractNextByte
  | .w16 => m.extractNextU16
  | .w32 => m.extractNextU32
  | .w64 => m.extractNextU64

/-- Values of the widths, extracted one after the other. -/
def extractAll (m : IncomingMessage) : List Width → List ℕ × IncomingMessage
  | [] => ([], m)
  | width :: widths =>
    let (value, m) := m.extract width
    let (values, m) := m.extractAll widths
    (value :: values, m)

end IncomingMessage

/-- The fields can be read from the bytes of the message, and nothing is left of them. -/
def RoundTrips (fields : List Field) : Prop :=
  ∃ bytes, (OutgoingMessage.ofFields fields).data = some bytes ∧
    IncomingMessage.extractAll { dataBuffer := bytes } (fields.map (·.width)) =
      (fields.map (·.value), { dataBuffer := bytes, readIndex := bytes.length })

/-- The number of bytes the fields take. -/
def fieldsSize (fields : List Field) : ℕ := (fields.map fun x => x.width.bytes).sum

/-! ## One field -/

namespace Field

variable (x : Field) (rest : List Byte)

/-- The bytes the field is stored in. -/
def bytes : List Byte :=
  match x.width with
  | .w8 => [byte x.value]
  | .w16 => writeAsBE16 x.value
  | .w32 => writeAsBE32 x.value
  | .w64 => writeAsBE64 x.value

/-- What of the value is stored. -/
def stored : ℕ := if x.width = .w16 then x.value % 256 else x.value

@[simp] theorem length_bytes : x.bytes.length = x.width.bytes := by
  unfold bytes
  cases x.width <;> rfl

theorem stored_eq_value : x.stored = x.value ↔ (x.width = .w16 → x.value < 256) := by
  unfold stored
  split
  · rename_i hwidth
    simp only [hwidth, forall_const]
    omega
  · rename_i hwidth
    simp [hwidth]

end Field

variable {x : Field} {fields : List Field} {m : IncomingMessage} {rest : List Byte}

theorem add_eq (out : OutgoingMessage) (x : Field) : out.add x = out ++ x.bytes := by
  unfold OutgoingMessage.add Field.bytes
  cases x.width <;> rfl

theorem ofFields_eq (fields : List Field) :
    OutgoingMessage.ofFields fields = fields.flatMap Field.bytes := by
  have hfold : ∀ out : OutgoingMessage,
      fields.foldl OutgoingMessage.add out = out ++ fields.flatMap Field.bytes := by
    induction fields with
    | nil => exact fun out => (List.append_nil out).symm
    | cons x fields ih =>
      intro out
      rw [List.foldl_cons, ih, add_eq, List.flatMap_cons, List.append_assoc]
  exact hfold []

theorem length_flatMap_bytes (fields : List Field) :
    (fields.flatMap Field.bytes).length = fieldsSize fields := by
  simp only [List.length_flatMap, Field.length_bytes, fieldsSize]

/-- A field at the read position is extracted as it is stored. -/
theorem extract_bytes (h : m.dataBuffer.drop m.readIndex = x.bytes ++ rest) :
    m.extract x.width = (x.stored, m.advance x.width.bytes) := by
  have hlt := x.value_lt
  unfold Field.bytes at h
  unfold Field.stored
  cases hwidth : x.width with
  | w8 =>
    rw [hwidth] at h hlt
    have hfirst : m.dataBuffer.getD m.readIndex 0 = byte x.value := by
      have hget := congrArg (fun l : List Byte => l.getD 0 0) h
      simpa using hget
    have hval : readU8 m.dataBuffer m.readIndex = x.value := by
      rw [readU8, hfirst]
      exact Nat.mod_eq_of_lt hlt
    show (readU8 m.dataBuffer m.readIndex, m.advance 1) = _
    rw [hval]
    rfl
  | w16 =>
    rw [hwidth] at h
    show (readAsBE16 (m.dataBuffer.drop m.readIndex), m.advance 2) = _
    rw [h, readAsBE16_writeAsBE16]
    rfl
  | w32 =>
    rw [hwidth] at h hlt
    show (readAsBE32 (m.dataBuffer.drop m.readIndex), m.advance 4) = _
    rw [h, readAsBE32_writeAsBE32, u32_of_lt hlt]
    rfl
  | w64 =>
    rw [hwidth] at h hlt
    show (readAsBE64 (m.dataBuffer.drop m.readIndex), m.advance 8) = _
    rw [h, readAsBE64_writeAsBE64, u64_of_lt hlt]
    rfl

/-! ## Sequences of fields -/

/-- A read within the buffer moves the read position on. -/
theorem advance_of_le {buffer : List Byte} {i n : ℕ} (hle : i + n ≤ buffer.length)
    (hlt : i + n < 2 ^ 32) :
    IncomingMessage.advance { dataBuffer := buffer, readIndex := i } n =
      { dataBuffer := buffer, readIndex := i + n } := by
  have hover : decide (buffer.length < i + n) = false := decide_eq_false (by omega)
  simp only [IncomingMessage.advance, u32_of_lt hlt, hover, Bool.or_false]

/-- The fields behind the read position are extracted as they are stored. -/
theorem extractAll_append (read : List Byte) (fields : List Field)
    (hlen : read.length + fieldsSize fields < 2 ^ 32) :
    IncomingMessage.extractAll
        { dataBuffer := read ++ fields.flatMap Field.bytes, readIndex := read.length }
        (fields.map (·.width)) =
      (fields.map Field.stored,
        { dataBuffer := read ++ fields.flatMap Field.bytes
          readIndex := read.length + fieldsSize fields }) := by
  induction fields generalizing read with
  | nil => rfl
  | cons x fields ih =>
    have hsize : fieldsSize (x :: fields) = x.width.bytes + fieldsSize fields := List.sum_cons
    have hread : (read ++ x.bytes).length = read.length + x.width.bytes := by
      rw [List.length_append, Field.length_bytes]
    rw [hsize, ← Nat.add_assoc, ← hread] at hlen ⊢
    rw [List.flatMap_cons, ← List.append_assoc]
    have hrest := ih (read ++ x.bytes) hlen
    generalize hbuffer : (read ++ x.bytes) ++ fields.flatMap Field.bytes = buffer at hrest ⊢
    have hdrop : buffer.drop read.length = x.bytes ++ fields.flatMap Field.bytes := by
      rw [← hbuffer, List.append_assoc, List.drop_left]
    have hle : read.length + x.width.bytes ≤ buffer.length := by
      rw [← hbuffer, ← hread]
      exact (List.prefix_append _ _).length_le
    have hadvance := advance_of_le hle (by omega)
    rw [← hread] at hadvance
    rw [List.map_cons, List.map_cons, IncomingMessage.extractAll, extract_bytes hdrop, hadvance]
    simp only [hrest]

/-- The fields of a message are extracted as they are stored. -/
theorem extractAll_ofFields (hlen : fieldsSize fields < 2 ^ 32) :
    IncomingMessage.extractAll { dataBuffer := OutgoingMessage.ofFields fields }
        (fields.map (·.width)) =
      (fields.map Field.stored,
        { dataBuffer := OutgoingMessage.ofFields fields, readIndex := fieldsSize fields }) := by
  have h := extractAll_append [] fields (by simpa using hlen)
  simpa only [ofFields_eq, List.nil_append, List.length_nil, Nat.zero_add] using h

theorem ofFields_eq_nil : OutgoingMessage.ofFields fields = [] ↔ fields = [] := by
  rw [ofFields_eq, List.flatMap_eq_nil_iff]
  constructor
  · intro h
    cases fields with
    | nil => rfl
    | cons x fields =>
      have hnil := congrArg List.length (h x List.mem_cons_self)
      rw [Field.length_bytes] at hnil
      cases hwidth : x.width <;> simp [hwidth, Width.bytes] at hnil
  · rintro rfl x hx
    exact absurd hx List.not_mem_nil

/-- For every sequence of fields: it comes back exactly when it is not empty (`data` of an
    empty message throws) and none of its 16-bit values needs its upper byte. -/
theorem roundTrips_iff (hlen : fieldsSize fields < 2 ^ 32) :
    RoundTrips fields ↔ fields ≠ [] ∧ ∀ x ∈ fields, x.width = .w16 → x.value < 256 := by
  have hstored : fields.map Field.stored = fields.map (·.value) ↔
      ∀ x ∈ fields, x.width = .w16 → x.value < 256 := by
    rw [List.map_inj_left]
    exact forall₂_congr fun x _ => x.stored_eq_value
  have hsize : (OutgoingMessage.ofFields fields).length = fieldsSize fields := by
    rw [ofFields_eq, length_flatMap_bytes]
  unfold RoundTrips OutgoingMessage.data
  by_cases hnil : fields = []
  · rw [if_pos (ofFields_eq_nil.mpr hnil)]
    simp [hnil]
  · have hne : OutgoingMessage.ofFields fields ≠ [] := fun h => hnil (ofFields_eq_nil.mp h)
    simp only [if_neg hne, Option.some.injEq, exists_eq_left', extractAll_ofFields hlen, hsize,
      Prod.mk.injEq, and_true, ne_eq, hnil, not_false_eq_true, true_and]
    exact hstored

/-- A field of every width. -/
def everyWidth : List Field :=
  [⟨.w8, 7, by decide⟩, ⟨.w16, 255, by decide⟩, ⟨.w32, 2 ^ 32 - 1, by decide⟩,
    ⟨.w64, 2 ^ 64 - 1, by decide⟩]

theorem roundTrips_everyWidth : RoundTrips everyWidth :=
  (roundTrips_iff (by decide)).mpr ⟨by decide, by decide⟩

/-- The 16-bit value 256 is read as 0. -/
theorem roundTrips_fails :
    ¬ ∀ fields : List Field, fieldsSize fields < 2 ^ 32 → RoundTrips fields := by
  intro hall
  obtain ⟨bytes, hdata, hread⟩ := hall [⟨.w16, 256, by decide⟩] (by decide)
  obtain rfl : [0, 0] = bytes := Option.some.inj hdata
  have hvalue : [0] = [256] := congrArg Prod.fst hread
  revert hvalue
  decide

end YTorrent
