import YTorrent.Utils.Url

/-!
# Bencoded data

The items of the `bencoding` library as its headers describe them
(`BItem.h`, `BDictionary.h`, `BString.h`, `BInteger.h`), with the accesses the
client makes. `bencoding::decode` and `bencoding::encode` are parameters of the
models that call them: the library is distributed in binary form.

An access that would dereference a null `shared_ptr`, an exception nobody
catches and a read behind a buffer end the run of the model (`Crash`).
-/

namespace YTorrent

/-- `BItem`. The value of a `BInteger` is an `int64_t`. -/
inductive BItem
  | string (value : List Byte)
  | integer (value : Int64)
  | list (items : List BItem)
  | dictionary (items : List (List Byte × BItem))

/-- What ends a run outside of the defined behaviour of a function. -/
inductive Crash
  /-- a `DecodingError` leaves the function -/
  | decodingError
  /-- an exception of a socket operation leaves the function -/
  | systemError
  /-- a member of a null `shared_ptr` is called -/
  | nullItem
  /-- bytes behind the end of a buffer are read -/
  | overread
  /-- a variable without a value is read -/
  | uninitialized
  deriving DecidableEq, Repr

/-- `as<BDictionary>()`. -/
def BItem.asDictionary : BItem → Option (List (List Byte × BItem))
  | dictionary items => some items
  | _ => none

/-- `as<BString>()`. -/
def BItem.asString : BItem → Option (List Byte)
  | string value => some value
  | _ => none

/-- `as<BInteger>()`. -/
def BItem.asInteger : BItem → Option Int64
  | integer value => some value
  | _ => none

/-- `operator[]` of a dictionary; a missing key yields the null pointer. -/
def lookup (items : List (List Byte × BItem)) (key : String) : Option BItem :=
  (items.find? (·.1 = ascii key)).map (·.2)

/-- A pointer is dereferenced. -/
def deref {α : Type} : Option α → Except Crash α
  | some a => .ok a
  | none => .error .nullItem

/-- `dict[key]->as<BString>()->value()`. -/
def stringAt (items : List (List Byte × BItem)) (key : String) : Except Crash (List Byte) := do
  let item ← deref (lookup items key)
  deref item.asString

/-- `dict[key]->as<BInteger>()->value()`. -/
def integerAt (items : List (List Byte × BItem)) (key : String) : Except Crash Int64 := do
  let item ← deref (lookup items key)
  deref item.asInteger

/-- `decode(data)->as<BDictionary>()`, followed by a use of the dictionary. -/
def decodeDictionary (decode : List Byte → Option BItem) (data : List Byte) :
    Except Crash (List (List Byte × BItem)) :=
  match decode data with
  | none => .error .decodingError
  | some item => deref item.asDictionary

/-- The conversion of an `int64_t` to `size_t`. -/
def sizeT (n : Int64) : ℕ := n.toBitVec.toNat

/-- A computation succeeds when its first part does and the rest does on the result. -/
theorem bind_eq_ok {α β : Type} {x : Except Crash α} {g : α → Except Crash β} {b : β} :
    (x >>= g) = .ok b ↔ ∃ a, x = .ok a ∧ g a = .ok b := by
  cases x with
  | error e => exact iff_of_false nofun nofun
  | ok a => simp [bind, Except.bind]

/-- A computation whose result passes a test succeeds. -/
theorem exists_ok_of_any {α : Type} {x : Except Crash α} {test : α → Bool}
    (h : x.toOption.any test = true) : ∃ a, x = .ok a ∧ test a = true := by
  cases x with
  | error e => cases h
  | ok a => exact ⟨a, rfl, h⟩

variable {items : List (List Byte × BItem)} {key : String}

theorem deref_eq_ok {α : Type} {x : Option α} {a : α} : deref x = .ok a ↔ x = some a := by
  cases x with
  | none => exact iff_of_false nofun nofun
  | some b => simp [deref]

theorem BItem.asDictionary_eq_some {item : BItem} (h : item.asDictionary = some items) :
    item = .dictionary items := by
  cases item with
  | dictionary => rw [Option.some.inj h]
  | string | integer | list => cases h

theorem BItem.asString_eq_some {item : BItem} {value : List Byte}
    (h : item.asString = some value) : item = .string value := by
  cases item with
  | string => rw [Option.some.inj h]
  | dictionary | integer | list => cases h

theorem BItem.asInteger_eq_some {item : BItem} {value : Int64}
    (h : item.asInteger = some value) : item = .integer value := by
  cases item with
  | integer => rw [Option.some.inj h]
  | dictionary | string | list => cases h

theorem stringAt_eq_ok {value : List Byte} :
    stringAt items key = .ok value ↔ lookup items key = some (.string value) := by
  simp only [stringAt, bind_eq_ok, deref_eq_ok]
  constructor
  · rintro ⟨item, hitem, hstr⟩
    rw [hitem, BItem.asString_eq_some hstr]
  · intro hitem
    exact ⟨_, hitem, rfl⟩

theorem integerAt_eq_ok {value : Int64} :
    integerAt items key = .ok value ↔ lookup items key = some (.integer value) := by
  simp only [integerAt, bind_eq_ok, deref_eq_ok]
  constructor
  · rintro ⟨item, hitem, hint⟩
    rw [hitem, BItem.asInteger_eq_some hint]
  · intro hitem
    exact ⟨_, hitem, rfl⟩

theorem decodeDictionary_eq_ok {decode : List Byte → Option BItem} {data : List Byte} :
    decodeDictionary decode data = .ok items ↔ decode data = some (.dictionary items) := by
  unfold decodeDictionary
  cases decode data with
  | none => exact iff_of_false nofun nofun
  | some item =>
    rw [deref_eq_ok, Option.some.injEq]
    constructor
    · exact BItem.asDictionary_eq_some
    · rintro rfl
      rfl

end YTorrent
