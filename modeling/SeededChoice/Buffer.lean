import SeededChoice.Argument
import SeededChoice.Scalar

/-!
# Buffers

A buffer belongs to the caller: it has a storage, which rounds or refuses what is written, and
possibly rows. Operations plan an `Update` beside their answer, so whether a write is attempted can
be read off the plan; `Buffer.perform` carries it out.
-/

namespace SeededChoice

/-- The floating-point numbers that a row may be made of. -/
inductive Precision where
  | double
  | single
  deriving DecidableEq, Repr

/-- The numbers that entries are kept as. -/
inductive Format where
  | double
  | single
  /-- Integers of 64 bits. -/
  | integer
  deriving DecidableEq, Repr

/-- What a buffer is made of, which decides how it is written. -/
inductive Storage where
  /-- A list, written item by item; an item takes any value. -/
  | list
  /-- One row of floating-point numbers, written item by item. A row of integers would take none of
  the numbers that are written, and is no buffer. -/
  | row (precision : Precision)
  /-- Numbers in any shape, written as a whole. -/
  | grid (format : Format)
  /-- A sequence that cannot be changed. -/
  | frozen
  /-- A grid of doubles behind a write protection. -/
  | readOnly
  deriving DecidableEq, Repr

structure Buffer (α : Type) where
  storage : Storage := .grid .double
  /-- The number of rows, where the entries are laid out in rows. -/
  rows : Option Nat := none
  /-- All entries in row order. -/
  entries : List α
  deriving DecidableEq

/-- What an operation writes. -/
inductive Update (α : Type) where
  /-- Nothing; no write is attempted. -/
  | keep
  | fill (value : Argument α)
  | assign (values : List α)

def Precision.format : Precision → Format
  | double => .double
  | single => .single

namespace Format

variable {α : Type} [Scalar α]

/-- What an assigned value becomes. Among integers its fraction is dropped, and a value that is no
64-bit integer becomes the least one. -/
def hold (f : Format) (x : α) : α :=
  match f with
  | double => x
  | single => Scalar.toSingle x
  | integer =>
    let whole := ((Scalar.truncate? x).filter Scalar.isWord).getD Int64.minValue.toInt
    (Scalar.ofInt? whole).getD x

/-- What a single given value becomes. Here integers refuse what is none of them. -/
def receive (f : Format) (given : Argument α) : Except Error α :=
  match f with
  | integer => do
    let n ← given.toCount
    if Scalar.isWord n then Argument.ofInteger n else throw .tooLarge
  | double | single => given.toWeight.map f.hold

end Format

namespace Storage

variable {α : Type} [Scalar α]

/-- What an assigned value becomes. -/
def hold (s : Storage) (x : α) : α :=
  match s with
  | list | frozen | readOnly => x
  | row p => p.format.hold x
  | grid f => f.hold x

/-- What a single given value becomes. A row has no place for an absent one. -/
def receive (s : Storage) (given : Argument α) : Except Error α :=
  match s with
  | list | frozen | readOnly => given.toWeight
  | row p => if given.isAbsent then .error .wrongKind else p.format.receive given
  | grid f => f.receive given

end Storage

namespace Buffer

variable {α : Type} [Scalar α]

/-- The length that callers see: the number of rows, if there are rows. -/
def length (b : Buffer α) : Nat := b.rows.getD b.entries.length

def toRows (b : Buffer α) (rows : Nat) : List (List α) :=
  let width := b.entries.length / rows
  (List.range rows).map fun i => (b.entries.drop (i * width)).take width

/-- A buffer that holds given data, laid out in rows where the data are nested. -/
def ofData (storage : Storage) (data : Argument α) : Except Error (Buffer α) := do
  let given ← match storage with
    | .row _ => data.toItems
    | .list | .grid _ | .frozen | .readOnly => data.toLeaves
  let entries ← given.mapM storage.receive
  let rows := match data.shape? with
    | some (rows :: _ :: _) => some rows
    | _ => none
  return { storage, rows, entries }

/-! ### Writing -/

def write (b : Buffer α) (values : List α) : Buffer α :=
  { b with entries := values.map b.storage.hold }

def fillEntries (b : Buffer α) (value : Argument α) : Except Error (Buffer α) :=
  (b.storage.receive value).map fun x => { b with entries := b.entries.map fun _ => x }

/-- Every item of a list becomes the same value, which is a row if it is a list. -/
def fillItems (b : Buffer α) (value : Argument α) : Except Error (Buffer α) :=
  match value with
  | .list _ => ofData b.storage (.list (List.replicate b.length value))
  | .absent | .integer _ | .real _ =>
    (b.storage.receive value).map fun x =>
      { b with rows := none, entries := List.replicate b.length x }

/-- Writes one value everywhere. What is written item by item takes any value if it has no item. -/
def fill (b : Buffer α) (value : Argument α) : Except Error (Buffer α) :=
  match b.storage with
  | .list => if b.length = 0 then .ok b else b.fillItems value
  | .row _ => if b.length = 0 then .ok b else b.fillEntries value
  | .grid _ =>
    match value with
    | .list _ => .error .wrongShape
    | .absent | .integer _ | .real _ => b.fillEntries value
  | .frozen => if b.length = 0 then .ok b else .error .frozen
  | .readOnly => .error .readOnly

/-- Writes one value into each item, where a row of a nested list counts as an item. Values past
the last item are refused when the others have been written. -/
def assignItems (b : Buffer α) (values : List α) : Except Error Unit × Buffer α :=
  if values.length < b.length then (.error .wrongShape, b)
  else
    (if values.length = b.length then .ok () else .error .pastTheEnd,
      { b with rows := none }.write (values.take b.length))

def assign (b : Buffer α) (values : List α) : Except Error Unit × Buffer α :=
  match b.storage with
  | .list | .row _ => b.assignItems values
  | .grid _ =>
    if values.length = b.entries.length then (.ok (), b.write values) else (.error .wrongShape, b)
  | .frozen => (if values.isEmpty then .ok () else .error .frozen, b)
  | .readOnly => (.error .readOnly, b)

/-- Carries out an update; the buffer left behind is told also where it is refused. -/
def update (b : Buffer α) : Update α → Except Error Unit × Buffer α
  | .keep => (.ok (), b)
  | .fill value =>
    match b.fill value with
    | .ok after => (.ok (), after)
    | .error e => (.error e, b)
  | .assign values => b.assign values

/-! ### Fresh buffers -/

/-- A buffer of doubles, as fresh buffers are. -/
def ofList (entries : List α) : Buffer α := { entries }

/-- The number of doubles, of eight bytes each, that a signed 64-bit size can count. -/
def capacity : Nat := 0xFFFFFFFFFFFFFFF

/-- A buffer of `n` zeros, unless there cannot be so many. -/
def zeros (n : Nat) : Except Error (Buffer α) :=
  if n ≤ capacity then .ok (ofList (List.replicate n 0)) else .error .tooManyEntries

end Buffer

/-! ### Plans -/

/-- What an operation answers and what it is about to write. -/
structure Planned (ρ α : Type) where
  answer : ρ
  update : Update α := .keep

namespace Planned

variable {α ρ : Type} [Scalar α]

def refuse (s : Status) : Planned Status α := { answer := s }

def accept (u : Update α) : Planned Status α := { answer := .success, update := u }

end Planned

/-- Carries out a plan: the answer or the error, and the buffer left behind. -/
def Buffer.perform {α ρ : Type} [Scalar α] (b : Buffer α) (plan : Except Error (Planned ρ α)) :
    Except Error ρ × Buffer α :=
  match plan with
  | .error e => (.error e, b)
  | .ok p =>
    let (outcome, after) := b.update p.update
    (outcome.map fun _ => p.answer, after)

end SeededChoice
