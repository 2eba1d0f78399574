import SeededChoice.Argument
import SeededChoice.Scalar
import SeededChoice.Seed

/-!
# The stream of uniform draws

A linear congruential step on 64-bit words drives the stream, and 23 bits of each word make a draw.
The step is affine, so many steps at once are one affine map, found by repeated squaring.
-/

namespace SeededChoice

/-- The map `x ↦ factor · x + offset` on words. -/
structure Affine where
  factor : UInt64
  offset : UInt64
  deriving DecidableEq, Repr

namespace Affine

def apply (f : Affine) (x : UInt64) : UInt64 := f.factor * x + f.offset

protected def id : Affine := ⟨1, 0⟩

def andThen (f g : Affine) : Affine := ⟨f.factor * g.factor, f.offset * g.factor + g.offset⟩

def twice (f : Affine) : Affine := ⟨f.factor * f.factor, f.offset * (f.factor + 1)⟩

/-- `acc`, then `f` as often as `n` says, over the binary digits of `n`. The first argument bounds
their number. -/
def repeatOver : Nat → Affine → Affine → Nat → Affine
  | digits + 1, acc, f, n =>
    if n = 0 then acc
    else repeatOver digits (if n % 2 = 1 then acc.andThen f else acc) f.twice (n / 2)
  | 0, acc, _, _ => acc

/-- The map applied `n` times, as one map. -/
def iterate (f : Affine) (n : Nat) : Affine := repeatOver (n.log2 + 1) .id f n

end Affine

namespace Stream

/-- Names the construction of draws from seeds, so that records say how to replay them. -/
def algorithm : String := "merand48/murmur3_x86_32/v1"

/-- The step between two draws. -/
def step : Affine := ⟨0xEECE66D5DEECE66D, 2147483647⟩

/-- The number of different draws. -/
def resolution : Nat := 0x800000

/-- The draw that a word makes, in units of one part in `resolution`. -/
def drawOf (w : UInt64) : Nat := ((w >>> 25) &&& 0x7FFFFF).toNat

/-- A draw as a number from zero up to but not including one. -/
def toUnit {α : Type} [Scalar α] (draw : Nat) : α := Scalar.ofNat draw / Scalar.ofNat resolution

/-- Draw `n` of the stream that starts at a word, without those before it. -/
def drawAt (start : UInt64) (n : Nat) : Nat := drawOf ((step.iterate (n + 1)).apply start)

/-- Draw `n` of the stream that starts at a word, as a number. -/
def uniformAt {α : Type} [Scalar α] (start : UInt64) (n : Nat) : α := toUnit (drawAt start n)

/-- Draw `n` of a seed. The counter is looked at before the seed, except that a counter that is no
whole number is refused last. -/
def uniformOf {α : Type} [Scalar α] [Numeral α] (seed : Seed) (n : Argument α) :
    Except Error α := do
  let counter ← n.toCounter? .negativeCounter
  let start ← seed.expand
  match counter with
  | some n => return uniformAt start n
  | none => throw .wrongKind

end Stream

/-- How many draws are behind a stream: an exact number, until a real one is added to it. -/
inductive Position (α : Type) where
  | whole (n : Nat)
  | real (x : α)
  deriving DecidableEq, Repr

namespace Position

variable {α : Type} [Scalar α]

def next : Position α → Position α
  | whole n => whole (n + 1)
  | real x => real (x + 1)

/-- Adds what was skipped. An exact number next to a real one counts as a real, if it is not too
large for that. -/
def add : Position α → Position α → Except Error (Position α)
  | whole m, whole n => .ok (whole (m + n))
  | whole m, real y => (Argument.ofInteger m).map fun x => real (x + y)
  | real x, whole n => (Argument.ofInteger n).map fun y => real (x + y)
  | real x, real y => .ok (real (x + y))

def text [Numeral α] : Position α → String
  | whole n => toString n
  | real x => Argument.messageLayout.write (Numeral.shortest x)

end Position

/-- A stream of draws: where it started, where it is, and how many draws are behind it. -/
structure Stream (α : Type) where
  start : UInt64
  word : UInt64
  position : Position α
  deriving DecidableEq, Repr

namespace Stream

variable {α : Type} [Scalar α]

def ofWord (w : UInt64) : Stream α := { start := w, word := w, position := .whole 0 }

def ofSeed (seed : Seed) : Except Error (Stream α) := seed.expand.map ofWord

def next (s : Stream α) : Nat × Stream α :=
  let word := step.apply s.word
  (drawOf word, { s with word, position := s.position.next })

/-- The next `n` draws, and the stream after them. -/
def take (s : Stream α) : Nat → List Nat × Stream α
  | 0 => ([], s)
  | n + 1 =>
    let (draw, s) := s.next
    let (draws, s) := s.take n
    (draw :: draws, s)

/-- The number of draws to skip, with its kind. A number below zero is refused, and so is a real
other than zero, which has no binary digits. -/
def readSkip [Numeral α] (n : Argument α) : Except Error (Nat × Position α) := do
  match ← n.toCounter? .negativeSkip with
  | some n => return (n, .whole n)
  | none =>
    match n with
    | .real x => if x == 0 then return (0, .real x) else throw .wrongKind
    | _ => throw .wrongKind

/-- Skips a number of draws, which are not made. A number that is refused leaves the stream as it
was; one that is too large for the position still moves the word. -/
def skip [Numeral α] (s : Stream α) (n : Argument α) : Except Error Unit × Stream α :=
  match readSkip n with
  | .error e => (.error e, s)
  | .ok (count, skipped) =>
    let s := { s with word := (step.iterate count).apply s.word }
    match s.position.add skipped with
    | .error e => (.error e, s)
    | .ok position => (.ok (), { s with position })

end Stream

end SeededChoice
