import SeededChoice.Scalar

/-!
# Sums

`sum` adds pairwise: eight lanes run over a block of up to 128 terms, and longer lists are halved.
`runningSums` adds from left to right. The two orders round differently, and each has its use.
-/

namespace SeededChoice.Scalar

variable {α : Type} [Scalar α]

/-- Adds from left to right, from zero. -/
def sumInOrder (xs : List α) : α := xs.foldl (· + ·) 0

/-! ### Pairwise sums -/

/-- Adds neighbours: the first to the second, the third to the fourth, and so on. -/
def addPairs : List α → List α
  | a :: b :: rest => (a + b) :: addPairs rest
  | rest => rest

/-- The eight lanes added as a balanced tree. -/
def joinLanes (lanes : List α) : α := (addPairs (addPairs (addPairs lanes))).headD 0

/-- Adds whole rows of eight terms to the lanes, then joins the lanes and adds what is left. The
first argument bounds the number of rows. -/
def addRows : Nat → List α → List α → α
  | rows + 1, lanes, xs =>
    if xs.length < 8 then xs.foldl (· + ·) (joinLanes lanes)
    else addRows rows (lanes.zipWith (· + ·) (xs.take 8)) (xs.drop 8)
  | 0, lanes, xs => xs.foldl (· + ·) (joinLanes lanes)

/-- The sum of a block, in lanes when there are at least eight terms. -/
def blockSum (xs : List α) : α :=
  if xs.length < 8 then sumInOrder xs else addRows xs.length (xs.take 8) (xs.drop 8)

/-- Half of the terms, cut down to whole rows of eight. -/
def splitPoint (n : Nat) : Nat := n / 2 - n / 2 % 8

/-- The sum of a list by halves, down to blocks. The first argument bounds the number of cuts on
a path; the length of the list is always enough. -/
def halvingSum : Nat → List α → α
  | cuts + 1, xs =>
    if xs.length ≤ 128 then blockSum xs
    else halvingSum cuts (xs.take (splitPoint xs.length))
      + halvingSum cuts (xs.drop (splitPoint xs.length))
  | 0, xs => blockSum xs

/-- The pairwise sum. The leading zero makes a sum of negative zeros a positive one. -/
def sum (xs : List α) : α := 0 + halvingSum xs.length xs

/-! ### Running sums -/

/-- The sums of `acc` and each initial part of the list. -/
def runningSumsFrom (acc : α) : List α → List α
  | [] => []
  | x :: rest => (acc + x) :: runningSumsFrom (acc + x) rest

/-- Entry `i` is the sum of the entries up to and with `i`, added from left to right. -/
def runningSums : List α → List α
  | [] => []
  | x :: rest => x :: runningSumsFrom x rest

theorem length_runningSumsFrom (acc : α) (xs : List α) :
    (runningSumsFrom acc xs).length = xs.length := by
  induction xs generalizing acc with
  | nil => rfl
  | cons x rest ih => simp [runningSumsFrom, ih]

@[simp] theorem length_runningSums (xs : List α) : (runningSums xs).length = xs.length := by
  cases xs with
  | nil => rfl
  | cons x rest => simp [runningSums, length_runningSumsFrom]

theorem getElem?_runningSumsFrom (acc : α) {xs : List α} {i : Nat} (inside : i < xs.length) :
    (runningSumsFrom acc xs)[i]? = some ((xs.take (i + 1)).foldl (· + ·) acc) := by
  induction xs generalizing acc i with
  | nil => exact absurd inside (Nat.not_lt_zero i)
  | cons x rest ih =>
    cases i with
    | zero => rfl
    | succ i => exact ih (acc + x) (Nat.lt_of_succ_lt_succ inside)

end SeededChoice.Scalar
