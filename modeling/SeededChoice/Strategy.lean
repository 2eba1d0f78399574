/-!
# Strategies

The three ways to turn a ranking into a distribution, with the names that settings choose them by.
-/

namespace SeededChoice

inductive Strategy where
  /-- A uniform share of the mass, and the rest on one top action. -/
  | epsilonGreedy
  | softmax
  /-- Mass in proportion to votes. -/
  | bag
  deriving DecidableEq, Repr

namespace Strategy

def all : List Strategy := [bag, epsilonGreedy, softmax]

def name : Strategy → String
  | epsilonGreedy => "epsilon_greedy"
  | softmax => "softmax"
  | bag => "bag"

/-- What implementations of a strategy are called in reports on the registry. -/
def className : Strategy → String
  | epsilonGreedy => "EpsilonGreedyStrategy"
  | softmax => "SoftmaxStrategy"
  | bag => "BagStrategy"

def input : Strategy → String
  | epsilonGreedy => "a top_action"
  | softmax => "scores"
  | bag => "votes"

end Strategy

end SeededChoice
