import PulseHits.Config.Basic

/-!
# Sharing out the runs

The runs of a configuration are dealt out to its workers in turns, so the shares differ by at most
one run and every worker goes from earlier to later runs.
-/

namespace PulseHits

/-- Deals a list out in turns: the first element to the first of `count` shares, and after the last
share the first again. -/
def deal {α : Type} (count : Nat) (xs : List α) : List (List α) :=
  let shares := xs.zipIdx.foldl (fun shares (x, i) => shares.modify (i % count) (·.push x))
    (Array.replicate count (#[] : Array α))
  shares.toList.map (·.toList)

namespace Config

/-- The runs of each worker. There is one share even where the number of workers is not valid. -/
def subsets (c : Config) : List (List Int) :=
  deal (max c.workers.toInt 1).toNat c.runs

end Config

end PulseHits
