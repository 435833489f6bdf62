/-!
# Jobs — work shared among workers

Functions are worked on independently of each other. With more than one thread the
work is cut into consecutive shares, one for each worker; no worker is without a
job, and the first ones have one job more than the others where the jobs do not
divide evenly.
-/

namespace ImpCompiler.Jobs

set_option autoImplicit false

variable {α β ε : Type}

/-- The number of workers that `threads` threads are for `n` jobs. -/
def workers (threads : Int) (n : Nat) : Nat := if threads ≤ 1 then 1 else min threads.toNat n

/-- How many of `n` jobs each of `w` workers has. -/
def loads (w n : Nat) : List Nat :=
  (List.range w).map fun i => n / w + if i < n % w then 1 else 0

/-- Consecutive pieces of a list with the given lengths. -/
def split : List Nat → List α → List (List α)
  | [], _ => []
  | k :: ks, xs => xs.take k :: split ks (xs.drop k)

def shares (threads : Int) (xs : List α) : List (List α) :=
  split (loads (workers threads xs.length) xs.length) xs

/-- The results of all jobs, each worker going through its share. -/
def map (threads : Int) (job : α → β) (xs : List α) : List β :=
  (shares threads xs).flatMap (List.map job)

/-- One worker's share of jobs that change things and may stop. What is behind a job
that stopped stays as it is. -/
def runShare (job : α → α × Option ε) : List α → List α × Option ε
  | [] => ([], none)
  | x :: rest =>
    match job x with
    | (y, some e) => (y :: rest, some e)
    | (y, none) => (y :: (runShare job rest).1, (runShare job rest).2)

/-- All jobs that change things and may stop; the first reason to stop is reported. -/
def run (threads : Int) (job : α → α × Option ε) (xs : List α) : List α × Option ε :=
  let results := (shares threads xs).map (runShare job)
  (results.flatMap Prod.fst, results.findSome? Prod.snd)

end ImpCompiler.Jobs
