import Interleaving.Search.Basic

/-!
# Metrics

Numbers about the progress of a search, for a monitor: counters, gauges and histograms under fixed
names. A histogram counts how many observed values do not exceed each of its bounds.
-/

namespace Interleaving

/-- Bounds in increasing order and the values observed so far. -/
structure Histogram where
  bounds : List Int
  values : List Int
deriving DecidableEq

namespace Histogram

/-- No values yet, and `n` bounds of which each is `factor` times the one before. -/
def exponential (start factor : Int) (n : Nat) : Histogram :=
  ⟨(List.range n).map fun i => start * Int.pow factor i, []⟩

/-- Observes a value. -/
def observe (h : Histogram) (v : Int) : Histogram := { h with values := h.values ++ [v] }

/-- For every bound how many values do not exceed it. -/
def cumulative (h : Histogram) : List (Int × Nat) :=
  h.bounds.map fun b => (b, h.values.countP (· ≤ b))

/-- How many values were observed. -/
def count (h : Histogram) : Nat := h.values.length

/-- The sum of the values. -/
def sum (h : Histogram) : Int := h.values.foldl (· + ·) 0

end Histogram

/-- The numbers about a search. -/
structure Metrics where
  /-- Runs by the name of their status. -/
  iterations : Dictionary Int
  /-- Durations of runs in nanoseconds. -/
  durations : Histogram
  /-- Events in the graphs at the end of runs. -/
  events : Histogram
  popped : Dictionary Int
  pushed : Dictionary Int
  inconsistent : Int
  pending : Int
  distinct : Int
  duplicates : Int

/-- One number or histogram under its name, with a label if it is one of several. -/
inductive Sample where
  | value (name : String) (label : Option (String × String)) (v : Int)
  | histogram (name : String) (h : Histogram)

namespace Metrics

/-- Nothing observed. -/
def empty : Metrics :=
  { iterations := .empty, durations := .exponential 100000 4 10, events := .exponential 2 2 10,
    popped := .empty, pushed := .empty, inconsistent := 0, pending := 0, distinct := 0,
    duplicates := 0 }

/-- A run has ended. -/
def iterationFinished (m : Metrics) (status : String) (events elapsed : Int) : Metrics :=
  { m with
    iterations := m.iterations.set status ((m.iterations.get? status).getD 0 + 1)
    durations := m.durations.observe elapsed
    events := m.events.observe events }

/-- Puts all entries of a dictionary into another one. -/
def update (old new : Dictionary Int) : Dictionary Int :=
  new.entries.foldl (fun d (name, v) => d.set name v) old

/-- The exploration stands at these numbers. -/
def explored (m : Metrics) (s : ExplorationSummary) : Metrics :=
  { m with
    popped := update m.popped s.popped
    pushed := update m.pushed s.pushed
    inconsistent := s.inconsistent
    pending := s.pending }

/-- The coverage stands at these numbers. -/
def covered (m : Metrics) (distinct duplicates : Int) : Metrics := { m with distinct, duplicates }

/-- Takes up what was measured at the end of a run that took some time. -/
def record (m : Metrics) (elapsed : Int) (x : Search.Measurement) : Metrics :=
  ((m.iterationFinished x.status.name x.events elapsed).explored x.stats).covered x.distinct
    x.duplicates

/-- All samples, in the order of their names and labels. A vector without a sample is absent. -/
def samples (m : Metrics) : List Sample :=
  let vector (name label : String) (d : Dictionary Int) : List Sample :=
    d.entries.map fun (value, n) => .value ("trustgo_" ++ name) (some (label, value)) n
  let single (name : String) (n : Int) : Sample := .value ("trustgo_" ++ name) none n
  [.histogram "trustgo_checker_graph_events" m.events,
    .histogram "trustgo_checker_iteration_duration_seconds" m.durations] ++
  vector "checker_iterations_total" "status" m.iterations ++
  [single "coverage_distinct_graphs" m.distinct, single "coverage_duplicate_graphs" m.duplicates,
    single "exploration_inconsistent" m.inconsistent, single "exploration_pending" m.pending] ++
  vector "exploration_popped" "kind" m.popped ++ vector "exploration_pushed" "kind" m.pushed

end Metrics

end Interleaving
