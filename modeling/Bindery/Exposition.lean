import Bindery.Metric

/-!
# Metrics as a text file

The counted events in the text format of monitoring systems: for each family of series its purpose and
its type, then one line per series. Events that take time are histograms; no time is measured here, so
all of them fall into the lowest bucket.
-/

namespace Bindery.Metric

open Text (bytes)

/-- What a family of series is for, and whether it is a histogram. -/
def families : List (Bytes × Bytes × Bool) :=
  [("build_duration_seconds", "Total build duration", true),
    ("build_outcomes_total", "Build outcomes by final status", false),
    ("directives_expanded_total", "Expanded directives by name", false),
    ("language_pass_duration_seconds", "Duration of one language pass", true),
    ("repository_cache_hits_total", "Repository lookups served from the build cache", false),
    ("repository_fetch_duration_seconds", "Duration of repository fetches", true),
    ("stage_duration_seconds", "Duration of individual build stages", true),
    ("stage_results_total", "Stage result counts by outcome", false)]

/-- The upper bounds of the buckets of a histogram. -/
def buckets : List Bytes :=
  ["0.005", "0.01", "0.025", "0.05", "0.1", "0.25", "0.5", "1", "2.5", "5", "10", "+Inf"]

/-- The value of a label, escaped. -/
def labelValue (s : Bytes) : Bytes := s.flatMap fun c : UInt8 =>
  if c == '\\' then bytes "\\\\" else if c == '"' then bytes "\\\"" else if c == '\n' then bytes "\\n"
  else [c]

/-- A line of a series with its labels. -/
def seriesLine (name : Bytes) (labels : List (Bytes × Bytes)) (value : Bytes) : Bytes :=
  let pairs := labels.map fun (k, v) => k ++ bytes "=\"" ++ labelValue v ++ bytes "\""
  let shown : Bytes := if pairs.isEmpty then [] else [123] ++ Text.joinWith "," pairs ++ [125]
  name ++ shown ++ [32] ++ value ++ [10]

/-- The lines of a series that was counted so often. -/
def seriesLines (name : Bytes) (histogram : Bool) (labels : List (Bytes × Bytes)) (count : Nat) : Bytes :=
  let count := Text.ofNat count
  if histogram then
    (buckets.flatMap fun le => seriesLine (name ++ "_bucket") (labels ++ [(bytes "le", le)]) count)
      ++ seriesLine (name ++ "_sum") labels "0" ++ seriesLine (name ++ "_count") labels count
  else seriesLine name labels count

/-- All families that were counted. -/
def exposition (events : List Metric) : Bytes :=
  let counted := (counts events).mergeSort fun a b => Text.le a.1.text b.1.text
  families.flatMap fun (family, purpose, histogram) =>
    let own := counted.filter fun c => c.1.series.1 == family
    let name := bytes "bookbuilder_" ++ family
    let type := if histogram then bytes "histogram" else bytes "counter"
    if own.isEmpty then []
    else
      bytes "# HELP " ++ name ++ " " ++ purpose ++ "\n# TYPE " ++ name ++ " " ++ type ++ "\n"
        ++ own.flatMap fun (m, n) => seriesLines name histogram m.series.2 n

end Bindery.Metric
