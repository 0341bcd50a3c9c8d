import Bindery.Text.Basic

/-!
# Metrics

Things that are counted while a book is built. What a build did is the list of its events; a report
counts equal ones.
-/

namespace Bindery

open Text (bytes)

/-- A countable event. -/
inductive Metric where
  | stage (stage : Bytes)
  | build
  | stageResult (stage result : Bytes)
  | outcome (outcome : Bytes)
  | pass (lang : Bytes) (success : Bool)
  | directive (name : Bytes)
  | fetch (repository : Bytes) (success : Bool)
  | cacheHit (repository : Bytes)
  deriving DecidableEq, Repr

namespace Metric

def resultName (success : Bool) : Bytes := if success then "success" else "failed"

/-- The name of the series that an event counts in, and its labels. -/
def series : Metric → Bytes × List (Bytes × Bytes)
  | .stage s => ("stage_duration_seconds", [("stage", s)])
  | .build => ("build_duration_seconds", [])
  | .stageResult s r => ("stage_results_total", [("result", r), ("stage", s)])
  | .outcome o => ("build_outcomes_total", [("outcome", o)])
  | .pass l ok => ("language_pass_duration_seconds", [("lang", l), ("result", resultName ok)])
  | .directive n => ("directives_expanded_total", [("directive", n)])
  | .fetch r ok => ("repository_fetch_duration_seconds", [("repo", r), ("result", resultName ok)])
  | .cacheHit r => ("repository_cache_hits_total", [("repo", r)])

/-- The series of an event as text: its name with the labels in braces. -/
def text (m : Metric) : Bytes :=
  let (name, labels) := m.series
  name ++ [123] ++ Text.joinWith "," (labels.map fun (k, v) => k ++ "=" ++ v) ++ [125]

/-- How often each series was counted. The duration of builds is always listed. -/
def counts (events : List Metric) : List (Metric × Nat) :=
  (Metric.build :: events).eraseDups.map fun m => (m, events.count m)

end Metric

end Bindery
