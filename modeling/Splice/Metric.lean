import Splice.Arithmetic
import Splice.Assoc

/-!
# Metrics

The engine counts what it does under names of its own, once for each program version.
A `Recorder` keeps the counts: a counter is a running total, a histogram the list of
its samples. Each is found by its key, the name followed by the labels, as in
`name{version=v1}`.

The operations are: `count`, which adds to one of the counters of blocks split, instructions
inserted and substituted, jumps promoted and warnings given; `countPasses`, which takes a sample
of the number of passes; and the reading `counter?` and `histogram?`.

Notes on the model:
* a recorder is part of the session and not installed for a whole process;
* samples are whole numbers, since nothing but numbers of passes is sampled;
* descriptions and units of metrics are left out, as nothing reads them.
-/

namespace Splice

/-- A label of a metric. -/
structure Label where
  name : String
  value : String
deriving DecidableEq

/-- A counter or a histogram: a name and labels in a fixed order. -/
structure MetricKey where
  name : String
  labels : List Label
deriving DecidableEq

namespace MetricKey

/-- The name, and behind it the labels in braces, if there are any. -/
def text (key : MetricKey) : String :=
  if key.labels.isEmpty then
    key.name
  else
    key.name ++ "\x7b"
      ++ ",".intercalate (key.labels.map fun label => label.name ++ "=" ++ label.value) ++ "\x7d"

/-- The metric of one program version. -/
def ofVersion (name version : String) : MetricKey := ⟨name, [⟨"version", version⟩]⟩

end MetricKey

/-- The names under which the engine counts. -/
inductive Measure where
  | blocksSplit
  | jumpsPromoted
  | instructionsInserted
  | instructionsSubstituted
  | relocationWarnings
  | promotionPasses
deriving DecidableEq

def Measure.name : Measure → String
  | blocksSplit => "ibr_blocks_split_total"
  | jumpsPromoted => "ibr_jumps_promoted_total"
  | instructionsInserted => "ibr_instructions_inserted_total"
  | instructionsSubstituted => "ibr_instructions_substituted_total"
  | relocationWarnings => "ibr_relocation_warnings_total"
  | promotionPasses => "ibr_promotion_passes"

/-- The values recorded so far, by the text of their keys. -/
structure Recorder where
  counters : List (String × Nat)
  histograms : List (String × List Int)
deriving DecidableEq

namespace Recorder

def empty : Recorder := ⟨[], []⟩

instance : Inhabited Recorder := ⟨empty⟩

/-- Adds to a counter. A counter that is not there yet starts at zero, and is there afterwards
even if nothing was added. -/
def increment (recorder : Recorder) (key : MetricKey) (count : Nat) : Recorder :=
  { recorder with
    counters := Assoc.put recorder.counters key.text
      ((recorder.counters.lookup key.text).getD 0 + count) }

/-- Sets a counter. -/
def setCounter (recorder : Recorder) (key : MetricKey) (count : Nat) : Recorder :=
  { recorder with counters := Assoc.put recorder.counters key.text count }

/-- Adds a sample to a histogram. -/
def sample (recorder : Recorder) (key : MetricKey) (value : Int) : Recorder :=
  { recorder with
    histograms := Assoc.put recorder.histograms key.text
      ((recorder.histograms.lookup key.text).getD [] ++ [value]) }

/-- Counts for a program version. -/
def count (recorder : Recorder) (measure : Measure) (version : String) (count : Nat) : Recorder :=
  recorder.increment (.ofVersion measure.name version) count

/-- Records how many passes an update of a program version took. -/
def countPasses (recorder : Recorder) (version : String) (passes : Nat) : Recorder :=
  recorder.sample (.ofVersion Measure.promotionPasses.name version) passes

/-- The counter with the given key text. -/
def counter? (recorder : Recorder) (key : String) : Option Nat := recorder.counters.lookup key

/-- The sum of the counters with the given name, over all labels. -/
def total (recorder : Recorder) (name : String) : Nat :=
  ((recorder.counters.filter fun entry =>
    entry.1 == name || (name ++ "\x7b").isPrefixOf entry.1).map (·.2)).sum

theorem counter?_increment (recorder : Recorder) (key : MetricKey) (count : Nat) :
    (recorder.increment key count).counter? key.text
      = some ((recorder.counter? key.text).getD 0 + count) :=
  Assoc.lookup_put_self recorder.counters key.text _

/-- The samples of the histogram with the given key text. -/
def histogram? (recorder : Recorder) (key : String) : Option (List Int) :=
  recorder.histograms.lookup key

end Recorder

end Splice
