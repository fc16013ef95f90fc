import TxBase.Index.Ordering

/-! The statistics of an index file, `src/index/statistics.rs`. -/
namespace TxBase.Index
open Json

def histogramBucketLimit : Nat := 16

def extendBucket (current : Option HistogramBucket) (entry : IndexEntry) : HistogramBucket :=
  match current with
  | some bucket =>
      ⟨bucket.lower, entry.key, bucket.distinctKeyCount + 1,
        bucket.recordCount + entry.records.length⟩
  | none => ⟨entry.key, entry.key, 1, entry.records.length⟩

/-- The buckets of the entries of one domain; the last entry closes the last bucket. -/
def fillBuckets (target : Nat) (current : Option HistogramBucket) :
    List IndexEntry → List HistogramBucket
  | [] => current.toList
  | entry :: rest =>
      let bucket := extendBucket current entry
      if target ≤ bucket.recordCount ∧ rest ≠ [] then bucket :: fillBuckets target none rest
      else fillBuckets target (some bucket) rest

def indexedRecords (entries : List IndexEntry) : Nat :=
  (entries.map fun entry => entry.records.length).sum

def appendDomainHistogram (entries : List IndexEntry) : List HistogramBucket :=
  let total := indexedRecords entries
  fillBuckets (max ((total + histogramBucketLimit - 1) / histogramBucketLimit) 1) none entries

def buildHistogram (index : SecondaryIndex) : List HistogramBucket :=
  if index.definition.fields.length ≠ 1 then []
  else (index.entries.splitBy fun left right => keyDomain left.key == keyDomain right.key).flatMap
    appendDomainHistogram

def buildStatistics (activeRecordCount : Nat) (indexes : List SecondaryIndex) :
    CollectionStatistics :=
  ⟨activeRecordCount, some (indexes.map fun index => ⟨index.definition.name, buildHistogram index⟩)⟩

def CollectionStatistics.matchesExpected (statistics expected : CollectionStatistics) : Bool :=
  statistics.activeRecordCount == expected.activeRecordCount &&
    statistics.indexes.elim true fun indexes =>
      expected.indexes.elim false fun others => eqvBy IndexStatistics.eqv indexes others

end TxBase.Index
