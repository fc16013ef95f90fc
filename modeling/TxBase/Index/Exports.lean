import TxBase.Dbf.ExportAtomicity
import TxBase.Index.Recovered

/-! The index that the export of a table stages: it is built from the rows in memory, and its
replay compares it with the rows of the staged image. -/
namespace TxBase.Index
open Lib Json Dbf List
open Durable (Interrupted)

@[reducible] def listedInOrder : ReadDir := ⟨id, fun _ => .rfl⟩

@[reducible] def plainSchema : Serde :=
  Serde.listed [] [] [⟨"txbase-schema", 1, none, [], [], {}⟩] []

/-- An empty table over a field of two characters, and the files of it and of its index. -/
def emptyImage : Bytes := singleFieldImage 0x03 0x43 2 0 []

def emptyFiles : ExportDisk where
  targets
    | .dbf => some emptyImage
    | .index => some [0x7b, 0, 0]
    | _ => none
  directory := none
  journal := .absent

/-- The index before the insertion of a text, and after it, filed under the text in memory. -/
@[reducible] def insertionIndexes (text : String) (slot : Bytes) : IndexSerde :=
  IndexSerde.listed
    [singleIndex emptyImage [], singleIndex (singleFieldImage 0x03 0x43 2 0 [slot])
      [⟨textKey text, [1]⟩]]
    [textKey text]

attribute [local instance] Runtime.bare Filters.bare plainSchema Collators.ascii
  indexing indexCheck listedInOrder

/-- The inserted text ends in a blank, which the image does not tell from padding.  The journal of
the export is written, and no recovery gets past the check of the staged index. -/
theorem staged_index_is_refused :
    letI := insertionIndexes "a " [0x20, 0x61, 0x20]
    ∃ empty table seen found last stop, fromBytes emptyImage = .ok empty ∧
      (Call.insert [("A", .string "a ")] []).run empty = (table, .ok ()) ∧
      Interrupted (commitSchemaExportLocked "t.dbf" table [0, 0])
        (fun _ : Unit => recoverSchemaExportLocked "t.dbf") emptyFiles seen found ∧
      Published found ∧ found ∈ seen ∧ (recoverSchemaExportLocked "t.dbf").Fails found last stop ∧
      last.targets .dbf = some emptyImage ∧ table.bytes ≠ emptyImage := by
  let := insertionIndexes "a " [0x20, 0x61, 0x20]
  have hrun : (do
      let empty ← (fromBytes emptyImage).toOption
      let edited := (Call.insert [("A", .string "a ")] []).run empty
      let _ ← edited.2.toOption
      let found ← (commitSchemaExportLocked "t.dbf" edited.1 [0, 0] emptyFiles).passed.getLast?
      let again := recoverSchemaExportLocked "t.dbf" found
      if found.journal = LogFile.records [journalRecord 129] ∧ again.outcome.toOption = none ∧
          again.last.targets .dbf = some emptyImage ∧ edited.1.bytes ≠ emptyImage then some ()
      else none) = some () := by
    decide +kernel
  simp only [bind_eq_some, check_eq_some] at hrun
  obtain ⟨empty, hempty, ⟨⟩, hedited, found, hfound, hjournal, hfails, hprior, hnew⟩ := hrun
  obtain ⟨stop, hstop⟩ : ∃ stop, (recoverSchemaExportLocked "t.dbf" found).outcome =
      .error stop := by
    cases houtcome : (recoverSchemaExportLocked "t.dbf" found).outcome with
    | ok recovered =>
      rw [houtcome] at hfails
      cases hfails
    | error stop => exact ⟨stop, rfl⟩
  refine ⟨empty, ((Call.insert [("A", .string "a ")] []).run empty).1, _, found, _, stop,
    eq_ok_of_toOption hempty, Prod.ext rfl (eq_ok_of_toOption hedited), .stopped ⟨prefix_rfl, ?_⟩,
    ⟨_, hjournal⟩, mem_of_getLast? hfound, ⟨hstop, rfl⟩, hprior, hnew⟩
  rw [getLastD_eq_getLast?, hfound]
  rfl

/-- The export of a text that fills its field, stopped when its journal is written. -/
theorem schema_export_all_or_nothing_insert :
    letI := insertionIndexes "ab" [0x20, 0x61, 0x62]
    ∃ empty table seen found recovered last staged, fromBytes emptyImage = .ok empty ∧
      (Call.insert [("A", .string "ab")] []).run empty = (table, .ok ()) ∧
        IndexFits "t.dbf" table emptyFiles ∧
      Interrupted (commitSchemaExportLocked "t.dbf" table [0, 0])
        (fun _ : Unit => recoverSchemaExportLocked "t.dbf") emptyFiles seen found ∧
      Published found ∧ (recoverSchemaExportLocked "t.dbf").Finishes found last recovered ∧
      Exports emptyFiles table [0, 0] staged ∧ last.targets = staged.desired := by
  let := insertionIndexes "ab" [0x20, 0x61, 0x62]
  have hrun : (do
      let empty ← (fromBytes emptyImage).toOption
      let edited := (Call.insert [("A", .string "ab")] []).run empty
      let _ ← edited.2.toOption
      let staged ← (exportIndex edited.1 emptyFiles).toOption.join
      let _ ← (validateSnapshotBytes "t.dbf" edited.1.bytes staged).toOption
      let found ←
        ((commitSchemaExportLocked "t.dbf" edited.1 [0, 0] emptyFiles).passed.take 9).getLast?
      if found.journal = LogFile.records [journalRecord 129] then some () else none) = some () := by
    decide +kernel
  simp only [bind_eq_some, check_eq_some, Option.join_eq_some_iff] at hrun
  obtain ⟨empty, hempty, ⟨⟩, hedited, index, hindex, ⟨⟩, hvalid, found, hfound, hjournal⟩ := hrun
  generalize htable : ((Call.insert [("A", .string "ab")] []).run empty).1 =
    table at hindex hvalid hfound
  have hfits : IndexFits "t.dbf" table emptyFiles := by
    intro bytes hbytes
    cases (eq_ok_of_toOption hindex).symm.trans hbytes
    exact eq_ok_of_toOption hvalid
  have hstopped : Interrupted (commitSchemaExportLocked "t.dbf" table [0, 0])
      (fun _ : Unit => recoverSchemaExportLocked "t.dbf") emptyFiles
      ((commitSchemaExportLocked "t.dbf" table [0, 0] emptyFiles).passed.take 9) found := by
    refine .stopped ⟨List.take_prefix 9 _, ?_⟩
    rw [getLastD_eq_getLast?, hfound]
    rfl
  obtain ⟨⟨recovered, last, hfinishes, -, hdesired⟩, -⟩ :=
    schema_export_all_or_nothing rfl hfits hstopped
  obtain ⟨staged, hexports, hlast⟩ := hdesired ⟨found, mem_of_getLast? hfound, _, hjournal⟩
  exact ⟨empty, table, _, found, recovered, last, staged, eq_ok_of_toOption hempty,
    Prod.ext htable (eq_ok_of_toOption hedited), hfits, hstopped, ⟨_, hjournal⟩, hfinishes,
      hexports, hlast⟩

end TxBase.Index
