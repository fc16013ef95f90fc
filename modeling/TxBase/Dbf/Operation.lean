import TxBase.Dbf.Pack

/-! A logged operation, `src/dbf/operation.rs`, is one of the calls on a table. -/
namespace TxBase.Dbf
open Lib Json
open Outcome (fail)

def operationObject (operation : OperationIr) (method : String) : Checked Map :=
  required (operation.body.bind Value.asObject) s!"operation {method} body must be an object"

def recordsPath : List Char := "/records/".toList

def operationRecordId (path : String) : Checked Nat := do
  reject (!recordsPath.isPrefixOf path.toList) "operation path must be /records/\x7bid\x7d"
  let id ← required (parseUnsigned u64Size (String.ofList (path.toList.drop recordsPath.length)))
    "operation record id is invalid"
  reject (id = 0) "operation record id must be positive"
  .ok id

def operationCall (operation : OperationIr) (deferred : List String) : Checked Call :=
  match operation.method with
  | .post => do
      reject (operation.path ≠ "/records") "operation POST path must be /records"
      let values ← operationObject operation "POST"
      .ok (.insert values deferred)
  | .put => do
      let number ← operationRecordId operation.path
      let values ← operationObject operation "PUT"
      .ok (.replace number values deferred)
  | .patch => do
      let number ← operationRecordId operation.path
      let values ← operationObject operation "PATCH"
      .ok (.patch number values deferred)
  | .delete => do
      reject operation.body.isSome "operation DELETE body must be absent"
      let number ← operationRecordId operation.path
      .ok (.delete number)
  | .get | .query => invalid "read operation cannot be replayed from a mutation WAL"

namespace DbfTable
variable [Runtime] [Filters]

def applyOperationWithDeferredConstraints (table : DbfTable) (operation : OperationIr)
    (deferred : List String) : DbfTable × Res Unit :=
  match operationCall operation deferred with
  | .error error => (table, fail error)
  | .ok call => call.run table

def applyOperation (table : DbfTable) (operation : OperationIr) : DbfTable × Res Unit :=
  table.applyOperationWithDeferredConstraints operation []

end DbfTable

end TxBase.Dbf
