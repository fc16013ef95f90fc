import TxBase.Catalog.Files
import TxBase.Dbf.CatalogTables
import TxBase.Dbf.Operation

/-! The steps of a catalog transaction, `src/xbase.rs`, and the errors of `src/catalog.rs`. -/
namespace TxBase.Catalog
open Lib Dbf

inductive TransactionCommand where
  | setConstraints (table : Option String) (all : Bool) (names : List String) (mode : ConstraintMode)
  deriving DecidableEq

inductive TransactionStep where
  | mutation (operation : OperationIr)
  | command (command : TransactionCommand)
  deriving DecidableEq

inductive CatalogTransactionError where
  | invalid (message : String)
  | catalogTagChanged (expected actual : String)
  | preconditionFailed (tag : String)
  | sidecarPreconditionFailed (name : String)
  | transactionPreconditionFailed (expected actual : Nat)
  | tableSetChanged
  | catalog (error : CatalogError)
  deriving DecidableEq

def maxOperationBatch : Nat := 1000

def methodName : OperationMethod → String
  | .get => "GET"
  | .query => "QUERY"
  | .post => "POST"
  | .put => "PUT"
  | .patch => "PATCH"
  | .delete => "DELETE"

def isRead (method : OperationMethod) : Bool := method = .get || method = .query

namespace TransactionStep

def refuse (condition : Prop) [Decidable condition] (message : String) : Except String Unit :=
  if condition then .error message else .ok ()

def validate : TransactionStep → Except String Unit
  | .mutation operation => refuse (isRead operation.method)
      s!"{methodName operation.method} is a read operation"
  | .command (.setConstraints table all names _) => do
      refuse (table.any fun name => (trim name).isEmpty) "constraint table name must not be empty"
      refuse (all && !names.isEmpty) "all and names cannot be used together"
      refuse (!all && names.isEmpty) "constraint names must not be empty unless all is true"
      refuse (names.any fun name => (trim name).isEmpty) "constraint names must not be empty"

def isConstraintCommand : TransactionStep → Bool
  | .mutation _ => false
  | .command _ => true

def intoMutation : TransactionStep → Option OperationIr
  | .mutation operation => some operation
  | .command _ => none

end TransactionStep

abbrev Tables := OrderedMap String DbfTable

abbrev Deferred := OrderedMap String (List String)

def onTable {α : Type} (name : String) (outcome : Outcome DbfError α) : Outcome CatalogError α :=
  outcome.mapError (CatalogError.table name)

def ofTable {α : Type} (name : String) (result : Checked α) : Outcome CatalogError α :=
  onTable name (Outcome.lift result)

def invalidCatalog {α : Type} (message : String) : Outcome CatalogError α :=
  Outcome.fail (.invalid message)

/-- A statement that refuses what meets the condition. -/
def refuseCatalog (condition : Prop) [Decidable condition] (message : String) :
    Outcome CatalogError Unit :=
  if condition then invalidCatalog message else .ok ()

end TxBase.Catalog
