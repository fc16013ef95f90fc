import TxBase.Transaction.WalFile
import TxBase.Transaction.Outcome
import TxBase.Dbf.Currency
import TxBase.Dbf.Datetimes
import TxBase.Dbf.CdcPages
import TxBase.Dbf.MvccCanonical
import TxBase.Dbf.CollectedReads
import TxBase.Catalog.FailedCommit
import TxBase.Catalog.Readers
import TxBase.Index.Exports
import TxBase.Raft.LogRuns
import TxBase.Replication.Shipping
import TxBase.Dbf.MemoAppend
import TxBase.Dbf.NullRoundTrip
import TxBase.Edge.Cleanup
import TxBase.Server.MergePatch
