/-!
# Error codes and transaction ids

The result codes shared by the object plugins (`core/errno.h`) and the ids under
which transactions are known. The id `0` stands for a call without a transaction.
-/
namespace RaleighSL.Core

inductive Errno where
  | none
  | notImplemented
  | schedYield
  | noMemory
  | pluginNotLoaded
  | txnClosed
  | txnNotFound
  | txnRolledback
  | txnLockedKey
  | txnLockedOperation
  | objectExists
  | objectNotFound
  | objectWrongType
  | dataCas
  | dataKeyExists
  | dataKeyNotFound
  | dataNoItems
  | numberDivmodByzero
  | numberDivmodOverflow
  deriving DecidableEq, Repr

/-- Ids are handed out from a counter that starts at 1 (`next_txn_id`). -/
abbrev TxnId := Nat

/-- Address of a heap object. Every allocation takes a new one. -/
abbrev Addr := Nat

end RaleighSL.Core
