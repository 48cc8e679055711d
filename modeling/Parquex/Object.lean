import Parquex.NativeFailure

/-! # Objects and the policies of their writers -/

namespace Parquex

structure ObjectMetadata where
  path : String
  size : Nat
  deriving DecidableEq, Repr

inductive FlushPolicy
  | none | eachChunk | beforePublish
  deriving DecidableEq, Repr

inductive SyncPolicy
  | none | data | all
  deriving DecidableEq, Repr

structure WriteOptions where
  flush : FlushPolicy
  sync : SyncPolicy
  deriving DecidableEq, Repr

end Parquex
