import Parquex.FileSystem

/-! # Failures of the native boundary -/

namespace Parquex

inductive Category
  | cancelled | conflict | invalidArgument | malformedData | nativeFailure | notFound
  | permissionDenied | timeout | unsupported
  deriving DecidableEq, Repr

inductive Operation
  | timePartition
  | readerOpen | readerNext
  | parquetWriterOpen | parquetWriterWrite | parquetWriterClose
  | head | list | delete | writerOpen | writerWrite | writerPublish | writerAbort
  | storeOpen | storeHead | storeList | storeWriterOpen
  | storeWriterWrite | s3WriterOpen | s3WriterPublish | s3WriterAbort
  | readRange | storeReadRange | s3List | s3Delete
  | zstdCompress | zstdDecompress
  deriving DecidableEq, Repr

def Operation.atom : Operation → String
  | .timePartition => "time_partition"
  | .readerOpen => "reader_open"
  | .readerNext => "reader_next"
  | .parquetWriterOpen => "parquet_writer_open"
  | .parquetWriterWrite => "parquet_writer_write"
  | .parquetWriterClose => "parquet_writer_close"
  | .head => "local_head"
  | .list => "local_list"
  | .delete => "local_delete"
  | .writerOpen => "local_writer_open"
  | .writerWrite => "local_writer_write"
  | .writerPublish => "local_writer_publish"
  | .writerAbort => "local_writer_abort"
  | .storeOpen => "store_open"
  | .storeHead => "store_head"
  | .storeList => "store_list"
  | .storeWriterOpen => "store_writer_open"
  | .storeWriterWrite => "store_writer_write"
  | .s3WriterOpen => "s3_writer_open"
  | .s3WriterPublish => "s3_writer_publish"
  | .s3WriterAbort => "s3_writer_abort"
  | .readRange => "local_read_range"
  | .storeReadRange => "store_read_range"
  | .s3List => "s3_list"
  | .s3Delete => "s3_delete"
  | .zstdCompress => "zstd_compress"
  | .zstdDecompress => "zstd_decompress"

structure NativeFailure where
  category : Category
  operation : Operation
  message : String
  retryable : Bool := false
  deriving DecidableEq, Repr

/-- The errors of a remote store that are told apart. -/
inductive RemoteErrorKind
  | notFound | alreadyExists | precondition | permissionDenied | unauthenticated | notSupported | notImplemented
  | invalidPath | unknownConfigurationKey | other
  deriving DecidableEq, Repr

namespace NativeFailure

def new (category : Category) (operation : Operation) (message : String) : NativeFailure :=
  { category, operation, message }

def expected (operation : Operation) (message : String) : NativeFailure :=
  { category := .nativeFailure, operation, message }

def invalid (operation : Operation) (message : String) : NativeFailure :=
  { category := .invalidArgument, operation, message }

def cancelled (operation : Operation) : NativeFailure :=
  { category := .cancelled, operation, message := "operation was cancelled" }

def fromIo (operation : Operation) : IoErrorKind → NativeFailure
  | .notFound => { category := .notFound, operation, message := "object not found" }
  | .permissionDenied => { category := .permissionDenied, operation, message := "object access was denied" }
  | .alreadyExists => { category := .conflict, operation, message := "destination already exists" }
  | .invalidInput | .invalidData => { category := .invalidArgument, operation, message := "object request is invalid" }
  | .timedOut => { category := .timeout, operation, message := "object operation timed out", retryable := true }
  | .unsupported => { category := .unsupported, operation, message := "object operation is unsupported" }
  | .notADirectory | .isADirectory | .filesystemLoop | .other =>
    { category := .nativeFailure, operation, message := "local object operation failed" }

def remoteError (operation : Operation) : RemoteErrorKind → NativeFailure
  | .notFound => { category := .notFound, operation, message := "S3 object not found" }
  | .alreadyExists | .precondition => { category := .conflict, operation, message := "S3 destination already exists" }
  | .permissionDenied | .unauthenticated =>
    { category := .permissionDenied, operation, message := "S3 object access was denied" }
  | .notSupported | .notImplemented => { category := .unsupported, operation, message := "S3 operation is unsupported" }
  | .invalidPath | .unknownConfigurationKey =>
    { category := .invalidArgument, operation, message := "S3 request is invalid" }
  | .other =>
    { category := .nativeFailure, operation, message := "S3 operation failed after bounded retries", retryable := true }

end NativeFailure

/-- The error that a caller of the library sees. -/
structure Error where
  category : Category
  operation : String
  message : String
  retryable : Bool := false
  deriving DecidableEq, Repr

namespace Error

def fromNative (failure : NativeFailure) : Error where
  category := failure.category
  operation := failure.operation.atom
  message := failure.message
  retryable := failure.retryable

def invalid (operation message : String) : Error := { category := .invalidArgument, operation, message }

end Error

end Parquex
