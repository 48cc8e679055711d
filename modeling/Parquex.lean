import Parquex.TimePartition
import Parquex.TilesSound
import Parquex.ParseSound
import Parquex.PlanSound
import Parquex.Arrow
import Parquex.Pruning
import Parquex.PruningSound
import Parquex.Term
import Parquex.BatchDecode
import Parquex.Machine
import Parquex.ParquetWriter
import Parquex.ParquetWriterSound
import Parquex.FileSystem
import Parquex.NativeFailure
import Parquex.Object
import Parquex.ObjectKey
import Parquex.LocalStore
import Parquex.LocalStoreSound
import Parquex.Effect
import Parquex.EventTime
import Parquex.Schema
import Parquex.Batch
import Parquex.Input
import Parquex.InputSound
import Parquex.Dataset
import Parquex.DatasetWriter
import Parquex.DatasetWriterSteps
import Parquex.DatasetWriterSound
import Parquex.Regroup
import Parquex.Conservation
import Parquex.PartialFailure
import Parquex.HonestFailure
import Parquex.DatasetWriterBounds
import Parquex.LocalCalls
import Parquex.PublishFailure
import Parquex.WriteFailure
import Parquex.RemoteWriter
import Parquex.RemoteWriterSound
import Parquex.Directory
import Parquex.Store
import Parquex.LocalObjects
import Parquex.LocalListSound
import Parquex.LocalListExact
import Parquex.LocalObjectsSound
import Parquex.Visibility
import Parquex.RemoteObjects
import Parquex.RemoteObjectsSound
import Parquex.BackendAgreement
import Parquex.NativeSchema
import Parquex.SchemaRoundTrip
import Parquex.BatchEncode
import Parquex.BatchFilter
import Parquex.BatchFilterSound
import Parquex.Reader
import Parquex.ReaderSound
import Parquex.Prefetch
import Parquex.PrefetchSound
import Parquex.Positions
import Parquex.ProjectionSound
import Parquex.Utf8Order
import Parquex.DatasetPredicate
import Parquex.PredicateAgreement
import Parquex.DatasetStream
import Parquex.DatasetStreamSound
import Parquex.StoreRead
import Parquex.StoreReadSound
import Parquex.Counted
import Parquex.Accounting
import Parquex.AccountingSound
import Parquex.Containment
import Parquex.Links
import Parquex.ContainmentSound
import Parquex.Listing
import Parquex.ListingSound
import Parquex.ListingBeside
import Parquex.DatasetOpen
import Parquex.EventTimeSound
import Parquex.HalfOpen
import Parquex.RoutedTimestamp
import Parquex.StoreReadEnds
import Parquex.StoreReadExact
import Parquex.Infer
import Parquex.ColumnRows
import Parquex.InferSound
import Parquex.PublicSchema
import Parquex.PublicSchemaSound
import Parquex.ChunkReader
import Parquex.ChunkReaderSound
import Parquex.Zstd
import Parquex.ZstdSound
import Parquex.FlatBuilder
import Parquex.NestedValues
import Parquex.NestedValuesSound
import Parquex.NestedRoundTrip
import Parquex.FiniteRows
import Parquex.BatchBoundary
import Parquex.UniformRows
import Parquex.FiniteRoundTrip
import Parquex.ZstdErrors
import Parquex.RemoteNamespace
import Parquex.Cancellation
import Parquex.DatasetRead
import Parquex.DatasetReadSound
import Parquex.DatasetHistory
import Parquex.DatasetPlaces
import Parquex.DatasetRange
import Parquex.DatasetAnswers
import Parquex.ListingWithin
import Parquex.LocalRoundTrip
import Parquex.RemoteRoundTrip
import Parquex.RemotePublication
import Parquex.RemotePublicationSound
import Parquex.Specification
import Parquex.StorePut
import Parquex.Holdings
import Parquex.StorePutSound
import Parquex.LocalHistory
import Parquex.FaultyHistory
import Parquex.FileRead
import Parquex.FileReadSound
import Parquex.Pushdown
import Parquex.FileWrite
import Parquex.FileWriteSound
import Parquex.FileHistory
import Parquex.Program
import Parquex.FileFormat
import Parquex.FileFormatSound
import Parquex.WrittenRows
import Parquex.WriteThenRead
