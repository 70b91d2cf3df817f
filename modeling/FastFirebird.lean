import FastFirebird.Pipelines
import FastFirebird.SectionSync
import FastFirebird.PoolClosed
import FastFirebird.Readers
import FastFirebird.Isolation
import FastFirebird.WireGuard
import FastFirebird.ScriptFold
import FastFirebird.PerStatement
import FastFirebird.DecFloatSound
import FastFirebird.MessageRoundTrip
import FastFirebird.BatchChunks
import FastFirebird.StarRewrite
import FastFirebird.BoundValues
import FastFirebird.InlineScope
import FastFirebird.SavepointWrites
import FastFirebird.PrefetchServed
import FastFirebird.LazyBlobs
import FastFirebird.BlobReads
import FastFirebird.BlobHoles
import FastFirebird.BlobAgree
import FastFirebird.Handshake
import FastFirebird.ProofOnce
import FastFirebird.Srp
import FastFirebird.Transactions
import FastFirebird.SetTransaction
import FastFirebird.TransactionStarts
import FastFirebird.EffectiveOptions
import FastFirebird.Regions
import FastFirebird.NamedParams
import FastFirebird.ScriptLayout
import FastFirebird.ScriptComments
import FastFirebird.ScriptPlaces
import FastFirebird.ScriptJoin
import FastFirebird.ScriptTrace
import FastFirebird.Events
import FastFirebird.EventCounts
import FastFirebird.EventsArmed
import FastFirebird.ScriptStripped
import FastFirebird.StatementHeads
import FastFirebird.StrippedStatements
import FastFirebird.NamedBinding
import FastFirebird.StarCache
import FastFirebird.ScaledNumbers
import FastFirebird.DescribeFormat
import FastFirebird.DecFloatRoundTrip
import FastFirebird.XdrDelivery
import FastFirebird.StarRegions
import FastFirebird.StarAgreement
import FastFirebird.Talk
import FastFirebird.Uploads
import FastFirebird.UploadAccount
import FastFirebird.Arc4
import FastFirebird.ServiceOutput
import FastFirebird.RoundTrips
import FastFirebird.JsLiterals
import FastFirebird.JsTokens
import FastFirebird.DrizzleNames
import FastFirebird.DrizzleSchema
import FastFirebird.DrizzleModule
import FastFirebird.DrizzlePieces
import FastFirebird.DrizzleLines
import FastFirebird.DrizzleExports
import FastFirebird.DrizzleWellFormed
import FastFirebird.Materialize
import FastFirebird.RowShape
import FastFirebird.ShapedRows
import FastFirebird.UploadWire
import FastFirebird.UploadFaithful
import FastFirebird.BatchLayout
import FastFirebird.BatchMessage
import FastFirebird.BatchCells
import FastFirebird.BatchAgreement
import FastFirebird.BlobStore
import FastFirebird.BlobBooks
import FastFirebird.BlobPipeline
import FastFirebird.CryptPolicy
import FastFirebird.Histories
import FastFirebird.Arrivals
import FastFirebird.CursorStore
import FastFirebird.CursorDrained
import FastFirebird.CursorStreamed
import FastFirebird.TxLiveness
import FastFirebird.Serving
