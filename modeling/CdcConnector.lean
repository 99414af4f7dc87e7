import CdcConnector.Fallible
import CdcConnector.BigEndian
import CdcConnector.PartialRun
import CdcConnector.TransactionLog
import CdcConnector.Event
import CdcConnector.Varint
import CdcConnector.AvroCodec
import CdcConnector.SerdeAvro
import CdcConnector.EventAvro
import CdcConnector.RelationAvro
import CdcConnector.Decoder
import CdcConnector.RelationDecoder
import CdcConnector.ZeroSearch
import CdcConnector.ZeroBranches
import CdcConnector.Compaction
import CdcConnector.ProducerLog
import CdcConnector.Redelivery
import CdcConnector.LsnTopic
import CdcConnector.SourceWal
import CdcConnector.ProducerRestarts
import CdcConnector.ProducerOverlap
import CdcConnector.TupleDecoder
import CdcConnector.TupleSyntax
import CdcConnector.RowDecoder
import CdcConnector.ProducerModel
import CdcConnector.WalReader
import CdcConnector.SourceStream
import CdcConnector.KafkaLoop
import CdcConnector.Atomicity
import CdcConnector.Checkpoint
import CdcConnector.Undecodable
import CdcConnector.SchemaFirst
import CdcConnector.TaggedProducer
import CdcConnector.FlagMirror
import CdcConnector.TupleGrammar
import CdcConnector.KeyTuple
import CdcConnector.RelationMessage
import CdcConnector.TuplePanics
import CdcConnector.RelationPanics
import CdcConnector.PayloadPanics
import CdcConnector.TypedLog
import CdcConnector.RefusedItems
import CdcConnector.KeyLoops
import CdcConnector.CutRelations
import CdcConnector.CutRows
import CdcConnector.MergeToasted
import CdcConnector.DeleteMessage
import CdcConnector.UpdateMessage
import CdcConnector.SinkModel
import CdcConnector.KafkaConsumer
import CdcConnector.SinkStatements
import CdcConnector.PostgresSink
import CdcConnector.ToastedFree
import CdcConnector.StatementCache
import CdcConnector.StatementTexts
import CdcConnector.SqlLexer
import CdcConnector.SqlReader
import CdcConnector.KeyedTable
import CdcConnector.Replay
import CdcConnector.Interleaving
import CdcConnector.SinkDatabase
import CdcConnector.SourceTable
import CdcConnector.SinkTable
import CdcConnector.KeyedStatements
import CdcConnector.DeleteBinding
import CdcConnector.Kleene
import CdcConnector.WhereClause
import CdcConnector.StatementNames
import CdcConnector.SinkTables
import CdcConnector.OwnTables
import CdcConnector.TableNames
import CdcConnector.SinkPlan
import CdcConnector.FoundRelations
import CdcConnector.TopicOrder
import CdcConnector.TableReplay
import CdcConnector.SinkReplication
import CdcConnector.Calendar
import CdcConnector.JsonText
import CdcConnector.JsonReader
import CdcConnector.JsonValue
import CdcConnector.Weights
import CdcConnector.Feldera
import CdcConnector.FelderaKeys
import CdcConnector.FelderaSink
import CdcConnector.FelderaImages
import CdcConnector.FelderaTables
import CdcConnector.RelationCaches
import CdcConnector.ConsumerRestarts
import CdcConnector.SourceMessages
import CdcConnector.TableTopic
import CdcConnector.EndToEnd
import CdcConnector.RelationTopic
