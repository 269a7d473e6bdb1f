import EntityCache.Cache.Action
import EntityCache.Cache.Basic
import EntityCache.Cache.QueryAnswer
import EntityCache.Cache.SaveAnswer
import EntityCache.Cache.SaveBundle
import EntityCache.Cache.Settings
import EntityCache.Fault
import EntityCache.Filter.Expr
import EntityCache.Filter.ExprReader
import EntityCache.Filter.ODataText
import EntityCache.Filter.Operator
import EntityCache.Filter.Predicate
import EntityCache.Filter.Scope
import EntityCache.Filter.WhereClause
import EntityCache.Json.Basic
import EntityCache.Json.Reader
import EntityCache.Json.Record
import EntityCache.Json.RecordText
import EntityCache.Json.Text
import EntityCache.Number.Binary64
import EntityCache.Number.Notation
import EntityCache.Number.Reading
import EntityCache.Number.Shortest
import EntityCache.Proofs.Actions
import EntityCache.Proofs.AdoptedTypes
import EntityCache.Proofs.Allotment
import EntityCache.Proofs.AssignmentOrders
import EntityCache.Proofs.Attaching
import EntityCache.Proofs.CacheCalls
import EntityCache.Proofs.CacheIndex
import EntityCache.Proofs.CacheRuns
import EntityCache.Proofs.CalendarDays
import EntityCache.Proofs.ClauseShapes
import EntityCache.Proofs.Coercion
import EntityCache.Proofs.Collisions
import EntityCache.Proofs.CompleteKeys
import EntityCache.Proofs.DoubleValues
import EntityCache.Proofs.EntityChanges
import EntityCache.Proofs.ExactIntegers
import EntityCache.Proofs.ExpressionGrammar
import EntityCache.Proofs.ExpressionReading
import EntityCache.Proofs.FailedAttaching
import EntityCache.Proofs.FailedFixups
import EntityCache.Proofs.FilterBuilding
import EntityCache.Proofs.FilterLiterals
import EntityCache.Proofs.FilterMeaning
import EntityCache.Proofs.FilterOperands
import EntityCache.Proofs.FilterPhrases
import EntityCache.Proofs.FilterReader
import EntityCache.Proofs.FilterRoundTrip
import EntityCache.Proofs.FilterTokens
import EntityCache.Proofs.FilterVariables
import EntityCache.Proofs.FilterVisits
import EntityCache.Proofs.Fixups
import EntityCache.Proofs.FloatIntervals
import EntityCache.Proofs.Formation
import EntityCache.Proofs.FormationRuns
import EntityCache.Proofs.FreshKeys
import EntityCache.Proofs.GroupCalls
import EntityCache.Proofs.GroupRuns
import EntityCache.Proofs.HashedValues
import EntityCache.Proofs.ImportFrame
import EntityCache.Proofs.ImportGrowth
import EntityCache.Proofs.ImportSteps
import EntityCache.Proofs.ImportTraces
import EntityCache.Proofs.Importing
import EntityCache.Proofs.IndexedRuns
import EntityCache.Proofs.IntegerKeys
import EntityCache.Proofs.Joining
import EntityCache.Proofs.JoiningKeys
import EntityCache.Proofs.KeptFilters
import EntityCache.Proofs.KeyAssignments
import EntityCache.Proofs.KeyCascades
import EntityCache.Proofs.KeyEdits
import EntityCache.Proofs.KeyHistories
import EntityCache.Proofs.KeyIdentity
import EntityCache.Proofs.KeyJoins
import EntityCache.Proofs.KeyLookups
import EntityCache.Proofs.KeyTexts
import EntityCache.Proofs.KeyWrites
import EntityCache.Proofs.Keys
import EntityCache.Proofs.LiteralQuotes
import EntityCache.Proofs.LocalEdits
import EntityCache.Proofs.Merging
import EntityCache.Proofs.NodeMerging
import EntityCache.Proofs.NormalForms
import EntityCache.Proofs.NumberTexts
import EntityCache.Proofs.OperationParts
import EntityCache.Proofs.OptionReading
import EntityCache.Proofs.OriginalValues
import EntityCache.Proofs.Outcomes
import EntityCache.Proofs.PartialNodes
import EntityCache.Proofs.PathWalks
import EntityCache.Proofs.PayloadReferences
import EntityCache.Proofs.PercentDecoding
import EntityCache.Proofs.PercentEscapes
import EntityCache.Proofs.PredicateShapes
import EntityCache.Proofs.PrintedExpressions
import EntityCache.Proofs.QuantifierRanges
import EntityCache.Proofs.ReadingBack
import EntityCache.Proofs.References
import EntityCache.Proofs.Registrations
import EntityCache.Proofs.Registry
import EntityCache.Proofs.Reimport
import EntityCache.Proofs.Rekeying
import EntityCache.Proofs.ResolvedPaths
import EntityCache.Proofs.Rewriting
import EntityCache.Proofs.SaveParts
import EntityCache.Proofs.SavedChanges
import EntityCache.Proofs.SavedNodes
import EntityCache.Proofs.SavedValues
import EntityCache.Proofs.SettledCaches
import EntityCache.Proofs.SlotStore
import EntityCache.Proofs.StateMachine
import EntityCache.Proofs.Tables
import EntityCache.Proofs.TempKeyAgreement
import EntityCache.Proofs.TempKeyDraws
import EntityCache.Proofs.TempKeyMarks
import EntityCache.Proofs.TextPieces
import EntityCache.Proofs.UndoneEdits
import EntityCache.Proofs.UndrawnNumbers
import EntityCache.Proofs.ValueEquality
import EntityCache.Proofs.WholeNumbers
import EntityCache.Proofs.WrittenFilters
import EntityCache.Proofs.WrittenTimestamps
import EntityCache.Query.Basic
import EntityCache.Query.Document
import EntityCache.Query.OptionString
import EntityCache.Query.UriBuilder
import EntityCache.Remote.Payload
import EntityCache.Remote.Service
import EntityCache.Scalar.Coercion
import EntityCache.Scalar.DataType
import EntityCache.Scalar.Duration
import EntityCache.Scalar.Literal
import EntityCache.Schema.Catalog
import EntityCache.Schema.EntityType
import EntityCache.Schema.Path
import EntityCache.Table
import EntityCache.Text.Character
import EntityCache.Text.Letter
import EntityCache.Text.Percent
import EntityCache.Text.Pieces
import EntityCache.Time.Calendar
import EntityCache.Time.Instant
import EntityCache.Time.Rfc3339
import EntityCache.Tracking.Entity
import EntityCache.Tracking.Group
import EntityCache.Tracking.Instances
import EntityCache.Tracking.Key
import EntityCache.Tracking.State
import EntityCache.Tracking.TempKeys
import EntityCache.Value.Basic
import EntityCache.Value.Equality
import EntityCache.Value.Guid
import EntityCache.Value.Text
