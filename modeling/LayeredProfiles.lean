import LayeredProfiles.Aggregator
import LayeredProfiles.Builder
import LayeredProfiles.Dialect
import LayeredProfiles.Document
import LayeredProfiles.FileTree
import LayeredProfiles.Host
import LayeredProfiles.Issue
import LayeredProfiles.Json
import LayeredProfiles.Json.Count
import LayeredProfiles.Json.Display
import LayeredProfiles.Json.Reader
import LayeredProfiles.KeyOrder
import LayeredProfiles.Log.Event
import LayeredProfiles.Log.Level
import LayeredProfiles.Log.Line
import LayeredProfiles.Log.Sink
import LayeredProfiles.Log.Standard
import LayeredProfiles.Log.Standard.ErrorField
import LayeredProfiles.Log.Standard.InheritedName
import LayeredProfiles.Log.Standard.Request
import LayeredProfiles.Number
import LayeredProfiles.Number.Binary64
import LayeredProfiles.Number.Numeral
import LayeredProfiles.OrderedMap
import LayeredProfiles.ParentsFirst
import LayeredProfiles.Path
import LayeredProfiles.Profile
import LayeredProfiles.Proofs.AggregationFaults
import LayeredProfiles.Proofs.AggregatorSessions
import LayeredProfiles.Proofs.Agreement
import LayeredProfiles.Proofs.Binary64Rounding
import LayeredProfiles.Proofs.BuildResults
import LayeredProfiles.Proofs.BuilderSessions
import LayeredProfiles.Proofs.BuiltProfiles
import LayeredProfiles.Proofs.CanonicalMaps
import LayeredProfiles.Proofs.ClimbInvariant
import LayeredProfiles.Proofs.ClimbRounds
import LayeredProfiles.Proofs.CompactTexts
import LayeredProfiles.Proofs.Decimals
import LayeredProfiles.Proofs.DialectRoundTrip
import LayeredProfiles.Proofs.DocumentAcceptance
import LayeredProfiles.Proofs.DocumentChecks
import LayeredProfiles.Proofs.DocumentStages
import LayeredProfiles.Proofs.EncodedTexts
import LayeredProfiles.Proofs.EqualStores
import LayeredProfiles.Proofs.ErrorReports
import LayeredProfiles.Proofs.GroupedAggregation
import LayeredProfiles.Proofs.IssueTexts
import LayeredProfiles.Proofs.JsonTexts
import LayeredProfiles.Proofs.KeyArrangement
import LayeredProfiles.Proofs.LetterCase
import LayeredProfiles.Proofs.Lineage
import LayeredProfiles.Proofs.LineageRounds
import LayeredProfiles.Proofs.LoadPrecedence
import LayeredProfiles.Proofs.LoadTrace
import LayeredProfiles.Proofs.LogLines
import LayeredProfiles.Proofs.LoggerAgreement
import LayeredProfiles.Proofs.MergeViews
import LayeredProfiles.Proofs.Normalization
import LayeredProfiles.Proofs.NumberTexts
import LayeredProfiles.Proofs.OrderIndependence
import LayeredProfiles.Proofs.ParentCycle
import LayeredProfiles.Proofs.ParentOrder
import LayeredProfiles.Proofs.RoundTrip
import LayeredProfiles.Proofs.SectionDocuments
import LayeredProfiles.Proofs.SettingsValidation
import LayeredProfiles.Proofs.ShadowedStores
import LayeredProfiles.Proofs.ShapeReports
import LayeredProfiles.Proofs.SourceAgreement
import LayeredProfiles.Proofs.SpelledNames
import LayeredProfiles.Proofs.StandardLines
import LayeredProfiles.Proofs.StandardValidator
import LayeredProfiles.Proofs.StoreEquality
import LayeredProfiles.Proofs.StoreInvariant
import LayeredProfiles.Proofs.StoreTexts
import LayeredProfiles.Proofs.StringLiterals
import LayeredProfiles.Proofs.UnitTexts
import LayeredProfiles.Schema
import LayeredProfiles.Schema.Standard
import LayeredProfiles.Sections
import LayeredProfiles.Settings
import LayeredProfiles.Source
import LayeredProfiles.Store
import LayeredProfiles.StoreDocument
import LayeredProfiles.Text.Blank
import LayeredProfiles.Text.LowerCase
import LayeredProfiles.Text.Units
import LayeredProfiles.Text.Utf8
import LayeredProfiles.Thrown
import LayeredProfiles.Thrown.Serialized
import LayeredProfiles.Trace
