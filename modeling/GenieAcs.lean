import GenieAcs.Lib.InsMap
import GenieAcs.VersionedMap
import GenieAcs.VersionedMapResume
import GenieAcs.Lib.Transition
import GenieAcs.VersionedMapTwin
import GenieAcs.CwmpSession
import GenieAcs.CwmpCustody
import GenieAcs.Expression
import GenieAcs.Lib.Cover
import GenieAcs.Normalize
import GenieAcs.Synth
import GenieAcs.ExpressionTruth
import GenieAcs.Lib.Returns
import GenieAcs.ValueOrder
import GenieAcs.ExpressionFilter
import GenieAcs.SynthLeaves
import GenieAcs.SynthMinterms
import GenieAcs.SynthDcSet
import GenieAcs.SynthSanitize
import GenieAcs.SynthPrint
import GenieAcs.SynthSound
import GenieAcs.Pagination
import GenieAcs.PaginationOrder
import GenieAcs.Lib.Mask
import GenieAcs.ProvisionChannels
import GenieAcs.CwmpFaults
import GenieAcs.Lib.FirstMatch
import GenieAcs.SynthCase
import GenieAcs.SynthComparisons
import GenieAcs.MongoQuery
import GenieAcs.PartialEvaluation
import GenieAcs.JsonText
import GenieAcs.Indeterminates
import GenieAcs.Polynomials
import GenieAcs.NormalizeArithmetic
import GenieAcs.NormalizeCompare
import GenieAcs.Lock
import GenieAcs.LocalCache
import GenieAcs.Bookmarks
import GenieAcs.PathSet
import GenieAcs.Device
import GenieAcs.DeviceTracking
import GenieAcs.DeviceClosure
import GenieAcs.Downloads
import GenieAcs.PathCache
import GenieAcs.RequestIds
import GenieAcs.LikePatterns
import GenieAcs.NamesTree
import GenieAcs.JsNumbers
import GenieAcs.InstanceOrder
import GenieAcs.Unpack
import GenieAcs.Instances
import GenieAcs.DeviceObjects
import GenieAcs.DownloadTimeouts
import GenieAcs.CpeResponses
import GenieAcs.DeclarationVisits
import GenieAcs.RefreshSets
import GenieAcs.SessionTasks
import GenieAcs.TaskSettlement
import GenieAcs.TaskRuns
import GenieAcs.AppendProvisions
import GenieAcs.VersionedMapCollapse
import GenieAcs.VersionedMapLaws
import GenieAcs.SessionRevisions
import GenieAcs.MongoLikes
import GenieAcs.Lib.RegExp
import GenieAcs.LikeRegExps
import GenieAcs.Lib.Numeral
import GenieAcs.ObjectIds
import GenieAcs.Lib.Replay
import GenieAcs.ScriptRuns
import GenieAcs.Doubles
import GenieAcs.PolynomialConstants
import GenieAcs.Lib.Results
import GenieAcs.NormalizeReturns
import GenieAcs.Projections
import GenieAcs.Lib.Unicode
import GenieAcs.DeviceIds
import GenieAcs.Lib.UriComponent
import GenieAcs.Tags
import GenieAcs.Lib.Trim
import GenieAcs.XmlAttrs
import GenieAcs.XmlParser
import GenieAcs.Lib.Brackets
import GenieAcs.XmlBalance
import GenieAcs.SessionChanges
import GenieAcs.StoredFaults
import GenieAcs.FaultExpiry
import GenieAcs.Authorizer
import GenieAcs.XmlEntities
import GenieAcs.XmlComments
import GenieAcs.XmlPrint
import GenieAcs.PathGrammar
import GenieAcs.PathLanguage
import GenieAcs.FileServer
import GenieAcs.PathSlices
import GenieAcs.OldPreconditions
import GenieAcs.Lib.Quantified
import GenieAcs.QueryGlobs
import GenieAcs.Lib.PairedTexts
import GenieAcs.MacSearch
import GenieAcs.DigestHeaders
import GenieAcs.Lib.Utf8
import GenieAcs.XmlPrefixes
import GenieAcs.XmppClient
import GenieAcs.ClusterRestarts
import GenieAcs.GpnHeuristic
import GenieAcs.Lib.Batches
import GenieAcs.Lib.Generations
import GenieAcs.Memoize
import GenieAcs.ReadPhase
import GenieAcs.WritePhase
import GenieAcs.ExpressionParser
import GenieAcs.ExpressionPhrases
import GenieAcs.ExpressionText
import GenieAcs.ExtensionJobs
