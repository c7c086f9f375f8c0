import Succinct.BitWords
import Succinct.IntervalCoding
import Succinct.Arithmetic
import Succinct.RangePhases
import Succinct.RangeLossless
import Succinct.RangeMessages
import Succinct.RangeCodecs
import Succinct.RangeLimits
import Succinct.RangeRoom
import Succinct.RangeConclusions
import Succinct.RangeReadings
import Succinct.RangeSpans
import Succinct.ConcludingCosts
import Succinct.Interpolative
import Succinct.InterpolativeOrder
import Succinct.Charset
import Succinct.TextModels
import Succinct.UnicodeForms
import Succinct.TextRoundTrip
import Succinct.TextSymbols
import Succinct.CompressedText
import Succinct.BitTries
import Succinct.SyncKeys
import Succinct.SyncBits
import Succinct.SyncTree
import Succinct.SyncCanonical
import Succinct.SyncCompare
import Succinct.SyncWalks
import Succinct.SyncParty
import Succinct.SyncReceive
import Succinct.SyncSoundness
import Succinct.SyncSilence
import Succinct.ByteBuffers
import Succinct.MessageQueue
import Succinct.FragmentLayouts
import Succinct.Fragmentation
import Succinct.FragmentPieces
import Succinct.QueueRestart
import Succinct.SyncAgreement
import Succinct.SyncLookup
import Succinct.SyncLastBits
import Succinct.SyncAssertions
import Succinct.Messages
import Succinct.MessageFrames
import Succinct.MessageStream
import Succinct.MessageWrites
import Succinct.DeliveryMarks
import Succinct.FragmentDelivery
import Succinct.SmsBroadcasts
import Succinct.RockStatuses
import Succinct.DescendingWalks
import Succinct.SubnetWalks
import Succinct.NativeStore
import Succinct.StoreRoot
import Succinct.RecordRefinement
import Succinct.ReceivedBlocks
import Succinct.RecordIterators
import Succinct.Sha256
import Succinct.RecordStore
import Succinct.MetadataIndex
import Succinct.Provenance
import Succinct.TeamRestarts
import Succinct.AuthoredLogs
import Succinct.StoreProperties
import Succinct.Utf8Texts
import Succinct.Memberships
import Succinct.MemberEnrolments
import Succinct.QueueWatchers
import Succinct.LocationReports
import Succinct.MessageRoundTrip
import Succinct.FileBlocks
import Succinct.ConnectionWrites
import Succinct.PeerConnections
import Succinct.Varints
import Succinct.PeerMetadata
import Succinct.TransferSlots
import Succinct.BlockRequests
import Succinct.PeerTransfers
import Succinct.TeamCalls
import Succinct.TransferLists
import Succinct.PeerSlots
import Succinct.BlockReceipts
import Succinct.FileReplicas
import Succinct.ReplicaTruth
import Succinct.ReplicaMethods
import Succinct.ReplicaRuns
import Succinct.ReplicaAgreement
import Succinct.SharedFiles
import Succinct.CatchUp
import Succinct.RecordCursors
import Succinct.RecordWalks
import Succinct.LinkedLists
import Succinct.SeqTrackers
import Succinct.IncomingFragments
import Succinct.HttpFragments
import Succinct.TrackerTexts
import Succinct.AckMarks
import Succinct.CStrings
import Succinct.Recipes
import Succinct.FieldEncoding
import Succinct.FieldSymbols
import Succinct.CallCodes
import Succinct.FieldAlphabets
import Succinct.UnicodeText
import Succinct.RecipeCompress
import Succinct.CompleteForms
import Succinct.StrippedForms
import Succinct.NodeLists
import Succinct.XhtmlForms
import Succinct.FormSteps
import Succinct.FormMoves
import Succinct.FormRecipes
import Succinct.RecipeLines
import Succinct.SelectLines
import Succinct.OptionLists
import Succinct.RecipeRecords
import Succinct.StunReplies
import Succinct.WalkedMaps
import Succinct.Datagrams
import Succinct.Heartbeats
import Succinct.LinkAcks
import Succinct.Handshakes
import Succinct.StrippedRecords
import Succinct.PackedStats
import Succinct.StatsAgreement
import Succinct.CharacterVectors
import Succinct.FormReports
import Succinct.SentSymbols
import Succinct.FormReadBack
