import SourceIndex.Content.Cleaning
import SourceIndex.Content.CodeLine
import SourceIndex.File.Policy
import SourceIndex.Json.Plain
import SourceIndex.Json.Record
import SourceIndex.Keyword.CamelCase
import SourceIndex.Keyword.Symbol
import SourceIndex.Keyword.Version
import SourceIndex.Ownership.Contribution
import SourceIndex.Ownership.ProjectStats
import SourceIndex.Proofs.Content.CleaningLevels
import SourceIndex.Proofs.File.AsciiShare
import SourceIndex.Proofs.File.ExtensionRules
import SourceIndex.Proofs.File.LineLength
import SourceIndex.Proofs.Json.RecordExchange
import SourceIndex.Proofs.Keyword.CompoundRuns
import SourceIndex.Proofs.Keyword.CutVersions
import SourceIndex.Proofs.Keyword.CutWords
import SourceIndex.Proofs.Keyword.VersionWords
import SourceIndex.Proofs.Ownership.FutureCommits
import SourceIndex.Proofs.Ownership.OwnerSelection
import SourceIndex.Proofs.Ownership.OwnershipShares
import SourceIndex.Proofs.Query.IdentifierSearch
import SourceIndex.Proofs.Query.JoinedTerms
import SourceIndex.Proofs.Query.RelaxedAlternatives
import SourceIndex.Proofs.Query.SpacedTokens
import SourceIndex.Proofs.Query.UsableAlternatives
import SourceIndex.Proofs.Session.LearnedCorrections
import SourceIndex.Proofs.Session.RecordedWords
import SourceIndex.Proofs.Settings.EffectiveEntries
import SourceIndex.Proofs.Settings.ExtensionLists
import SourceIndex.Proofs.Spelling.NearestWord
import SourceIndex.Session
import SourceIndex.Settings.File
import SourceIndex.Settings.Reader
