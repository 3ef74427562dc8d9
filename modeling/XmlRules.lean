import XmlRules.Action.Stock
import XmlRules.Journal
import XmlRules.Main
import XmlRules.Object.Effects
import XmlRules.Proofs.PlacementInScopes
import XmlRules.Proofs.RememberedActions
import XmlRules.Proofs.ScopedDocument
import XmlRules.Proofs.Traversal
import XmlRules.Proofs.CallChain
import XmlRules.Proofs.FailedCalls
import XmlRules.Proofs.ScopeDepths
import XmlRules.Proofs.ElementStacks
import XmlRules.Proofs.EndlessMounts
import XmlRules.Proofs.Lookalikes
import XmlRules.Proofs.ReaderScript
import XmlRules.Proofs.TransparentMounts
import XmlRules.Proofs.BegunElements
import XmlRules.Proofs.OpenFrames
import XmlRules.Proofs.GivenUp
import XmlRules.Proofs.TextRuns
import XmlRules.Proofs.CallFrames
import XmlRules.Proofs.SourceTexts
import XmlRules.Proofs.UniqueWinner
import XmlRules.Proofs.TrailMoves
import XmlRules.Proofs.TextReferences
import XmlRules.Proofs.UniversalTexts
import XmlRules.Proofs.RetainedRoot
import XmlRules.Proofs.ConsistentTables
import XmlRules.Proofs.StackPlaces
