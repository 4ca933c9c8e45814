import ValidUsage.Main
import ValidUsage.Proofs.RequirementUse
import ValidUsage.Proofs.DeadCodeRounds
import ValidUsage.Proofs.DefinedTypes
import ValidUsage.Proofs.FalseRequirements
import ValidUsage.Proofs.Spent
import ValidUsage.Proofs.SourceRoundTrip
import ValidUsage.Proofs.StripAgain
import ValidUsage.Proofs.StripMeaning
import ValidUsage.Proofs.ReadShape
import ValidUsage.Proofs.ReadBlocks
import ValidUsage.Proofs.Blanks
import ValidUsage.Proofs.Brackets
import ValidUsage.Proofs.DocumentParts
import ValidUsage.Proofs.FormatDocument
import ValidUsage.Proofs.MarkupLayout
import ValidUsage.Proofs.Rounding
import ValidUsage.Proofs.SessionReplies
import ValidUsage.Proofs.Availability
import ValidUsage.Proofs.ReadAlong
import ValidUsage.Proofs.ReadComments
import ValidUsage.Proofs.CommentsInPlace
import ValidUsage.Proofs.MacroFree
import ValidUsage.Proofs.MacrosReplaced
import ValidUsage.Proofs.DecimalText
import ValidUsage.Proofs.FormatStandalone
import ValidUsage.Proofs.RenderAccepted
import ValidUsage.Proofs.StatesRequirement
import ValidUsage.Proofs.RenderedLines
import ValidUsage.Proofs.DelimitedReplies
import ValidUsage.Proofs.ProseMeaning
import ValidUsage.Proofs.StripShape
import ValidUsage.Proofs.StripBare
import ValidUsage.Proofs.SimultaneousExpansion
import ValidUsage.Proofs.PreparedLines
import ValidUsage.Proofs.TokenCover
import ValidUsage.Proofs.ParsedShape
import ValidUsage.Proofs.RepeatedExpansion
import ValidUsage.Proofs.TokenPlaces
import ValidUsage.Proofs.TokenNesting
import ValidUsage.Proofs.ParameterTag
import ValidUsage.Proofs.ReadingEnds
import ValidUsage.Proofs.DocumentTiles
import ValidUsage.Proofs.CommentLines
import ValidUsage.Proofs.LineOffsets
