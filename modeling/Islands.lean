import Islands.BuildTool
import Islands.ComponentFile.Blocks
import Islands.ComponentFile.Region
import Islands.Diagnostic
import Islands.Draft.Basic
import Islands.Draft.Runs
import Islands.Json.Text
import Islands.Markup.Error
import Islands.Markup.Lexer
import Islands.Markup.Parser
import Islands.Markup.Reference
import Islands.Markup.Token
import Islands.Markup.Tree
import Islands.ModuleId
import Islands.Options
import Islands.Proofs.ComponentFile.BareWords
import Islands.Proofs.ComponentFile.BlockPlaces
import Islands.Proofs.ComponentFile.BlockTags
import Islands.Proofs.ComponentFile.HiddenTags
import Islands.Proofs.ComponentFile.Legibility
import Islands.Proofs.ComponentFile.LegibleTags
import Islands.Proofs.ComponentFile.OuterBlocks
import Islands.Proofs.ComponentFile.Passing
import Islands.Proofs.ComponentFile.Rereading
import Islands.Proofs.ComponentFile.SetupFlag
import Islands.Proofs.ComponentFile.TagWords
import Islands.Proofs.ComponentFile.TemplateContent
import Islands.Proofs.ComponentFile.WellPlaced
import Islands.Proofs.Draft.Commuting
import Islands.Proofs.Draft.Edits
import Islands.Proofs.Draft.InsertionOrder
import Islands.Proofs.Draft.Layout
import Islands.Proofs.Draft.Rendering
import Islands.Proofs.Draft.Splice
import Islands.Proofs.Draft.Verdicts
import Islands.Proofs.Markup.Alignment
import Islands.Proofs.Markup.AttributeAlignment
import Islands.Proofs.Markup.AttributeForm
import Islands.Proofs.Markup.AttributeLayout
import Islands.Proofs.Markup.Concatenation
import Islands.Proofs.Markup.ContentForm
import Islands.Proofs.Markup.Decoding
import Islands.Proofs.Markup.DocumentOrder
import Islands.Proofs.Markup.ElementOrder
import Islands.Proofs.Markup.Enclosed
import Islands.Proofs.Markup.FaultPlaces
import Islands.Proofs.Markup.Outline
import Islands.Proofs.Markup.Parts
import Islands.Proofs.Markup.Preorder
import Islands.Proofs.Markup.SetApart
import Islands.Proofs.Markup.Shift
import Islands.Proofs.Markup.Spacing
import Islands.Proofs.Markup.Stripped
import Islands.Proofs.Markup.TagForm
import Islands.Proofs.Markup.Tiling
import Islands.Proofs.Markup.TokenForm
import Islands.Proofs.Registry.ChunkManifest
import Islands.Proofs.Registry.Consistency
import Islands.Proofs.Registry.Eligibility
import Islands.Proofs.Registry.FileAgreement
import Islands.Proofs.Registry.NormalForm
import Islands.Proofs.Script.Brackets
import Islands.Proofs.Script.Data
import Islands.Proofs.Script.Escaping
import Islands.Proofs.Script.Literal
import Islands.Proofs.Script.Names
import Islands.Proofs.SourceMap.LaidRuns
import Islands.Proofs.SourceMap.LineSearch
import Islands.Proofs.SourceMap.LineStarts
import Islands.Proofs.SourceMap.OutputPosition
import Islands.Proofs.SourceMap.Positions
import Islands.Proofs.SourceMap.Reports
import Islands.Proofs.SourceMap.Terminators
import Islands.Proofs.SourceMap.Tracing
import Islands.Proofs.Text.Offsets
import Islands.Proofs.Text.Replacements
import Islands.Proofs.Text.Search
import Islands.Proofs.Wrapper.BindingSpelling
import Islands.Proofs.Wrapper.Contributions
import Islands.Proofs.Wrapper.Cutting
import Islands.Proofs.Wrapper.Erasure
import Islands.Proofs.Wrapper.ExactRemoval
import Islands.Proofs.Wrapper.Fates
import Islands.Proofs.Wrapper.GeneratedMarkup
import Islands.Proofs.Wrapper.HiddenValues
import Islands.Proofs.Wrapper.ImportPlace
import Islands.Proofs.Wrapper.LegibleStripping
import Islands.Proofs.Wrapper.LegibleWrappers
import Islands.Proofs.Wrapper.LiftedConditions
import Islands.Proofs.Wrapper.Outermost
import Islands.Proofs.Wrapper.OutermostTargets
import Islands.Proofs.Wrapper.PatchedTemplate
import Islands.Proofs.Wrapper.PatternNames
import Islands.Proofs.Wrapper.Progress
import Islands.Proofs.Wrapper.QuickLook
import Islands.Proofs.Wrapper.QuotedValues
import Islands.Proofs.Wrapper.Refusal
import Islands.Proofs.Wrapper.Rejection
import Islands.Proofs.Wrapper.RepeatedAttributes
import Islands.Proofs.Wrapper.RepetitionParts
import Islands.Proofs.Wrapper.Rewriting
import Islands.Proofs.Wrapper.SlotWrapper
import Islands.Proofs.Wrapper.StaticProps
import Islands.Proofs.Wrapper.Stripping
import Islands.Proofs.Wrapper.TargetPlaces
import Islands.Proofs.Wrapper.Tracing
import Islands.Proofs.Wrapper.WrapperText
import Islands.Registry.Component
import Islands.Registry.Manifest
import Islands.Registry.ManifestFile
import Islands.Registry.Path
import Islands.Session
import Islands.SourceMap.Builder
import Islands.SourceMap.LineIndex
import Islands.SourceMap.Mapping
import Islands.Targets
import Islands.Text.Base64
import Islands.Text.Blank
import Islands.Text.Letter
import Islands.Text.Quoted
import Islands.Text.Search
import Islands.Text.Span
import Islands.Text.Utf8
import Islands.Wrapper.Address
import Islands.Wrapper.Boundary
import Islands.Wrapper.Error
import Islands.Wrapper.File
import Islands.Wrapper.Literal
import Islands.Wrapper.PropData
import Islands.Wrapper.Repetition
import Islands.Wrapper.Slot
import Islands.Wrapper.Strip
