import Synopsis.Text.Basic
import Synopsis.Kind
import Synopsis.Language
import Synopsis.Delimiter
import Synopsis.Body
import Synopsis.Comment
import Synopsis.Visibility
import Synopsis.ImportPath
import Synopsis.Tree.Node
import Synopsis.Tree.Doc
import Synopsis.Tree.Parser
import Synopsis.Grammar.Pattern
import Synopsis.Grammar.Patterns
import Synopsis.Grammar.Rule
import Synopsis.Grammar.Lexeme
import Synopsis.Grammar.Recovery
import Synopsis.Grammar.Parser
import Synopsis.Grammar.Go
import Synopsis.Grammar.CFamily
import Synopsis.Grammar.Java
import Synopsis.Grammar.Python
import Synopsis.Grammar.TypeScript
import Synopsis.Profile
import Synopsis.Profile.C
import Synopsis.Profile.Cpp
import Synopsis.Profile.Go
import Synopsis.Profile.Java
import Synopsis.Profile.Python
import Synopsis.Profile.TypeScript
import Synopsis.Registry
import Synopsis.Extract
import Synopsis.Parsers
import Synopsis.Builtin
import Synopsis.Text.Utf8
import Synopsis.Path
import Synopsis.FileTree
import Synopsis.Glob
import Synopsis.Ignore
import Synopsis.Scan
import Synopsis.Config
import Synopsis.Config.Toml
import Synopsis.Config.Load
import Synopsis.PathTree
import Synopsis.Tokens
import Synopsis.Document.Basic
import Synopsis.Document.Xml
import Synopsis.Document.Markdown
import Synopsis.Document.Json
import Synopsis.Document
import Synopsis.Package
import Synopsis.Cli.Arguments
import Synopsis.Cli.Run
import Synopsis.Cli
import Synopsis.Main
import Synopsis.Proofs.Text
import Synopsis.Proofs.Delimiter
import Synopsis.Proofs.Events
import Synopsis.Proofs.BodyBrace
import Synopsis.Proofs.Cut
import Synopsis.Proofs.BraceCut
import Synopsis.Proofs.StripContract
import Synopsis.Proofs.AngleScan
import Synopsis.Proofs.AngleCut
import Synopsis.Proofs.Selection
import Synopsis.Proofs.LineOwner
import Synopsis.Proofs.SitedTree
import Synopsis.Proofs.Declared
import Synopsis.Proofs.OptionIndependence
import Synopsis.Proofs.XmlReader
import Synopsis.Proofs.XmlRoundTrip
import Synopsis.Proofs.JsonReader
import Synopsis.Proofs.JsonRoundTrip
import Synopsis.Proofs.FormatNames
import Synopsis.Proofs.SettingsLayers
import Synopsis.Proofs.Registered
import Synopsis.Proofs.XmlTagCount
import Synopsis.Proofs.PackageTotals
import Synopsis.Proofs.RegistryRuns
import Synopsis.Proofs.CutHead
import Synopsis.Proofs.Surroundings
import Synopsis.Proofs.Enclosed
import Synopsis.Proofs.LiteralContents
import Synopsis.Proofs.ScriptHeader
import Synopsis.Proofs.ColonCut
import Synopsis.Proofs.ImportRecords
import Synopsis.Proofs.ModifierList
import Synopsis.Proofs.PathPrefixes
import Synopsis.Proofs.TreeDrawing
import Synopsis.Proofs.AnnotationLiteral
import Synopsis.Proofs.RawString
import Synopsis.Proofs.CommentBlock
import Synopsis.Proofs.Grammar.NodeOrder
import Synopsis.Proofs.Grammar.TreeInduction
import Synopsis.Proofs.Grammar.RuleParts
import Synopsis.Proofs.Grammar.TokenEdges
import Synopsis.Proofs.Grammar.NodeEdges
import Synopsis.Proofs.Grammar.OutlinedRuns
import Synopsis.Proofs.Grammar.EdgedGrammars
import Synopsis.Proofs.Grammar.EdgedScripts
import Synopsis.Proofs.Grammar.CapturedPlaces
import Synopsis.Proofs.Grammar.Compiling
import Synopsis.Proofs.LoneComment
import Synopsis.Proofs.LineSpan
import Synopsis.Proofs.Grammar.BundledParsers
import Synopsis.Proofs.ScanFilters
import Synopsis.Proofs.ScanOrder
import Synopsis.Proofs.CodeBlocks
import Synopsis.Proofs.CommentLayout
import Synopsis.Proofs.CommentContents
import Synopsis.Proofs.GlobMatch
import Synopsis.Proofs.IgnoreSources
import Synopsis.Proofs.NamedIgnoreFile
import Synopsis.Proofs.MovedRoot
