import MarkupScene.Asset.Catalog
import MarkupScene.Asset.DiskLocator
import MarkupScene.Asset.Font
import MarkupScene.Asset.Locator
import MarkupScene.Asset.Picture.Bytes
import MarkupScene.Asset.Picture.Gif
import MarkupScene.Asset.Picture.Jpeg
import MarkupScene.Asset.Picture.Lossless
import MarkupScene.Asset.Picture.Lossy
import MarkupScene.Asset.Picture.Png
import MarkupScene.Asset.Picture.PrefixCode
import MarkupScene.Asset.Picture.Webp
import MarkupScene.Asset.Sheet
import MarkupScene.Asset.Table
import MarkupScene.CommandLine
import MarkupScene.Compile.Build
import MarkupScene.Compile.Compile
import MarkupScene.Compile.Report
import MarkupScene.Compile.Session
import MarkupScene.Disk.Basic
import MarkupScene.Disk.Failure
import MarkupScene.Json.Decode
import MarkupScene.Json.Number
import MarkupScene.Json.Printer
import MarkupScene.Json.Reader
import MarkupScene.Json.Token
import MarkupScene.Json.Value
import MarkupScene.Layout.Arrange
import MarkupScene.Layout.AxisRule
import MarkupScene.Layout.Placement
import MarkupScene.Main
import MarkupScene.Markup.Attribute
import MarkupScene.Markup.Document
import MarkupScene.Markup.Element
import MarkupScene.Markup.Entity
import MarkupScene.Markup.Event
import MarkupScene.Markup.Reading
import MarkupScene.Numeric.Arithmetic
import MarkupScene.Numeric.Decimal
import MarkupScene.Numeric.Floating
import MarkupScene.Numeric.Shortest
import MarkupScene.Path.Basic
import MarkupScene.Path.Normal
import MarkupScene.Prefab.Basic
import MarkupScene.Prefab.Location
import MarkupScene.Prefab.Store
import MarkupScene.Project.Classify
import MarkupScene.Project.Import
import MarkupScene.Project.Intake
import MarkupScene.Scene.Behavior
import MarkupScene.Scene.Color
import MarkupScene.Scene.Decoding
import MarkupScene.Scene.Encoding
import MarkupScene.Scene.Geometry
import MarkupScene.Scene.Node
import MarkupScene.Scene.Search
import MarkupScene.Skin.Cache
import MarkupScene.Skin.Key
import MarkupScene.Skin.Table
import MarkupScene.Text.Blank
import MarkupScene.Text.Dictionary
import MarkupScene.Text.Digits
import MarkupScene.Text.Split
import MarkupScene.Widget.Image
import MarkupScene.Widget.Importer
import MarkupScene.Widget.Label
import MarkupScene.Widget.ProgressBar
import MarkupScene.Widget.Registry
import MarkupScene.Widget.Scrolling
import MarkupScene.Widget.TextInput
import MarkupScene.Proofs.Rules
import MarkupScene.Proofs.Growth
import MarkupScene.Proofs.Coupling
import MarkupScene.Proofs.Journal
import MarkupScene.Proofs.Steps
import MarkupScene.Proofs.Importers
import MarkupScene.Proofs.Accounts
import MarkupScene.Proofs.CompileOnce
import MarkupScene.Proofs.SkinInstances
import MarkupScene.Proofs.Reference
import MarkupScene.Proofs.NamePaths
import MarkupScene.Proofs.Outlines
import MarkupScene.Proofs.BoundReferences
import MarkupScene.Proofs.Machine
import MarkupScene.Proofs.Termination
import MarkupScene.Proofs.Agreement
import MarkupScene.Proofs.StoreFailures
import MarkupScene.Proofs.Nesting
import MarkupScene.Proofs.FileOrder
import MarkupScene.Proofs.ClassicLines
import MarkupScene.Proofs.ClosedReferences
import MarkupScene.Proofs.Runs
import MarkupScene.Proofs.BadFiles
import MarkupScene.Proofs.ImportedPlaces
import MarkupScene.Proofs.Paths
import MarkupScene.Proofs.DiskWrites
import MarkupScene.Proofs.FreshFolders
import MarkupScene.Proofs.ImporterFrames
import MarkupScene.Proofs.RunFrames
import MarkupScene.Proofs.IntakeFrames
import MarkupScene.Proofs.PrefabPlaces
import MarkupScene.Proofs.DiskFrames
import MarkupScene.Proofs.Containment
import MarkupScene.Proofs.Descents
import MarkupScene.Proofs.DiskWalks
import MarkupScene.Proofs.DiskGrowth
import MarkupScene.Proofs.Tours
import MarkupScene.Proofs.FileRoles
import MarkupScene.Proofs.Visits
import MarkupScene.Proofs.Scans
import MarkupScene.Proofs.ScannedFiles
import MarkupScene.Proofs.FileLists
import MarkupScene.Proofs.VisitedResources
import MarkupScene.Proofs.HandledFiles
import MarkupScene.Proofs.FoundDocuments
import MarkupScene.Proofs.FoundThemes
import MarkupScene.Proofs.CompiledFiles
import MarkupScene.Proofs.OutputPlaces
import MarkupScene.Proofs.TreeInvariants
import MarkupScene.Proofs.BehaviorLists
import MarkupScene.Proofs.ImportedBodies
import MarkupScene.Proofs.Viewports
import MarkupScene.Proofs.Percentages
import MarkupScene.Proofs.Spellings
import MarkupScene.Proofs.Positions
import MarkupScene.Proofs.Levels
import MarkupScene.Proofs.TwinRuns
import MarkupScene.Proofs.LocatorCalls
import MarkupScene.Proofs.VerticalAxis
import MarkupScene.Proofs.TwinDisks
import MarkupScene.Proofs.Brackets
import MarkupScene.Proofs.BalancedDocuments
import MarkupScene.Proofs.NamespaceScopes
import MarkupScene.Proofs.Rounding
import MarkupScene.Proofs.RoundTrips
import MarkupScene.Proofs.Magnitudes
import MarkupScene.Proofs.ModerateNodes
import MarkupScene.Proofs.ReadablePrefabs
import MarkupScene.Proofs.SourceRoots
import MarkupScene.Proofs.CommandOutcomes
import MarkupScene.Proofs.ChildStructure
import MarkupScene.Proofs.RejectedChildren
import MarkupScene.Proofs.RefusedRenderers
import MarkupScene.Proofs.RepeatedImports
import MarkupScene.Proofs.TextInputSkins
import MarkupScene.Proofs.PrintedNumbers
import MarkupScene.Proofs.PrintedValues
import MarkupScene.Proofs.ReadValues
import MarkupScene.Proofs.ValuePaths
import MarkupScene.Proofs.BorderWrites
import MarkupScene.Proofs.ConvertedFonts
import MarkupScene.Proofs.ConstraintRules
import MarkupScene.Proofs.Layouts
import MarkupScene.Proofs.Resolutions
import MarkupScene.Proofs.ByteOrder
import MarkupScene.Proofs.NormalPaths
import MarkupScene.Proofs.SkinLookups
import MarkupScene.Proofs.MergedManifests
import MarkupScene.Proofs.EmptyAttributes
import MarkupScene.Proofs.DeclaredSizes
import MarkupScene.Proofs.ProgressRanges
import MarkupScene.Proofs.SliceInsets
import MarkupScene.Proofs.FolderSearch
import MarkupScene.Proofs.DocumentOrder
import MarkupScene.Proofs.ColorLiterals
import MarkupScene.Proofs.LeadingNumbers
import MarkupScene.Proofs.EmptyElements
