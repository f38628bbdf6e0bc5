import Installer.Build.Artifact
import Installer.Build.Plan
import Installer.Command.Arguments
import Installer.Command.Basic
import Installer.Command.Run
import Installer.Directory.Ids
import Installer.Directory.Lookup
import Installer.Directory.Shape
import Installer.Error
import Installer.Files.Access
import Installer.Files.Path
import Installer.Files.Tree
import Installer.Folder
import Installer.Guid.Basic
import Installer.Guid.Digest
import Installer.Guid.Named
import Installer.Ident
import Installer.Json.Double
import Installer.Json.Printer
import Installer.Json.Reader
import Installer.Json.Record
import Installer.Json.Value
import Installer.LogicalPath
import Installer.Main
import Installer.Manifest.Action
import Installer.Manifest.Codec
import Installer.Manifest.Directory
import Installer.Manifest.Format
import Installer.Manifest.Item
import Installer.Manifest.Project
import Installer.Manifest.Standalone
import Installer.Markup.Document
import Installer.Markup.Element
import Installer.Markup.Focus
import Installer.Markup.Layout
import Installer.Markup.Writer
import Installer.Options
import Installer.Output
import Installer.Project.Action
import Installer.Project.Attributes
import Installer.Project.Basic
import Installer.Project.Choice
import Installer.Project.Construction
import Installer.Project.Directory
import Installer.Project.Standalone
import Installer.Proofs.Action.Ids
import Installer.Proofs.Action.Payload
import Installer.Proofs.Action.Run
import Installer.Proofs.Action.Schedule
import Installer.Proofs.Action.Step
import Installer.Proofs.Component.Booking
import Installer.Proofs.Component.Distinct
import Installer.Proofs.Component.Emission
import Installer.Proofs.Component.Entity
import Installer.Proofs.Component.Identity
import Installer.Proofs.Component.Numbering
import Installer.Proofs.Component.Places
import Installer.Proofs.Component.Setup
import Installer.Proofs.Component.Shape
import Installer.Proofs.Component.Stamps
import Installer.Proofs.Component.Standalone
import Installer.Proofs.Directory.Appended
import Installer.Proofs.Directory.Declared
import Installer.Proofs.Directory.Distinct
import Installer.Proofs.Directory.Erasure
import Installer.Proofs.Directory.Generated
import Installer.Proofs.Directory.Granted
import Installer.Proofs.Directory.Housed
import Installer.Proofs.Directory.InstallWay
import Installer.Proofs.Directory.LegalIds
import Installer.Proofs.Directory.Location
import Installer.Proofs.Directory.Lookup
import Installer.Proofs.Directory.Merged
import Installer.Proofs.Directory.ModuleIds
import Installer.Proofs.Directory.Modules
import Installer.Proofs.Directory.Narrow
import Installer.Proofs.Directory.Owners
import Installer.Proofs.Directory.Parts
import Installer.Proofs.Directory.Placement
import Installer.Proofs.Directory.Places
import Installer.Proofs.Directory.Refinement
import Installer.Proofs.Directory.Resolve
import Installer.Proofs.Directory.Respelled
import Installer.Proofs.Directory.Shape
import Installer.Proofs.Directory.Sound
import Installer.Proofs.Directory.Splitting
import Installer.Proofs.Directory.Targets
import Installer.Proofs.Directory.Thinned
import Installer.Proofs.Directory.Tree
import Installer.Proofs.Directory.Turns
import Installer.Proofs.Directory.Undeclared
import Installer.Proofs.Directory.Words
import Installer.Proofs.Emit.Contract
import Installer.Proofs.Emit.Growth
import Installer.Proofs.Emit.Ids
import Installer.Proofs.Emit.Steps
import Installer.Proofs.Emit.Walk
import Installer.Proofs.Feature.Membership
import Installer.Proofs.Feature.Nearest
import Installer.Proofs.Feature.Nesting
import Installer.Proofs.Feature.Partition
import Installer.Proofs.Feature.Shown
import Installer.Proofs.Feature.Wiring
import Installer.Proofs.Folder.Command
import Installer.Proofs.Folder.Identifier
import Installer.Proofs.Folder.Legal
import Installer.Proofs.Folder.Respelled
import Installer.Proofs.Folder.Retraction
import Installer.Proofs.Folder.Widening
import Installer.Proofs.Guid.Written
import Installer.Proofs.Ident.Agree
import Installer.Proofs.Ident.Fresh
import Installer.Proofs.Ident.Given
import Installer.Proofs.Ident.Pool
import Installer.Proofs.Json.Written
import Installer.Proofs.Manifest.Carried
import Installer.Proofs.Manifest.Codec
import Installer.Proofs.Manifest.Items
import Installer.Proofs.Manifest.Kinds
import Installer.Proofs.Manifest.Members
import Installer.Proofs.Manifest.RoundTrip
import Installer.Proofs.Manifest.Routes
import Installer.Proofs.Manifest.Text
import Installer.Proofs.Manifest.Written
import Installer.Proofs.Markup.Address
import Installer.Proofs.Markup.Blanks
import Installer.Proofs.Markup.Directories
import Installer.Proofs.Markup.Encoding
import Installer.Proofs.Markup.Faithful
import Installer.Proofs.Markup.FirstLine
import Installer.Proofs.Markup.Home
import Installer.Proofs.Markup.Place
import Installer.Proofs.Markup.Places
import Installer.Proofs.Markup.ReadBack
import Installer.Proofs.Markup.Reading
import Installer.Proofs.Markup.Respelled
import Installer.Proofs.Markup.Sections
import Installer.Proofs.Markup.Sound
import Installer.Proofs.Markup.Spacing
import Installer.Proofs.Markup.Subtree
import Installer.Proofs.Markup.Survey
import Installer.Proofs.Markup.Thinning
import Installer.Proofs.Markup.Written
import Installer.Proofs.Markup.Xml
import Installer.Proofs.Product.ActionIds
import Installer.Proofs.Product.AttributeNames
import Installer.Proofs.Product.Children
import Installer.Proofs.Product.Document
import Installer.Proofs.Product.EntityIds
import Installer.Proofs.Product.Extensions
import Installer.Proofs.Product.Features
import Installer.Proofs.Product.Home
import Installer.Proofs.Product.InstallDir
import Installer.Proofs.Product.Lasting
import Installer.Proofs.Product.LegalIds
import Installer.Proofs.Product.ModuleOrder
import Installer.Proofs.Product.Order
import Installer.Proofs.Product.Parts
import Installer.Proofs.Product.Payload
import Installer.Proofs.Product.Pieces
import Installer.Proofs.Product.Refusal
import Installer.Proofs.Product.Root
import Installer.Proofs.Product.Schedules
import Installer.Proofs.Product.Setup
import Installer.Proofs.Product.Sound
import Installer.Proofs.Product.Spelling
import Installer.Proofs.Product.Stability
import Installer.Proofs.Product.Success
import Installer.Proofs.Product.Supplies
import Installer.Proofs.Product.Survival
import Installer.Proofs.Product.Upgrade
import Installer.Proofs.Product.Widening
import Installer.Proofs.Product.Wiring
import Installer.Proofs.Product.WorkingDirs
import Installer.Proofs.Text.Hex
import Installer.Proofs.Text.Lines
import Installer.Proofs.Text.Replace
import Installer.Source.Action
import Installer.Source.Compilation
import Installer.Source.Definition
import Installer.Source.Directory
import Installer.Source.Extension
import Installer.Source.Feature
import Installer.Source.File
import Installer.Source.Interface
import Installer.Source.Ledger
import Installer.Source.Product
import Installer.Source.Shortcut
import Installer.Source.Standalone
import Installer.Source.Upgrade
import Installer.Text.Blank
import Installer.Text.Hex
import Installer.Text.Search
import Installer.Yaml.Cursor
import Installer.Yaml.Node
import Installer.Yaml.Scalar
import Installer.Yaml.Text
import Installer.Yaml.Token
import Installer.Yaml.Value
